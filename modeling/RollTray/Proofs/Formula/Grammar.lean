import RollTray.Formula.Evaluation

/-!
# The grammar of expressions

What an expression without splices is, said by a grammar:

    expression := term (('+' | '-') term)*
    term       := factor (('*' | '/') factor)*
    factor     := number | place | '(' expression ')' | function '(' [expression (',' expression)*] ')'

`Expr`, `Term` and `Factor` are its derivations, `Expr.tokens` is what a derivation derives, and
`Expr.meaning?` is the value that a derivation has and the text that explains it, found by recursion
on the derivation and none if it has no value.
-/

namespace RollTray.Formula

mutual

inductive Expr where
  | term (t : Term)
  | chain (left : Expr) (op : Operator) (additive : op.precedence = 1) (right : Term)

inductive Term where
  | factor (f : Factor)
  | chain (left : Term) (op : Operator) (multiplicative : op.precedence = 2) (right : Factor)

inductive Factor where
  | number (digits : String)
  | place (index : String)
  | group (inner : Expr)
  | call (f : Function) (arguments : List Expr)

end

/-! ## Tokens -/

mutual

def Expr.tokens : Expr → List Token
  | .term t => t.tokens
  | .chain left op _ right => left.tokens ++ .operator op :: right.tokens

def Term.tokens : Term → List Token
  | .factor f => f.tokens
  | .chain left op _ right => left.tokens ++ .operator op :: right.tokens

def Factor.tokens : Factor → List Token
  | .number digits => [.number digits]
  | .place index => [.place index]
  | .group inner => .opening :: inner.tokens ++ [.closing]
  | .call f arguments => .name f.name :: .opening :: argumentTokens arguments ++ [.closing]

/-- Arguments with commas between them. -/
def argumentTokens : List Expr → List Token
  | [] => []
  | [e] => e.tokens
  | e :: e' :: rest => e.tokens ++ .comma :: argumentTokens (e' :: rest)

end

/-! ## Meaning -/

/-- A value and the text that explains it. -/
structure Meaning where
  value : Num
  text : String
  deriving DecidableEq, Repr

namespace Meaning

/-- What a place has in a dry run. -/
def zero : Meaning := ⟨.int 0, "0"⟩

/-- The value of an operation. A zero divisor has none, but gives zero in a dry run. -/
def compute? (dry : Bool) (a : Num) (op : Operator) (b : Num) : Option Num :=
  match op with
  | .add => (a.add b).toOption
  | .sub => (a.sub b).toOption
  | .mul => (a.mul b).toOption
  | .div =>
    if b.same (.int 0) then if dry then some (.int 0) else none
    else (a.div b).toOption

/-- Two meanings with an operator between them. -/
def combine? (dry : Bool) (a : Meaning) (op : Operator) (b : Meaning) : Option Meaning := do
  let value ← compute? dry a.value op b.value
  return ⟨value, a.text ++ " " ++ op.symbol ++ " " ++ b.text⟩

/-- Arguments with all but the chosen one struck through. -/
def strikeAllBut (chosen : Nat) (arguments : List Meaning) : List String :=
  arguments.mapIdx fun i a => if i = chosen then a.text else "<del>" ++ a.text ++ "</del>"

/-- The meaning of a call that chooses the first argument that no other one is better than. -/
def choose? (better : Num → Num → Bool) (f : Function) (arguments : List Meaning) :
    Option Meaning := do
  let chosen ← arguments.findIdx? fun a => arguments.all fun b => !better b.value a.value
  let best ← arguments[chosen]?
  return ⟨best.value, f.call (strikeAllBut chosen arguments)⟩

/-- The mean of numbers, zero if there are none. -/
def meanValue? (values : List Num) : Option Num :=
  if values.isEmpty then some (.int 0)
  else do (← (Num.sum values).toOption).div (.int values.length) |>.toOption

/-- The meaning of a call that takes the mean of its arguments. -/
def mean? (f : Function) (arguments : List Meaning) : Option Meaning := do
  let value ← meanValue? (arguments.map value)
  return ⟨value, f.call (arguments.map text)⟩

/-- The meaning of a call: the largest argument, the smallest one or the mean. -/
def call? (f : Function) (arguments : List Meaning) : Option Meaning :=
  match f with
  | .max => choose? (fun b a => a.lt b) f arguments
  | .min => choose? (fun b a => b.lt a) f arguments
  | .avg => mean? f arguments

/-- What a place has: zero in a dry run, and otherwise the amount of its dice group. -/
def place? (dry : Bool) (amount? : Nat → Option Amount) (index : String) : Option Meaning :=
  if dry then some zero
  else do
    let amount ← amount? (← writtenInt index).toNat
    return ⟨amount.value, amount.breakdown⟩

end Meaning

section

variable (dry : Bool) (place? : String → Option Meaning)

mutual

def Expr.meaning? : Expr → Option Meaning
  | .term t => t.meaning?
  | .chain left op _ right => do
    let a ← left.meaning?
    let b ← right.meaning?
    a.combine? dry op b

def Term.meaning? : Term → Option Meaning
  | .factor f => f.meaning?
  | .chain left op _ right => do
    let a ← left.meaning?
    let b ← right.meaning?
    a.combine? dry op b

def Factor.meaning? : Factor → Option Meaning
  | .number digits => some ⟨(numberAmount digits).value, digits⟩
  | .place index => place? index
  | .group inner => do
    let a ← inner.meaning?
    return ⟨a.value, "(" ++ a.text ++ ")"⟩
  | .call f arguments => do Meaning.call? f (← argumentMeanings? arguments)

/-- The meanings of all arguments. -/
def argumentMeanings? : List Expr → Option (List Meaning)
  | [] => some []
  | e :: rest => do
    let a ← e.meaning?
    let as ← argumentMeanings? rest
    return a :: as

end

/-! ## Comparable arguments -/

/-- Arguments that a function can compare, if it compares any. -/
def Function.Compares (f : Function) (arguments : List Meaning) : Prop :=
  f = .avg ∨ ∀ a ∈ arguments, a.value.isNaN = false

mutual

/-- No largest or smallest argument is chosen among arguments of which one is no number. -/
def Expr.Comparable : Expr → Prop
  | .term t => t.Comparable
  | .chain left _ _ right => left.Comparable ∧ right.Comparable

def Term.Comparable : Term → Prop
  | .factor f => f.Comparable
  | .chain left _ _ right => left.Comparable ∧ right.Comparable

def Factor.Comparable : Factor → Prop
  | .number _ => True
  | .place _ => True
  | .group inner => inner.Comparable
  | .call f arguments => argumentsComparable arguments ∧
      ∀ as, argumentMeanings? dry place? arguments = some as → f.Compares as

def argumentsComparable : List Expr → Prop
  | [] => True
  | e :: rest => e.Comparable ∧ argumentsComparable rest

end

end

/-- The context of an evaluation, which passes over the amounts of groups in a dry run. -/
def Context.forMode (dry : Bool) (amount? : Nat → Option Amount) : Context :=
  if dry then .dryRun else { amount?, dry := false }

end RollTray.Formula
