import RollTray.Formula.Amount

/-!
# Evaluating an expression

`Machine` reads tagged tokens one by one. It keeps the amounts that wait for an operator, the
operators, functions and open parentheses that wait for their operands, and for every open
parenthesis whether it opens a call and how many amounts there were before it. All stacks have
their top in front. `evaluate` runs the machine over a text and rounds the value it ends with.

A dry run takes every dice group as zero and lets a division by zero pass. It is how a formula is
checked before any die is thrown.
-/

namespace RollTray.Formula

/-- What an expression is evaluated with: the amounts of dice groups, by their index. -/
structure Context where
  amount? : Nat → Option Amount
  dry : Bool

/-- The context of a dry run, in which no group has an amount. -/
def Context.dryRun : Context where
  amount? _ := none
  dry := true

/-- What waits for its operands. -/
inductive Waiting where
  | operator (op : Operator)
  | function (f : Function)
  /-- An open parenthesis, and whether a splice stood before it. -/
  | parenthesis (splice : Bool)
  deriving DecidableEq, Repr

structure Machine where
  values : List Amount := []
  waiting : List Waiting := []
  /-- For each open parenthesis, whether it opens the arguments of a function. -/
  calls : List Bool := []
  /-- For each open parenthesis, how many values there were when it was opened. -/
  bases : List Nat := []
  /-- A splice was read and what it spreads has not begun. -/
  splicing : Bool := false
  previous : Option Token := none

/-- The value of an operation; a division by zero gives zero in a dry run. -/
def Operator.compute (dry : Bool) (op : Operator) (a b : Num) : Except Fault Num :=
  match op with
  | add => a.add b
  | sub => a.sub b
  | mul => a.mul b
  | div =>
    if b.same (.int 0) then
      if dry then .ok (.int 0) else .error (.evaluation .divisionByZero)
    else a.div b

/-- Applies an operator to two amounts. -/
def Operator.apply (dry : Bool) (op : Operator) (a b : Amount) : Except Fault Amount := do
  let value ← op.compute dry a.value b.value
  return { value, breakdown := a.breakdown ++ " " ++ op.symbol ++ " " ++ b.breakdown }

/-- Applies the operators on top of the stack as long as `while` takes them. -/
def reduce (dry : Bool) (taken : Operator → Bool) :
    List Amount → List Waiting → Except Fault (List Amount × List Waiting)
  | values, .operator op :: waiting =>
    if taken op then
      match values with
      | b :: a :: values => do
        let result ← op.apply dry a b
        reduce dry taken (result :: values) waiting
      | _ => .error (.evaluation (.tooFewOperands op.symbol))
    else .ok (values, .operator op :: waiting)
  | values, waiting => .ok (values, waiting)

/-- Applies all operators down to the innermost open parenthesis. -/
def reduceAll (dry : Bool) : List Amount → List Waiting → Except Fault (List Amount × List Waiting) :=
  reduce dry fun _ => true

/-- The amount of a dice group, given by the digits of its index. -/
def Context.place (context : Context) (index : String) : Except Fault Amount :=
  match readInt index with
  | none => .error .unreadable
  | some n =>
    match context.amount? n.toNat with
    | some amount => .ok amount
    | none =>
      if context.dry then .ok .zero else .error (.evaluation (.noGroupValue n.toNat))

/-- The amount of a number as it is written. -/
def numberAmount (digits : String) : Amount where
  value := (Num.float ((readFloat digits).getD 0)).tidy
  breakdown := digits

/-- The value of a parenthesis: its only argument, marked by parentheses unless it is spliced. -/
def group (splice : Bool) : List Amount → Except EvaluationError Amount
  | [] => .error .emptyParentheses
  | [inner] =>
    .ok (if splice then inner else { inner with breakdown := "(" ++ inner.breakdown ++ ")" })
  | _ => .error .tooManyValues

/-- The only amount that is left, and zero if there is none. -/
def outcome : List Amount → Except EvaluationError Amount
  | [] => .ok .zero
  | [amount] => .ok amount
  | _ => .error .tooManyValues

namespace Machine

/-- Pushes an amount, or what it stands for after a splice. -/
def push (m : Machine) (splice : Bool) (amount : Amount) : Machine :=
  { m with values := if splice then amount.operands.reverse ++ m.values else amount :: m.values }

/-- A token that cannot stand after the one before it. An empty call is no mistake. -/
def checkOrder (m : Machine) (token : Token) : Except EvaluationError Unit :=
  let ended := m.previous.any Token.endsOperand
  let emptyCall := token = .closing && m.previous = some .opening && m.calls.head? = some true
  if token.startsOperand && ended then .error (.missingOperator token.text)
  else if token.followsOperand && !ended && !emptyCall then .error (.nothingBefore token.text)
  else .ok ()

/-- Leaves the innermost parenthesis: what was pushed since it was opened are its arguments. -/
def leave (m : Machine) : Except Fault Machine :=
  match m.waiting, m.calls, m.bases with
  | [], _, _ => .error (.evaluation .mismatchedParentheses)
  | .parenthesis splice :: waiting, isCall :: calls, base :: bases =>
    let arguments := (m.values.take (m.values.length - base)).reverse
    let below := { m with values := m.values.drop (m.values.length - base), calls, bases }
    if isCall then
      match waiting with
      | .function f :: waiting => do
        let result ← f.apply arguments
        return { below with waiting }.push splice result
      | _ => .error .outOfRange
    else do
      let result ← (group splice arguments).mapError .evaluation
      return { below with waiting }.push splice result
  | _, _, _ => .error .outOfRange

/-- Closes the innermost parenthesis once all that waits in it is applied. -/
def close (context : Context) (m : Machine) : Except Fault Machine := do
  let (values, waiting) ← reduceAll context.dry m.values m.waiting
  { m with values, waiting }.leave

/-- Reads a token that may stand where it does; `next` is the one after it. -/
def read (context : Context) (m : Machine) (token : Token) (next : Option Token) :
    Except Fault Machine :=
  match token with
  | .splice => .ok { m with splicing := true }
  | .place index => do
    let amount ← context.place index
    return { m.push m.splicing amount with splicing := false }
  | .number digits => .ok { m.push false (numberAmount digits) with splicing := false }
  | .name letters =>
    match Function.ofName? letters with
    | none => .error (.evaluation (.unknownFunction letters))
    | some f =>
      if next = some .opening then .ok { m with waiting := .function f :: m.waiting }
      else .error (.evaluation (.unopenedFunction letters))
  | .opening =>
    .ok { m with
      waiting := .parenthesis m.splicing :: m.waiting
      splicing := false
      calls := m.previous.any Token.isName :: m.calls
      bases := m.values.length :: m.bases }
  | .comma => do
    let (values, waiting) ← reduceAll context.dry m.values m.waiting
    if m.calls.head? = some true then return { m with values, waiting }
    else .error (.evaluation .unexpectedComma)
  | .closing => m.close context
  | .operator op => do
    let (values, waiting) ←
      reduce context.dry (op.precedence ≤ ·.precedence) m.values m.waiting
    return { m with values, waiting := .operator op :: waiting }

/-- Checks a token's place and reads it. -/
def step (context : Context) (m : Machine) (token : Token) (next : Option Token) :
    Except Fault Machine := do
  (m.checkOrder token).mapError .evaluation
  let m ← m.read context token next
  return { m with previous := some token }

/-- Reads all tokens. -/
def run (context : Context) (m : Machine) : List Token → Except Fault Machine
  | [] => .ok m
  | token :: tokens => do
    let m ← m.step context token tokens.head?
    run context m tokens

/-- The last token must end an operand. -/
def checkEnd (m : Machine) : Except EvaluationError Unit :=
  match m.previous with
  | some token => if token.endsOperand then .ok () else .error (.nothingAfter token.text)
  | none => .ok ()

/-- The amount with which the machine ends, once no token is left. -/
def finish (context : Context) (m : Machine) : Except Fault Amount := do
  m.checkEnd.mapError .evaluation
  let (values, waiting) ← reduceAll context.dry m.values m.waiting
  if waiting.isEmpty then (outcome values).mapError .evaluation
  else .error (.evaluation .mismatchedParentheses)

end Machine

/-- The amount of tagged tokens, not rounded. -/
def evaluateTokens (context : Context) (tokens : List Token) : Except Fault Amount := do
  let m ← Machine.run context {} tokens
  m.finish context

/-- The amount of an expression, its value rounded to one decimal. -/
def evaluate (context : Context) (expression : String) : Except Fault Amount := do
  let tokens ← (tokenize expression).mapError .evaluation
  let amount ← evaluateTokens context (tagSplices tokens)
  let value ← amount.value.roundTenths
  return { value, breakdown := amount.breakdown }

end RollTray.Formula
