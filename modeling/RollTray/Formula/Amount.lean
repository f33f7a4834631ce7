import RollTray.Number
import RollTray.Formula.Token

/-!
# Amounts and functions

An amount is a value together with the text that explains it. `Function.apply` is the effect of
`max`, `min` and `avg`: the first two strike through every argument but the first one that holds
the value they select.
-/

namespace RollTray.Formula

/-- A value and how it was reached. -/
structure Amount where
  value : Num
  breakdown : String
  /-- The operands that the amount stands for when it is spliced; none if it stands for itself. -/
  expanded : Option (List Amount) := none
  deriving Repr, Inhabited

namespace Amount

/-- The amount of an expression without tokens, and of a place in a dry run. -/
def zero : Amount := { value := .int 0, breakdown := "0" }

/-- What the amount contributes when it is spliced. -/
def operands (a : Amount) : List Amount :=
  match a.expanded with
  | some items => items
  | none => [a]

end Amount

/-- A text marked as struck through. -/
def struck (s : String) : String :=
  "<del>" ++ s ++ "</del>"

/-- The breakdowns of arguments, struck through but for the first one that holds a value. -/
def strikeOthers (value : Num) : List Amount → List String
  | [] => []
  | a :: rest =>
    if a.value.same value then a.breakdown :: rest.map fun b => struck b.breakdown
    else struck a.breakdown :: strikeOthers value rest

inductive Function where
  | max
  | min
  | avg
  deriving DecidableEq, Repr

namespace Function

def name : Function → String
  | max => "max"
  | min => "min"
  | avg => "avg"

def ofName? (s : String) : Option Function :=
  if s = "max" then some max else if s = "min" then some min else if s = "avg" then some avg
  else none

/-- The text of a call with arguments as given. -/
def call (f : Function) (arguments : List String) : String :=
  f.name ++ "(" ++ ", ".intercalate arguments ++ ")"

/-- The amount of `max` or `min`, which selects a value among the arguments' values. -/
def select (f : Function) (pick : Num → List Num → Num) :
    List Amount → Except EvaluationError Amount
  | [] => .error (.noArguments f.name)
  | a :: rest =>
    let value := pick a.value (rest.map Amount.value)
    .ok { value, breakdown := f.call (strikeOthers value (a :: rest)) }

/-- The mean of the arguments; zero if there are none. -/
def mean (values : List Num) : Except Fault Num := do
  if values.isEmpty then return .int 0
  (← Num.sum values).div (.int values.length)

/-- Applies a function to arguments that have been evaluated. -/
def apply (f : Function) (arguments : List Amount) : Except Fault Amount :=
  match f with
  | max => (f.select Num.maximum arguments).mapError .evaluation
  | min => (f.select Num.minimum arguments).mapError .evaluation
  | avg => do
    let value ← mean (arguments.map Amount.value)
    return { value, breakdown := f.call (arguments.map Amount.breakdown) }

/-- Applies the function of a name. -/
def applyNamed (name : String) (arguments : List Amount) : Except Fault Amount :=
  match ofName? name with
  | some f => f.apply arguments
  | none => .error (.evaluation (.unknownFunction name))

end Function

end RollTray.Formula
