import RollTray.Order
import RollTray.Record

/-!
# Keep rules

A group that keeps its highest or lowest dice sorts them, best first and equal dice in their
order, and drops all after the number it keeps; dropped dice are marked, not removed. A negative
number counts from the end. Every other group keeps all its dice.

`groupAmount` is what a group contributes to its formula: the sum of the dice kept, or for an
averaging group the mean of all.
-/

namespace RollTray.Dice

/-- Marks the first dice as kept and the others as dropped. -/
def markKept (kept : Nat) (values : List Value) : List DieResult :=
  (values.take kept).map (fun v => { value := v, kept := .bool true }) ++
    (values.drop kept).map fun v => { value := v, kept := .bool false }

/-- Where the dice to be dropped begin. A negative number counts from the end. -/
def dropFrom (size : Nat) (keep : Int) : Nat :=
  if keep < 0 then (size + keep).toNat else keep.toNat

/-- The number of dice that a group keeps, one if it is not said. -/
def keepNumber : Value → Except Fault Int
  | .null => .ok 1
  | .int n => .ok n
  | .bool b => .ok (if b then 1 else 0)
  | _ => .error .mistyped

/-- Sorts values with the smallest first, or the largest first. -/
def sortValues (largestFirst : Bool) (values : List Value) : Except Fault (List Value) :=
  if largestFirst then do return (← Order.sortBy Value.lt values.reverse).reverse
  else Order.sortBy Value.lt values

/-- The values of a group's logical dice in the order of its breakdown, each with whether it
counts. -/
def applyKeep (g : Group) (values : List Value) : Except Fault (List DieResult) := do
  let highest := g.keep.same (.text "kh")
  if highest || g.keep.same (.text "kl") then
    let sorted ← sortValues highest values
    return markKept (dropFrom sorted.length (← keepNumber g.keepCount)) sorted
  return markKept values.length values

/-- The sum of values, added from the left to zero. -/
def sumValues (values : List Value) : Except Fault Num :=
  values.foldlM (fun sum v => do sum.add (← v.num)) (.int 0)

/-- A die as an amount of its own. -/
def memberAmount (r : DieResult) : Except Fault Formula.Amount := do
  return { value := ← r.value.num, breakdown := ← r.value.shown }

/-- A die's text in a breakdown, struck through if it was dropped. -/
def resultText (r : DieResult) : Except Fault String := do
  let text ← r.value.shown
  return if r.kept.truthy then text else Formula.struck text

/-- The text of a sum: a single term as it is, more of them in parentheses. -/
def sumText : List String → String
  | [part] => part
  | parts => "(" ++ " + ".intercalate parts ++ ")"

/-- The amount that stands in for a group's place. An averaging group is spliced as all its dice,
a group that keeps some as those, and any other as itself. -/
def groupAmount (g : Group) (results : List DieResult) : Except Fault Formula.Amount := do
  if g.keep.same (.text "ka") then
    let texts ← results.mapM fun r => r.value.shown
    let sum ← sumValues (results.map DieResult.value)
    let mean ← if results.isEmpty then pure (.int 0) else sum.div (.int results.length)
    let expanded ← some <$> results.mapM memberAmount
    return { value := mean.tidy, breakdown := Formula.Function.avg.call texts, expanded }
  else
    let texts ← results.mapM resultText
    let kept := results.filter fun r => r.kept.truthy
    let total ← sumValues (kept.map DieResult.value)
    let splits := g.keep.same (.text "kh") || g.keep.same (.text "kl")
    let expanded ← if splits then some <$> kept.mapM memberAmount else pure none
    return { value := total, breakdown := sumText texts, expanded }

end RollTray.Dice
