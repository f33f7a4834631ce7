import RollTray.Order

/-!
# Reading dice

A physical die shows a face; a logical die is what a formula counts. Most are one physical die, a
d100 is a tens die and a units die. A d10 shows its ten as 0, and a d100 that shows 00 and 0 reads
100. `logicalResults` reads all dice of a roll, in the order of groups and of dice within them, so
the order in which the dice settled does not matter.
-/

namespace RollTray

/-- A physical die on the tray and where it belongs in its roll. -/
structure Die where
  handle : Nat
  kind : Value
  roll : Value
  group : Value
  /-- Which die of its group it is. Both halves of a d100 share it. -/
  logical : Value
  /-- Whether it is the tens half of a d100. -/
  tens : Value
  settled : Bool := false
  /-- The face read when the die last settled; null before. -/
  value : Value := .null
  /-- The clock's time at which the die began to move; null while it rests. -/
  awakeSince : Value := .null
  deriving Repr, Inhabited

namespace Dice

/-- The two halves of a d100 together. -/
def percentile (tens units : Value) : Except Fault Value :=
  if tens.same (.int 0) && units.same (.int 0) then .ok (.int 100) else tens.add units

/-- The face of the first die among those of one half; null if there is none. -/
def halfValue (tens : Bool) (dice : List Die) : Value :=
  match dice.find? fun d => d.tens.truthy == tens with
  | some d => d.value
  | none => .null

/-- The value of one logical die, read from its physical dice. A face that was never read counts
as zero. -/
def logicalValue : List Die → Except Fault Value
  | [] => .error .outOfRange
  | first :: rest =>
    if first.kind.same (.text "d100") then
      percentile (halfValue true (first :: rest)).orZero (halfValue false (first :: rest)).orZero
    else
      let value := first.value.orZero
      .ok (if first.kind.same (.text "d10") && value.same (.int 0) then .int 10 else value)

/-- Whether two dice are of one logical die. -/
def samePlace (a b : Value × Value) : Bool :=
  a.1.sameKey b.1 && a.2.sameKey b.2

/-- The dice of each logical die, under its group and index, in the order in which they come. -/
def byLogicalDie (dice : List Die) : Except Fault (List ((Value × Value) × List Die)) :=
  dice.foldlM (fun found d => do
    let group ← d.group.asKey
    let logical ← d.logical.asKey
    return Order.pushUnder samePlace (group, logical) d found) []

/-- The values of the logical dice of each group. -/
def logicalResults (dice : List Die) : Except Fault (List (Value × List Value)) := do
  let sorted ← Order.sortBy (fun a b => Order.pairBefore a.1 b.1) (← byLogicalDie dice)
  sorted.foldlM (fun results (place, dice) => do
    return Order.pushUnder Value.sameKey place.1 (← logicalValue dice) results) []

/-- The values of one group among the results of all. -/
def valuesOf (group : Nat) (results : List (Value × List Value)) : List Value :=
  match results.find? fun result => result.1.same (.int group) with
  | some result => result.2
  | none => []

end Dice

end RollTray
