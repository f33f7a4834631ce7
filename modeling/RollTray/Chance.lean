import RollTray.Attempt
import RollTray.Number

/-!
# Chance

All that is random on the tray is drawn from a source of numbers between zero and one. The source
is a tape that is read round and round, so that whoever holds the tape can foretell every throw;
without a tape every draw gives one half. `draw` takes the next number, `below` and `between` make
it an integer of a range, and `pick` takes an item of a list. Each of them draws once.
-/

namespace RollTray

structure Chance where
  tape : Array Float := #[]
  /-- Where on the tape the next number stands. -/
  next : Nat := 0
  deriving Repr, Inhabited

namespace Chance

/-- The next number. -/
def draw : Attempt Chance Float := Attempt.of fun c =>
  if h : c.next < c.tape.size then
    (.ok c.tape[c.next], { c with next := (c.next + 1) % c.tape.size })
  else (.ok 0.5, c)

/-- An integer from zero up to a bound: the bound's share of the next number, cut. -/
def below (bound : Int) : Attempt Chance Int := do
  let r ← draw
  let share ← (Num.float r).mul (.int bound)
  share.truncate

/-- An integer from one bound to another, both included. -/
def between (low high : Int) : Attempt Chance Int := do
  return low + (← below (high - low + 1))

/-- An item of a list. A place before the first counts from the end. -/
def pick {α : Type} (items : List α) : Attempt Chance α := do
  let n ← below items.length
  let place := if n < 0 then n + items.length else n
  match items[place.toNat]? with
  | some item => if place < 0 then throw .outOfRange else return item
  | none => throw .outOfRange

end Chance

end RollTray
