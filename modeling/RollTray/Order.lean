import RollTray.Value

/-!
# Sorting by an order that may fail

Loosely typed values need not have an order, and a float that is no number comes neither before nor
after another one. So it matters which items `sortBy` compares: neighbours, as long as they go on
rising or falling at the start of the list, and after that each item with the middle one of those
where it may belong. It keeps the order of items that are not apart, and fails as soon as a
comparison does.
-/

namespace RollTray.Order

variable {α : Type}

/-- Splits the items behind a first one where they stop to fall, or stop to rise. -/
def splitRun (before : α → α → Except Fault Bool) (falling : Bool) :
    α → List α → Except Fault (List α × List α)
  | _, [] => .ok ([], [])
  | x, y :: ys => do
    if (← before y x) == falling then
      let (run, rest) ← splitRun before falling y ys
      return (y :: run, rest)
    return ([], y :: ys)

/-- The place from `low` to `high` at which an item is to stand among sorted ones: behind all that
it does not come before. -/
def placeOf (before : α → α → Except Fault Bool) (x : α) (sorted : Array α)
    (low high : Nat) : Except Fault Nat :=
  if _h : low < high then
    match sorted[(low + high) / 2]? with
    | none => .ok low
    | some y =>
      match before x y with
      | .error fault => .error fault
      | .ok true => placeOf before x sorted low ((low + high) / 2)
      | .ok false => placeOf before x sorted ((low + high) / 2 + 1) high
  else .ok low
termination_by high - low
decreasing_by all_goals omega

/-- Puts an item among sorted ones. -/
def insertBy (before : α → α → Except Fault Bool) (sorted : Array α) (x : α) :
    Except Fault (Array α) := do
  return sorted.insertIdxIfInBounds (← placeOf before x sorted 0 sorted.size) x

/-- Sorts a list, items that are not apart keeping their order. -/
def sortBy (before : α → α → Except Fault Bool) : List α → Except Fault (List α)
  | x :: y :: ys => do
    let falling ← before y x
    let (run, rest) ← splitRun before falling x (y :: ys)
    let run := if falling then (x :: run).reverse else x :: run
    return (← rest.foldlM (insertBy before) run.toArray).toList
  | xs => .ok xs

/-- The order of pairs: by their first parts, and where these are equal by their second. -/
def pairBefore (a b : Value × Value) : Except Fault Bool :=
  if !a.1.sameKey b.1 then a.1.lt b.1
  else if !a.2.sameKey b.2 then a.2.lt b.2
  else .ok false

/-- Adds an item to those under an equal key, a new key at the end. -/
def pushUnder {κ : Type} (same : κ → κ → Bool) (key : κ) (x : α) :
    List (κ × List α) → List (κ × List α)
  | [] => [(key, [x])]
  | (k, xs) :: rest =>
    if same k key then (k, xs ++ [x]) :: rest else (k, xs) :: pushUnder same key x rest

end RollTray.Order
