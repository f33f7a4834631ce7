import RollTray.Dice.Reading
import RollTray.Dice.Keep

/-!
# Resolving a roll

Once all dice of a roll have settled, the values of its groups are put into its template and
evaluated. A template that cannot be evaluated still ends the roll, with zero and the breakdown
`Error`, so no roll stays pending for it.
-/

namespace RollTray.Dice

/-- The results of a record's groups and the amounts that stand in for them. -/
def settleGroups (values : List (Value × List Value)) :
    Nat → List Group → Except Fault (List (List DieResult) × List Formula.Amount)
  | _, [] => .ok ([], [])
  | index, g :: rest => do
    let results ← applyKeep g (valuesOf index values)
    let amount ← groupAmount g results
    let (later, amounts) ← settleGroups values (index + 1) rest
    return (results :: later, amount :: amounts)

/-- The context in which a record's template is evaluated. -/
def contextOf (amounts : List Formula.Amount) : Formula.Context where
  amount? index := amounts[index]?
  dry := false

/-- Writes the value of the template into a record. -/
def Record.fill (r : Record) (amounts : List Formula.Amount) : Except Fault Record :=
  match r.template with
  | .text template =>
    match Formula.evaluate (contextOf amounts) template with
    | .ok amount =>
      .ok { r with result := .ofNum amount.value, breakdown := .text amount.breakdown }
    | .error (.evaluation _) => .ok { r with result := .int 0, breakdown := .text "Error" }
    | .error fault => .error fault
  | _ => .error .unsupported

/-- Works out a roll's result from its settled dice: whether it was resolved now, and the record.
A record that has a result is left as it is. The results of the groups are written before the
template is evaluated, and stay if that fails. -/
def resolve (r : Record) (dice : List Die) : Except Fault Bool × Record :=
  if r.resolved then (.ok false, r)
  else
    match (do settleGroups (← logicalResults dice) 0 r.groups : Except Fault _) with
    | .error fault => (.error fault, r)
    | .ok (results, amounts) =>
      let r := { r with results }
      match Record.fill r amounts with
      | .ok filled => (.ok true, filled)
      | .error fault => (.error fault, r)

end RollTray.Dice
