import RollTray.Formula.Compiled
import RollTray.Value

/-!
# Roll records

A record is everything known about one roll, pending or resolved. It is saved as plain data and
read back without checks on its fields, so the fields hold loosely typed values; `Group.ofTerm`
makes the well-typed groups of a compiled formula. `Record.ofValue?` reads a record back and
`Record.toValue` writes it.
-/

namespace RollTray

/-- One dice term of a roll. -/
structure Group where
  kind : Value
  /-- How many logical dice are thrown. -/
  count : Value
  /-- The word of the keep rule, or null where every die counts. -/
  keep : Value
  /-- How many dice the rule keeps, if it keeps a number of them. -/
  keepCount : Value
  deriving Repr, Inhabited

namespace Group

/-- The words and numbers of a keep rule. -/
def ofKeep : Option Formula.KeepRule → Value × Value
  | none => (.null, .null)
  | some (.highest n) => (.text "kh", .int n)
  | some (.lowest n) => (.text "kl", .int n)
  | some .average => (.text "ka", .null)

/-- The group of a compiled term. -/
def ofTerm (term : Formula.DiceTerm) : Group where
  kind := .text term.kind.name
  count := .int term.count
  keep := (ofKeep term.keep).1
  keepCount := (ofKeep term.keep).2

/-- The physical dice of the group: two for each d100. -/
def physicalCount (g : Group) : Except Fault Num := do
  let count ← g.count.num
  if g.kind.same (.text "d100") then count.mul (.int 2) else return count

def toValue (g : Group) : Value :=
  .object [("type", g.kind), ("count", g.count), ("keep_type", g.keep),
    ("keep_count", g.keepCount)]

def ofValue? (v : Value) : Except Fault Group := do
  let kind ← v.field "type"
  let count ← v.field "count"
  return { kind, count, keep := v.fieldD "keep_type" .null,
           keepCount := v.fieldD "keep_count" .null }

end Group

/-- The value of one logical die and whether it counted. -/
structure DieResult where
  value : Value
  kept : Value
  deriving Repr, Inhabited

namespace DieResult

def toValue (r : DieResult) : Value :=
  .object [("value", r.value), ("kept", r.kept)]

def ofValue? (v : Value) : Except Fault DieResult := do
  let value ← v.field "value"
  return { value, kept := ← v.field "kept" }

end DieResult

structure Record where
  id : Value
  /-- What was rolled, as the history shows it. -/
  formula : Value
  /-- The formula with a numbered place for each dice group. -/
  template : Value
  groups : List Group
  /-- For each group its logical dice, in the order of the breakdown; empty until the roll
  resolves. -/
  results : List (List DieResult) := []
  /-- Null until the roll resolves. -/
  result : Value := .null
  breakdown : Value := .null
  deriving Repr, Inhabited

namespace Record

def resolved (r : Record) : Bool :=
  !r.result.isNull

/-- How many physical dice must settle before the roll resolves. -/
def expectedDice (r : Record) : Except Fault Num :=
  r.groups.foldlM (fun sum g => do sum.add (← g.physicalCount)) (.int 0)

def toValue (r : Record) : Value :=
  .object [("id", r.id), ("formula", r.formula), ("template", r.template), ("result", r.result),
    ("groups", .list (r.groups.map Group.toValue)),
    ("group_results", .list (r.results.map fun ds => .list (ds.map DieResult.toValue))),
    ("breakdown", r.breakdown)]

/-- The results of one group. -/
def groupResults? (v : Value) : Except Fault (List DieResult) := do
  (← v.items).mapM DieResult.ofValue?

/-- Reads a record out of plain data. Its results and breakdown may be missing. -/
def ofValue? (v : Value) : Except Fault Record := do
  let id ← v.field "id"
  let formula ← v.field "formula"
  let template ← v.field "template"
  let groups ← (← (← v.field "groups").items).mapM Group.ofValue?
  let results ← (← (v.fieldD "group_results" (.list [])).items).mapM groupResults?
  return { id, formula, template, groups, results,
           result := v.fieldD "result" .null, breakdown := v.fieldD "breakdown" .null }

/-- The record of a compiled formula that has not been thrown. -/
def ofCompiled (id : Int) (formula : String) (compiled : Formula.Compiled) : Record where
  id := .int id
  formula := .text formula
  template := .text compiled.template
  groups := compiled.terms.map Group.ofTerm

end Record

end RollTray
