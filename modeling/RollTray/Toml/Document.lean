import RollTray.Toml.Scalar

/-!
# The tables of a TOML document

A document under construction: its data so far, and which tables may still be opened or extended.
A table that has been opened, by a header or by a dotted key of an earlier section, cannot be
opened again; arrays and inline tables are closed for good, with all that is in them. Keys are
paths from the root.
-/

namespace RollTray.Toml

/-- A key with its dots: the names from the outermost table inwards. -/
abbrev Path := List String

/-- Changes the table at a path, making the tables on the way that are not there. A path leads
through the last table of an array of tables if `throughArrays` says so. None if something on the
way is no table, or if the change fails. -/
def atTable (throughArrays : Bool) (change : List (String × Value) → Option (List (String × Value))) :
    Path → List (String × Value) → Option (List (String × Value))
  | [], fields => change fields
  | key :: path, fields =>
    match Value.lookup? key fields with
    | none => do
      let inner ← atTable throughArrays change path []
      return Value.insertField key (.object inner) fields
    | some (.object inner) => do
      let inner ← atTable throughArrays change path inner
      return Value.insertField key (.object inner) fields
    | some (.list items) =>
      match throughArrays, items.getLast? with
      | true, some (.object inner) => do
        let inner ← atTable throughArrays change path inner
        return Value.insertField key (.list (items.dropLast ++ [.object inner])) fields
      | _, _ => none
    | some _ => none

/-- Adds a field to a table that has none of its key. -/
def addField (key : String) (v : Value) (fields : List (String × Value)) :
    Option (List (String × Value)) :=
  match Value.lookup? key fields with
  | none => some (Value.insertField key v fields)
  | some _ => none

/-- Adds an empty table to an array of tables, which is made if it is not there. -/
def addTable (key : String) (fields : List (String × Value)) : Option (List (String × Value)) :=
  match Value.lookup? key fields with
  | none => some (Value.insertField key (.list [.object []]) fields)
  | some (.list items) => some (Value.insertField key (.list (items ++ [.object []])) fields)
  | some _ => none

/-- Arrays and inline tables, which nothing may be added to later. -/
def isContainer : Value → Bool
  | .list _ => true
  | .object _ => true
  | _ => false

structure Document where
  fields : List (String × Value) := []
  /-- Tables that no header may open again. -/
  opened : List Path := []
  /-- Tables made by dotted keys, which count as opened from the next header on. -/
  pending : List Path := []
  /-- Arrays and inline tables, closed with all that is below them. -/
  closed : List Path := []
  /-- The table that keys belong to. -/
  header : Path := []

namespace Document

/-- Whether a path is closed or leads into something that is. -/
def isClosed (d : Document) (path : Path) : Bool :=
  d.closed.any fun outer => outer.isPrefixOf path

/-- Makes the tables of dotted keys count as opened. -/
def settle (d : Document) : Document :=
  { d with opened := d.pending ++ d.opened, pending := [] }

/-- Opens a table by its header. -/
def openTable (d : Document) (path : Path) : Option Document :=
  if d.opened.contains path || d.isClosed path then none
  else do
    let fields ← atTable true some path d.fields
    return { d with fields, opened := path :: d.opened, header := path }

/-- Opens one more table of an array of tables. What was said of the tables below it is forgotten,
since they belong to the table before. -/
def openArrayTable (d : Document) (path : Path) : Option Document :=
  match path.getLast? with
  | none => none
  | some key =>
    if d.isClosed path then none
    else do
      let fields ← atTable true (addTable key) path.dropLast d.fields
      let outside (other : Path) : Bool := !path.isPrefixOf other
      return { d with
        fields
        opened := path :: d.opened.filter outside
        closed := d.closed.filter outside
        header := path }

/-- The proper prefixes of a key, shortest first. -/
def parents (path : Path) : List Path :=
  (List.range path.length).filterMap fun n => if n = 0 then none else some (path.take n)

/-- Sets a key of the table that is open. -/
def setKey (d : Document) (path : Path) (v : Value) : Option Document :=
  match path.getLast? with
  | none => none
  | some key =>
    let tables := (parents path).map (d.header ++ ·)
    if tables.any d.opened.contains || d.isClosed (d.header ++ path.dropLast) then none
    else do
      let fields ← atTable true (addField key v) (d.header ++ path.dropLast) d.fields
      return { d with
        fields
        pending := tables ++ d.pending
        closed := if isContainer v then (d.header ++ path) :: d.closed else d.closed }

end Document

/-- An inline table under construction: its fields and the keys below which it is closed. -/
structure InlineTable where
  fields : List (String × Value) := []
  closed : List Path := []

/-- Sets a key of an inline table. -/
def InlineTable.setKey (t : InlineTable) (path : Path) (v : Value) : Option InlineTable :=
  match path.getLast? with
  | none => none
  | some key =>
    if t.closed.any fun outer => outer.isPrefixOf path then none
    else do
      let fields ← atTable false (addField key v) path.dropLast t.fields
      return { fields, closed := if isContainer v then path :: t.closed else t.closed }

end RollTray.Toml
