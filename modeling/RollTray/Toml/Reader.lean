import RollTray.Toml.Document

/-!
# Reading a TOML document

A document is a list of lines: empty, a comment, a header that opens a table, or a key with its
value. Values nest, so their readers carry fuel; each of them takes a character at every step, and
the length of the text is fuel enough.
-/

namespace RollTray.Toml

/-- The text after a comment, if one stands here. -/
def skipComment : Reader Unit
  | '#' :: cs =>
    let comment := cs.takeWhile (· ≠ '\n')
    if comment.any isControl then malformed else .ok ((), cs.drop comment.length)
  | cs => .ok ((), cs)

/-- The text after all blanks, line ends and comments. -/
def skipFiller : Nat → Reader Unit
  | 0, cs => .ok ((), cs)
  | fuel + 1, cs => do
    let (_, rest) ← skipComment (skipBlanksAndLines cs)
    if rest.length = cs.length then return ((), rest)
    skipFiller fuel rest

/-- The characters of a key that needs no quotes. -/
def isBareKey (c : Char) : Bool :=
  Text.isLetter c || Text.isDigit c || c = '-' || c = '_'

/-- One name of a key. -/
def readKeyPart : Reader String
  | [] => malformed
  | c :: cs =>
    if isBareKey c then
      .ok (String.ofList ((c :: cs).takeWhile isBareKey), (c :: cs).dropWhile isBareKey)
    else readLineString (c :: cs)

/-- A key, its names set apart by dots, and the blanks after it. -/
def readKey : Nat → Reader Path
  | 0, _ => malformed
  | fuel + 1, cs => do
    let (part, rest) ← readKeyPart cs
    match skipBlanks rest with
    | '.' :: rest =>
      let (path, rest) ← readKey fuel (skipBlanks rest)
      return (part :: path, rest)
    | rest => return ([part], rest)

mutual

def readValue : Nat → Reader Value
  | 0, _ => malformed
  | fuel + 1, cs =>
    match cs with
    | '[' :: cs => do
      let (_, cs) ← skipFiller cs.length cs
      let (items, rest) ← readItems fuel cs
      return (.list items, rest)
    | '\x7b' :: cs =>
      match skipBlanks cs with
      | '\x7d' :: rest => .ok (.object [], rest)
      | cs => readFields fuel {} cs
    | '"' :: _ => (readString cs).map fun (s, rest) => (.text s, rest)
    | '\'' :: _ => (readString cs).map fun (s, rest) => (.text s, rest)
    | _ => readPlain cs

/-- The items of an array to its closing bracket, before which a comma may stand. -/
def readItems : Nat → Reader (List Value)
  | 0, _ => malformed
  | fuel + 1, cs =>
    match cs with
    | ']' :: rest => .ok ([], rest)
    | cs => do
      let (v, cs) ← readValue fuel cs
      let (_, cs) ← skipFiller cs.length cs
      match cs with
      | ']' :: rest => return ([v], rest)
      | ',' :: cs =>
        let (_, cs) ← skipFiller cs.length cs
        let (vs, rest) ← readItems fuel cs
        return (v :: vs, rest)
      | _ => malformed

/-- A key and its value. -/
def readPair : Nat → Reader (Path × Value)
  | 0, _ => malformed
  | fuel + 1, cs => do
    let (path, cs) ← readKey cs.length cs
    match cs with
    | '=' :: cs =>
      let (v, rest) ← readValue fuel (skipBlanks cs)
      return ((path, v), rest)
    | _ => malformed

/-- The fields of an inline table to its closing brace. -/
def readFields : Nat → InlineTable → Reader Value
  | 0, _, _ => malformed
  | fuel + 1, table, cs => do
    let ((path, v), cs) ← readPair fuel cs
    match table.setKey path v with
    | none => malformed
    | some table =>
      match skipBlanks cs with
      | '\x7d' :: rest => return (.object table.fields, rest)
      | ',' :: cs => readFields fuel table (skipBlanks cs)
      | _ => malformed

end

/-- The document that a change gives, and the rest of the text. -/
def orMalformed (d : Option Document) (rest : List Char) : Except Problem (Document × List Char) :=
  match d with
  | some d => .ok (d, rest)
  | none => malformed

/-- Reads a header after its brackets. -/
def readHeader (closing : List Char) (change : Path → Option Document) : Reader Document :=
  fun cs => do
    let cs := skipBlanks cs
    let (path, cs) ← readKey cs.length cs
    match change path, Text.skip? closing cs with
    | some d, some rest => return (d, rest)
    | _, _ => malformed

/-- Reads what stands on a line before its comment: nothing, a header, or a key and its value. -/
def readStatement (d : Document) : Reader Document
  | [] => .ok (d, [])
  | '[' :: '[' :: cs => readHeader [']', ']'] d.settle.openArrayTable cs
  | '[' :: cs => readHeader [']'] d.settle.openTable cs
  | '#' :: cs => .ok (d, '#' :: cs)
  | '\n' :: cs => .ok (d, '\n' :: cs)
  | cs => do
    let ((path, v), rest) ← readPair (2 * cs.length + 2) cs
    orMalformed (d.setKey path v) rest

/-- Reads the lines of a document. Each takes a character, so the length of the text is fuel
enough. -/
def readLines : Nat → Document → List Char → Except Problem Document
  | 0, d, _ => .ok d
  | fuel + 1, d, cs => do
    let (d, cs) ← readStatement d (skipBlanks cs)
    let (_, cs) ← skipComment (skipBlanks cs)
    match cs with
    | [] => return d
    | '\n' :: cs => readLines fuel d cs
    | _ => malformed

/-- The text with line ends of one character. -/
def joinLineEnds : List Char → List Char
  | '\r' :: '\n' :: cs => '\n' :: joinLineEnds cs
  | c :: cs => c :: joinLineEnds cs
  | [] => []

/-- The table that a document holds. -/
def read (text : String) : Except Problem Value := do
  let cs := joinLineEnds text.toList
  let d ← readLines (cs.length + 1) {} cs
  return .object d.fields

end RollTray.Toml
