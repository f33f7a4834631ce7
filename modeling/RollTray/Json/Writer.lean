import RollTray.Value

/-!
# Writing JSON text

Writes a value on one line, or with each item and field on a line of its own. The text is ASCII:
other characters are written as code units. Floats have their shortest text, and what is no finite
number is written by name. An integer with too many digits to be read back is not written.
-/

namespace RollTray.Json

/-- How items and fields are set apart. -/
inductive Layout where
  | oneLine
  /-- Each on its own line, indented by so many blanks for each level. -/
  | indented (blanks : Nat)

/-- The break before an item at a depth. -/
def Layout.lineBreak : Layout → Nat → String
  | oneLine, _ => ""
  | indented blanks, depth => "\n" ++ "".pushn ' ' (blanks * depth)

/-- The comma between two items. -/
def Layout.separator : Layout → String
  | oneLine => ", "
  | indented _ => ","

/-- A code unit as an escape. -/
def unitEscape (n : Nat) : String :=
  let digits := Nat.toDigits 16 n
  String.ofList ('\\' :: 'u' :: (List.replicate (4 - digits.length) '0' ++ digits))

/-- A character inside a text. -/
def writeChar (c : Char) : String :=
  let n := c.toNat
  if c = '"' then "\\\"" else if c = '\\' then "\\\\"
  else if c = '\n' then "\\n" else if c = '\r' then "\\r" else if c = '\t' then "\\t"
  else if n = 8 then "\\b" else if n = 12 then "\\f"
  else if 32 ≤ n && n < 127 then String.singleton c
  else if n < 0x10000 then unitEscape n
  else unitEscape (0xd800 + (n - 0x10000) / 0x400) ++ unitEscape (0xdc00 + (n - 0x10000) % 0x400)

def writeText (s : String) : String :=
  s.toList.foldl (fun acc c => acc ++ writeChar c) "\"" ++ "\""

def writeFloat (x : Float) : String :=
  if x.isNaN then "NaN"
  else if x.isInf then (if x < 0 then "-Infinity" else "Infinity")
  else shortestText x

mutual

def writeValue (layout : Layout) (depth : Nat) : Value → String
  | .null => "null"
  | .bool b => if b then "true" else "false"
  | .int n => Text.decimalOfInt n
  | .float x => writeFloat x
  | .notANumber => "NaN"
  | .text s => writeText s
  | .list [] => "[]"
  | .list (v :: vs) =>
    "[" ++ layout.lineBreak (depth + 1) ++ writeValue layout (depth + 1) v ++
      writeItems layout (depth + 1) vs ++ layout.lineBreak depth ++ "]"
  | .object [] => "\x7b\x7d"
  | .object ((key, v) :: rest) =>
    "\x7b" ++ layout.lineBreak (depth + 1) ++ writeText key ++ ": " ++
      writeValue layout (depth + 1) v ++ writeFields layout (depth + 1) rest ++
      layout.lineBreak depth ++ "\x7d"

/-- The items after the first, each with its separator. -/
def writeItems (layout : Layout) (depth : Nat) : List Value → String
  | [] => ""
  | v :: vs =>
    layout.separator ++ layout.lineBreak depth ++ writeValue layout depth v ++
      writeItems layout depth vs

/-- The fields after the first, each with its separator. -/
def writeFields (layout : Layout) (depth : Nat) : List (String × Value) → String
  | [] => ""
  | (key, v) :: rest =>
    layout.separator ++ layout.lineBreak depth ++ writeText key ++ ": " ++
      writeValue layout depth v ++ writeFields layout depth rest

end

mutual

/-- Whether every integer in a value can be read back. -/
def isWritable : Value → Bool
  | .int n => (Num.writeInt n).isOk
  | .list items => areWritable items
  | .object fields => haveWritable fields
  | _ => true

def areWritable : List Value → Bool
  | [] => true
  | v :: vs => isWritable v && areWritable vs

def haveWritable : List (String × Value) → Bool
  | [] => true
  | (_, v) :: rest => isWritable v && haveWritable rest

end

/-- The value's JSON text. -/
def write (layout : Layout) (v : Value) : Except Fault String :=
  if isWritable v then .ok (writeValue layout 0 v) else .error .unreadable

end RollTray.Json
