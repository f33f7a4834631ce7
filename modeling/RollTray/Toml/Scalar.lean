import RollTray.Number
import RollTray.Value
import RollTray.Text.Front

/-!
# Scalars of a TOML document

Strings of the four kinds, numbers, truth values, dates and times. Each reader takes a text and
gives the value at its start with the rest of the text. A date or a time is checked and kept as
the text that it is.
-/

namespace RollTray.Toml

/-- Why a document cannot be read. -/
inductive Problem where
  | malformed
  /-- A decimal integer of more digits than are read. -/
  | tooManyDigits
  deriving DecidableEq, Repr

/-- A reader gives what it read and the rest of the text. -/
abbrev Reader (α : Type) := List Char → Except Problem (α × List Char)

def malformed {α : Type} : Except Problem α := .error .malformed

/-- Blanks within a line. -/
def isBlank (c : Char) : Bool := c = ' ' || c = '\t'

def skipBlanks (cs : List Char) : List Char := cs.dropWhile isBlank

def skipBlanksAndLines (cs : List Char) : List Char :=
  cs.dropWhile fun c => isBlank c || c = '\n'

/-- Control characters other than the tab stand in no string and no comment. -/
def isControl (c : Char) : Bool := (c.toNat < 32 && c ≠ '\t') || c.toNat = 127

/-! ## Strings -/

def isHex (c : Char) : Bool :=
  Text.isDigit c || ('a' ≤ c && c ≤ 'f') || ('A' ≤ c && c ≤ 'F')

/-- The value of a hexadecimal digit. -/
def hexValue (c : Char) : Nat :=
  if Text.isDigit c then c.toNat - 48
  else if 'a' ≤ c && c ≤ 'f' then c.toNat - 87
  else c.toNat - 55

def ofHex (cs : List Char) : Nat := cs.foldl (fun n c => 16 * n + hexValue c) 0

/-- The character of so many hexadecimal digits, which must be a scalar value. -/
def readCodePoint (count : Nat) : Reader Char := fun cs =>
  let digits := cs.take count
  let n := ofHex digits
  if digits.length = count && digits.all isHex && (n < 0xd800 || 0xe000 ≤ n) && n < 0x110000 then
    .ok (Char.ofNat n, cs.drop count)
  else malformed

/-- The character of an escape of one letter. -/
def escape? : Char → Option Char
  | 'b' => some '\x08'
  | 't' => some '\t'
  | 'n' => some '\n'
  | 'f' => some '\x0c'
  | 'r' => some '\r'
  | '"' => some '"'
  | '\\' => some '\\'
  | _ => none

/-- What follows a backslash. In a string of several lines one at the end of a line takes away all
blanks up to the next visible character. -/
def readEscape (lines : Bool) : Reader (List Char)
  | [] => malformed
  | c :: cs =>
    if lines && c = '\n' then .ok ([], skipBlanksAndLines cs)
    else if lines && isBlank c then
      match skipBlanks cs with
      | [] => .ok ([], [])
      | '\n' :: rest => .ok ([], skipBlanksAndLines rest)
      | _ => malformed
    else if c = 'u' then (readCodePoint 4 cs).map fun (d, rest) => ([d], rest)
    else if c = 'U' then (readCodePoint 8 cs).map fun (d, rest) => ([d], rest)
    else
      match escape? c with
      | some d => .ok ([d], cs)
      | none => malformed

/-- A basic string after its opening quotes, the characters read so far in reverse. Each step takes
a character, so the length of the text is fuel enough. -/
def readBasic (lines : Bool) : Nat → List Char → Reader (List Char)
  | 0, _, _ => malformed
  | _, _, [] => malformed
  | fuel + 1, read, c :: cs =>
    if c = '"' then
      if !lines then .ok (read.reverse, cs)
      else
        match Text.skip? ['"', '"'] cs with
        | some rest => .ok (read.reverse, rest)
        | none => readBasic lines fuel (c :: read) cs
    else if c = '\\' then do
      let (ds, rest) ← readEscape lines cs
      readBasic lines fuel (ds.reverse ++ read) rest
    else if isControl c && !(lines && c = '\n') then malformed
    else readBasic lines fuel (c :: read) cs

/-- A literal string after its opening quotes, up to the closing ones. -/
def readLiteral (lines : Bool) (closing : List Char) : Reader (List Char)
  | [] => malformed
  | c :: cs =>
    match Text.skip? closing (c :: cs) with
    | some rest => .ok ([], rest)
    | none =>
      if isControl c && !(lines && c = '\n') then malformed
      else do
        let (tail, rest) ← readLiteral lines closing cs
        return (c :: tail, rest)

/-- Up to two more quotes belong to a string of several lines that ends in four or five. -/
def takeExtraQuotes (quote : Char) (read : List Char) : List Char → List Char × List Char
  | c :: d :: cs =>
    if c = quote then
      if d = quote then (read ++ [quote, quote], cs) else (read ++ [quote], d :: cs)
    else (read, c :: d :: cs)
  | [c] => if c = quote then (read ++ [quote], []) else (read, [c])
  | [] => (read, [])

/-- A line end right after the opening quotes does not belong to the string. -/
def skipFirstLineEnd : List Char → List Char
  | '\n' :: cs => cs
  | cs => cs

/-- A string of one line. -/
def readLineString : Reader String
  | '"' :: cs => do
    let (read, rest) ← readBasic false (cs.length + 1) [] cs
    return (String.ofList read, rest)
  | '\'' :: cs => do
    let (read, rest) ← readLiteral false ['\''] cs
    return (String.ofList read, rest)
  | _ => malformed

/-- A string of one or several lines. -/
def readString : Reader String
  | '"' :: '"' :: '"' :: cs => do
    let cs := skipFirstLineEnd cs
    let (read, rest) ← readBasic true (cs.length + 1) [] cs
    let (read, rest) := takeExtraQuotes '"' read rest
    return (String.ofList read, rest)
  | '\'' :: '\'' :: '\'' :: cs => do
    let (read, rest) ← readLiteral true ['\'', '\'', '\''] (skipFirstLineEnd cs)
    let (read, rest) := takeExtraQuotes '\'' read rest
    return (String.ofList read, rest)
  | cs => readLineString cs

/-! ## Dates and times -/

/-- A number of exactly so many digits within bounds. -/
def takeNumber? (count low high : Nat) (cs : List Char) : Option (Nat × List Char) :=
  let digits := cs.take count
  let n := Text.natOfDigits digits
  if digits.length = count && digits.all Text.isDigit && low ≤ n && n ≤ high then
    some (n, cs.drop count)
  else none

/-- The rest of a text after a character that must be there. -/
def expect? (c : Char) : List Char → Option (List Char)
  | d :: cs => if c = d then some cs else none
  | [] => none

/-- A fraction of a second, if one stands here. -/
def skipFraction : List Char → List Char
  | '.' :: c :: cs => if Text.isDigit c then cs.dropWhile Text.isDigit else '.' :: c :: cs
  | cs => cs

/-- The text after a time of day. -/
def takeTime? (cs : List Char) : Option (List Char) := do
  let (_, cs) ← takeNumber? 2 0 23 cs
  let (_, cs) ← takeNumber? 2 0 59 (← expect? ':' cs)
  let (_, cs) ← takeNumber? 2 0 59 (← expect? ':' cs)
  return skipFraction cs

/-- The text after an offset from universal time, if one stands here. -/
def skipOffset : List Char → List Char
  | [] => []
  | c :: cs =>
    if c = 'Z' || c = 'z' then cs
    else if c = '+' || c = '-' then
      let offset := do
        let (_, rest) ← takeNumber? 2 0 23 cs
        let (_, rest) ← takeNumber? 2 0 59 (← expect? ':' rest)
        return rest
      offset.getD (c :: cs)
    else c :: cs

/-- The days of a month. -/
def daysIn (year month : Nat) : Nat :=
  if month = 2 then
    if year % 4 = 0 && (year % 100 ≠ 0 || year % 400 = 0) then 29 else 28
  else if month = 4 || month = 6 || month = 9 || month = 11 then 30
  else 31

/-- The text after the time of a date, if one stands here. -/
def skipTimeOfDate : List Char → List Char
  | [] => []
  | c :: cs =>
    if c = 'T' || c = 't' || c = ' ' then
      match takeTime? cs with
      | some rest => skipOffset rest
      | none => c :: cs
    else c :: cs

/-- Whether a date with these numbers exists, and the text after the date and its time. -/
def takeDate? (cs : List Char) : Option (Bool × List Char) := do
  let (year, cs) ← takeNumber? 4 0 9999 cs
  let (month, cs) ← takeNumber? 2 1 12 (← expect? '-' cs)
  let (day, cs) ← takeNumber? 2 1 31 (← expect? '-' cs)
  return (0 < year && day ≤ daysIn year month, skipTimeOfDate cs)

/-! ## Numbers -/

/-- Whether the text goes on with an underscore between the last digit and the next. -/
def joinsRun (isKind : Char → Bool) : List Char → Bool
  | '_' :: d :: _ => isKind d
  | _ => false

/-- Digits of a kind, single underscores standing between them. -/
def takeRun (isKind : Char → Bool) : List Char → List Char × List Char
  | [] => ([], [])
  | c :: cs =>
    if isKind c then
      let (run, rest) := takeRun isKind (if joinsRun isKind cs then cs.drop 1 else cs)
      (c :: run, rest)
    else ([], c :: cs)
termination_by cs => cs.length
decreasing_by
  split
  · simp only [List.length_drop, List.length_cons]
    omega
  · simp

/-- An integer in another base than ten, after its zero. -/
def takeBased? : List Char → Option (Nat × List Char)
  | b :: cs =>
    let base := if b = 'x' then 16 else if b = 'o' then 8 else if b = 'b' then 2 else 0
    let (digits, rest) := takeRun (fun c => isHex c && hexValue c < base) cs
    if digits.isEmpty then none
    else some (digits.foldl (fun n c => base * n + hexValue c) 0, rest)
  | [] => none

/-- The digits of a number before its point: a zero alone, or digits that do not start with
one. -/
def takeWhole : List Char → List Char × List Char
  | '0' :: cs => (['0'], cs)
  | cs => takeRun Text.isDigit cs

/-- The digits after a point, if both are there. -/
def takeFraction : List Char → List Char × List Char
  | '.' :: cs =>
    let (digits, rest) := takeRun Text.isDigit cs
    if digits.isEmpty then ([], '.' :: cs) else (digits, rest)
  | cs => ([], cs)

/-- The exponent, if one stands here. -/
def takeExponent : List Char → Option Int × List Char
  | [] => (none, [])
  | e :: cs =>
    if e = 'e' || e = 'E' then
      let (negative, tail) := takeSign cs
      let (digits, rest) := takeRun Text.isDigit tail
      if digits.isEmpty then (none, e :: cs)
      else
        let n : Int := Text.natOfDigits digits
        (some (if negative then -n else n), rest)
    else (none, e :: cs)

/-- A decimal number; none if there is none. -/
def readDecimal? (cs : List Char) : Option (Except Problem (Value × List Char)) :=
  let (negative, cs) := takeSign cs
  let (whole, cs) := takeWhole cs
  if whole.isEmpty then none
  else
    let (fraction, cs) := takeFraction cs
    let (exponent, cs) := takeExponent cs
    if fraction.isEmpty && exponent.isNone then
      if integerDigitLimit < whole.length then some (.error .tooManyDigits)
      else
        let n : Int := Text.natOfDigits whole
        some (.ok (.int (if negative then -n else n), cs))
    else
      let place := exponent.getD 0 - fraction.length
      let x := nearestDecimal negative (Text.natOfDigits (whole ++ fraction)) place
      some (.ok (.float x, cs))

/-- The numbers that are written as a name. -/
def namedNumbers : List (String × Float) :=
  [("inf", 1.0 / 0.0), ("nan", 0.0 / 0.0), ("-inf", -(1.0 / 0.0)), ("+inf", 1.0 / 0.0),
    ("-nan", 0.0 / 0.0), ("+nan", 0.0 / 0.0)]

def readNumber : Reader Value := fun cs =>
  let based := match cs with
    | '0' :: rest => takeBased? rest
    | _ => none
  match based with
  | some (n, rest) => .ok (.int n, rest)
  | none =>
    match readDecimal? cs with
    | some result => result
    | none =>
      match namedNumbers.findSome? fun (name, x) => (Text.skip? name.toList cs).map (x, ·) with
      | some (x, rest) => .ok (.float x, rest)
      | none => malformed

/-- A scalar that is no string: a truth value, a date, a time or a number, tried in this order. -/
def readPlain : Reader Value := fun cs =>
  match Text.skip? "true".toList cs, Text.skip? "false".toList cs with
  | some rest, _ => .ok (.bool true, rest)
  | _, some rest => .ok (.bool false, rest)
  | _, _ =>
    let written (rest : List Char) : Value :=
      .text (String.ofList (cs.take (cs.length - rest.length)))
    match takeDate? cs with
    | some (true, rest) => .ok (written rest, rest)
    | some (false, _) => malformed
    | none =>
      match takeTime? cs with
      | some rest => .ok (written rest, rest)
      | none => readNumber cs

end RollTray.Toml
