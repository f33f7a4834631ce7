import RollTray.Dice.Kind
import RollTray.Formula.Evaluation
import RollTray.Formula.Shorthand

/-!
# Compiled formulas

A formula is compiled into its dice terms, in order, and a template in which each of them is
replaced by a numbered place: `2d20kh1 + 1d4` has the terms `2d20` keeping the highest and `1d4`,
and the template `__G0__ + __G1__`. A term with a number of sides that no die has stays in the
template, where it is no expression. Nothing is rolled: a dry run of the template refuses what can
never be computed.
-/

namespace RollTray.Formula

/-- Which dice of a term count. -/
inductive KeepRule where
  | highest (count : Nat)
  | lowest (count : Nat)
  /-- Every die counts, and their mean is taken. -/
  | average
  deriving DecidableEq, Repr

/-- A number of dice of one kind. -/
structure DiceTerm where
  kind : DieKind
  count : Nat
  keep : Option KeepRule
  deriving DecidableEq, Repr

/-- The physical dice that are thrown for the term. -/
def DiceTerm.physicalCount (term : DiceTerm) : Nat :=
  term.count * term.kind.halves.length

/-! ## Dice terms in a text -/

/-- The words for a keep rule. -/
inductive KeepWord where
  | highest
  | lowest
  | average
  deriving DecidableEq, Repr

def KeepWord.text : KeepWord → List Char
  | highest => ['k', 'h']
  | lowest => ['k', 'l']
  | average => ['k', 'a']

/-- A dice term as it is written. -/
structure WrittenTerm where
  count : List Char
  sides : List Char
  keep : Option KeepWord
  keepCount : List Char
  deriving DecidableEq, Repr

def WrittenTerm.text (term : WrittenTerm) : List Char :=
  term.count ++ 'd' :: term.sides ++ (term.keep.map KeepWord.text).getD [] ++ term.keepCount

/-- The word for a keep rule at the start of a text, if one stands there. -/
def takeKeep : List Char → Option KeepWord × List Char
  | 'k' :: 'h' :: cs => (some .highest, cs)
  | 'k' :: 'l' :: cs => (some .lowest, cs)
  | 'k' :: 'a' :: cs => (some .average, cs)
  | cs => (none, cs)

/-- The dice term at the start of a text, as long as it can be, and the rest of the text. -/
def takeTerm? (cs : List Char) : Option (WrittenTerm × List Char) :=
  match cs.dropWhile Text.isDigit with
  | 'd' :: rest =>
    match rest.takeWhile Text.isDigit with
    | [] => none
    | sides =>
      let keep := takeKeep (rest.dropWhile Text.isDigit)
      some ({ count := cs.takeWhile Text.isDigit, sides, keep := keep.1,
              keepCount := keep.2.takeWhile Text.isDigit },
        keep.2.dropWhile Text.isDigit)
  | _ => none

theorem takeKeep_append (cs : List Char) :
    ((takeKeep cs).1.map KeepWord.text).getD [] ++ (takeKeep cs).2 = cs := by
  rw [takeKeep.eq_def]
  split <;> rfl

/-- A term and the rest make up the text. -/
theorem takeTerm?_append {cs rest : List Char} {term : WrittenTerm}
    (h : takeTerm? cs = some (term, rest)) : term.text ++ rest = cs := by
  have hcs : cs.takeWhile Text.isDigit ++ cs.dropWhile Text.isDigit = cs :=
    List.takeWhile_append_dropWhile
  rw [takeTerm?] at h
  split at h
  · next tail htail =>
    rw [htail] at hcs
    have hside : tail.takeWhile Text.isDigit ++ tail.dropWhile Text.isDigit = tail :=
      List.takeWhile_append_dropWhile
    split at h
    · simp at h
    · obtain ⟨rfl, rfl⟩ := Prod.mk.injEq .. ▸ Option.some.injEq .. ▸ h
      simp only [WrittenTerm.text, List.append_assoc, List.takeWhile_append_dropWhile,
        takeKeep_append, List.cons_append, hside, hcs]
  · simp at h

theorem length_takeTerm? {cs rest : List Char} {term : WrittenTerm}
    (h : takeTerm? cs = some (term, rest)) : rest.length < cs.length := by
  rw [← takeTerm?_append h, WrittenTerm.text]
  simp only [List.length_append, List.length_cons]
  omega

/-- A part of a text: a character, or a dice term. -/
inductive Piece where
  | plain (c : Char)
  | term (term : WrittenTerm)
  deriving DecidableEq, Repr

/-- A text cut into its dice terms and the characters between them, from left to right. -/
def pieces (cs : List Char) : List Piece :=
  match cs with
  | [] => []
  | c :: tail =>
    match hterm : takeTerm? (c :: tail) with
    | some (term, rest) =>
      have := length_takeTerm? hterm
      .term term :: pieces rest
    | none => .plain c :: pieces tail
termination_by cs.length
decreasing_by all_goals (simp only [List.length_cons] at *; omega)

/-! ## Compiling -/

/-- The number that digits write, if they are not too many. -/
def readCount (digits : List Char) : Except Fault Nat :=
  if integerDigitLimit < digits.length then .error .unreadable
  else .ok (Text.natOfDigits digits)

/-- What a count that may be left out stands for. -/
def readCountOrOne (digits : List Char) : Except Fault Nat :=
  if digits.isEmpty then .ok 1 else readCount digits

/-- The keep rule of a term. -/
def WrittenTerm.readKeep (term : WrittenTerm) : Except Fault (Option KeepRule) :=
  match term.keep with
  | none => .ok none
  | some .average => .ok (some .average)
  | some .highest => do return some (.highest (← readCountOrOne term.keepCount))
  | some .lowest => do return some (.lowest (← readCountOrOne term.keepCount))

/-- The dice that a written term stands for; none if no die has so many sides. -/
def WrittenTerm.read (term : WrittenTerm) : Except Fault (Option DiceTerm) := do
  match DieKind.ofSides? (← readCount term.sides) with
  | none => return none
  | some kind =>
    let count ← readCountOrOne term.count
    if count < 1 then throw (.formula (.noDiceThrown (String.ofList term.text)))
    return some { kind, count, keep := ← term.readKeep }

/-- A part of a template: a character, or the place of a dice term. -/
inductive Part where
  | plain (c : Char)
  | place (term : DiceTerm)
  deriving DecidableEq, Repr

/-- The parts of a piece. A term that stands for no dice stays as it is written. -/
def Piece.read : Piece → Except Fault (List Part)
  | plain c => .ok [.plain c]
  | term written => do
    match ← written.read with
    | some dice => return [.place dice]
    | none => return written.text.map .plain

/-- The parts of all pieces; the first piece that cannot be read decides. -/
def readPieces : List Piece → Except Fault (List Part)
  | [] => .ok []
  | piece :: rest => do
    let parts ← piece.read
    return parts ++ (← readPieces rest)

def Part.term? : Part → Option DiceTerm
  | plain _ => none
  | place term => some term

/-- The characters that may stand between dice terms. -/
def isFormulaChar (c : Char) : Bool :=
  Text.isDigit c || Text.isSpace c || ('a' ≤ c && c ≤ 'z') || "+-*/().,".toList.contains c

def Part.isAllowed : Part → Bool
  | plain c => isFormulaChar c
  | place _ => true

/-- The text of a dice group's place. -/
def placeText (index : Nat) : List Char :=
  "__G".toList ++ Nat.toDigits 10 index ++ "__".toList

/-- The template's text, its places numbered from an index on. -/
def templateFrom : Nat → List Part → List Char
  | _, [] => []
  | index, .plain c :: rest => c :: templateFrom index rest
  | index, .place _ :: rest => placeText index ++ templateFrom (index + 1) rest

/-- A character in small letters. Of the letters beyond ASCII only two have a small form with an
ASCII letter in it; all others belong to no formula, whatever their case. -/
def lowered (c : Char) : List Char :=
  if c = '\u212a' then ['k']
  else if c = '\u0130' then ['i', '\u0307']
  else [Text.toLowerAscii c]

structure Compiled where
  terms : List DiceTerm
  template : String
  /-- The formula as it was written. -/
  formula : String
  deriving DecidableEq, Repr

/-- The physical dice that a formula needs. -/
def Compiled.physicalCount (compiled : Compiled) : Nat :=
  compiled.terms.foldl (fun sum term => sum + term.physicalCount) 0

/-- The parts of a formula, in small letters and with its shorthands written out. -/
def partsOf (formula : String) : Except Fault (List Part) :=
  readPieces (pieces (Shorthand.expandFrom false (formula.toList.flatMap lowered)))

/-- Compiles a formula. -/
def compile (formula : String) : Except Fault Compiled := do
  let parts ← partsOf formula
  let terms := parts.filterMap Part.term?
  if terms.isEmpty then throw (.formula (.noDice formula))
  if !parts.all Part.isAllowed then throw (.formula (.invalidCharacters formula))
  let template := String.ofList (templateFrom 0 parts)
  match evaluate .dryRun template with
  | .ok _ => return { terms, template, formula }
  | .error (.evaluation reason) => throw (.formula (.invalid formula reason))
  | .error fault => throw fault

end RollTray.Formula
