import RollTray.Fault
import RollTray.Text.Blank

/-!
# Tokens of an expression

An expression is read as a list of tokens: numbers, names, places of dice groups, operators,
parentheses and commas, with white space between them. Letters may be large or small. `tokenize`
skips nothing but white space: what a lexeme takes and what it leaves are the text itself
(`exists_of_lexeme?`), and it always takes something (`length_lexeme?`).

A `*` that has no operand on its left is not a multiplication but a splice (`tagSplices`): it
spreads the value after it into the list of operands around it.
-/

namespace RollTray.Formula

inductive Operator where
  | add
  | sub
  | mul
  | div
  deriving DecidableEq, Repr

def Operator.symbol : Operator → String
  | add => "+"
  | sub => "-"
  | mul => "*"
  | div => "/"

/-- How tightly an operator binds. -/
def Operator.precedence : Operator → Nat
  | add => 1
  | sub => 1
  | mul => 2
  | div => 2

inductive Token where
  /-- A number as it is written: digits, perhaps with a point and more digits. -/
  | number (digits : String)
  /-- The name of a function, in small letters. -/
  | name (letters : String)
  /-- The place of a dice group, by the digits of its index. -/
  | place (index : String)
  | operator (op : Operator)
  | splice
  | opening
  | closing
  | comma
  deriving DecidableEq, Repr

namespace Token

/-- The token's text as messages show it. -/
def text : Token → String
  | number digits => digits
  | name letters => letters
  | place index => index
  | operator op => op.symbol
  | splice => "*"
  | opening => "("
  | closing => ")"
  | comma => ","

/-- A token that may be the first of an operand. -/
def startsOperand : Token → Bool
  | number _ => true
  | name _ => true
  | place _ => true
  | splice => true
  | opening => true
  | _ => false

/-- A token that may be the last of an operand. -/
def endsOperand : Token → Bool
  | number _ => true
  | place _ => true
  | closing => true
  | _ => false

/-- A token before which an operand must have ended. -/
def followsOperand : Token → Bool
  | operator _ => true
  | closing => true
  | comma => true
  | _ => false

def isName : Token → Bool
  | name _ => true
  | _ => false

/-- A token after which a star is a splice. -/
def invitesSplice : Token → Bool
  | operator _ => true
  | splice => true
  | opening => true
  | comma => true
  | _ => false

end Token

/-! ## Lexemes -/

/-- A number at the start of a text that begins with a digit: digits, and a point with the digits
after it if there is one. -/
def takeNumber (cs : List Char) : List Char × List Char :=
  let whole := cs.takeWhile Text.isDigit
  match cs.dropWhile Text.isDigit with
  | '.' :: rest => (whole ++ '.' :: rest.takeWhile Text.isDigit, rest.dropWhile Text.isDigit)
  | rest => (whole, rest)

/-- The index of a dice group's place after its opening `__G`, up to the two underscores that
close it. -/
def takePlace? (cs : List Char) : Option (List Char × List Char) :=
  match cs.takeWhile Text.isDigit, cs.dropWhile Text.isDigit with
  | [], _ => none
  | index, '_' :: '_' :: rest => some (index, rest)
  | _, _ => none

/-- The place of a dice group, which stands between `__G` and `__`. -/
def takePlaceToken? : List Char → Option (Token × List Char)
  | '_' :: '_' :: g :: rest =>
    if g = 'G' || g = 'g' then
      (takePlace? rest).map fun found => (.place (String.ofList found.1), found.2)
    else none
  | _ => none

/-- The token of a single symbol. -/
def symbol? : Char → Option Token
  | '+' => some (.operator .add)
  | '-' => some (.operator .sub)
  | '*' => some (.operator .mul)
  | '/' => some (.operator .div)
  | '(' => some .opening
  | ')' => some .closing
  | ',' => some .comma
  | _ => none

/-- The token at the start of a text, and the rest of the text. -/
def lexeme? : List Char → Option (Token × List Char)
  | [] => none
  | c :: cs =>
    if Text.isDigit c then
      let (digits, rest) := takeNumber (c :: cs)
      some (.number (String.ofList digits), rest)
    else if Text.isLetter c then
      some (.name (String.ofList ((c :: cs).takeWhile Text.isLetter |>.map Text.toLowerAscii)),
        (c :: cs).dropWhile Text.isLetter)
    else if c = '_' then takePlaceToken? (c :: cs)
    else (symbol? c).map (·, cs)

theorem takeNumber_append (cs : List Char) : (takeNumber cs).1 ++ (takeNumber cs).2 = cs := by
  rw [takeNumber]
  split
  · next rest h =>
    simp only [List.append_assoc, List.cons_append, List.takeWhile_append_dropWhile]
    rw [← h, List.takeWhile_append_dropWhile]
  · next h => exact List.takeWhile_append_dropWhile

theorem takePlace?_append {cs index rest : List Char} (h : takePlace? cs = some (index, rest)) :
    index ++ '_' :: '_' :: rest = cs := by
  have hcs : cs.takeWhile Text.isDigit ++ cs.dropWhile Text.isDigit = cs :=
    List.takeWhile_append_dropWhile
  rw [takePlace?] at h
  generalize cs.takeWhile Text.isDigit = front at h hcs
  generalize cs.dropWhile Text.isDigit = back at h hcs
  split at h
  · simp at h
  · obtain ⟨rfl, rfl⟩ := Prod.mk.injEq .. ▸ Option.some.injEq .. ▸ h
    exact hcs
  · simp at h

theorem exists_of_takePlaceToken? {cs rest : List Char} {token : Token}
    (h : takePlaceToken? cs = some (token, rest)) : ∃ taken, taken ≠ [] ∧ taken ++ rest = cs := by
  rw [takePlaceToken?.eq_def] at h
  split at h
  · next g tail =>
    split at h
    · rw [Option.map_eq_some_iff] at h
      obtain ⟨⟨index, after⟩, hfound, heq⟩ := h
      obtain ⟨-, rfl⟩ := Prod.mk.injEq .. ▸ heq
      refine ⟨'_' :: '_' :: g :: index ++ ['_', '_'], by simp, ?_⟩
      simp [← takePlace?_append hfound]
    · simp at h
  · simp at h

/-- A lexeme takes at least one character, from the front, and leaves the rest as it is. -/
theorem exists_of_lexeme? {cs rest : List Char} {token : Token}
    (h : lexeme? cs = some (token, rest)) : ∃ taken, taken ≠ [] ∧ taken ++ rest = cs := by
  cases cs with
  | nil => simp [lexeme?] at h
  | cons c cs =>
    rw [lexeme?] at h
    split at h
    · next hc =>
      obtain ⟨-, rfl⟩ := Prod.mk.injEq .. ▸ Option.some.injEq .. ▸ h
      refine ⟨(takeNumber (c :: cs)).1, ?_, takeNumber_append _⟩
      rw [takeNumber]
      split <;> simp [hc]
    · split at h
      · next hc =>
        obtain ⟨-, rfl⟩ := Prod.mk.injEq .. ▸ Option.some.injEq .. ▸ h
        exact ⟨(c :: cs).takeWhile Text.isLetter, by simp [hc], List.takeWhile_append_dropWhile⟩
      · split at h
        · exact exists_of_takePlaceToken? h
        · rw [Option.map_eq_some_iff] at h
          obtain ⟨symbol, -, heq⟩ := h
          obtain ⟨-, rfl⟩ := Prod.mk.injEq .. ▸ heq
          exact ⟨[c], by simp, rfl⟩

theorem length_lexeme? {cs rest : List Char} {token : Token}
    (h : lexeme? cs = some (token, rest)) : rest.length < cs.length := by
  obtain ⟨taken, hne, rfl⟩ := exists_of_lexeme? h
  have := List.length_pos_iff.2 hne
  simp only [List.length_append]
  omega

/-- A lexeme after white space leaves less than the whole text. -/
theorem length_lexeme?_dropWhile {cs rest : List Char} {token : Token}
    (h : lexeme? (cs.dropWhile Text.isSpace) = some (token, rest)) : rest.length < cs.length :=
  Nat.lt_of_lt_of_le (length_lexeme? h) (cs.dropWhile_sublist Text.isSpace).length_le

/-! ## Reading a whole text -/

/-- The tokens of a text that does not end in white space and starts at a position of a longer
one. The position of an error is that of the white space before the character. -/
def scan (position : Nat) (cs : List Char) : Except EvaluationError (List Token) :=
  match cs with
  | [] => .ok []
  | c :: tail =>
    match hlex : lexeme? ((c :: tail).dropWhile Text.isSpace) with
    | none => .error (.unexpectedCharacter c position)
    | some (token, rest) =>
      have := length_lexeme?_dropWhile hlex
      match scan (position + ((c :: tail).length - rest.length)) rest with
      | .ok tokens => .ok (token :: tokens)
      | .error e => .error e
termination_by cs.length
decreasing_by all_goals (simp only [List.length_cons] at *; omega)

/-- The tokens of an expression. Blanks at its end do not count. -/
def tokenize (expression : String) : Except EvaluationError (List Token) :=
  scan 0 (Text.trimEnd expression.toList)

/-- Tags the splices among tokens that follow a given one. -/
def tagSplicesAfter : Option Token → List Token → List Token
  | _, [] => []
  | previous, token :: tokens =>
    let tagged :=
      if token = .operator .mul && (previous.all Token.invitesSplice) then .splice else token
    tagged :: tagSplicesAfter (some tagged) tokens

/-- Tags every star that has no operand on its left as a splice. -/
def tagSplices (tokens : List Token) : List Token :=
  tagSplicesAfter none tokens

end RollTray.Formula
