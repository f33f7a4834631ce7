import RollTray.Text.Blank
import RollTray.Text.Digit
import RollTray.Text.Front

/-!
# Shorthands

`max(2d20)`, `min(2d20)` and `avg(2d20)`, a function whose only argument is one dice term, stand
for the term with a keep rule: `2d20kh1`, `2d20kl1` and `2d20ka`. The name must not continue a
word. `expand` writes out every shorthand of a text, from left to right.
-/

namespace RollTray.Formula.Shorthand

/-- The functions that make shorthands, and the keep rule that each stands for. -/
def keepRules : List (List Char × List Char) :=
  [("max".toList, "kh1".toList), ("min".toList, "kl1".toList), ("avg".toList, "ka".toList)]

/-- A count and a number of sides at the start of a text. -/
def takeDice? (cs : List Char) : Option (List Char × List Char) :=
  match cs.dropWhile Text.isDigit with
  | 'd' :: rest =>
    match rest.takeWhile Text.isDigit with
    | [] => none
    | sides => some (cs.takeWhile Text.isDigit ++ 'd' :: sides, rest.dropWhile Text.isDigit)
  | _ => none

/-- The argument of a shorthand after its opening parenthesis: one dice term, and what follows
the closing parenthesis. -/
def takeArgument? (cs : List Char) : Option (List Char × List Char) :=
  match takeDice? (cs.dropWhile Text.isSpace) with
  | none => none
  | some (dice, rest) =>
    match rest.dropWhile Text.isSpace with
    | ')' :: rest => some (dice, rest)
    | _ => none

/-- The shorthand at the start of a text, written out, and the rest of the text. -/
def take? (cs : List Char) : Option (List Char × List Char) :=
  keepRules.findSome? fun (name, rule) =>
    match Text.skip? (name ++ ['(']) cs with
    | none => none
    | some rest => (takeArgument? rest).map fun (dice, rest) => (dice ++ rule, rest)

theorem length_takeDice? {cs dice rest : List Char} (h : takeDice? cs = some (dice, rest)) :
    rest.length < cs.length := by
  rw [takeDice?] at h
  split at h
  · next tail htail =>
    have hdrop := (cs.dropWhile_sublist Text.isDigit).length_le
    have hrest := (tail.dropWhile_sublist Text.isDigit).length_le
    rw [htail] at hdrop
    simp only [List.length_cons] at hdrop
    split at h
    · simp at h
    · obtain ⟨-, rfl⟩ := Prod.mk.injEq .. ▸ Option.some.injEq .. ▸ h
      omega
  · simp at h

theorem length_takeArgument? {cs dice rest : List Char}
    (h : takeArgument? cs = some (dice, rest)) : rest.length < cs.length := by
  rw [takeArgument?] at h
  split at h
  · simp at h
  · next after hdice =>
    have hafter := length_takeDice? hdice
    have hcs := (cs.dropWhile_sublist Text.isSpace).length_le
    have hspace := (after.dropWhile_sublist Text.isSpace).length_le
    split at h
    · next tail htail =>
      obtain ⟨-, rfl⟩ := Prod.mk.injEq .. ▸ Option.some.injEq .. ▸ h
      rw [htail] at hspace
      simp only [List.length_cons] at hspace
      omega
    · simp at h

theorem length_take? {cs written rest : List Char} (h : take? cs = some (written, rest)) :
    rest.length < cs.length := by
  rw [take?] at h
  obtain ⟨⟨name, rule⟩, -, hname⟩ := List.exists_of_findSome?_eq_some h
  dsimp only at hname
  split at hname
  · simp at hname
  · next after hafter =>
    rw [Option.map_eq_some_iff] at hname
    obtain ⟨⟨dice, tail⟩, hdice, heq⟩ := hname
    obtain ⟨-, rfl⟩ := Prod.mk.injEq .. ▸ heq
    have hdice := length_takeArgument? hdice
    have hafter := Text.length_skip? hafter
    simp only at hdice ⊢
    omega

/-- Writes out the shorthands of a text; `inWord` says whether it continues a word. -/
def expandFrom (inWord : Bool) (cs : List Char) : List Char :=
  match cs with
  | [] => []
  | c :: tail =>
    match hshort : if inWord then none else take? (c :: tail) with
    | some (written, rest) =>
      have : rest.length < (c :: tail).length := by
        split at hshort
        · simp at hshort
        · exact length_take? hshort
      written ++ expandFrom false rest
    | none => c :: expandFrom (Text.isWord c) tail
termination_by cs.length
decreasing_by all_goals (simp only [List.length_cons] at *; omega)

/-- The text with its shorthands written out. -/
def expand (text : String) : String :=
  String.ofList (expandFrom false text.toList)

end RollTray.Formula.Shorthand
