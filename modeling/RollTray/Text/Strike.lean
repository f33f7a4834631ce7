/-!
# Struck-through text

A text marks what is struck through by `<del>` and `</del>`. `toMarkdown` replaces the tags of
every pair by `~~`: a pass replaces the innermost pairs, and passes are made until one changes
nothing. A pair does not span lines, and a tag without a partner stays. A pass that changes a text
makes it shorter (`pass_eq_or_length_lt`), so the passes come to an end.
-/

namespace RollTray.Text.Strike

def openTag : List Char := "<del>".toList

def closeTag : List Char := "</del>".toList

def mark : List Char := "~~".toList

/-- What is struck through after an opening tag: all up to the first closing tag, and the text
after it. There must be no other opening tag and no end of line in between. -/
def inside? : List Char → Option (List Char × List Char)
  | [] => none
  | c :: cs =>
    if closeTag.isPrefixOf (c :: cs) then some ([], (c :: cs).drop closeTag.length)
    else if c = '\n' || openTag.isPrefixOf (c :: cs) then none
    else (inside? cs).map fun found => (c :: found.1, found.2)

/-- What an opening tag at the start of a text strikes through, and the text after it. -/
def pair? (cs : List Char) : Option (List Char × List Char) :=
  if openTag.isPrefixOf cs then inside? (cs.drop openTag.length) else none

theorem length_inside? {cs content rest : List Char} (h : inside? cs = some (content, rest)) :
    content.length + closeTag.length + rest.length = cs.length := by
  induction cs generalizing content with
  | nil => simp [inside?] at h
  | cons c cs ih =>
    rw [inside?] at h
    split at h
    · next hclose =>
      obtain ⟨rfl, rfl⟩ := Prod.mk.injEq .. ▸ Option.some.injEq .. ▸ h
      have := (List.isPrefixOf_iff_prefix.1 hclose).length_le
      simp only [List.length_nil, List.length_drop]
      omega
    · split at h
      · simp at h
      · rw [Option.map_eq_some_iff] at h
        obtain ⟨⟨before, after⟩, hfound, heq⟩ := h
        obtain ⟨rfl, rfl⟩ := Prod.mk.injEq .. ▸ heq
        have hlen := ih hfound
        simp only [List.length_cons] at hlen ⊢
        omega

theorem length_pair? {cs content rest : List Char} (h : pair? cs = some (content, rest)) :
    content.length + rest.length + openTag.length + closeTag.length = cs.length := by
  rw [pair?] at h
  split at h
  · next hopen =>
    have hle := (List.isPrefixOf_iff_prefix.1 hopen).length_le
    have hin := length_inside? h
    simp only [List.length_drop] at hin
    omega
  · simp at h

theorem length_rest_of_pair? {cs content rest : List Char} (h : pair? cs = some (content, rest)) :
    rest.length < cs.length := by
  have hlen := length_pair? h
  have hopen : 0 < openTag.length := by decide
  omega

/-- Replaces the tags of the innermost pairs. -/
def pass (cs : List Char) : List Char :=
  match cs with
  | [] => []
  | c :: tail =>
    match hpair : pair? (c :: tail) with
    | some (content, rest) =>
      have := length_rest_of_pair? hpair
      mark ++ content ++ mark ++ pass rest
    | none => c :: pass tail
termination_by cs.length
decreasing_by all_goals (simp only [List.length_cons] at *; omega)

theorem pass_eq_or_length_lt (cs : List Char) :
    pass cs = cs ∨ (pass cs).length < cs.length := by
  fun_induction pass cs with
  | case1 => exact .inl rfl
  | case2 c tail content rest hpair _ ih =>
    right
    have hlen := length_pair? hpair
    have hrest : (pass rest).length ≤ rest.length := by
      rcases ih with h | h
      · exact Nat.le_of_eq (congrArg List.length h)
      · omega
    simp only [openTag, closeTag, mark, List.length_append, List.length_cons] at hlen ⊢
    simp at hlen ⊢
    omega
  | case3 c tail _ ih =>
    rcases ih with h | h
    · exact .inl (by rw [h])
    · exact .inr (by simpa using h)

/-- Replaces the tags of all pairs. -/
def replaceAll (cs : List Char) : List Char :=
  if h : pass cs = cs then cs
  else
    have := (pass_eq_or_length_lt cs).resolve_left h
    replaceAll (pass cs)
termination_by cs.length

/-- The text with Markdown's marks for what is struck through. -/
def toMarkdown (s : String) : String :=
  String.ofList (replaceAll s.toList)

end RollTray.Text.Strike
