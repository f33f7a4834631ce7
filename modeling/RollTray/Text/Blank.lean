/-!
# Blank characters

Three classes of white space. `isSpace` is the six ASCII characters a formula may hold between its
tokens; `isBlank` is the full Unicode class, which `trimEnd` removes from the end of a text; and
`isMargin` is what may stand around a number and `trimMargins` removes. Every space is blank
(`isBlank_of_isSpace`), and what `trimEnd` leaves is a prefix of the text that ends in no blank
(`trimEnd_append`, `getLast?_trimEnd`).
-/

namespace RollTray.Text

/-- The ASCII white space: tab, line feed, vertical tab, form feed, carriage return and blank. -/
def isSpace (c : Char) : Bool :=
  c = ' ' || (9 ≤ c.toNat && c.toNat ≤ 13)

/-- The white space of Unicode, with the four ASCII separators (28 to 31). -/
def isBlank (c : Char) : Bool :=
  let n := c.toNat
  isSpace c || (28 ≤ n && n ≤ 31) || n = 0x85 || n = 0xa0 || n = 0x1680 ||
    (0x2000 ≤ n && n ≤ 0x200a) || n = 0x2028 || n = 0x2029 || n = 0x202f || n = 0x205f ||
    n = 0x3000

theorem isBlank_of_isSpace {c : Char} (h : isSpace c = true) : isBlank c = true := by
  simp [isBlank, h]

/-- The text without the blanks at its end. -/
def trimEnd : List Char → List Char
  | [] => []
  | c :: cs =>
    match trimEnd cs with
    | [] => if isBlank c then [] else [c]
    | rest => c :: rest

/-- The blanks that may stand around a number: all but the four separators. -/
def isMargin (c : Char) : Bool :=
  isBlank c && !(28 ≤ c.toNat && c.toNat ≤ 31)

/-- The text without the margins at either end. -/
def trimMargins (cs : List Char) : List Char :=
  ((cs.dropWhile isMargin).reverse.dropWhile isMargin).reverse

/-- A text of blanks only, or none at all. -/
def isAllBlank (cs : List Char) : Bool :=
  cs.all isBlank

theorem trimEnd_cons (c : Char) (cs : List Char) :
    trimEnd (c :: cs) =
      if trimEnd cs = [] then (if isBlank c then [] else [c]) else c :: trimEnd cs := by
  rw [trimEnd]
  split
  · next h => simp [h]
  · next h => rw [if_neg h]

/-- What `trimEnd` takes away is blank, and it takes it from the end. -/
theorem trimEnd_append (cs : List Char) :
    ∃ tail, (∀ c ∈ tail, isBlank c = true) ∧ trimEnd cs ++ tail = cs := by
  induction cs with
  | nil => exact ⟨[], by simp [trimEnd]⟩
  | cons c cs ih =>
    obtain ⟨tail, hblank, htail⟩ := ih
    rw [trimEnd_cons]
    by_cases hrest : trimEnd cs = []
    · by_cases hc : isBlank c = true
      · refine ⟨c :: tail, ?_, ?_⟩
        · intro d hd
          rcases List.mem_cons.1 hd with rfl | hd
          · exact hc
          · exact hblank d hd
        · simpa [hrest, hc] using htail
      · exact ⟨tail, hblank, by simpa [hrest, hc] using htail⟩
    · exact ⟨tail, hblank, by simp [hrest, htail]⟩

/-- The last character that `trimEnd` leaves is no blank. -/
theorem getLast?_trimEnd {cs : List Char} {c : Char} (h : (trimEnd cs).getLast? = some c) :
    isBlank c = false := by
  induction cs with
  | nil => simp [trimEnd] at h
  | cons d cs ih =>
    rw [trimEnd_cons] at h
    by_cases hrest : trimEnd cs = []
    · by_cases hd : isBlank d = true
      · simp [hrest, hd] at h
      · simp [hrest, hd] at h
        simpa [← h] using hd
    · simp only [hrest, if_false, List.getLast?_cons] at h
      apply ih
      obtain ⟨e, he⟩ := Option.isSome_iff_exists.1 (List.getLast?_isSome.2 hrest)
      simp [he] at h
      simp [he, h]

end RollTray.Text
