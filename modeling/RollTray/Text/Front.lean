/-!
# The front of a text

`skip?` takes a word from the front of a text. It succeeds exactly on the texts that start with the
word (`skip?_append`, `eq_append_of_skip?`).
-/

namespace RollTray.Text

/-- The rest of a text that starts with a word. -/
def skip? : List Char → List Char → Option (List Char)
  | [], cs => some cs
  | _ :: _, [] => none
  | w :: word, c :: cs => if w = c then skip? word cs else none

theorem skip?_append (word rest : List Char) : skip? word (word ++ rest) = some rest := by
  induction word with
  | nil => rfl
  | cons w word ih => simp [skip?, ih]

theorem eq_append_of_skip? {word cs rest : List Char} (h : skip? word cs = some rest) :
    cs = word ++ rest := by
  induction word generalizing cs with
  | nil =>
    rw [skip?] at h
    exact Option.some.inj h
  | cons w word ih =>
    cases cs with
    | nil => simp [skip?] at h
    | cons c cs =>
      rw [skip?] at h
      split at h
      · next hc => rw [hc, ih h, List.cons_append]
      · simp at h

theorem length_skip? {word cs rest : List Char} (h : skip? word cs = some rest) :
    rest.length + word.length = cs.length := by
  rw [eq_append_of_skip? h, List.length_append, Nat.add_comm]

end RollTray.Text
