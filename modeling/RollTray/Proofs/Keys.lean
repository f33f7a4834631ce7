import RollTray.Proofs.Number.Order
import RollTray.Value

/-!
# Values as keys

Equality of values that may be keys depends on what they stand for alone (`Value.key?`): null, a text or
a point of the line of numbers. So it goes on from one value to the next as soon as one of the two may be a
key (`same_iff`, `same_congr`), where the float that is no number equals nothing. Whether a value is among
others depends on that too (`among_iff`).
-/

namespace RollTray

theorem Num.same_iff_point {m n : Num} :
    m.same n = true ↔ m.isNaN = false ∧ n.isNaN = false ∧ m.point = n.point := by
  refine ⟨fun h => ?_, fun ⟨hm, hn, h⟩ => (same_iff hm hn).2 h⟩
  obtain ⟨hm, hn⟩ := isNaN_of_le (a := m) (b := n) (by rw [le_eq, h, Bool.or_true])
  exact ⟨hm, hn, (same_iff hm hn).1 h⟩

namespace Value

theorem isNull_iff {v : Value} : v.isNull = true ↔ v = .null := by
  cases v <;> simp [isNull]

theorem lt_of_num {a b : Value} {m n : Num} (ha : a.num? = some m) (hb : b.num? = some n) :
    a.lt b = .ok (m.lt n) := by
  cases a <;> cases ha <;> cases b <;> cases hb <;> rfl

theorem same_of_num {a b : Value} {m n : Num} (ha : a.num? = some m) (hb : b.num? = some n) :
    a.same b = m.same n := by
  cases a <;> cases ha <;> cases b <;> cases hb <;> rfl

/-- What a value stands for as a key. -/
inductive Key where
  | null
  | text (s : String)
  | number (x : WithBot (WithTop ℚ))

/-- What a value stands for as a key. Lists and objects may be no keys, and what is no number is equal to
none. -/
def key? (v : Value) : Option Key :=
  match v.num? with
  | some n => if n.isNaN then none else some (.number n.point)
  | none =>
    match v with
    | null => some .null
    | text s => some (.text s)
    | _ => none

theorem key?_of_num {v : Value} {n : Num} (h : v.num? = some n) {k : Key} :
    v.key? = some k ↔ n.isNaN = false ∧ k = .number n.point := by
  have hkey : v.key? = if n.isNaN then none else some (.number n.point) := by
    unfold key?
    rw [h]
  rw [hkey]
  cases n.isNaN with
  | true => simp
  | false => simpa using eq_comm

/-- What stands for something is not what is no number. -/
theorem bothUndefined_of_key? {a : Value} {k : Key} (h : a.key? = some k) (b : Value) :
    a.bothUndefined b = false := by
  cases a with
  | notANumber =>
    rw [key?_of_num rfl, show (Num.float (0.0 / 0.0)).isNaN = true by decide +kernel] at h
    cases h.1
  | _ => rfl

/-- As keys, numbers are equal if they are equal, unless they are none. -/
theorem sameKey_of_num {a b : Value} {m n : Num} (ha : a.num? = some m) (hb : b.num? = some n)
    (hm : m.isNaN = false) : a.sameKey b = m.same n := by
  have hkey : a.key? = some (.number m.point) := (key?_of_num ha).2 ⟨hm, rfl⟩
  rw [sameKey, bothUndefined_of_key? hkey, same_of_num ha hb, Bool.false_or]

/-- Only numbers stand for points. -/
theorem key?_ne_of_num {v : Value} (h : v.num? = none) (x : WithBot (WithTop ℚ)) :
    v.key? ≠ some (.number x) := by
  cases v <;> first | (cases h; done) | exact fun hkey => nomatch hkey

variable {a b : Value}

theorem isKey_of_key? {k : Key} (h : a.key? = some k) : a.isKey = true := by
  cases a with
  | list | object => cases h
  | _ => rfl

/-- Values of which one may be a key are equal just if they stand for the same. -/
theorem same_iff (h : a.isKey = true ∨ b.isKey = true) :
    a.same b = true ↔ ∃ k, a.key? = some k ∧ b.key? = some k := by
  cases hm : a.num? with
  | some m =>
    cases hn : b.num? with
    | some n =>
      rw [same_of_num hm hn, Num.same_iff_point]
      simp only [key?_of_num hm, key?_of_num hn]
      constructor
      · rintro ⟨hma, hnb, hpoint⟩
        exact ⟨.number m.point, ⟨hma, rfl⟩, hnb, by rw [hpoint]⟩
      · rintro ⟨_, ⟨hma, rfl⟩, hnb, hpoint⟩
        exact ⟨hma, hnb, Key.number.inj hpoint⟩
    | none =>
      have hne : a.same b = false := by
        cases a <;> cases hm <;> cases b <;> first | (cases hn; done) | rfl
      rw [hne]
      refine iff_of_false Bool.false_ne_true ?_
      rintro ⟨k, ha, hb⟩
      obtain ⟨_, rfl⟩ := (key?_of_num hm).1 ha
      exact key?_ne_of_num hn _ hb
  | none =>
    cases hn : b.num? with
    | some n =>
      have hne : a.same b = false := by
        cases b <;> cases hn <;> cases a <;> first | (cases hm; done) | rfl
      rw [hne]
      refine iff_of_false Bool.false_ne_true ?_
      rintro ⟨k, ha, hb⟩
      obtain ⟨_, rfl⟩ := (key?_of_num hn).1 hb
      exact key?_ne_of_num hm _ ha
    | none =>
      -- Null, texts, lists and objects are left, of which the last two are no keys.
      cases a <;> try (cases hm; done)
      all_goals cases b <;> try (cases hn; done)
      all_goals simp [same, key?, num?, isKey] at h ⊢
      exact eq_comm

theorem same_comm (h : a.isKey = true ∨ b.isKey = true) : a.same b = b.same a := by
  rw [Bool.eq_iff_iff, same_iff h, same_iff h.symm]
  exact exists_congr fun _ => and_comm

/-- What a value is equal to is what an equal one is equal to. -/
theorem same_congr (h : a.isKey = true ∨ b.isKey = true) (hab : a.same b = true) (c : Value) :
    c.same a = c.same b := by
  obtain ⟨k, ha, hb⟩ := (same_iff h).1 hab
  rw [Bool.eq_iff_iff, same_iff (.inr (isKey_of_key? ha)), same_iff (.inr (isKey_of_key? hb)), ha, hb]

/-- What is equal to a value is equal to nothing that this value is not equal to. -/
theorem not_same_of_same {c : Value} (hb : b.isKey = true) (hab : a.same b = true) (hbc : b.same c = false) :
    a.same c = false := by
  obtain ⟨k, ha, _⟩ := (same_iff (.inr hb)).1 hab
  have hkey := isKey_of_key? ha
  rw [← hbc, same_comm (.inl hkey), same_comm (.inl hb)]
  exact same_congr (.inl hkey) hab c

theorem same_self {k : Key} (h : a.key? = some k) : a.same a = true :=
  (same_iff (.inl (isKey_of_key? h))).2 ⟨k, h, h⟩

/-- A value that stands for something is among others if one of them stands for the same. -/
theorem among_iff {k : Key} (h : a.key? = some k) {others : List Value} :
    a.among others = true ↔ ∃ other ∈ others, other.key? = some k := by
  rw [among, List.any_eq_true]
  refine exists_congr fun other => and_congr_right fun _ => ?_
  rw [sameKey, bothUndefined_of_key? h, Bool.false_or, same_iff (.inl (isKey_of_key? h)), h]
  simp

/-- Of equal values either both are among others or none. -/
theorem among_of_same {k : Key} (h : a.key? = some k) (hsame : a.same b = true) (others : List Value) :
    a.among others = b.among others := by
  obtain ⟨k', ha, hb⟩ := (same_iff (.inl (isKey_of_key? h))).1 hsame
  rw [Bool.eq_iff_iff, among_iff ha, among_iff hb]

/-- The integers that values are, if all of them are integers. -/
def ints? : List Value → Option (List Int)
  | [] => some []
  | int n :: rest => (ints? rest).map (n :: ·)
  | _ => none

theorem eq_of_ints? {vs : List Value} {ns : List Int} (h : ints? vs = some ns) : vs = ns.map int := by
  fun_induction ints? vs generalizing ns with
  | case1 =>
    cases h
    rfl
  | case2 n rest ih =>
    obtain ⟨ns, hns, rfl⟩ := Option.map_eq_some_iff.1 h
    rw [ih hns, List.map_cons]
  | case3 => nomatch h

end Value

end RollTray
