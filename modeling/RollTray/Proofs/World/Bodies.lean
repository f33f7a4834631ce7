import RollTray.Proofs.World.Footings

/-!
# Finding bodies

What is done to one body of a world leaves the others as they are, as each is found under its own
handle (`find?_set_of_ne`, `find?_erase_of_ne`, `find?_append_of_some`).
-/

namespace RollTray.Bodies

variable {β : Type} {handle other : Nat} {bodies : Bodies β}

theorem find?_isSome_iff : (find? handle bodies).isSome = true ↔ handle ∈ bodies.handles := by
  rw [find?, List.lookup_isSome_iff, handles, List.mem_map]
  refine exists_congr fun entry => and_congr_right fun _ => ?_
  rw [beq_iff_eq, eq_comm]

theorem exists_find? (h : handle ∈ bodies.handles) : ∃ body, find? handle bodies = some body :=
  Option.isSome_iff_exists.1 (find?_isSome_iff.2 h)

theorem find?_eq_none (h : handle ∉ bodies.handles) : find? handle bodies = none :=
  Option.not_isSome_iff_eq_none.1 fun hsome => h (find?_isSome_iff.1 hsome)

theorem get_eq_ok {body : β} : bodies.get handle = .ok body ↔ find? handle bodies = some body := by
  rw [get]
  cases find? handle bodies <;> simp

/-- What is asked of the body of a handle is known just if there is one. -/
theorem ask_eq_ok {α : Type} {f : β → α} {x : α} :
    (do return f (← bodies.get handle) : Except Fault α) = .ok x ↔
      ∃ body, find? handle bodies = some body ∧ f body = x := by
  rw [bind_eq_ok]
  simp only [get_eq_ok, pure_eq_ok]

theorem ask_congr {α : Type} {bodies' : Bodies β} (f : β → α)
    (h : find? handle bodies' = find? handle bodies) :
    (do return f (← bodies'.get handle) : Except Fault α) = do return f (← bodies.get handle) := by
  rw [get, get, h]

theorem find?_append_of_some {body : β} (h : find? handle bodies = some body) (more : Bodies β) :
    find? handle (bodies ++ more) = some body := by
  rw [find?] at h ⊢
  rw [List.lookup_append, h, Option.some_or]

theorem find?_append_of_ne (h : other ≠ handle) (body : β) :
    find? other (bodies ++ [(handle, body)]) = find? other bodies := by
  rw [find?, find?, List.lookup_append, List.lookup_cons, beq_false_of_ne h]
  exact Option.or_none ..

theorem find?_append_self (h : handle ∉ bodies.handles) (body : β) :
    find? handle (bodies ++ [(handle, body)]) = some body := by
  have hnone := find?_eq_none h
  rw [find?] at hnone ⊢
  rw [List.lookup_append, hnone, Option.none_or, List.lookup_cons, beq_self_eq_true]

theorem find?_erase_of_ne (h : other ≠ handle) (bodies : Bodies β) :
    find? other (bodies.erase handle) = find? other bodies := by
  rw [find?, find?, erase]
  induction bodies with
  | nil => rfl
  | cons entry rest ih =>
    obtain ⟨key, body⟩ := entry
    by_cases hkey : key = handle
    · rw [List.filter_cons_of_neg (by simp [hkey]), List.lookup_cons,
        beq_false_of_ne (hkey ▸ h), ih]
    · rw [List.filter_cons_of_pos (by simp [hkey]), List.lookup_cons, List.lookup_cons, ih]

theorem find?_erase_self (handle : Nat) (bodies : Bodies β) :
    find? handle (bodies.erase handle) = none := by
  refine find?_eq_none fun hmem => ?_
  obtain ⟨entry, hentry, heq⟩ := List.mem_map.1 hmem
  have hne := (List.mem_filter.1 hentry).2
  rw [heq] at hne
  simp at hne

theorem find?_set_of_ne (h : other ≠ handle) (body : β) (bodies : Bodies β) :
    find? other (bodies.set handle body) = find? other bodies := by
  rw [find?, find?, set]
  induction bodies with
  | nil => rfl
  | cons entry rest ih =>
    obtain ⟨key, old⟩ := entry
    by_cases hkey : key = handle
    · rw [List.map_cons, if_pos (by simp [hkey]), List.lookup_cons, List.lookup_cons, hkey,
        beq_false_of_ne h, ih]
    · rw [List.map_cons, if_neg (by simp [hkey]), List.lookup_cons, List.lookup_cons, ih]

theorem find?_set_self {old : β} (h : find? handle bodies = some old) (body : β) :
    find? handle (bodies.set handle body) = some body := by
  rw [find?] at h ⊢
  rw [set]
  induction bodies with
  | nil => cases h
  | cons entry rest ih =>
    obtain ⟨key, first⟩ := entry
    by_cases hkey : key = handle
    · rw [List.map_cons, if_pos (by simp [hkey]), List.lookup_cons, beq_self_eq_true]
    · rw [List.lookup_cons, beq_false_of_ne (Ne.symm hkey)] at h
      rw [List.map_cons, if_neg (by simp [hkey]), List.lookup_cons,
        beq_false_of_ne (Ne.symm hkey)]
      exact ih h

theorem set_set (handle : Nat) (first second : β) (bodies : Bodies β) :
    (bodies.set handle first).set handle second = bodies.set handle second := by
  rw [set, set, set, List.map_map]
  refine List.map_congr_left fun entry _ => ?_
  by_cases h : entry.1 = handle
  · simp [h]
  · simp [h]

/-- What is found of a body that is changed depends on what was found of it. -/
theorem find?_set_congr {bodies' : Bodies β}
    (h : find? handle bodies = find? handle bodies') (body : β) :
    find? handle (bodies.set handle body) = find? handle (bodies'.set handle body) := by
  cases hfind : find? handle bodies with
  | some old => rw [find?_set_self hfind, find?_set_self (h.symm.trans hfind)]
  | none =>
    have hnone : ∀ {bodies : Bodies β}, find? handle bodies = none →
        find? handle (bodies.set handle body) = none := by
      intro bodies hfind
      refine find?_eq_none fun hmem => ?_
      rw [handles_set, ← find?_isSome_iff, hfind] at hmem
      cases hmem
    rw [hnone hfind, hnone (h.symm.trans hfind)]

end RollTray.Bodies
