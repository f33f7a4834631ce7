import RollTray.Proofs.Tray.Settling

/-!
# Ticks that may be interfered with

What ticks do to a tray if whoever is told of a result may roll and cancel in turn, and anything may
fail: it is all made up of changes (`tick_does`, `run_does`).
-/

namespace RollTray.Tray

variable {ω : Type} [World ω] {S : Setting ω} {owed : Owed} {t : Tray ω} {notify : Notify ω}

/-- The ids of rolls. -/
def Ids (S : Setting ω) (ids : List Value) : Prop :=
  ∀ id ∈ ids, ∃ serial, id = S.id serial

omit [World ω] in
theorem mem_distinct {id : Value} {ids : List Value} (h : id ∈ distinct ids) : id ∈ ids := by
  induction ids with
  | nil => exact h
  | cons first rest ih =>
    rcases List.mem_cons.1 h with rfl | h
    · exact List.mem_cons_self ..
    · exact List.mem_cons_of_mem _ (ih (List.mem_filter.1 h).1)

theorem finish_does (hn : Heeds S notify) (hexact : ¬S.Exact) (serial : Nat) :
    Does S owed t (finish notify (S.id serial)) fun _ _ _ => True := by
  intro ho _
  cases hfind : t.find? (S.id serial) with
  | none =>
    have hremove : Does S owed t (do removeDice (S.id serial); return false) fun _ _ _ => True :=
      .bind (takeOff_does _ fun h => absurd h hexact) fun _ _ _ _ _ => .pure trivial
    have hperform : (finish notify (S.id serial)).perform t =
        (do removeDice (S.id serial); return false : Attempt (Tray ω) Bool).perform t := by
      rw [finish, Attempt.perform_bind_of_ok (Attempt.perform_get t), hfind]
    rw [hperform]
    exact hremove ho fun h => absurd h hexact
  | some r =>
    obtain ⟨hr, rfl⟩ := find?_history ho hfind
    by_cases hready : t.Ready r
    · obtain ⟨record, ⟨change, hid, _, _, hperform⟩ | ⟨fault, change, hperform⟩⟩ :=
        finish_of_ready notify ho hr hready
      · have ho' := (change [] (.inl rfl)).orderly ho
        rw [List.append_nil] at ho'
        obtain ⟨owed', trace, _⟩ := hn.exists_trace_of_last .resolved
          ⟨_, hid.trans (ho.id_eq (List.mem_append_left _ hr))⟩ true ho' change
        rw [hperform]
        exact ⟨owed', trace, fun _ _ => trivial⟩
      · rw [hperform]
        exact ⟨owed, change.trace fun h => absurd h hexact, fun _ _ => trivial⟩
    · rw [finish_of_not_ready notify ho hr hready]
      exact ⟨owed, .refl, fun _ _ => trivial⟩

theorem finishAll_does (hn : Heeds S notify) (hexact : ¬S.Exact) {ids : List Value}
    (hids : Ids S ids) : Does S owed t (finishAll notify ids) fun _ _ _ => True := by
  induction ids generalizing t owed with
  | nil => exact .pure trivial
  | cons id rest ih =>
    obtain ⟨serial, rfl⟩ := hids id (List.mem_cons_self ..)
    refine .get (.bind (finish_does hn hexact serial) fun done owed₁ t₁ _ _ => ?_)
    refine .bind (ih fun id hid => hids id (List.mem_cons_of_mem _ hid)) fun later owed₂ t₂ _ _ => ?_
    exact .pure trivial

theorem poll_does (hexact : ¬S.Exact) : Does S owed t poll fun ids _ _ => Ids S ids := by
  intro ho _
  refine ⟨owed, (poll_change ho).trace fun h => absurd h hexact, fun ids hids id hid => ?_⟩
  obtain ⟨d, hd, rfl⟩ := pollDice_mem _ _ _ _ _ hids id hid
  obtain ⟨r, _, hroll⟩ := ho.dice d hd
  exact ⟨r.serial, hroll⟩

/-- Time passes and all dice are looked at. -/
theorem watch_does (hexact : ¬S.Exact) (dt : Num) :
    Does S owed t (watch dt) fun ids _ _ => Ids S ids :=
  .bind (proceed_does dt) fun _ _ _ _ _ => poll_does hexact

theorem tick_does (hn : Heeds S notify) (hexact : ¬S.Exact) (dt : Num) :
    Does S owed t (tick notify dt) fun _ _ _ => True := by
  refine .bind (watch_does hexact dt) fun ids _ _ _ hids => ?_
  refine .lift fun sorted hsort => finishAll_does hn hexact fun id hid => ?_
  exact hids id (mem_distinct ((Order.sortBy_perm hsort).mem_iff.1 hid))

theorem run_does (hn : Heeds S notify) (hexact : ¬S.Exact) (dt : Num) (limit : Nat) :
    Does S owed t (run notify dt limit) fun _ _ _ => True := by
  suffices h : ∀ ticks, Does S owed t (run.go notify dt ticks limit) fun _ _ _ => True from h 0
  induction limit generalizing t owed with
  | zero => exact fun ticks => .pure trivial
  | succ limit ih =>
    intro ticks
    refine .get ?_
    split
    · exact .pure trivial
    · exact .bind (.discard (tick_does hn hexact dt)) fun _ _ _ _ _ => ih (ticks + 1)

/-- Looks at the dice and gives the rolls their results that are complete: what a tick does when the world
has moved. -/
def survey (notify : Notify ω) : Attempt (Tray ω) (List Value) := do
  finishAll notify (← Order.sortBy Value.lt (distinct (← poll)))

theorem tick_eq (notify : Notify ω) (dt : Num) :
    tick notify dt = (do proceed dt; survey notify) := by
  simp only [tick, watch, survey, bind_assoc]

end RollTray.Tray
