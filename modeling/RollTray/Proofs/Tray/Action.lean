import RollTray.Proofs.Tray.Preservation

/-!
# What attempts do to a tray

`Does S owed t a Q` says that an attempt on an orderly tray is made up of changes, and that `Q` holds
where it gives an answer. In an exact setting only attempts that give one are looked at. There is one
rule for each way of building an attempt, first of all `Does.bind`.

What is done when something happens to a roll is a parameter of the operations of a tray. In an
exact setting it may only look on; otherwise it notes the event down and goes on with changes of its
own (`Heeds`).
-/

namespace RollTray

namespace Attempt

variable {σ α β : Type}

/-- What returns in two steps returns in each of them. -/
theorem perform_bind_eq_ok {a : Attempt σ α} {f : α → Attempt σ β} {s s'' : σ} {y : β} :
    perform (a >>= f) s = (.ok y, s'') ↔
      ∃ x s', perform a s = (.ok x, s') ∧ perform (f x) s' = (.ok y, s'') := by
  rw [perform_bind]
  rcases perform a s with ⟨fault | x, s'⟩
  · exact iff_of_false (fun h => nomatch h) fun ⟨_, _, h, _⟩ => nomatch h
  · refine ⟨fun h => ⟨x, s', rfl, h⟩, fun ⟨_, _, heq, h⟩ => ?_⟩
    cases heq
    exact h

/-- An attempt that is found to return gives an answer, and leaves the state that it leaves. -/
theorem exists_of_isOk {a : Attempt σ α} {s : σ} (h : (perform a s).1.isOk = true) :
    ∃ x, perform a s = (.ok x, (perform a s).2) := by
  rcases hperform : perform a s with ⟨fault | x, s'⟩
  · rw [hperform] at h
    cases h
  · exact ⟨x, rfl⟩

theorem perform_map (f : α → β) (a : Attempt σ α) (s : σ) :
    perform (f <$> a) s =
      match perform a s with
      | (.ok x, s) => (.ok (f x), s)
      | (.error fault, s) => (.error fault, s) :=
  perform_bind a (fun x => pure (f x)) s

theorem perform_discard (a : Attempt σ α) (s : σ) :
    perform (discard a) s =
      match perform a s with
      | (.ok _, s) => (.ok (), s)
      | (.error fault, s) => (.error fault, s) :=
  perform_map _ a s

theorem perform_discard_snd (a : Attempt σ α) (s : σ) :
    (perform (discard a) s).2 = (perform a s).2 := by
  rw [perform_discard]
  rcases perform a s with ⟨fault | x, s'⟩ <;> rfl

theorem perform_discard_eq_ok {a : Attempt σ α} {s s' : σ} :
    perform (discard a) s = (.ok (), s') ↔ ∃ x, perform a s = (.ok x, s') := by
  rw [perform_discard]
  rcases perform a s with ⟨fault | x, s''⟩
  · exact iff_of_false (fun h => nomatch h) fun ⟨_, h⟩ => nomatch h
  · simp

end Attempt

namespace Tray

variable {ω : Type}

/-- The tray with an event noted down. -/
def noted (t : Tray ω) (event : Event) (r : Record) : Tray ω :=
  { t with journal := t.journal ++ [.happened event r.id r.result] }

variable [World ω]

/-- An attempt makes changes, and where it gives an answer this is so. -/
def Does {α : Type} (S : Setting ω) (owed : Owed) (t : Tray ω) (a : Attempt (Tray ω) α)
    (Q : α → Owed → Tray ω → Prop) : Prop :=
  Orderly S owed t → (S.Exact → ∃ x, (a.perform t).1 = .ok x) →
    ∃ owed', Trace S t owed (a.perform t).2 owed' ∧
      ∀ x, (a.perform t).1 = .ok x → Q x owed' (a.perform t).2

variable {α β : Type} {S : Setting ω} {owed : Owed} {t : Tray ω}

namespace Does

theorem mono {a : Attempt (Tray ω) α} {Q R : α → Owed → Tray ω → Prop} (h : Does S owed t a Q)
    (hQ : ∀ x owed' t', Trace S t owed t' owed' → Q x owed' t' → R x owed' t') :
    Does S owed t a R := by
  intro ho hreturns
  obtain ⟨owed', trace, hanswer⟩ := h ho hreturns
  exact ⟨owed', trace, fun x hx => hQ x owed' _ trace (hanswer x hx)⟩

/-- What an attempt does may be shown with the tray known to be orderly. -/
theorem of_orderly {a : Attempt (Tray ω) α} {Q : α → Owed → Tray ω → Prop}
    (h : Orderly S owed t → Does S owed t a Q) : Does S owed t a Q :=
  fun ho => h ho ho

theorem pure {x : α} {Q : α → Owed → Tray ω → Prop} (h : Q x owed t) :
    Does S owed t (Pure.pure x) Q := by
  intro _ _
  refine ⟨owed, .refl, fun y hy => ?_⟩
  cases hy
  exact h

theorem throw (fault : Fault) {Q : α → Owed → Tray ω → Prop} :
    Does S owed t (MonadExcept.throw fault) Q := by
  intro _ _
  exact ⟨owed, .refl, fun _ h => nomatch h⟩

theorem bind {a : Attempt (Tray ω) α} {f : α → Attempt (Tray ω) β} {Q : α → Owed → Tray ω → Prop}
    {R : β → Owed → Tray ω → Prop} (ha : Does S owed t a Q)
    (hf : ∀ x owed' t', Trace S t owed t' owed' → Q x owed' t' → Does S owed' t' (f x) R) :
    Does S owed t (a >>= f) R := by
  intro ho hreturns
  rw [Attempt.perform_bind] at hreturns ⊢
  rcases hperform : a.perform t with ⟨fault | x, t'⟩
  · have hexact : ¬S.Exact := fun hexact => by
      obtain ⟨y, hy⟩ := hreturns hexact
      rw [hperform] at hy
      cases hy
    obtain ⟨owed', trace, _⟩ := ha ho fun h => absurd h hexact
    rw [hperform] at trace
    exact ⟨owed', trace, fun _ h => nomatch h⟩
  · obtain ⟨owed', trace, hanswer⟩ := ha ho fun _ => ⟨x, by rw [hperform]⟩
    rw [hperform] at trace hanswer hreturns
    obtain ⟨owed'', trace', hanswer'⟩ :=
      hf x owed' t' trace (hanswer x rfl) (trace.orderly ho) hreturns
    exact ⟨owed'', trace.trans trace', hanswer'⟩

/-- An attempt that starts by reading the tray. -/
theorem get {f : Tray ω → Attempt (Tray ω) β} {R : β → Owed → Tray ω → Prop}
    (h : Does S owed t (f t) R) : Does S owed t (MonadState.get >>= f) R := by
  intro ho hreturns
  rw [Attempt.perform_bind] at hreturns ⊢
  exact h ho hreturns

theorem lift {x : Except Fault α} {f : α → Attempt (Tray ω) β} {R : β → Owed → Tray ω → Prop}
    (h : ∀ a, x = .ok a → Does S owed t (f a) R) :
    Does S owed t ((liftM x : Attempt (Tray ω) α) >>= f) R := by
  intro ho hreturns
  rw [Attempt.perform_bind, Attempt.perform_lift] at hreturns ⊢
  cases x with
  | error fault => exact ⟨owed, .refl, fun _ h => nomatch h⟩
  | ok a => exact h a rfl ho hreturns

/-- An attempt whose answer and tray are known. -/
theorem of_perform {a : Attempt (Tray ω) α} {answer : Except Fault α} {t' : Tray ω} {owed' : Owed}
    {Q : α → Owed → Tray ω → Prop} (hperform : a.perform t = (answer, t'))
    (trace : Trace S t owed t' owed') (h : ∀ x, answer = .ok x → Q x owed' t') :
    Does S owed t a Q := by
  intro _ _
  rw [hperform]
  exact ⟨owed', trace, h⟩

theorem of_change {f : Tray ω → Tray ω} {owed' : Owed} (change : Change S .calm t owed (f t) owed') :
    Does S owed t (modify f) fun _ owed'' t' => owed'' = owed' ∧ t' = f t :=
  of_perform (Attempt.perform_modify f t) (change.trace fun _ => rfl) fun _ _ => ⟨rfl, rfl⟩

theorem discard {a : Attempt (Tray ω) α} {Q : α → Owed → Tray ω → Prop} (h : Does S owed t a Q) :
    Does S owed t (Functor.discard a) fun _ owed' t' => ∃ x, Q x owed' t' :=
  h.bind fun x _ _ _ hx => .pure ⟨x, hx⟩

/-- An attempt that may fail leaves an orderly tray too. -/
theorem orderly {a : Attempt (Tray ω) α} {Q : α → Owed → Tray ω → Prop} (h : Does S owed t a Q)
    (hexact : ¬S.Exact) (ho : Orderly S owed t) :
    ∃ owed', Orderly S owed' (a.perform t).2 ∧
      ∀ x, (a.perform t).1 = .ok x → Q x owed' (a.perform t).2 := by
  obtain ⟨owed', trace, hanswer⟩ := h ho fun h => absurd h hexact
  exact ⟨owed', trace.orderly ho, hanswer⟩

end Does

/-- Neither dice nor rolls are concerned. -/
theorem Change.around_dice (quiet : S.quiet t.listeners) {world : ω}
    (holds : S.Holds world (t.dice.map Die.handle)) (chance : Chance) (clock : Float)
    (formula : String) (nextThrow : Nat) :
    Change S .calm t owed { t with world, chance, clock, formula, nextThrow } owed := by
  have hchange : Change S .calm t owed _ owed := .around world chance clock formula nextThrow
    t.listeners (t.journal ++ []) holds quiet (.inr ⟨[], rfl, fun _ h => nomatch h⟩)
  rwa [List.append_nil] at hchange

theorem Orderly.change_around (ho : Orderly S owed t) (chance : Chance) (clock : Float)
    (formula : String) (nextThrow : Nat) :
    Change S .calm t owed { t with chance, clock, formula, nextThrow } owed :=
  .around_dice ho.quiet ho.holds chance clock formula nextThrow

/-! ## What is done about events -/

/-- What may be done when something happens to a roll. -/
structure Heeds (S : Setting ω) (notify : Notify ω) : Prop where
  exact : S.Exact → ∀ event r t, S.quiet t.listeners →
    ∃ listeners journal, S.quiet listeners ∧
      (notify event r).perform t = (.ok (), { t with listeners, journal })
  loose : ¬S.Exact → ∀ event r t owed, (∃ n, r.id = .int n) → Orderly S owed t →
    ∃ owed', Trace S (t.noted event r) owed ((notify event r).perform t).2 owed'

variable {notify : Notify ω}

theorem Change.around_journal (ho : Orderly S owed t) (listeners : Event → List Listener)
    (journal : List Notice) (quiet : S.quiet listeners)
    (passing : S.Exact ∨
      ∃ notices, journal = t.journal ++ notices ∧ ∀ notice ∈ notices, notice.Passing) :
    Change S .calm t owed { t with listeners, journal } owed :=
  .around t.world t.chance t.clock t.formula t.nextThrow listeners journal ho.holds quiet passing

/-- What is done about an event starts with noting it down, or that is left out. -/
theorem Heeds.exists_trace (hn : Heeds S notify) (ho : Orderly S owed t) (event : Event) {r : Record}
    (hid : ∃ n, r.id = .int n) :
    ∃ notices, (notices = [] ∨ notices = [.happened event r.id r.result]) ∧ ∃ owed',
      Trace S { t with journal := t.journal ++ notices } owed ((notify event r).perform t).2 owed' ∧
        (S.Exact → owed' = owed ∧
          ∃ listeners journal, (notify event r).perform t = (.ok (), { t with listeners, journal })) := by
  have hnone : { t with journal := t.journal ++ [] } = t := by rw [List.append_nil]
  by_cases hexact : S.Exact
  · obtain ⟨listeners, journal, hquiet, hperform⟩ := hn.exact hexact event r t ho.quiet
    refine ⟨[], .inl rfl, owed, ?_, fun _ => ⟨rfl, listeners, journal, hperform⟩⟩
    rw [hnone, hperform]
    exact (Change.around_journal ho listeners journal hquiet (.inl hexact)).trace fun _ => rfl
  · obtain ⟨owed', trace⟩ := hn.loose hexact event r t owed hid ho
    exact ⟨_, .inr rfl, owed', trace, fun h => absurd h hexact⟩

/-- The end of an attempt that tells of a roll. The event and the change that it is about are
one. -/
theorem Heeds.exists_trace_of_last {t₀ : Tray ω} {owed₀ : Owed} (hn : Heeds S notify)
    (event : Event) {r : Record} (hid : ∃ n, r.id = .int n) (x : α) (ho : Orderly S owed t)
    (change : ∀ notices, notices = [] ∨ notices = [.happened event r.id r.result] →
      Change S .calm t₀ owed₀ { t with journal := t.journal ++ notices } owed) :
    ∃ owed', Trace S t₀ owed₀ ((do notify event r; return x : Attempt (Tray ω) α).perform t).2 owed' ∧
      (S.Exact → owed' = owed ∧ ∃ listeners journal,
        (do notify event r; return x : Attempt (Tray ω) α).perform t =
          (.ok x, { t with listeners, journal })) := by
  obtain ⟨notices, hnotices, owed', trace, hexact⟩ := hn.exists_trace ho event hid
  have trace' := ((change notices hnotices).trace fun _ => rfl).trans trace
  refine ⟨owed', ?_, fun h => ?_⟩
  · rw [Attempt.perform_bind]
    rcases hperform : (notify event r).perform t with ⟨fault | _, t'⟩ <;>
      rw [hperform] at trace'
    · exact trace'
    · exact trace'
  · obtain ⟨howed, listeners, journal, hperform⟩ := hexact h
    exact ⟨howed, listeners, journal, Attempt.perform_bind_of_ok hperform⟩

end Tray

end RollTray
