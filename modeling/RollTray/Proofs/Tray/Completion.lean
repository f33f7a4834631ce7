import RollTray.Proofs.Tray.Settling

/-!
# When rolls get their results

Between operations no roll in history is ready for its result (`Idle`): no calm change makes one
ready (`Trace.idle`), and a roll that is ready after all dice were looked at had a die settle then
(`poll_ready`).
-/

namespace RollTray.Tray

variable {ω : Type} [World ω] {S : Setting ω} {owed : Owed} {t : Tray ω}

/-- No roll in history is ready for its result. -/
def Idle (t : Tray ω) : Prop :=
  ∀ r ∈ t.history, ¬t.Ready r

omit [World ω] in
theorem ready_congr {t' : Tray ω} {r : Roll} (h : t'.diceOf r.record.id = t.diceOf r.record.id) :
    t'.Ready r ↔ t.Ready r := by
  rw [Ready, Ready, isComplete, isComplete, h]

/-- A roll with no dice on the tray is not ready. -/
theorem Orderly.not_ready_of_nil (ho : Orderly S owed t) {r : Roll} (hr : r ∈ t.history)
    (h : t.diceOf (S.id r.serial) = []) : ¬t.Ready r := by
  intro hready
  obtain ⟨_, hall, _⟩ := (ho.ready_iff (List.mem_append_left _ hr)).1 hready
  rw [h] at hall
  exact (ho.sound r (List.mem_append_left _ hr)).sites_ne_nil (List.length_eq_zero_iff.1 hall.symm)

theorem Change.idle {t' : Tray ω} {owed' : Owed} (change : Change S .calm t owed t' owed')
    (hexact : S.Exact) (ho : Orderly S owed t) (hidle : Idle t) : Idle t' := by
  have ho' := change.orderly ho
  cases change with
  | around => exact fun r hr => mt (ready_congr rfl).1 (hidle r hr)
  | begin r serial =>
    intro r' hr'
    rcases List.mem_cons.1 hr' with rfl | hr'
    · refine ho'.not_ready_of_nil (List.mem_cons_self ..) (ho.diceOf_eq_nil fun r'' hr'' => ?_)
      have := ho.serial_lt hr''
      omega
    · exact mt (ready_congr rfl).1 (hidle r' hr')
  | trim history sublist => exact fun r hr => mt (ready_congr rfl).1 (hidle r (sublist.subset hr))
  | cancel r mem =>
    intro r' hr'
    by_cases hserial : r'.serial = r.serial
    · refine ho'.not_ready_of_nil hr' (ho'.diceOf_eq_nil fun r'' hr'' => ?_)
      rw [hserial]
      exact (mem_filter_serial.1 hr'').2
    · have hid : r'.record.id = S.id r'.serial := ho.id_eq (List.mem_append_left _ hr')
      refine mt (ready_congr ?_).1 (hidle r' hr')
      rw [hid]
      exact ho.diceOf_canceled hserial
  | remove taken world none =>
    refine fun r hr => mt (ready_congr ?_).1 (hidle r hr)
    have hall : t.dice.filter (fun d => !taken d) = t.dice :=
      List.filter_eq_self.2 fun d hd => by rw [none hexact d hd]; rfl
    exact congrArg (List.filter _) hall
  | mark => exact fun r hr => mt (ready_congr rfl).1 (hidle r hr)
  | push => exact fun r hr => mt (ready_congr rfl).1 (hidle r hr)
  | throw throw order pending d world r active roll perm sameRoll sameSite moves =>
    intro r' hr'
    have hid : r'.record.id = S.id r'.serial := ho.id_eq (List.mem_append_left _ hr')
    by_cases hserial : r'.serial = r.serial
    · intro hready
      obtain ⟨_, _, hsettled⟩ := (ho'.ready_iff (List.mem_append_left _ hr')).1 hready
      have hd : d.settled = true := hsettled d (List.mem_filter.2 ⟨by simp, ?_⟩)
      · rw [moves] at hd
        cases hd
      · rw [sameRoll, roll, same_id, hserial, decide_eq_true rfl]
    · refine mt (ready_congr ?_).1 (hidle r' hr')
      rw [hid, diceOf, diceOf, List.filter_append, List.filter_cons, if_neg, List.filter_nil,
        List.append_nil]
      rw [sameRoll, roll, same_id]
      simpa using Ne.symm hserial
  | skip => exact fun r hr => mt (ready_congr rfl).1 (hidle r hr)
  | settle r record notices mem unresolved all id groups resolved =>
    intro r' hr'
    obtain ⟨x, hx, rfl⟩ := List.mem_map.1 hr'
    rcases ho.put_cases (List.mem_append_left _ mem) (List.mem_append_left _ hx) record with
      ⟨_, hput⟩ | ⟨_, hput⟩ <;> rw [hput]
    · exact fun hready => absurd (resolved.symm.trans hready.1) (by decide)
    · exact mt (ready_congr rfl).1 (hidle x hx)

/-- Nothing that happens in an exact setting makes a roll ready. -/
theorem Trace.idle {t' : Tray ω} {owed' : Owed} (trace : Trace S t owed t' owed') (hexact : S.Exact)
    (ho : Orderly S owed t) (hidle : Idle t) : Idle t' := by
  induction trace with
  | refl => exact hidle
  | step trace change calm ih =>
    cases calm hexact
    exact change.idle hexact (trace.orderly ho) ih

/-! ## After all dice were looked at -/

/-- A roll that is ready after all dice were looked at had a die settle. -/
theorem poll_ready (ho : Orderly S owed t) (hidle : Idle t) {ids : List Value} {t₁ : Tray ω}
    (h : poll.perform t = (.ok ids, t₁)) : ∀ r ∈ t₁.history, t₁.Ready r → S.id r.serial ∈ ids := by
  have ho₁ := (poll_change ho).orderly ho
  rw [h] at ho₁
  have hids := congrArg Prod.fst h
  have hstate := congrArg Prod.snd h
  have same := pollDice_same (Policy.ofConfig t.config) t.isFinal t.clock t.dice t.world
  have seen := pollDice_settled _ _ _ t.dice t.world hids
  have hdice : (pollDice (Policy.ofConfig t.config) t.isFinal t.clock t.dice t.world).2.1 = t₁.dice :=
    congrArg (fun s : Tray ω => s.dice) hstate
  have hhistory := congrArg (fun s : Tray ω => s.history) hstate
  change t.history = t₁.history at hhistory
  rw [hdice] at same seen
  intro r hr hready
  have hr' : r ∈ t.history := hhistory ▸ hr
  obtain ⟨hunresolved, hall, hsettled⟩ := (ho₁.ready_iff (List.mem_append_left _ hr)).1 hready
  by_contra hnot
  refine hidle r hr' ((ho.ready_iff (List.mem_append_left _ hr')).2 ⟨hunresolved, ?_, ?_⟩)
  · rw [← hall]
    exact (SameDie.filter same _).length_eq
  · intro d hd
    obtain ⟨hd, hroll⟩ := List.mem_filter.1 hd
    obtain ⟨d', hd', hsame, hseen⟩ := forall₂_exists_right (same.mp (fun _ _ => And.intro) seen) hd
    have hsettled' := hsettled d' (List.mem_filter.2 ⟨hd', by rw [hsame.roll]; exact hroll⟩)
    refine (hseen hsettled').resolve_right fun hmem => hnot ?_
    obtain ⟨r', _, hid⟩ := ho.dice d hd
    rw [hid, same_id, decide_eq_true_iff] at hroll
    rw [← hroll, ← hid]
    exact hmem

/-! ## Giving rolls their results -/

/-- What becomes of a roll when those with some ids get their results from their dice. -/
structure Concluded (dice : Value → List Die) (ids : List Value) (r r' : Roll) : Prop where
  serial : r'.serial = r.serial
  id : r'.id = r.id
  resolves : r.id ∈ ids → r.record.resolved = false ∧ r'.record.resolved = true ∧
    Dice.resolve r.record (dice r.id) = (.ok true, r'.record)
  stays : r.id ∉ ids → r' = r

/-- What becomes of a tray when the rolls of some ids get their results. -/
structure Concludes (t : Tray ω) (ids : List Value) (t' : Tray ω) : Prop where
  history : List.Forall₂ (Concluded t.diceOf ids) t.history t'.history
  dice : t'.dice = t.dice

namespace Concludes

variable {ids ids' : List Value} {t₁ t₂ : Tray ω}

omit [World ω] in
theorem refl (t : Tray ω) : Concludes t [] t :=
  ⟨List.forall₂_same.2 fun _ _ => ⟨rfl, rfl, (fun h => nomatch h), fun _ => rfl⟩, rfl⟩

omit [World ω] in
theorem trans (first : Concludes t ids t₁) (second : Concludes t₁ ids' t₂)
    (apart : ∀ id ∈ ids, id ∉ ids') : Concludes t (ids ++ ids') t₂ := by
  have hdice : t₁.diceOf = t.diceOf := funext fun id => by rw [diceOf, first.dice, diceOf]
  refine ⟨forall₂_trans (fun a b c hab hbc => ?_) first.history second.history,
    second.dice.trans first.dice⟩
  rw [hdice] at hbc
  refine ⟨hbc.serial.trans hab.serial, hbc.id.trans hab.id, fun hmem => ?_, fun hmem => ?_⟩
  · rcases List.mem_append.1 hmem with hmem | hmem
    · rw [hbc.stays (hab.id ▸ apart _ hmem)]
      exact hab.resolves hmem
    · obtain rfl := hab.stays fun h => apart _ h hmem
      exact hbc.resolves hmem
  · obtain ⟨hids, hids'⟩ : a.id ∉ ids ∧ a.id ∉ ids' := by simpa using hmem
    obtain rfl := hab.stays hids
    exact hbc.stays hids'

omit [World ω] in
/-- Other rolls are as ready as before. -/
theorem ready_iff (h : Concludes t ids t₁) {id : Value} (hid : id ∉ ids) :
    (∃ r ∈ t₁.history, t₁.Ready r ∧ r.id = id) ↔ ∃ r ∈ t.history, t.Ready r ∧ r.id = id := by
  have hready : ∀ r, t₁.Ready r ↔ t.Ready r := fun r => ready_congr (by rw [diceOf, h.dice, diceOf])
  constructor
  · rintro ⟨r, hr, hr', rfl⟩
    obtain ⟨x, hx, hconcluded⟩ := forall₂_exists_left h.history hr
    obtain rfl := hconcluded.stays (hconcluded.id ▸ hid)
    exact ⟨r, hx, (hready r).1 hr', rfl⟩
  · rintro ⟨r, hr, hr', rfl⟩
    obtain ⟨x, hx, hconcluded⟩ := forall₂_exists_right h.history hr
    obtain rfl := hconcluded.stays hid
    exact ⟨x, hx, (hready x).2 hr', rfl⟩

end Concludes

variable {notify : Notify ω}

omit [World ω] in
theorem Listed.write (h : Listed t) (serial : Nat) (record : Record) :
    Listed (t.write serial record) := by
  intro r hr
  obtain ⟨x, hx, rfl⟩ := List.mem_map.1 hr
  exact List.mem_map_of_mem (h x hx)

theorem concludes_write (ho : Orderly S owed t) {r : Roll} (hr : r ∈ t.history) {record : Record}
    (hid : record.id = r.record.id) (hunresolved : r.record.resolved = false)
    (hresolved : record.resolved = true)
    (hresolve : Dice.resolve r.record (t.diceOf r.id) = (.ok true, record)) : Concludes t [r.id] (t.write r.serial record) := by
  refine ⟨List.forall₂_map_right_iff.2 (List.forall₂_same.2 fun x hx => ?_), rfl⟩
  rcases ho.put_cases (List.mem_append_left _ hr) (List.mem_append_left _ hx) record with
    ⟨rfl, hput⟩ | ⟨hserial, hput⟩ <;> rw [hput]
  · exact ⟨rfl, hid, fun _ => ⟨hunresolved, hresolved, hresolve⟩,
      fun h => absurd (List.mem_singleton.2 rfl) h⟩
  · refine ⟨rfl, rfl, fun h => absurd ?_ hserial, fun _ => rfl⟩
    have heq := List.mem_singleton.1 h
    rw [ho.id_eq (List.mem_append_left _ hx), ho.id_eq (List.mem_append_left _ hr)] at heq
    have := Value.int.inj heq
    omega

/-- In an exact setting a roll is left as it is or gets its result, or that fails. -/
theorem finish_exact (hn : Heeds S notify) (hexact : S.Exact) (ho : Orderly S owed t)
    (hlisted : Listed t) {r : Roll} (hr : r ∈ t.history) :
    (¬t.Ready r ∧ (finish notify r.id).perform t = (.ok false, t)) ∨
      ∃ answer t', (finish notify r.id).perform t = (answer, t') ∧ Orderly S owed t' ∧ Listed t' ∧
        (answer = .ok true ∧ t.Ready r ∧ Concludes t [r.id] t' ∨ ∃ fault, answer = .error fault) := by
  rw [ho.id_eq (List.mem_append_left _ hr)]
  by_cases hready : t.Ready r
  · refine .inr ?_
    obtain ⟨record, ⟨change, hid, hresolved, hresolve, hperform⟩ | ⟨fault, change, hperform⟩⟩ :=
      finish_of_ready notify ho hr hready
    · have ho' := (change [] (.inl rfl)).orderly ho
      rw [List.append_nil] at ho'
      obtain ⟨owed', trace, h⟩ := hn.exists_trace_of_last .resolved
        ⟨_, hid.trans (ho.id_eq (List.mem_append_left _ hr))⟩ true ho' change
      obtain ⟨rfl, listeners, journal, hlast⟩ := h hexact
      have hperform := hperform.trans hlast
      rw [hlast] at trace
      rw [← ho.id_eq (List.mem_append_left _ hr)] at hresolve
      have hwritten := concludes_write ho hr hid hready.1 hresolved hresolve
      rw [ho.id_eq (List.mem_append_left _ hr)] at hwritten
      exact ⟨_, _, hperform, trace.orderly ho, hlisted.write r.serial record,
        .inl ⟨rfl, hready, hwritten.history, hwritten.dice⟩⟩
    · exact ⟨_, _, hperform, change.orderly ho, hlisted.write r.serial record, .inr ⟨fault, rfl⟩⟩
  · exact .inl ⟨hready, finish_of_not_ready notify ho hr hready⟩

/-- What is known of the rolls that got their results, given the ids of rolls that may get one. -/
structure Finished (t : Tray ω) (ids done : List Value) (t' : Tray ω) : Prop where
  concludes : Concludes t done t'
  sublist : done.Sublist ids
  mem_iff : ∀ id, id ∈ done ↔ id ∈ ids ∧ ∃ r ∈ t.history, t.Ready r ∧ r.id = id

namespace Finished

variable {ids done : List Value} {t₁ t' : Tray ω}

omit [World ω] in
/-- The first roll was not ready. -/
theorem cons_of_not_ready {id : Value} (h : Finished t ids done t')
    (hnot : ∀ r ∈ t.history, r.id = id → ¬t.Ready r) : Finished t (id :: ids) done t' := by
  refine ⟨h.concludes, h.sublist.cons _, fun other => ?_⟩
  rw [h.mem_iff, List.mem_cons]
  refine ⟨fun ⟨hids, hready⟩ => ⟨.inr hids, hready⟩, fun ⟨hids, r, hr, hready, hid⟩ => ?_⟩
  refine ⟨hids.resolve_left fun heq => ?_, r, hr, hready, hid⟩
  exact hnot r hr (hid.trans heq) hready

omit [World ω] in
/-- The first roll was ready and got its result. -/
theorem cons_of_ready {r : Roll} (hr : r ∈ t.history) (hready : t.Ready r)
    (first : Concludes t [r.id] t₁) (h : Finished t₁ ids done t') (hnotin : r.id ∉ ids) :
    Finished t (r.id :: ids) (r.id :: done) t' := by
  have hnotin' : r.id ∉ done := fun hmem => hnotin (h.sublist.subset hmem)
  refine ⟨first.trans h.concludes fun id hid => ?_, h.sublist.cons_cons _, fun id => ?_⟩
  · rwa [List.mem_singleton.1 hid]
  · rw [List.mem_cons, List.mem_cons]
    by_cases hid : id = r.id
    · exact ⟨fun _ => ⟨.inl hid, r, hr, hready, hid.symm⟩, fun _ => .inl hid⟩
    · rw [h.mem_iff, first.ready_iff (by simpa using hid)]
      exact ⟨fun hmem => ⟨.inr (hmem.resolve_left hid).1, (hmem.resolve_left hid).2⟩,
        fun ⟨hids, hready⟩ => .inr ⟨hids.resolve_left hid, hready⟩⟩

end Finished

/-- In an exact setting just the rolls that are ready get their results, unless that fails. -/
theorem finishAll_exact (hn : Heeds S notify) (hexact : S.Exact) {ids : List Value}
    (hnodup : ids.Nodup) (ho : Orderly S owed t) (hlisted : Listed t)
    (hids : ∀ id ∈ ids, ∃ r ∈ t.history, r.id = id) :
    ∃ answer t', (finishAll notify ids).perform t = (answer, t') ∧ Orderly S owed t' ∧ Listed t' ∧
      ∀ done, answer = .ok done → Finished t ids done t' := by
  induction ids generalizing t with
  | nil =>
    refine ⟨.ok [], t, rfl, ho, hlisted, fun done hdone => ?_⟩
    cases hdone
    exact ⟨.refl t, .slnil, fun id => by simp⟩
  | cons id rest ih =>
    obtain ⟨hnotin, hnodup'⟩ := List.nodup_cons.1 hnodup
    obtain ⟨r, hr, rfl⟩ := hids id (List.mem_cons_self ..)
    have hrest := fun id hid => hids id (List.mem_cons_of_mem _ hid)
    have hid := ho.id_eq (List.mem_append_left _ hr)
    have hfind : t.find? r.id = some r := by rw [hid, find?_of_mem ho hr]
    rw [finishAll, Attempt.perform_bind_of_ok (Attempt.perform_get t), hfind]
    rcases finish_exact hn hexact ho hlisted hr with
      ⟨hready, hperform⟩ | ⟨answer, t₁, hperform, ho₁, hlisted₁, ⟨rfl, hready, first⟩ | ⟨fault, rfl⟩⟩
    · obtain ⟨answer, t', hrest, ho', hlisted', h⟩ := ih hnodup' ho hlisted hrest
      rw [Attempt.perform_bind_of_ok hperform, Attempt.perform_bind, hrest]
      have hnot : ∀ r' ∈ t.history, r'.id = r.id → ¬t.Ready r' := by
        intro r' hr' heq
        rwa [ho.eq_of_id (List.mem_append_left _ hr') (List.mem_append_left _ hr) heq]
      cases answer with
      | error fault => exact ⟨_, t', rfl, ho', hlisted', fun _ h => nomatch h⟩
      | ok done =>
        refine ⟨.ok done, t', rfl, ho', hlisted', fun _ hdone => ?_⟩
        cases hdone
        exact (h done rfl).cons_of_not_ready hnot
    · have hrest₁ : ∀ id ∈ rest, ∃ r ∈ t₁.history, r.id = id := by
        intro id hid
        obtain ⟨x, hx, rfl⟩ := hrest id hid
        obtain ⟨x', hx', hconcluded⟩ := forall₂_exists_right first.history hx
        exact ⟨x', hx', hconcluded.id⟩
      obtain ⟨answer, t', hrest, ho', hlisted', h⟩ := ih hnodup' ho₁ hlisted₁ hrest₁
      rw [Attempt.perform_bind_of_ok hperform, Attempt.perform_bind, hrest]
      cases answer with
      | error fault => exact ⟨_, t', rfl, ho', hlisted', fun _ h => nomatch h⟩
      | ok done =>
        refine ⟨.ok (r.id :: done), t', rfl, ho', hlisted', fun _ hdone => ?_⟩
        cases hdone
        exact .cons_of_ready hr hready first (h done rfl) hnotin
    · rw [Attempt.perform_bind_of_error hperform]
      exact ⟨_, t₁, rfl, ho₁, hlisted₁, fun _ h => nomatch h⟩

end RollTray.Tray
