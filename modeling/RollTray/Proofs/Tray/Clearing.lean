import RollTray.Proofs.Tray.Keeping
import RollTray.Proofs.Tray.Reentry

/-!
# Clearing the tray

A tray that was cleared has no dice on it, and none of the rolls that were active before stays so.
But whoever is told that a roll is canceled may roll in turn. The watermark is set last, so it is above
what began meanwhile: such rolls stay active while none of their dice is ever thrown
(`stranded_of_clearing`).

The watermark is set below the next id or goes up, so a roll that is past stays past (`Barred`), and
without dice it gets no result (`Shelved`).
-/

namespace RollTray.Tray

variable {ω : Type} [World ω] {S : Setting ω} {owed owed' : Owed} {t t' : Tray ω}

/-! ## Where the watermark goes -/

theorem Change.nextId_le {kind : Kind} (change : Change S kind t owed t' owed') :
    t.nextId ≤ t'.nextId := by
  cases change with
  | begin => exact Int.le_add_one (Int.le_refl _)
  | _ => exact Int.le_refl _

theorem Trace.nextId_le (trace : Trace S t owed t' owed') : t.nextId ≤ t'.nextId := by
  induction trace with
  | refl => exact Int.le_refl _
  | step _ change _ ih => exact Int.le_trans ih change.nextId_le

/-- The watermark stays, goes up, or is set below the next id. -/
theorem Change.watermark_cases {kind : Kind} (change : Change S kind t owed t' owed') :
    t'.watermark = t.watermark ∨
      (∃ m n : Int, t.watermark.orZero = .int m ∧ t'.watermark = .int n ∧ m ≤ n) ∨
        0 < t.nextId ∧ t'.watermark = .int (t.nextId - 1) := by
  cases change with
  | cancel r mem watermark world notices mark =>
    rcases mark with ⟨hsame, _⟩ | ⟨m, hm, hraised, _⟩
    · exact .inl hsame
    · exact .inr (.inl ⟨m, _, hm, hraised, Int.le_max_right ..⟩)
  | mark empty issuing => exact .inr (.inr ⟨issuing, rfl⟩)
  | _ => exact .inl rfl

/-- The watermark is not below an id, and will not be. -/
structure Barred (low : Int) (t : Tray ω) : Prop where
  mark : ∃ m : Int, t.watermark = .int m ∧ low ≤ m
  low : low ≤ 0 ∨ low < t.nextId

variable {low : Int}

omit [World ω] in
theorem Barred.isPast (h : Barred low t) : isPast t.watermark (.int low) = .ok true := by
  obtain ⟨m, hm, hlow⟩ := h.mark
  rw [hm, Tray.isPast, Value.le_int, decide_eq_true hlow]
  rfl

theorem Change.barred {kind : Kind} (change : Change S kind t owed t' owed') (h : Barred low t) :
    Barred low t' := by
  obtain ⟨m, hm, hle⟩ := h.mark
  refine ⟨?_, h.low.imp_right fun hlt => Int.lt_of_lt_of_le hlt change.nextId_le⟩
  rcases change.watermark_cases with hsame | ⟨k, n, hk, hraised, hkn⟩ | ⟨hissuing, hset⟩
  · exact ⟨m, hsame.trans hm, hle⟩
  · rw [hm, Value.orZero_int] at hk
    exact ⟨n, hraised, Int.le_trans hle (Value.int.inj hk ▸ hkn)⟩
  · refine ⟨_, hset, ?_⟩
    have := h.low
    omega

theorem Trace.barred (trace : Trace S t owed t' owed') (h : Barred low t) : Barred low t' := by
  induction trace with
  | refl => exact h
  | step _ change _ ih => exact change.barred ih

omit [World ω] in
theorem zero_le_of_orZero (h : t.watermark = .null ∨ Barred 0 t) {m : Int}
    (hm : t.watermark.orZero = .int m) : 0 ≤ m := by
  rcases h with hnull | ⟨⟨k, hk, hle⟩, _⟩
  · rw [hnull] at hm
    exact Int.le_of_eq (Value.int.inj hm)
  · rw [hk, Value.orZero_int] at hm
    exact Value.int.inj hm ▸ hle

/-- Once it is set, the watermark is not below zero. -/
theorem Trace.unset_or_barred (trace : Trace S t owed t' owed')
    (h : t.watermark = .null ∨ Barred 0 t) : t'.watermark = .null ∨ Barred 0 t' := by
  induction trace with
  | refl => exact h
  | step _ change _ ih =>
    rcases change.watermark_cases with hsame | ⟨m, n, hm, hraised, hmn⟩ | ⟨hissuing, hset⟩
    · exact ih.imp hsame.trans change.barred
    · exact .inr ⟨⟨n, hraised, Int.le_trans (zero_le_of_orZero ih hm) hmn⟩, .inl (Int.le_refl 0)⟩
    · exact .inr ⟨⟨_, hset, by omega⟩, .inl (Int.le_refl 0)⟩

/-! ## Rolls whose dice are not thrown -/

/-- A roll is past and none of its dice is on the tray. -/
structure Shelved (S : Setting ω) (serial : Nat) (t : Tray ω) : Prop where
  barred : Barred (S.start + serial) t
  issued : serial < t.nextSerial
  dice : t.diceOf (S.id serial) = []

variable {serial : Nat}

theorem Change.shelved {kind : Kind} (change : Change S kind t owed t' owed')
    (h : Shelved S serial t) : Shelved S serial t' := by
  refine ⟨change.barred h.barred, Nat.lt_of_lt_of_le h.issued change.nextSerial_le, ?_⟩
  have hfewer : ∀ stays, (t.dice.filter stays).filter (fun d => d.roll.same (S.id serial)) = [] :=
    fun stays => by rw [filter_diceOf, h.dice, List.filter_nil]
  cases change with
  | cancel => exact hfewer _
  | remove => exact hfewer _
  | throw throw order pending d world r active roll perm sameRoll sameSite moves holds late =>
    have hne : r.serial ≠ serial := by
      rintro rfl
      rw [roll] at late
      nomatch h.barred.isPast.symm.trans late
    show (t.dice ++ [d]).filter _ = []
    rw [List.filter_append, List.filter_singleton, sameRoll, roll, same_id, decide_eq_false hne]
    exact (List.append_nil _).trans h.dice
  | look dice world same =>
    have hlength := (SameDie.filter same (S.id serial)).length_eq
    exact List.length_eq_zero_iff.1 (hlength ▸ List.length_eq_zero_iff.2 h.dice)
  | _ => exact h.dice

/-- A roll has no result. -/
def Unresolved (serial : Nat) (t : Tray ω) : Prop :=
  ∀ r ∈ t.history ++ t.active, r.serial = serial → r.record.resolved = false

omit [World ω] in
theorem Unresolved.write (h : Unresolved serial t) {r : Roll} {record : Record}
    (hrecord : r.serial = serial → record.resolved = false) :
    Unresolved serial (t.write r.serial record) := by
  intro r' hr' hserial
  obtain ⟨x, hx, rfl⟩ := mem_write.1 hr'
  rw [Roll.serial_put] at hserial
  unfold Roll.put
  split
  · next heq => exact hrecord (heq.symm.trans hserial)
  · exact h x hx hserial

/-- Where a roll has none of its dice, it does not get its result. -/
theorem Change.unresolved {kind : Kind} (change : Change S kind t owed t' owed')
    (ho : Orderly S owed t) (hshelved : Shelved S serial t) (h : Unresolved serial t) :
    Unresolved serial t' := by
  cases change with
  | begin r issued =>
    intro r' hr' hserial
    rcases mem_added.1 hr' with rfl | hold
    · have := hshelved.issued
      omega
    · exact h r' hold hserial
  | trim history sublist => exact fun r hr => h r ((sublist.append_right _).subset hr)
  | cancel => exact fun r hr => h r ((List.filter_sublist.append_left _).subset hr)
  | settle r record notices mem unresolved all =>
    refine h.write fun hserial => ?_
    rw [hserial, hshelved.dice] at all
    exact absurd (List.length_eq_zero_iff.1 all.symm)
      (ho.sound r (List.mem_append_left _ mem)).sites_ne_nil
  | fail r record mem unresolved id groups still => exact h.write fun _ => still
  | _ => exact h

theorem Trace.shelved (trace : Trace S t owed t' owed') (ho : Orderly S owed t)
    (h : Shelved S serial t) :
    Shelved S serial t' ∧ (Unresolved serial t → Unresolved serial t') := by
  induction trace with
  | refl => exact ⟨h, id⟩
  | step trace change _ ih =>
    obtain ⟨hshelved, hunresolved⟩ := ih
    exact ⟨change.shelved hshelved, fun hnone =>
      change.unresolved (trace.orderly ho) hshelved (hunresolved hnone)⟩

/-- None of a roll's dice is thrown any more, whatever happens, and it gets no result. -/
structure Stranded (F : Footing ω) (t : Tray ω) (r : Roll) : Prop where
  past : isPast t.watermark r.id = .ok true
  bare : ∀ t', Reach F t t' → t'.diceOf r.id = []
  unresolved : r.record.resolved = false → ∀ t', Reach F t t' →
    ∀ r' ∈ t'.history ++ t'.active, r'.id = r.id → r'.record.resolved = false

theorem Shelved.stranded {F : Footing ω} {start : Int} {r : Roll}
    (h : Shelved (amid F start) r.serial t) (ho : Orderly (amid F start) owed t) (hr : r ∈ t.active) :
    Stranded F t r := by
  have hmem : r ∈ t.history ++ t.active := List.mem_append_right _ hr
  have hlater : ∀ t', Reach F t t' → ∃ owed', Orderly (amid F start) owed' t' ∧
      Shelved (amid F start) r.serial t' ∧ (Unresolved r.serial t → Unresolved r.serial t') := by
    intro t' reach
    obtain ⟨owed', trace⟩ := reach.trace ho
    exact ⟨owed', trace.orderly ho, trace.shelved ho h⟩
  have hid : r.id = .int (start + r.serial) := ho.id_eq hmem
  refine ⟨hid ▸ h.barred.isPast, fun t' reach => ?_, fun hnone t' reach r' hr' hsame => ?_⟩
  · obtain ⟨_, _, hshelved, _⟩ := hlater t' reach
    exact hid ▸ hshelved.dice
  · obtain ⟨owed', ho', _, hunresolved⟩ := hlater t' reach
    refine hunresolved (fun x hx hserial => ho.eq_of_serial hx hmem hserial ▸ hnone) r' hr' ?_
    rw [ho'.id_eq hr', ho.id_eq hmem] at hsame
    exact id_inj hsame

/-! ## Canceling in the middle of interference -/

variable {notify : Notify ω}

/-- A roll that was canceled is not active, whatever was done when that was told. If it was the oldest
one, the watermark is set. -/
theorem cancel_leaves (hn : Heeds S notify) (hexact : ¬S.Exact) (ho : Orderly S owed t) {n : Int}
    {found : Bool} (hreturns : (cancel notify (.int n)).perform t = (.ok found, t')) :
    ∃ owed', Trace S t owed t' owed' ∧ t'.isActive (.int n) = false ∧
      ∀ r ∈ t.active, r.id = .int n → t.IsOldest r → t.watermark = .null ∨ Barred 0 t →
        Barred 0 t' := by
  cases hfind : Roll.find? (.int n) t.active with
  | none =>
    obtain ⟨hperform, hne⟩ := cancel_of_not_found notify hfind
    cases hperform.symm.trans hreturns
    exact ⟨owed, .refl, congrArg Option.isSome hfind, fun r hr hid => absurd hid (hne r hr)⟩
  | some r =>
    obtain ⟨mem, hsame⟩ := find?_id hfind
    have hn' := ho.eq_of_same (List.mem_append_right _ mem) hsame
    obtain ⟨watermark, world, hlifts, hchange, hperform | ⟨h, _⟩⟩ := cancel_perform notify ho hfind
    · rw [hperform, Attempt.perform_bind_eq_ok] at hreturns
      obtain ⟨_, t₂, htold, hlast⟩ := hreturns
      cases hlast
      have hleft := (hchange [] (.inl rfl)).orderly ho
      rw [List.append_nil] at hleft
      obtain ⟨notices, hnotices, owed', trace, _⟩ :=
        hn.exists_trace hleft .canceled ⟨_, ho.id_eq (List.mem_append_right _ mem)⟩
      rw [htold] at trace
      have change := hchange notices hnotices
      have ho₁ := change.orderly ho
      refine ⟨owed', (change.trace fun _ => rfl).trans trace, ?_, fun r' hr' hid' holdest hset => ?_⟩
      · refine (trace.later ho₁).inactive ho₁ (trace.orderly ho₁) ?_ (Bool.eq_false_iff.2 fun h => ?_)
        · have := ho.serial_lt mem
          have := ho.nextId
          show n < t.nextId
          omega
        · obtain ⟨x, hx, heq⟩ := (isActive_int ho₁).1 h
          have := (mem_filter_serial.1 hx).2
          omega
      · -- The roll that was found is the oldest one.
        have heq : r' = r := by
          refine ho.eq_of_serial (List.mem_append_right _ hr') (List.mem_append_right _ mem) ?_
          rw [ho.id_eq (List.mem_append_right _ hr')] at hid'
          have := Value.int.inj hid'
          omega
        obtain ⟨m, hm, hraised⟩ : ∃ m : Int, t.watermark.orZero = .int m ∧
            watermark = .int (max (S.start + r.serial) m) :=
          hlifts.elim (fun h => absurd (heq ▸ holdest) h.2) fun ⟨m, hm, hraised, _⟩ => ⟨m, hm, hraised⟩
        have hzero := zero_le_of_orZero hset hm
        exact trace.barred ⟨⟨_, hraised, Int.le_trans hzero (Int.le_max_right ..)⟩, .inl (Int.le_refl 0)⟩
    · exact absurd h hexact

theorem cancelAll_leaves (hn : Heeds S notify) (hexact : ¬S.Exact) {rolls : List Roll}
    (ho : Orderly S owed t) (hids : ∀ r ∈ rolls, ∃ n, r.id = .int n ∧ n < t.nextId)
    (hreturns : (cancelAll notify rolls).perform t = (.ok (), t')) :
    ∃ owed', Trace S t owed t' owed' ∧ ∀ r ∈ rolls, t'.isActive r.id = false := by
  induction rolls generalizing t owed with
  | nil =>
    cases hreturns
    exact ⟨owed, .refl, fun _ h => nomatch h⟩
  | cons r rest ih =>
    obtain ⟨⟨n, hid, hissued⟩, hrest⟩ := List.forall_mem_cons.1 hids
    obtain ⟨_, t₁, hfirst, hothers⟩ := Attempt.perform_bind_eq_ok.1 hreturns
    obtain ⟨found, hcancel⟩ := Attempt.perform_discard_eq_ok.1 hfirst
    rw [hid] at hcancel
    obtain ⟨owed₁, trace₁, hinactive, _⟩ := cancel_leaves hn hexact ho hcancel
    have ho₁ := trace₁.orderly ho
    have hle := trace₁.nextId_le
    obtain ⟨owed', trace, hall⟩ := ih ho₁
      (fun r hr => (hrest r hr).imp fun _ h => ⟨h.1, Int.lt_of_lt_of_le h.2 hle⟩) hothers
    refine ⟨owed', trace₁.trans trace, List.forall_mem_cons.2 ⟨?_, hall⟩⟩
    rw [hid]
    exact (trace.later ho₁).inactive ho₁ (trace.orderly ho₁) (Int.lt_of_lt_of_le hissued hle) hinactive

theorem Orderly.issued_of_active (ho : Orderly S owed t) {r : Roll} (hr : r ∈ t.active) :
    ∃ n, r.id = .int n ∧ n < t.nextId := by
  refine ⟨_, ho.id_eq (List.mem_append_right _ hr), ?_⟩
  have := ho.serial_lt hr
  have := ho.nextId
  omega

/-- If all active rolls are canceled and there are any, the watermark is set. -/
theorem barred_of_cancelAll (hn : Heeds S notify) (hexact : ¬S.Exact) (ho : Orderly S owed t)
    (hset : t.watermark = .null ∨ Barred 0 t) (hactive : t.active ≠ [])
    (hreturns : (cancelAll notify t.active).perform t = (.ok (), t')) : Barred 0 t' := by
  obtain ⟨oldest, rest, hlist⟩ := List.exists_cons_of_ne_nil hactive
  have hmem : ∀ r ∈ oldest :: rest, r ∈ t.active := fun r hr => hlist ▸ hr
  have holdest : t.IsOldest oldest := by
    intro r hr hne
    have hsorted := hlist ▸ ho.active
    rcases List.mem_cons.1 (hlist ▸ hr) with rfl | hr
    · exact absurd rfl hne
    · exact (List.pairwise_cons.1 hsorted).1 r hr
  rw [hlist] at hreturns
  obtain ⟨_, t₁, hfirst, hothers⟩ := Attempt.perform_bind_eq_ok.1 hreturns
  obtain ⟨found, hcancel⟩ := Attempt.perform_discard_eq_ok.1 hfirst
  obtain ⟨n, hid, _⟩ := ho.issued_of_active (hmem oldest (List.mem_cons_self ..))
  rw [hid] at hcancel
  obtain ⟨owed₁, trace₁, _, hbarred⟩ := cancel_leaves hn hexact ho hcancel
  have hids : ∀ r ∈ rest, ∃ k, r.id = .int k ∧ k < t₁.nextId := fun r hr =>
    have ⟨k, hk, hlt⟩ := ho.issued_of_active (hmem r (List.mem_cons_of_mem _ hr))
    ⟨k, hk, Int.lt_of_lt_of_le hlt trace₁.nextId_le⟩
  obtain ⟨_, trace, _⟩ := cancelAll_leaves hn hexact (trace₁.orderly ho) hids hothers
  exact trace.barred (hbarred oldest (hmem _ (List.mem_cons_self ..)) hid holdest hset)

/-! ## Trays that are cleared -/

theorem takeOff_returns {taken : Die → Bool} (h : (takeOff taken).perform t = (.ok (), t')) :
    ∃ world, t' = { t with world, dice := t.dice.filter fun d => !taken d } := by
  obtain ⟨_, s, hget, h⟩ := Attempt.perform_bind_eq_ok.1 h
  cases hget
  obtain ⟨_, s, hremoved, h⟩ := Attempt.perform_bind_eq_ok.1 h
  cases h
  have hworld : Attempt.Keeps (fun s : Tray ω => ∃ world, s = { t with world })
      (t.dice.forM fun d => if taken d then withWorld (World.remove d.handle) else pure ()) := by
    refine .forM fun d _ => ?_
    split
    · refine .within fun s ⟨_, hs⟩ => ?_
      rw [hs]
      exact ⟨_, rfl⟩
    · exact .pure _
  have hs := hworld t ⟨t.world, rfl⟩
  rw [hremoved] at hs
  obtain ⟨world, rfl⟩ := hs
  exact ⟨world, rfl⟩

/-- What a tray is like that was cleared, whatever it was like before. -/
theorem clearTray_returns (h : (clearTray notify).perform t = (.ok (), t')) :
    ∃ t₁ world, (cancelAll notify t.active).perform t = (.ok (), t₁) ∧
      t' = { t₁ with
        world, dice := []
        watermark := if 0 < t₁.nextId then .int (t₁.nextId - 1) else t₁.watermark } := by
  obtain ⟨_, s, hget, h⟩ := Attempt.perform_bind_eq_ok.1 h
  cases hget
  obtain ⟨_, t₁, hcanceled, h⟩ := Attempt.perform_bind_eq_ok.1 h
  obtain ⟨_, t₂, hmarked, h⟩ := Attempt.perform_bind_eq_ok.1 h
  obtain rfl : t₂ = { t₁ with
      watermark := if 0 < t₁.nextId then .int (t₁.nextId - 1) else t₁.watermark } := by
    cases hmarked
    dsimp only
    split <;> rfl
  obtain ⟨world, rfl⟩ := takeOff_returns h
  exact ⟨t₁, world, hcanceled, by simp⟩

variable {F : Footing ω} {start : Int}

/-- The rolls that are active when the tray was cleared began meanwhile, and they are past. -/
theorem shelved_of_clearing (hn : Heeds (amid F start) notify) (ho : Orderly (amid F start) owed t)
    (hset : t.watermark = .null ∨ Barred 0 t) (hreturns : (clearTray notify).perform t = (.ok (), t'))
    {r : Roll} (hr : r ∈ t'.active) :
    t.nextSerial ≤ r.serial ∧ Shelved (amid F start) r.serial t' := by
  obtain ⟨t₁, world, hcanceled, rfl⟩ := clearTray_returns hreturns
  obtain ⟨owed₁, trace₁, hinactive⟩ :=
    cancelAll_leaves hn not_exact_amid ho (fun x => ho.issued_of_active) hcanceled
  have ho₁ := trace₁.orderly ho
  have hnew : t.nextSerial ≤ r.serial := by
    refine Nat.le_of_not_lt fun hlt => ?_
    obtain ⟨x, hx, hserial⟩ := (trace₁.later ho).active r hr hlt
    have hactive := hinactive x hx
    rw [ho.id_eq (List.mem_append_right _ hx), (isActive_iff ho₁).2 ⟨r, hr, hserial.symm⟩] at hactive
    cases hactive
  have hissued : r.serial < t₁.nextSerial := ho₁.serial_lt hr
  have hnext : t₁.nextId = start + t₁.nextSerial := ho₁.nextId
  have hbelow : start + (r.serial : Int) < t₁.nextId := by omega
  refine ⟨hnew, ⟨?_, .inr hbelow⟩, hissued, rfl⟩
  by_cases hpositive : 0 < t₁.nextId
  · exact ⟨_, if_pos hpositive, Int.le_sub_one_of_lt hbelow⟩
  · -- Some roll was canceled, or nobody could have rolled meanwhile.
    have hactive : t.active ≠ [] := by
      intro hnone
      rw [hnone] at hcanceled
      cases hcanceled
      nomatch hnone ▸ hr
    obtain ⟨m, hm, hzero⟩ := (barred_of_cancelAll hn not_exact_amid ho hset hactive hcanceled).mark
    exact ⟨m, (if_neg hpositive).trans hm, show start + (r.serial : Int) ≤ m by omega⟩

/-- When a tray was cleared, no die is on it and the watermark is below the next id. In runs in which
anybody may interfere, the rolls that are active then are those that were begun meanwhile; none of their
dice is ever thrown. -/
theorem stranded_of_clearing (hreturns : (clearTray notify).perform t = (.ok (), t')) :
    (t'.dice = [] ∧ (0 < t'.nextId → t'.watermark = .int (t'.nextId - 1))) ∧
      ∀ (F : Footing ω) (t₀ : Tray ω), Fresh t₀ → F.holds t₀.world [] → Reach F t₀ t → Reacts F notify →
        ∀ r ∈ t'.active, (∃ n, r.id = .int n ∧ t.nextId ≤ n ∧ n < t'.nextId) ∧ Stranded F t' r := by
  refine ⟨?_, fun F t₀ fresh holds before reacts r hr => ?_⟩
  · obtain ⟨t₁, world, _, rfl⟩ := clearTray_returns hreturns
    exact ⟨rfl, fun hpositive => if_pos hpositive⟩
  · have ho₀ : Orderly (amid F t₀.nextId) (fun _ => []) t₀ :=
      fresh.orderly rfl (holds_amid.2 holds) trivial
    obtain ⟨owed, trace⟩ := before.trace ho₀
    have ho := trace.orderly ho₀
    have hn : Heeds (amid F t₀.nextId) notify := reacts.heeds
    obtain ⟨owed', trace', _⟩ := clearTray_does hn ho fun h => absurd h not_exact_amid
    rw [hreturns] at trace'
    have ho' := trace'.orderly ho
    have hset := trace.unset_or_barred (.inl fresh.watermark)
    obtain ⟨hnew, hshelved⟩ := shelved_of_clearing hn ho hset hreturns hr
    refine ⟨?_, hshelved.stranded ho' hr⟩
    obtain ⟨n, hid, hlt⟩ := ho'.issued_of_active hr
    refine ⟨n, hid, ?_, hlt⟩
    rw [ho'.id_eq (List.mem_append_right _ hr)] at hid
    have hn : t₀.nextId + (r.serial : Int) = n := Value.int.inj hid
    have hnext : t.nextId = t₀.nextId + t.nextSerial := ho.nextId
    omega

/-- A listener that rolls again when the only roll is canceled leaves a roll behind whose die is not
thrown. -/
theorem stranded_when_restless :
    ∃ t t', performAll announce [.roll "2d20"] restless = some t ∧
      (clearTray announce).perform t = (.ok (), t') ∧
      t'.active.map (fun r => r.id.same (.int 1)) = [true] ∧ t'.watermark.same (.int 1) = true ∧
      (t'.dice = [] ∧ (0 < t'.nextId → t'.watermark = .int (t'.nextId - 1))) ∧
      ∀ r ∈ t'.active, (∃ n, r.id = .int n ∧ t.nextId ≤ n ∧ n < t'.nextId) ∧
        Stranded ScriptedWorld.footing t' r := by
  have hrun : ((performAll announce [.roll "2d20"] restless).bind fun t =>
      (performAll announce [.clearTray] t).map fun t' =>
        (t'.active.map (fun r => r.id.same (.int 1)), t'.watermark.same (.int 1))) =
          some ([true], true) := by decide +kernel
  obtain ⟨t, ht, hrun⟩ := Option.bind_eq_some_iff.1 hrun
  obtain ⟨t', ht', hrun⟩ := Option.map_eq_some_iff.1 hrun
  obtain ⟨hactive, hwatermark⟩ := Prod.mk.inj hrun
  have hclear : (clearTray announce).perform t = (.ok (), t') := performAll_singleton ht'
  obtain ⟨hclean, hstranded⟩ := stranded_of_clearing hclear
  refine ⟨t, t', ht, hclear, hactive, hwatermark, hclean, ?_⟩
  exact hstranded ScriptedWorld.footing restless ⟨rfl, rfl, rfl, rfl, rfl, rfl, rfl⟩
    (ScriptedWorld.bears_nil _) (reach_of_performAll ht) (reactsLabeled_announceWithin _ deepest)

end RollTray.Tray
