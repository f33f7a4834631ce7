import RollTray.Proofs.Tray.Action

/-!
# Canceling

What it does to a tray to cancel rolls, to clear it and to prune it. The dice of a canceled roll can
always be taken out of a world that keeps them up, so an inactive roll never keeps dice on the tray
(`cancel_does`).
-/

namespace RollTray.Tray

variable {ω : Type} [World ω] {S : Setting ω} {owed : Owed} {t : Tray ω}

/-! ## Taking dice off the tray -/

theorem Setting.Holds.perm {w : ω} {handles handles' : List Nat} (h : S.Holds w handles)
    (hperm : handles.Perm handles') : S.Holds w handles' :=
  fun F hF => F.perm (h F hF) hperm

/-- Some dice are taken out of the world, one after the other. -/
theorem forM_remove (taken : Die → Bool) (dice : List Die) (rest : List Nat)
    (h : S.Holds t.world (dice.map Die.handle ++ rest)) :
    ∃ world answer,
      (dice.forM (m := Attempt (Tray ω)) fun d => do
        if taken d then withWorld (World.remove d.handle)).perform t = (answer, { t with world }) ∧
      (¬S.Exact → answer = .ok ()) ∧
      S.Holds world ((dice.filter fun d => !taken d).map Die.handle ++ rest) := by
  induction dice generalizing t rest with
  | nil => exact ⟨t.world, .ok (), rfl, fun _ => rfl, h⟩
  | cons d dice ih =>
    rw [List.forM, Attempt.perform_bind]
    by_cases htaken : taken d
    · rw [if_pos htaken, List.filter_cons_of_neg (by simp [htaken])]
      rcases hperform : (World.remove d.handle).perform t.world with ⟨answer, world⟩
      have hwith : (withWorld (World.remove d.handle)).perform t = (answer, { t with world }) := by
        rw [withWorld, Attempt.perform_within, hperform]
      rw [hwith]
      cases hfooting : S.footing? with
      | none =>
        have hall : ∀ w handles, S.Holds w handles := fun _ _ F hF => by
          rw [hfooting] at hF
          cases hF
        cases answer with
        | error fault => exact ⟨world, _, rfl, fun hexact => absurd hfooting hexact, hall _ _⟩
        | ok _ => exact ih rest (hall _ _)
      | some F =>
        obtain ⟨world', hremove, hholds⟩ := F.remove (h F hfooting)
        cases hperform.symm.trans hremove
        refine ih rest fun F' hF' => ?_
        cases hfooting.symm.trans hF'
        exact hholds
    · rw [if_neg htaken, List.filter_cons_of_pos (by simp [htaken])]
      obtain ⟨world, answer, hperform, hanswer, hholds⟩ :=
        ih (d.handle :: rest) (h.perm List.perm_middle.symm)
      exact ⟨world, answer, hperform, hanswer, hholds.perm List.perm_middle⟩

theorem takeOff_perform (h : S.Holds t.world (t.dice.map Die.handle)) (taken : Die → Bool) :
    ∃ world, S.Holds world ((t.dice.filter fun d => !taken d).map Die.handle) ∧
      ((takeOff taken).perform t =
          (.ok (), { t with world, dice := t.dice.filter fun d => !taken d }) ∨
        S.Exact ∧ ∃ fault, ((takeOff taken).perform t).1 = .error fault) := by
  obtain ⟨world, answer, hperform, hanswer, hholds⟩ :=
    forM_remove taken t.dice [] (by rwa [List.append_nil])
  rw [List.append_nil] at hholds
  refine ⟨world, hholds, ?_⟩
  rw [takeOff, Attempt.perform_bind_of_ok (Attempt.perform_get t)]
  cases answer with
  | ok _ => exact .inl (Attempt.perform_bind_of_ok hperform)
  | error fault =>
    refine .inr ⟨Classical.not_not.1 (fun hexact => nomatch hanswer hexact), fault, ?_⟩
    rw [Attempt.perform_bind_of_error hperform]

/-- In a setting that is not exact dice are taken off the tray whatever the world answers. -/
theorem takeOff_of_inexact (hexact : ¬S.Exact) (ho : Orderly S owed t) (taken : Die → Bool) :
    ∃ world, (takeOff taken).perform t =
        (.ok (), { t with world, dice := t.dice.filter fun d => !taken d }) ∧
      Orderly S owed ((takeOff taken).perform t).2 := by
  obtain ⟨world, hholds, hperform | ⟨h, _⟩⟩ := takeOff_perform ho.holds taken
  · exact ⟨world, hperform, hperform ▸ ho.remove taken (fun h => absurd h hexact) hholds⟩
  · exact absurd h hexact

/-- Dice are taken off the tray. -/
theorem takeOff_does (taken : Die → Bool) (none : S.Exact → ∀ d ∈ t.dice, taken d = false) :
    Does S owed t (takeOff taken) fun _ owed' t' => S.Exact →
      owed' = owed ∧ t'.history = t.history ∧ t'.active = t.active := by
  intro ho hreturns
  obtain ⟨world, hholds, hperform | ⟨hexact, fault, hfault⟩⟩ := takeOff_perform ho.holds taken
  · rw [hperform]
    exact ⟨owed, (Change.remove taken world none hholds).trace fun _ => rfl,
      fun _ _ _ => ⟨rfl, rfl, rfl⟩⟩
  · obtain ⟨x, hx⟩ := hreturns hexact
    rw [hx] at hfault
    cases hfault

/-! ## Canceling one roll -/

theorem find?_id {id : Value} {rolls : List Roll} {r : Roll} (h : Roll.find? id rolls = some r) :
    r ∈ rolls ∧ r.id.same id = true :=
  ⟨List.mem_of_find?_eq_some h, List.find?_some (p := fun r : Roll => r.id.same id) h⟩

namespace Orderly

/-- The id of a roll that is found is the one that was looked for. -/
theorem eq_of_same (ho : Orderly S owed t) {r : Roll} (hr : r ∈ t.history ++ t.active) {n : Int}
    (h : r.id.same (.int n) = true) : n = S.start + r.serial := by
  rw [ho.id_eq hr, Setting.id, Value.same_int, decide_eq_true_iff] at h
  exact h.symm

/-- Taking a roll from the active ones leaves those of other serial numbers. -/
theorem eraseP_active (ho : Orderly S owed t) {r : Roll} (hr : r ∈ t.active) :
    t.active.eraseP (fun r' => r'.id.same (S.id r.serial)) =
      t.active.filter fun r' => r'.serial != r.serial := by
  have hid : ∀ r' ∈ t.active, r'.id.same (S.id r.serial) = decide (r'.serial = r.serial) := by
    intro r' hr'
    rw [ho.id_eq (List.mem_append_right _ hr'), same_id]
  have hsorted := ho.active
  generalize t.active = active at hr hid hsorted
  induction active with
  | nil => rfl
  | cons a rest ih =>
    obtain ⟨hfirst, hrest⟩ := List.pairwise_cons.1 hsorted
    have ha := hid a (List.mem_cons_self ..)
    by_cases heq : a.serial = r.serial
    · rw [List.eraseP_cons_of_pos (by rw [ha, heq]; simp), List.filter_cons_of_neg (by simp [heq])]
      refine (List.filter_eq_self.2 fun r' hr' => ?_).symm
      have := hfirst r' hr'
      simp only [bne_iff_ne, ne_eq]
      omega
    · rw [List.eraseP_cons_of_neg (by rw [ha]; simp [heq]), List.filter_cons_of_pos (by simp [heq])]
      refine congrArg _ (ih ?_ (fun r' hr' => hid r' (List.mem_cons_of_mem _ hr')) hrest)
      rcases List.mem_cons.1 hr with rfl | hr
      · exact absurd rfl heq
      · exact hr

end Orderly

theorem isBefore_int {n : Int} {rolls : List Roll} (hids : ∀ r ∈ rolls, r.id = S.id r.serial)
    (hsorted : rolls.Pairwise fun r r' => r.serial < r'.serial) :
    ∃ before, isBefore (.int n) rolls = .ok before ∧
      (before = true ↔ ∀ r ∈ rolls, n < S.start + r.serial) := by
  cases rolls with
  | nil => exact ⟨true, rfl, iff_of_true rfl fun _ hr => nomatch hr⟩
  | cons r rest =>
    refine ⟨decide (n < S.start + r.serial), ?_, ⟨fun hbefore r' hr' => ?_, fun hall => ?_⟩⟩
    · rw [isBefore, hids r (List.mem_cons_self ..), Setting.id, Value.lt_int]
    · have hlt := of_decide_eq_true hbefore
      rcases List.mem_cons.1 hr' with rfl | hr'
      · exact hlt
      · have := (List.pairwise_cons.1 hsorted).1 r' hr'
        omega
    · exact decide_eq_true (hall r (List.mem_cons_self ..))

omit [World ω] in
theorem exists_orZero {watermark : Value} (h : watermark = .null ∨ ∃ m, watermark = .int m) :
    ∃ m : Int, watermark.orZero = .int m := by
  rcases h with rfl | ⟨m, rfl⟩
  · exact ⟨0, rfl⟩
  · exact ⟨m, Value.orZero_int m⟩

theorem higher_int {n m : Int} {watermark : Value} (h : watermark.orZero = .int m) :
    higher (.int n) watermark = .ok (.int (max n m)) := by
  rw [higher, h, Value.lt_int]
  show Except.ok (if decide (n < m) = true then Value.int m else .int n) = _
  by_cases hlt : n < m
  · rw [if_pos (decide_eq_true hlt), Int.max_eq_right (Int.le_of_lt hlt)]
  · rw [if_neg (by simpa using hlt), Int.max_eq_left (by omega)]

/-- How the watermark is raised when other rolls are active. -/
theorem raiseWatermark_perform {n : Int}
    (hwatermark : t.watermark = .null ∨ ∃ m, t.watermark = .int m)
    (hids : ∀ r ∈ t.active, r.id = S.id r.serial)
    (hsorted : t.active.Pairwise fun r r' => r.serial < r'.serial) :
    ∃ watermark, (raiseWatermark (.int n)).perform t = (.ok (), { t with watermark }) ∧
      (watermark = t.watermark ∧ (¬∀ r ∈ t.active, n < S.start + r.serial) ∨
        ∃ m : Int, t.watermark.orZero = .int m ∧
          watermark = .int (max n m) ∧ ∀ r ∈ t.active, n < S.start + r.serial) := by
  obtain ⟨before, hbefore, hfirst⟩ := isBefore_int (n := n) hids hsorted
  obtain ⟨m, hm⟩ := exists_orZero hwatermark
  rw [raiseWatermark, Attempt.perform_bind, Attempt.perform_get]
  show ∃ watermark, (_ >>= _ : Attempt (Tray ω) Unit).perform t = _ ∧ _
  rw [hbefore, Attempt.perform_bind, Attempt.perform_lift]
  cases before with
  | false => exact ⟨t.watermark, rfl, .inl ⟨rfl, fun hall => nomatch hfirst.2 hall⟩⟩
  | true =>
    refine ⟨.int (max n m), ?_, .inr ⟨m, hm, rfl, hfirst.1 rfl⟩⟩
    show (_ >>= _ : Attempt (Tray ω) Unit).perform t = _
    rw [higher_int hm]
    rfl

/-- What becomes of a tray when an active roll is canceled, before anybody is told. -/
def depart (id : Value) : Attempt (Tray ω) Unit := do
  modify fun t => { t with active := t.active.eraseP fun other => other.id.same id }
  raiseWatermark id
  removeDice id

theorem cancel_eq (notify : Notify ω) (id : Value) : cancel notify id = (do
    match Roll.find? id (← get).active with
    | none => return false
    | some r => do
      depart id
      notify .canceled r.record
      return true) := by
  unfold cancel depart
  refine bind_congr fun t => ?_
  cases Roll.find? id t.active <;> simp only [bind_assoc]

/-- An active roll leaves the tray, unless its dice cannot be taken out of a world of which nothing is
asked. -/
theorem depart_perform (ho : Orderly S owed t) {r : Roll} {n : Int}
    (hfind : Roll.find? (.int n) t.active = some r) :
    ∃ watermark world,
      Lifts S t r watermark ∧
      (∀ notices, notices = [] ∨ notices = [.happened .canceled r.record.id r.record.result] →
        Change S .calm t owed
          { t with active := t.active.filter fun r' => r'.serial != r.serial, watermark, world,
                   dice := t.dice.filter fun d => !d.roll.same (S.id r.serial),
                   journal := t.journal ++ notices } owed) ∧
      ((depart (.int n)).perform t =
          (.ok (), { t with
            active := t.active.filter fun r' => r'.serial != r.serial, watermark, world
            dice := t.dice.filter fun d => !d.roll.same (S.id r.serial) }) ∨
        S.Exact ∧ ∃ fault, ((depart (.int n)).perform t).1 = .error fault) := by
  obtain ⟨mem, hsame⟩ := find?_id hfind
  have hn := ho.eq_of_same (List.mem_append_right _ mem) hsame
  have hid : Value.int n = S.id r.serial := congrArg _ hn
  have hactive := ho.eraseP_active mem
  have hids : ∀ r' ∈ t.active.filter (fun r' => r'.serial != r.serial), r'.id = S.id r'.serial :=
    fun r' hr' => ho.id_eq (List.mem_append_right _ (mem_filter_serial.1 hr').1)
  obtain ⟨watermark, hraise, hraised⟩ := raiseWatermark_perform (n := n)
    (t := { t with active := t.active.filter fun r' => r'.serial != r.serial }) ho.watermark hids
    (ho.active.filter _)
  have holdest : (∀ r' ∈ t.active.filter (fun r' => r'.serial != r.serial),
      n < S.start + r'.serial) ↔ t.IsOldest r := by
    refine ⟨fun hall r' hr' hne => ?_, fun hall r' hr' => ?_⟩
    · have := hall r' (mem_filter_serial.2 ⟨hr', hne⟩)
      omega
    · obtain ⟨hr', hne⟩ := mem_filter_serial.1 hr'
      have := hall r' hr' hne
      omega
  rw [holdest, hn] at hraised
  have hmark : Lifts S t r watermark := hraised
  obtain ⟨world, hholds, hremove⟩ := takeOff_perform
    (t := { t with active := t.active.filter fun r' => r'.serial != r.serial, watermark })
    ho.holds (fun d => d.roll.same (S.id r.serial))
  refine ⟨watermark, world, hmark, fun notices hnotices => ?_, ?_⟩
  · exact .cancel r mem watermark world notices hmark hholds hnotices
  · have hperform : (depart (.int n)).perform t = (removeDice (S.id r.serial)).perform
        { t with active := t.active.filter fun r' => r'.serial != r.serial, watermark } := by
      rw [depart, Attempt.perform_bind_of_ok (Attempt.perform_modify _ t), hid, hactive]
      rw [hid] at hraise
      exact Attempt.perform_bind_of_ok hraise
    rw [hperform]
    exact hremove

theorem depart_of_inexact (hexact : ¬S.Exact) (ho : Orderly S owed t) {r : Roll} {n : Int}
    (hfind : Roll.find? (.int n) t.active = some r) :
    ∃ watermark world, Lifts S t r watermark ∧
      (depart (.int n)).perform t =
        (.ok (), { t with
          active := t.active.filter fun r' => r'.serial != r.serial, watermark, world
          dice := t.dice.filter fun d => !d.roll.same (S.id r.serial) }) ∧
      Orderly S owed ((depart (.int n)).perform t).2 := by
  obtain ⟨watermark, world, hmark, hchange, hperform | ⟨h, _⟩⟩ := depart_perform ho hfind
  · have ho' := (hchange [] (.inl rfl)).orderly ho
    rw [List.append_nil] at ho'
    exact ⟨watermark, world, hmark, hperform, hperform ▸ ho'⟩
  · exact absurd h hexact

variable {notify : Notify ω}

/-- An active roll is canceled, unless its dice cannot be taken out of a world of which nothing is
asked. -/
theorem cancel_perform (notify : Notify ω) (ho : Orderly S owed t) {r : Roll} {n : Int}
    (hfind : Roll.find? (.int n) t.active = some r) :
    ∃ watermark world, Lifts S t r watermark ∧
      (∀ notices, notices = [] ∨ notices = [.happened .canceled r.record.id r.record.result] →
        Change S .calm t owed
          { t with active := t.active.filter fun r' => r'.serial != r.serial, watermark, world,
                   dice := t.dice.filter fun d => !d.roll.same (S.id r.serial),
                   journal := t.journal ++ notices } owed) ∧
      ((cancel notify (.int n)).perform t =
          (do notify .canceled r.record; return true : Attempt (Tray ω) Bool).perform
            { t with active := t.active.filter fun r' => r'.serial != r.serial, watermark, world,
                     dice := t.dice.filter fun d => !d.roll.same (S.id r.serial) } ∨
        S.Exact ∧ ∃ fault, ((cancel notify (.int n)).perform t).1 = .error fault) := by
  obtain ⟨watermark, world, hmark, hchange, hdepart⟩ := depart_perform ho hfind
  have hperform : (cancel notify (.int n)).perform t =
      (do depart (.int n); notify .canceled r.record; return true :
        Attempt (Tray ω) Bool).perform t := by
    rw [cancel_eq, Attempt.perform_bind_of_ok (Attempt.perform_get t), hfind]
  refine ⟨watermark, world, hmark, hchange, ?_⟩
  rw [hperform]
  rcases hdepart with hdepart | ⟨hexact, fault, hfault⟩
  · exact .inl (Attempt.perform_bind_of_ok hdepart)
  · refine .inr ⟨hexact, fault, ?_⟩
    exact congrArg Prod.fst (Attempt.perform_bind_of_error (Prod.ext hfault rfl))

/-- Nothing is canceled if no active roll has the id. -/
theorem cancel_of_not_found (notify : Notify ω) {n : Int}
    (hfind : Roll.find? (.int n) t.active = none) :
    (cancel notify (.int n)).perform t = (.ok false, t) ∧ ∀ r ∈ t.active, r.id ≠ .int n := by
  refine ⟨?_, fun r hr hid => ?_⟩
  · rw [cancel, Attempt.perform_bind_of_ok (Attempt.perform_get t)]
    simp only [hfind, Attempt.perform_pure]
  · have := List.find?_eq_none.1 hfind r hr
    rw [hid, Value.same_int] at this
    simp at this

theorem cancel_does (hn : Heeds S notify) {id : Value} (hid : ∃ n, id = .int n) :
    Does S owed t (cancel notify id) fun _ owed' t' => S.Exact →
      owed' = owed ∧ t'.history = t.history ∧ ∀ r ∈ t'.active, r ∈ t.active ∧ r.id ≠ id := by
  obtain ⟨n, rfl⟩ := hid
  intro ho hreturns
  cases hfind : Roll.find? (.int n) t.active with
  | none =>
    obtain ⟨hperform, hne⟩ := cancel_of_not_found notify hfind
    rw [hperform]
    exact ⟨owed, .refl, fun _ _ _ => ⟨rfl, rfl, fun r hr => ⟨hr, hne r hr⟩⟩⟩
  | some r =>
    obtain ⟨mem, hsame⟩ := find?_id hfind
    have hid : Value.int n = S.id r.serial :=
      congrArg _ (ho.eq_of_same (List.mem_append_right _ mem) hsame)
    obtain ⟨watermark, world, _, hchange, hperform | ⟨hexact, fault, hfault⟩⟩ :=
      cancel_perform notify ho hfind
    · rw [hperform]
      have ho' := (hchange [] (.inl rfl)).orderly ho
      rw [List.append_nil] at ho'
      obtain ⟨owed', trace, h⟩ := hn.exists_trace_of_last .canceled
        ⟨_, ho.id_eq (List.mem_append_right _ mem)⟩ true ho' hchange
      refine ⟨owed', trace, fun _ _ hexact => ?_⟩
      obtain ⟨howed, listeners, journal, hlast⟩ := h hexact
      rw [hlast]
      refine ⟨howed, rfl, fun r' hr' => ?_⟩
      obtain ⟨hr', hne⟩ := mem_filter_serial.1 hr'
      refine ⟨hr', fun heq => ?_⟩
      rw [ho.id_eq (List.mem_append_right _ hr'), hid] at heq
      simp only [Setting.id, Value.int.injEq] at heq
      omega
    · obtain ⟨x, hx⟩ := hreturns hexact
      rw [hx] at hfault
      cases hfault

/-! ## Canceling many -/

/-- What is left of a tray in an exact setting when rolls were canceled. -/
def Canceled (t : Tray ω) (ids : List Value) (t' : Tray ω) : Prop :=
  t'.history = t.history ∧ ∀ r ∈ t'.active, r ∈ t.active ∧ ∀ id ∈ ids, r.id ≠ id

theorem cancelAll_does (hn : Heeds S notify) {rolls : List Roll}
    (hids : ∀ r ∈ rolls, ∃ n, r.id = .int n) :
    Does S owed t (cancelAll notify rolls) fun _ owed' t' => S.Exact →
      owed' = owed ∧ Canceled t (rolls.map Roll.id) t' := by
  induction rolls generalizing t owed with
  | nil => exact .pure fun _ => ⟨rfl, rfl, fun r hr => ⟨hr, fun _ h => nomatch h⟩⟩
  | cons first rest ih =>
    rw [cancelAll, List.forM]
    refine .bind (.discard (cancel_does hn (hids first (List.mem_cons_self ..))))
      fun _ owed₁ t₁ _ ⟨_, h₁⟩ => ?_
    refine (ih fun r hr => hids r (List.mem_cons_of_mem _ hr)).mono fun _ owed₂ t₂ _ h₂ hexact => ?_
    obtain ⟨rfl, hhistory₁, hactive₁⟩ := h₁ hexact
    obtain ⟨rfl, hhistory₂, hactive₂⟩ := h₂ hexact
    refine ⟨rfl, hhistory₂.trans hhistory₁, fun r hr => ?_⟩
    obtain ⟨hr, hrest⟩ := hactive₂ r hr
    obtain ⟨hr, hfirst⟩ := hactive₁ r hr
    refine ⟨hr, fun id hid => ?_⟩
    rcases List.mem_cons.1 hid with rfl | hid
    · exact hfirst
    · exact hrest id hid

omit [World ω] in
/-- No roll stays active where all were canceled. -/
theorem Canceled.active_eq_nil {t' : Tray ω} (h : Canceled t (t.active.map Roll.id) t') :
    t'.active = [] :=
  List.eq_nil_iff_forall_not_mem.2 fun r hr =>
    have ⟨hr, hne⟩ := h.2 r hr
    hne r.id (List.mem_map_of_mem hr) rfl

theorem Orderly.dice_eq_nil (ho : Orderly S owed t) (h : t.active = []) : t.dice = [] :=
  List.eq_nil_iff_forall_not_mem.2 fun d hd => by
    obtain ⟨r, hr, _⟩ := ho.dice d hd
    rw [h] at hr
    nomatch hr

theorem clearTray_does (hn : Heeds S notify) :
    Does S owed t (clearTray notify) fun _ owed' t' => S.Exact →
      owed' = owed ∧ t'.history = t.history ∧ t'.active = [] := by
  refine .of_orderly fun ho => .get ?_
  refine .bind (cancelAll_does hn fun r hr => ⟨_, ho.id_eq (List.mem_append_right _ hr)⟩)
    fun _ owed₁ t₁ trace₁ h₁ => ?_
  have hmark : Does S owed₁ t₁
      (modify fun t => if 0 < t.nextId then { t with watermark := .int (t.nextId - 1) } else t)
      fun _ owed₂ t₂ => owed₂ = owed₁ ∧ t₂.history = t₁.history ∧ t₂.active = t₁.active ∧
        t₂.dice = t₁.dice := by
    by_cases hid : 0 < t₁.nextId
    · refine .of_perform ((Attempt.perform_modify _ t₁).trans (by rw [if_pos hid]))
        ((Change.mark (fun hcounted => (h₁ hcounted.1).2.active_eq_nil) hid).trace fun _ => rfl)
        fun _ _ => ?_
      exact ⟨rfl, rfl, rfl, rfl⟩
    · refine .of_perform ((Attempt.perform_modify _ t₁).trans (by rw [if_neg hid])) .refl
        fun _ _ => ?_
      exact ⟨rfl, rfl, rfl, rfl⟩
  refine .bind hmark fun _ owed₂ t₂ _ h₂ => ?_
  obtain ⟨rfl, hhistory₂, hactive₂, hdice₂⟩ := h₂
  refine (takeOff_does _ fun hexact d hd => ?_).mono fun _ owed₃ t₃ _ h₃ hexact => ?_
  · rw [hdice₂, (trace₁.orderly ho).dice_eq_nil (h₁ hexact).2.active_eq_nil] at hd
    nomatch hd
  · obtain ⟨rfl, hhistory₃, hactive₃⟩ := h₃ hexact
    obtain ⟨rfl, hcanceled⟩ := h₁ hexact
    refine ⟨rfl, hhistory₃.trans (hhistory₂.trans hcanceled.1), ?_⟩
    rw [hactive₃, hactive₂, hcanceled.active_eq_nil]

/-! ## Rolls that are not in history -/

/-- Every active roll is in history. -/
def Listed (t : Tray ω) : Prop :=
  ∀ r ∈ t.active, r ∈ t.history

theorem among_ids (ho : Orderly S owed t) {r : Roll} (hr : r ∈ t.active) :
    r.id.among (t.history.map Roll.id) = true ↔ r ∈ t.history := by
  rw [Value.among, List.any_map, List.any_eq_true]
  have hid := ho.id_eq (List.mem_append_right _ hr)
  constructor
  · rintro ⟨r', hr', hsame⟩
    have hsame : (S.id r.serial).sameKey (S.id r'.serial) = true := by
      rw [← hid, ← ho.id_eq (List.mem_append_left _ hr')]
      exact hsame
    rw [Setting.id, Setting.id, Value.sameKey_int, decide_eq_true_iff] at hsame
    rw [← ho.agree r' hr' r hr (by omega)]
    exact hr'
  · intro hmem
    refine ⟨r, hmem, ?_⟩
    show r.id.sameKey r.id = true
    rw [hid, Setting.id, Value.sameKey_int, decide_eq_true_iff]

/-- Where the active rolls that are not in history were canceled, all are in history. -/
theorem Canceled.listed (ho : Orderly S owed t) {t' : Tray ω}
    (h : Canceled t ((t.active.filter fun r => !r.id.among (t.history.map Roll.id)).map Roll.id) t') :
    Listed t' := by
  intro r hr
  obtain ⟨hr, hne⟩ := h.2 r hr
  rw [h.1]
  by_contra hnot
  refine hne r.id (List.mem_map_of_mem (List.mem_filter.2 ⟨hr, ?_⟩)) rfl
  simpa using mt (among_ids ho hr).1 hnot

/-- If active rolls are in history, so are the rolls of all dice. -/
theorem orphans_eq_nil (ho : Orderly S owed t) (hlisted : Listed t) :
    (t.dice.map Die.roll).filter (fun id => !id.among (t.history.map Roll.id)) = [] := by
  refine List.filter_eq_nil_iff.2 fun id hid => ?_
  obtain ⟨d, hd, rfl⟩ := List.mem_map.1 hid
  obtain ⟨r, hr, hroll⟩ := ho.dice d hd
  have hamong := (among_ids ho hr).2 (hlisted r hr)
  rw [ho.id_eq (List.mem_append_right _ hr), ← hroll] at hamong
  simp [hamong]

theorem forM_removeDice_does {ids : List Value} (none : S.Exact → ids = []) :
    Does S owed t (ids.forM removeDice) fun _ owed' t' => S.Exact → owed' = owed ∧ t' = t := by
  induction ids generalizing t owed with
  | nil => exact .pure fun _ => ⟨rfl, rfl⟩
  | cons id rest ih =>
    have hexact : ¬S.Exact := fun hexact => nomatch none hexact
    rw [List.forM]
    refine .bind (takeOff_does _ fun h => absurd h hexact) fun _ _ _ _ _ => ?_
    exact (ih fun h => absurd h hexact).mono fun _ _ _ _ _ h => absurd h hexact

theorem prune_does (hn : Heeds S notify) :
    Does S owed t (prune notify) fun _ owed' t' => S.Exact →
      owed' = owed ∧ t'.history = t.history ∧ Listed t' := by
  refine .of_orderly fun ho => .get ?_
  refine .bind (cancelAll_does hn fun r hr =>
    ⟨_, ho.id_eq (List.mem_append_right _ (List.mem_filter.1 hr).1)⟩) fun _ owed₁ t₁ trace₁ h₁ => ?_
  have hlisted : S.Exact → Listed t₁ := fun hexact => (h₁ hexact).2.listed ho
  refine .get ((forM_removeDice_does fun hexact => ?_).mono fun _ owed₂ t₂ _ h₂ hexact => ?_)
  · rw [← (h₁ hexact).2.1]
    exact orphans_eq_nil (trace₁.orderly ho) (hlisted hexact)
  · obtain ⟨rfl, rfl⟩ := h₂ hexact
    exact ⟨(h₁ hexact).1, (h₁ hexact).2.1, hlisted hexact⟩

theorem clearHistory_does (hn : Heeds S notify) :
    Does S owed t (clearHistory notify) fun _ owed' t' => S.Exact →
      owed' = owed ∧ t'.history = [] ∧ Listed t' := by
  refine .bind (.of_change (.trim [] (List.nil_sublist _))) fun _ owed₁ t₁ _ h₁ => ?_
  obtain ⟨rfl, rfl⟩ := h₁
  exact prune_does hn

end RollTray.Tray
