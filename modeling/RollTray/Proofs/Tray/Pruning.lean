import RollTray.Proofs.Tray.Independence

/-!
# Pruning

What is left of a tray after active rolls were canceled and dice taken off it (`Sheds`). Nothing is asked of
its history, which may have been edited: if the active rolls can be told apart and the world keeps up the
dice (`Firm`), canceling some of the active rolls never fails (`cancelAll_sheds`), and neither does pruning.
It cancels the active rolls that are not in history, and then takes off the tray the dice that are left of
other rolls that are not (`prune_sheds`). `pruned` says what is on the tray afterwards, and that each die
that left it was taken out of the world once.
-/

namespace RollTray

namespace Value

/-- A number other than the float that is none. -/
def IsNumber (v : Value) : Prop :=
  ∃ n ∈ v.num?, n.isNaN = false

instance (v : Value) : Decidable v.IsNumber :=
  inferInstanceAs (Decidable (∃ n ∈ v.num?, n.isNaN = false))

theorem isNumber_int (n : Int) : (int n).IsNumber := ⟨.int n, rfl, rfl⟩

variable {v : Value}

theorem IsNumber.exists_key (h : v.IsNumber) : ∃ k, v.key? = some k :=
  have ⟨n, hn, hnan⟩ := h
  ⟨.number n.point, (key?_of_num hn).2 ⟨hnan, rfl⟩⟩

theorem IsNumber.isKey (h : v.IsNumber) : v.isKey = true :=
  have ⟨_, hk⟩ := h.exists_key
  isKey_of_key? hk

theorem IsNumber.same_self (h : v.IsNumber) : v.same v = true :=
  have ⟨_, hk⟩ := h.exists_key
  Value.same_self hk

/-- Null counts as zero. -/
theorem exists_num_orZero (h : v = .null ∨ v.IsNumber) : v.orZero.IsNumber := by
  rw [orZero]
  split
  · rcases h with rfl | h
    · next htruthy => cases htruthy
    · exact h
  · exact isNumber_int 0

end Value

namespace Tray

variable {ω : Type} [World ω] {F : Footing ω} {t t' t'' : Tray ω}

/-! ## What is canceled and what leaves the tray -/

/-- The ids of the rolls that were canceled, in their order. -/
def canceledIn (journal : List Notice) : List Value :=
  journal.filterMap fun notice =>
    match notice with
    | .happened .canceled id _ => some id
    | _ => none

/-- Notices that say nothing of the end of a roll say nothing of one that was canceled. -/
theorem canceledIn_passing {notices : List Notice} (h : ∀ notice ∈ notices, notice.Passing) :
    canceledIn notices = [] := by
  refine List.filterMap_eq_nil_iff.2 fun notice hmem => ?_
  cases notice with
  | told tag id => rfl
  | happened event id result =>
    cases h _ hmem
    rfl

/-- Some active rolls were canceled, one after the other, and some dice were taken off the tray and out of
the world. -/
structure Sheds (rolls : List Roll) (taken : Die → Bool) (t t' : Tray ω) : Prop where
  active : t'.active = t.active.filter fun r => !rolls.any fun r' => r.id.same r'.id
  dice : t'.dice = t.dice.filter fun d => !taken d
  bodies : ∃ gone : List Die, gone.Perm (t.dice.filter taken) ∧
    (gone.forM fun d => World.remove d.handle).perform t.world = (.ok (), t'.world)
  canceled : canceledIn t'.journal = canceledIn t.journal ++ rolls.map Roll.id
  /-- All else is as it was. -/
  rest : ∃ watermark listeners, t' = { t with
    world := t'.world, active := t'.active, dice := t'.dice, journal := t'.journal, watermark, listeners }

namespace Sheds

variable {rolls rolls' : List Roll} {taken taken' : Die → Bool}

theorem history (h : Sheds rolls taken t t') : t'.history = t.history := by
  obtain ⟨watermark, listeners, hrest⟩ := h.rest
  rw [hrest]

theorem config (h : Sheds rolls taken t t') : t'.config = t.config := by
  obtain ⟨watermark, listeners, hrest⟩ := h.rest
  rw [hrest]

theorem nextId (h : Sheds rolls taken t t') : t'.nextId = t.nextId := by
  obtain ⟨watermark, listeners, hrest⟩ := h.rest
  rw [hrest]

theorem congr (h : Sheds rolls taken t t') (htaken : ∀ d ∈ t.dice, taken' d = taken d) :
    Sheds rolls taken' t t' where
  active := h.active
  dice := h.dice.trans (List.filter_congr fun d hd => by rw [htaken d hd])
  bodies := by rw [List.filter_congr htaken]; exact h.bodies
  canceled := h.canceled
  rest := h.rest

theorem trans (first : Sheds rolls taken t t') (second : Sheds rolls' taken' t' t'') :
    Sheds (rolls ++ rolls') (fun d => taken d || taken' d) t t'' where
  active := by
    rw [second.active, first.active, List.filter_filter]
    refine List.filter_congr fun r _ => ?_
    rw [List.any_append, Bool.not_or, Bool.and_comm]
  dice := by
    rw [second.dice, first.dice, List.filter_filter]
    refine List.filter_congr fun d _ => ?_
    rw [Bool.not_or, Bool.and_comm]
  bodies := by
    obtain ⟨gone, hgone, hperform⟩ := first.bodies
    obtain ⟨gone', hgone', hperform'⟩ := second.bodies
    refine ⟨gone ++ gone', ?_, ?_⟩
    · -- Those taken first are all that are taken first, and the others were left for the second time.
      refine (hgone.append hgone').trans ?_
      have hsplit := List.filter_append_perm taken (t.dice.filter fun d => taken d || taken' d)
      rw [List.filter_filter, List.filter_filter] at hsplit
      rw [first.dice, List.filter_filter]
      convert hsplit using 3 <;> funext d <;> cases taken d <;> cases taken' d <;> rfl
    · have happend : (gone ++ gone').forM (fun d => World.remove d.handle) =
          (do gone.forM fun d => World.remove d.handle; gone'.forM fun d => World.remove d.handle :
            Attempt ω PUnit) := List.forM_append
      rw [happend, Attempt.perform_bind_of_ok hperform, hperform']
  canceled := by
    rw [second.canceled, first.canceled, List.map_append, List.append_assoc]
  rest := by
    obtain ⟨_, _, hfirst⟩ := first.rest
    obtain ⟨watermark, listeners, hsecond⟩ := second.rest
    refine ⟨watermark, listeners, ?_⟩
    rw [hsecond, hfirst]

end Sheds

/-! ## Trays that nothing fails on -/

/-- The active rolls can be told apart by their ids, which are numbers, the world keeps up the dice, and
listeners only look on. -/
structure Firm (F : Footing ω) (t : Tray ω) : Prop where
  ids : ∀ r ∈ t.active, r.id.IsNumber
  apart : t.active.Pairwise fun r r' => r.id.same r'.id = false
  dice : ∀ d ∈ t.dice, d.roll.IsNumber
  watermark : t.watermark = .null ∨ t.watermark.IsNumber
  holds : F.holds t.world (t.dice.map Die.handle)
  quiet : Onlookers t.listeners

omit [World ω] in
/-- The items that are taken out are one at most. -/
theorem eraseP_eq_filter {α : Type} {taken : α → Bool} {items : List α}
    (h : items.Pairwise fun x y => taken x = true → taken y = false) :
    items.eraseP taken = items.filter fun x => !taken x := by
  induction items with
  | nil => rfl
  | cons x rest ih =>
    obtain ⟨hfirst, hrest⟩ := List.pairwise_cons.1 h
    cases hx : taken x with
    | true =>
      rw [List.eraseP_cons_of_pos hx, List.filter_cons_of_neg (by simp [hx])]
      exact (List.filter_eq_self.2 fun y hy => by rw [hfirst y hy hx]; rfl).symm
    | false =>
      rw [List.eraseP_cons_of_neg (by simp [hx]), List.filter_cons_of_pos (by simp [hx]), ih hrest]

theorem isBefore_of_numbers {id : Value} (hid : id.IsNumber) {rolls : List Roll}
    (h : ∀ r ∈ rolls, r.id.IsNumber) : ∃ before, isBefore id rolls = .ok before := by
  obtain ⟨n, hn, _⟩ := hid
  cases rolls with
  | nil => exact ⟨true, rfl⟩
  | cons r rest =>
    obtain ⟨m, hm, _⟩ := h r (List.mem_cons_self ..)
    exact ⟨_, Value.lt_of_num hn hm⟩

theorem higher_of_numbers {id watermark : Value} (hid : id.IsNumber)
    (h : watermark = .null ∨ watermark.IsNumber) :
    ∃ v, higher id watermark = .ok v ∧ v.IsNumber := by
  have hzero := Value.exists_num_orZero h
  have ⟨n, hn, _⟩ := hid
  have ⟨m, hm, _⟩ := hzero
  rw [higher, Value.lt_of_num hn hm]
  refine ⟨_, rfl, ?_⟩
  split
  · exact hzero
  · exact hid

omit [World ω] in
/-- The watermark is raised to a number, if at all. -/
theorem raiseWatermark_of_numbers {id : Value} (hid : id.IsNumber) (hactive : ∀ r ∈ t.active, r.id.IsNumber)
    (hwatermark : t.watermark = .null ∨ t.watermark.IsNumber) :
    ∃ watermark, (watermark = .null ∨ watermark.IsNumber) ∧
      (raiseWatermark id).perform t = (.ok (), { t with watermark }) := by
  obtain ⟨before, hbefore⟩ := isBefore_of_numbers hid hactive
  obtain ⟨v, hhigher, hv⟩ := higher_of_numbers hid hwatermark
  rw [raiseWatermark, Attempt.perform_bind_of_ok (Attempt.perform_get t), hbefore, hhigher]
  cases before with
  | false => exact ⟨t.watermark, hwatermark, rfl⟩
  | true => exact ⟨v, .inr hv, rfl⟩

/-- The dice of a roll are taken off the tray, and each out of the world. -/
theorem removeDice_perform (h : F.holds t.world (t.dice.map Die.handle)) (id : Value) :
    ∃ world, (removeDice id).perform t =
        (.ok (), { t with world, dice := t.dice.filter fun d => !d.roll.same id }) ∧
      ((t.diceOf id).forM fun d => World.remove d.handle).perform t.world = (.ok (), world) ∧
      F.holds world ((t.dice.filter fun d => !d.roll.same id).map Die.handle) := by
  obtain ⟨world, hholds, hperform | ⟨hexact, _⟩⟩ :=
    takeOff_perform (S := undisturbed F 0) (holds_undisturbed.2 h) fun d => d.roll.same id
  · obtain ⟨world', hworld, heq⟩ := removeDice_eq_ok hperform
    obtain rfl : world = world' := congrArg Tray.world heq
    exact ⟨world, hperform, hworld, holds_undisturbed.1 hholds⟩
  · exact absurd hexact not_exact_undisturbed

namespace Firm

/-- Active rolls of equal ids are one. -/
theorem eq_of_same (h : Firm F t) {r r' : Roll} (hr : r ∈ t.active) (hr' : r' ∈ t.active)
    (hsame : r.id.same r'.id = true) : r = r' := by
  by_contra hne
  have hsymm : t.active.Pairwise fun r r' => r.id.same r'.id = false ∧ r'.id.same r.id = false :=
    h.apart.imp_of_mem fun ha _ hab => ⟨hab, by rwa [← Value.same_comm (.inl (h.ids _ ha).isKey)]⟩
  have : Std.Symm fun r r' : Roll => r.id.same r'.id = false ∧ r'.id.same r.id = false :=
    ⟨fun _ _ h => ⟨h.2, h.1⟩⟩
  rw [(hsymm.forall hr hr' hne).1] at hsame
  cases hsame

/-- An active roll is the one that is found by its id. -/
theorem find?_eq (h : Firm F t) {r : Roll} (hr : r ∈ t.active) : Roll.find? r.id t.active = some r := by
  cases hfind : Roll.find? r.id t.active with
  | none => exact absurd (h.ids r hr).same_self (List.find?_eq_none.1 hfind r hr)
  | some r' =>
    obtain ⟨hmem, hsame⟩ := find?_id hfind
    exact congrArg some (eq_of_same h hmem hr hsame)

/-- No other roll goes with an active roll that is taken out. -/
theorem eraseP_active (h : Firm F t) {r : Roll} (hr : r ∈ t.active) :
    t.active.eraseP (fun r' => r'.id.same r.id) = t.active.filter fun r' => !r'.id.same r.id := by
  refine eraseP_eq_filter (h.apart.imp_of_mem fun hr' _ hne hsame => ?_)
  rw [h.eq_of_same hr' hr hsame] at hne
  rwa [Value.same_comm (.inr (h.ids r hr).isKey)]

/-- Of some active rolls the first one can be told apart from the others. -/
theorem filter_others (h : Firm F t) {first : Roll} {rest : List Roll}
    (hsub : (first :: rest).Sublist t.active) :
    rest.filter (fun r => !([first].any fun r' => r.id.same r'.id)) = rest := by
  refine List.filter_eq_self.2 fun r hr => ?_
  have hne := (List.pairwise_cons.1 (h.apart.sublist hsub)).1 r hr
  rw [Value.same_comm (.inl (h.ids first (hsub.subset (List.mem_cons_self ..))).isKey)] at hne
  simp [hne]

/-- An active roll is one of some active rolls if it has the id of one of them. -/
theorem any_filter (h : Firm F t) (taken : Roll → Bool) {r : Roll} (hr : r ∈ t.active) :
    ((t.active.filter taken).any fun r' => r.id.same r'.id) = taken r := by
  rw [Bool.eq_iff_iff, List.any_eq_true]
  constructor
  · rintro ⟨r', hr', hsame⟩
    obtain ⟨hr', htaken⟩ := List.mem_filter.1 hr'
    rwa [h.eq_of_same hr hr' hsame]
  · exact fun htaken => ⟨r, List.mem_filter.2 ⟨hr, htaken⟩, (h.ids r hr).same_self⟩

/-- Where rolls and dice are left out all else that holds of a tray still does. -/
theorem filter (h : Firm F t) (kept : Roll → Bool) (left : Die → Bool) {watermark : Value} {world : ω}
    {listeners : Event → List Listener} (journal : List Notice)
    (hwatermark : watermark = .null ∨ watermark.IsNumber)
    (hholds : F.holds world ((t.dice.filter left).map Die.handle)) (hquiet : Onlookers listeners) :
    Firm F { t with
      active := t.active.filter kept, dice := t.dice.filter left, watermark, world, listeners, journal } where
  ids r hr := h.ids r (List.mem_filter.1 hr).1
  apart := h.apart.filter _
  dice d hd := h.dice d (List.mem_filter.1 hd).1
  watermark := hwatermark
  holds := hholds
  quiet := hquiet

end Firm

/-! ## Canceling -/

/-- An active roll is canceled without fail. -/
theorem cancel_sheds (h : Firm F t) {r : Roll} (hr : r ∈ t.active) :
    ∃ t', (cancel announce r.id).perform t = (.ok true, t') ∧
      Sheds [r] (fun d => d.roll.same r.id) t t' ∧ Firm F t' := by
  let kept : Roll → Bool := fun r' => !r'.id.same r.id
  obtain ⟨watermark, hwatermark, hraise⟩ := raiseWatermark_of_numbers
    (t := { t with active := t.active.filter kept }) (h.ids r hr)
    (fun r' hr' => h.ids r' (List.mem_filter.1 hr').1) h.watermark
  obtain ⟨world, hremove, hworld, hholds⟩ := removeDice_perform
    (t := { t with active := t.active.filter kept, watermark }) h.holds r.id
  let left : Die → Bool := fun d => !d.roll.same r.id
  obtain ⟨listeners, notices, hquiet, hpassing, hannounce⟩ := announce_onlookers
    (t := { t with active := t.active.filter kept, watermark, world, dice := t.dice.filter left })
    .canceled r.record h.quiet
  have hperform : (cancel announce r.id).perform t = (.ok true, { t with
      active := t.active.filter kept, dice := t.dice.filter left, watermark, world, listeners
      journal := (t.journal ++ [.happened .canceled r.id r.record.result]) ++ notices }) := by
    rw [cancel_eq, Attempt.perform_bind_of_ok (Attempt.perform_get t), h.find?_eq hr]
    have hdepart : (depart r.id).perform t =
        (.ok (), { t with
          active := t.active.filter kept, watermark, world, dice := t.dice.filter left }) := by
      rw [depart, Attempt.perform_bind_of_ok (Attempt.perform_modify _ t), h.eraseP_active hr,
        Attempt.perform_bind_of_ok hraise, hremove]
    exact (Attempt.perform_bind_of_ok hdepart).trans (Attempt.perform_bind_of_ok hannounce)
  refine ⟨_, hperform, ?_, h.filter kept left _ hwatermark hholds hquiet⟩
  exact {
    active := List.filter_congr fun r' _ => by simp [kept]
    dice := rfl
    bodies := ⟨t.diceOf r.id, .refl _, hworld⟩
    canceled := by
      show canceledIn ((t.journal ++ _) ++ notices) = _
      rw [canceledIn, List.filterMap_append, List.filterMap_append]
      exact (congrArg _ (canceledIn_passing hpassing)).trans (List.append_nil _)
    rest := ⟨watermark, listeners, rfl⟩ }

theorem Sheds.refl : Sheds [] (fun _ => false) t t where
  active := (List.filter_eq_self.2 fun _ _ => rfl).symm
  dice := (List.filter_eq_self.2 fun _ _ => rfl).symm
  bodies := ⟨[], by rw [List.filter_eq_nil_iff.2 fun _ _ => Bool.false_ne_true], rfl⟩
  canceled := (List.append_nil _).symm
  rest := ⟨t.watermark, t.listeners, rfl⟩

/-- Some of the active rolls are canceled without fail. -/
theorem cancelAll_sheds (h : Firm F t) {rolls : List Roll} (hsub : rolls.Sublist t.active) :
    ∃ t', (cancelAll announce rolls).perform t = (.ok (), t') ∧
      Sheds rolls (fun d => rolls.any fun r => d.roll.same r.id) t t' ∧ Firm F t' := by
  induction rolls generalizing t with
  | nil => exact ⟨t, rfl, .refl, h⟩
  | cons first rest ih =>
    obtain ⟨t₁, hfirst, hsheds₁, h₁⟩ := cancel_sheds h (hsub.subset (List.mem_cons_self ..))
    -- The others can be told apart from the first one, so they are still active.
    have hsub₁ : rest.Sublist t₁.active := by
      rw [hsheds₁.active, ← h.filter_others hsub]
      exact ((List.sublist_cons_self first rest).trans hsub).filter _
    obtain ⟨t₂, hrest, hsheds₂, h₂⟩ := ih h₁ hsub₁
    refine ⟨t₂, ?_, hsheds₁.trans hsheds₂, h₂⟩
    rw [cancelAll, List.forM, Attempt.perform_bind_of_ok (Attempt.perform_discard_eq_ok.2 ⟨true, hfirst⟩)]
    exact hrest

/-! ## Pruning -/

/-- The dice of some rolls are taken off the tray. -/
theorem forM_removeDice_sheds (h : Firm F t) (ids : List Value) :
    ∃ t', (ids.forM removeDice).perform t = (.ok (), t') ∧
      Sheds [] (fun d => ids.any fun id => d.roll.same id) t t' ∧ Firm F t' := by
  induction ids generalizing t with
  | nil => exact ⟨t, rfl, .refl, h⟩
  | cons id rest ih =>
    obtain ⟨world, hremove, hworld, hholds⟩ := removeDice_perform h.holds id
    have hsheds₁ : Sheds [] (fun d => d.roll.same id) t
        { t with world, dice := t.dice.filter fun d => !d.roll.same id } := {
      active := (List.filter_eq_self.2 fun _ _ => rfl).symm
      dice := rfl
      bodies := ⟨t.diceOf id, .refl _, hworld⟩
      canceled := (List.append_nil _).symm
      rest := ⟨t.watermark, t.listeners, rfl⟩ }
    have h₁ : Firm F { t with world, dice := t.dice.filter fun d => !d.roll.same id } :=
      { h with dice := fun d hd => h.dice d (List.mem_filter.1 hd).1, holds := hholds }
    obtain ⟨t₂, hrest, hsheds₂, h₂⟩ := ih h₁
    refine ⟨t₂, ?_, hsheds₁.trans hsheds₂, h₂⟩
    rw [List.forM, Attempt.perform_bind_of_ok hremove]
    exact hrest

omit [World ω] in
/-- A roll is not in history if its id is not among the ids there. -/
theorem isNone_find? {id : Value} (h : id.IsNumber) :
    (t.find? id).isNone = !id.among (t.history.map Roll.id) := by
  obtain ⟨k, hk⟩ := h.exists_key
  rw [Bool.eq_iff_iff, Option.isNone_iff_eq_none, Tray.find?, Roll.find?, List.find?_eq_none,
    Bool.not_eq_true', ← Bool.not_eq_true, Value.among_iff hk]
  constructor
  · rintro hnone ⟨_, hother, hkey⟩
    obtain ⟨r, hr, rfl⟩ := List.mem_map.1 hother
    exact hnone r hr ((Value.same_iff (.inr (Value.isKey_of_key? hk))).2 ⟨k, hkey, hk⟩)
  · intro hnone r hr hsame
    obtain ⟨k', hr', hk'⟩ := (Value.same_iff (.inr (Value.isKey_of_key? hk))).1 hsame
    cases hk.symm.trans hk'
    exact hnone ⟨r.id, List.mem_map_of_mem hr, hr'⟩

/-- Active rolls that are not in history are canceled, and the dice of rolls that are not are taken off the
tray. -/
theorem prune_sheds (h : Firm F t) :
    ∃ t', (prune announce).perform t = (.ok (), t') ∧
      Sheds (t.active.filter fun r => (t.find? r.id).isNone) (fun d => (t.find? d.roll).isNone) t t' ∧
      Firm F t' := by
  let kept := t.history.map Roll.id
  have hrolls : t.active.filter (fun r => !r.id.among kept) =
      t.active.filter fun r => (t.find? r.id).isNone :=
    List.filter_congr fun r hr => (isNone_find? (h.ids r hr)).symm
  obtain ⟨t₁, hcancel, hsheds₁, h₁⟩ := cancelAll_sheds h
    (List.filter_sublist (p := fun r => !r.id.among kept) (l := t.active))
  rw [hrolls] at hsheds₁
  let orphans := (t₁.dice.map Die.roll).filter fun id => !id.among kept
  obtain ⟨t₂, hremove, hsheds₂, h₂⟩ := forM_removeDice_sheds h₁ orphans
  refine ⟨t₂, ?_, ?_, h₂⟩
  · rw [prune, Attempt.perform_bind_of_ok (Attempt.perform_get t), Attempt.perform_bind_of_ok hcancel,
      Attempt.perform_bind_of_ok (Attempt.perform_get t₁)]
    exact hremove
  · have hboth := hsheds₁.trans hsheds₂
    rw [List.append_nil] at hboth
    refine hboth.congr fun d hd => ?_
    obtain ⟨k, hk⟩ := (h.dice d hd).exists_key
    rw [isNone_find? (h.dice d hd), Bool.eq_iff_iff, Bool.or_eq_true]
    constructor
    · intro hnot
      cases hfirst : (t.active.filter fun r => (t.find? r.id).isNone).any fun r => d.roll.same r.id with
      | true => exact .inl rfl
      | false =>
        have hleft : d ∈ t₁.dice := by
          rw [hsheds₁.dice]
          exact List.mem_filter.2 ⟨hd, by simp [hfirst]⟩
        have horphan : d.roll ∈ orphans := List.mem_filter.2 ⟨List.mem_map_of_mem hleft, hnot⟩
        exact .inr (List.any_eq_true.2 ⟨d.roll, horphan, (h.dice d hd).same_self⟩)
    · rintro (htaken | htaken)
      · obtain ⟨r, hr, hsame⟩ := List.any_eq_true.1 htaken
        obtain ⟨hr, hnone⟩ := List.mem_filter.1 hr
        rwa [Value.among_of_same hk hsame, ← isNone_find? (h.ids r hr)]
      · obtain ⟨id, hid, hsame⟩ := List.any_eq_true.1 htaken
        rw [Value.among_of_same hk hsame]
        exact (List.mem_filter.1 hid).2

/-- Whatever became of the history, to prune a tray never fails if the ids of its active rolls are numbers
that are apart, those of its dice are numbers, the world keeps up its dice and listeners only look on. Then
each active roll and each die belongs to a roll in history. The dice of rolls in history stay as they are,
in their order, and so do all records. Each body of a die that left the tray was taken out of the world,
once, and no other one. -/
theorem pruned (F : Footing ω) (ids : ∀ r ∈ t.active, r.id.IsNumber)
    (apart : t.active.Pairwise fun r r' => r.id.same r'.id = false)
    (dice : ∀ d ∈ t.dice, d.roll.IsNumber) (watermark : t.watermark = .null ∨ t.watermark.IsNumber)
    (handles : (t.dice.map Die.handle).Nodup) (holds : F.holds t.world (t.dice.map Die.handle))
    (listeners : Onlookers t.listeners) :
    ∃ t', (prune announce).perform t = (.ok (), t') ∧
      (∀ r ∈ t'.active, (t'.find? r.id).isSome) ∧ (∀ d ∈ t'.dice, (t'.find? d.roll).isSome) ∧
      t'.dice = t.dice.filter (fun d => (t.find? d.roll).isSome) ∧
      t'.active = t.active.filter (fun r => (t.find? r.id).isSome) ∧ t'.history = t.history ∧
      ∃ gone : List Nat, gone.Nodup ∧
        gone.Perm ((t.dice.filter fun d => (t.find? d.roll).isNone).map Die.handle) ∧
        (gone.forM World.remove).perform t.world = (.ok (), t'.world) := by
  have h : Firm F t := ⟨ids, apart, dice, watermark, holds, listeners⟩
  obtain ⟨t', hperform, hsheds, -⟩ := prune_sheds h
  have hfind : ∀ id, t'.find? id = t.find? id := fun id => by
    rw [Tray.find?, Tray.find?, hsheds.history]
  have hdice : t'.dice = t.dice.filter fun d => (t.find? d.roll).isSome := by
    rw [hsheds.dice]
    exact List.filter_congr fun d _ => by simp
  have hactive : t'.active = t.active.filter fun r => (t.find? r.id).isSome := by
    rw [hsheds.active]
    refine List.filter_congr fun r hr => ?_
    rw [h.any_filter _ hr]
    simp
  obtain ⟨gone, hgone, hworld⟩ := hsheds.bodies
  have hperm := hgone.map Die.handle
  refine ⟨t', hperform, fun r hr => ?_, fun d hd => ?_, hdice, hactive, hsheds.history,
    gone.map Die.handle, ?_, hperm, ?_⟩
  · rw [hactive] at hr
    rw [hfind]
    exact (List.mem_filter.1 hr).2
  · rw [hdice] at hd
    rw [hfind]
    exact (List.mem_filter.1 hd).2
  · exact hperm.nodup_iff.2 (handles.sublist (List.filter_sublist.map _))
  · rw [← hworld]
    exact congrArg (Attempt.perform · t.world) List.forM_map

/-- Two rolls are active of which the older one was taken out of history, and a die is left of a roll that
is neither. -/
def edited : Tray ScriptedWorld := { crowded with history := crowded.history.take 1 }

/-- The older roll is canceled, and its die and the one that was left of another roll are removed. -/
theorem pruned_when_edited :
    ∃ t', (prune announce).perform edited = (.ok (), t') ∧
      (∀ r ∈ t'.active, (t'.find? r.id).isSome) ∧ (∀ d ∈ t'.dice, (t'.find? d.roll).isSome) ∧
      t'.dice.map Die.handle = [2] ∧ t'.active.length = 1 ∧ t'.history = edited.history ∧
      ∃ gone : List Nat, gone.Perm [0, 1] ∧
        (gone.forM World.remove).perform edited.world = (.ok (), t'.world) := by
  obtain ⟨t', hperform, hactive, hdice, hleft, hkept, hhistory, gone, -, hperm, hworld⟩ :=
    pruned (t := edited) ScriptedWorld.footing (by decide +kernel) (by decide +kernel) (by decide +kernel)
      (.inl (Value.isNull_iff.1 (by decide +kernel))) (by decide +kernel)
      ⟨by decide +kernel, by decide +kernel, by decide +kernel⟩ onlookers_vacant
  refine ⟨t', hperform, hactive, hdice, ?_, ?_, hhistory, gone, ?_, hworld⟩
  · rw [hleft]
    decide +kernel
  · rw [hkept]
    decide +kernel
  · have hremoved : (edited.dice.filter fun d => (edited.find? d.roll).isNone).map Die.handle = [0, 1] := by
      decide +kernel
    rwa [hremoved] at hperm

end Tray

end RollTray
