import RollTray.Proofs.Tray.Beginning

/-!
# Throwing dice that are due

A die that is due leaves those that wait. It is on the tray then, or it was not thrown; where sites
are counted, only the dice of rolls that are not active are not thrown (`throwNext_does`).
-/

namespace RollTray.Tray

variable {ω : Type} [World ω] {S : Setting ω} {owed : Owed} {t : Tray ω}

theorem Setting.Holds.spawn {w w' : ω} {handles : List Nat} {kind tens : Value}
    {motion : Option Motion} {handle : Nat} (h : S.Holds w handles)
    (hperform : (World.spawn kind tens motion).perform w = (.ok handle, w')) :
    S.Holds w' (handles ++ [handle]) := fun F hF =>
  F.perm (F.spawn kind tens motion (h F hF) hperform) (List.perm_append_singleton ..).symm

theorem Setting.Holds.spawn_error {w w' : ω} {handles : List Nat} {kind tens : Value}
    {motion : Option Motion} {fault : Fault} (h : S.Holds w handles)
    (hperform : (World.spawn kind tens motion).perform w = (.error fault, w')) :
    S.Holds w' handles := fun F hF =>
  F.spawn_error kind tens motion (h F hF) hperform

omit [World ω] in
theorem withChance_perform {α : Type} {a : Attempt Chance α} {answer : Except Fault α}
    {chance : Chance} (h : a.perform t.chance = (answer, chance)) :
    (withChance a).perform t = (answer, { t with chance }) := by
  rw [withChance, Attempt.perform_within, h]

omit [World ω] in
theorem withWorld_perform {α : Type} {a : Attempt ω α} {answer : Except Fault α} {world : ω}
    (h : a.perform t.world = (answer, world)) :
    (withWorld a).perform t = (answer, { t with world }) := by
  rw [withWorld, Attempt.perform_within, h]

/-- A die is thrown onto the tray, or that fails. -/
theorem release_perform (h : S.Holds t.world (t.dice.map Die.handle)) (throw : Throw) :
    ∃ world chance,
      (S.Holds world (t.dice.map Die.handle) ∧
        ∃ fault, (release throw).perform t = (.error fault, { t with world, chance })) ∨
      ∃ d, d.roll = throw.roll ∧ d.site = throw.site ∧ d.kind = throw.kind ∧ d.settled = false ∧
        S.Holds world ((t.dice ++ [d]).map Die.handle) ∧
          (release throw).perform t = (.ok (), { t with world, chance, dice := t.dice ++ [d] }) := by
  rcases hmotion : (Motion.drawThrow throw.index throw.total (.float 0)).perform t.chance with
    ⟨fault | motion, chance⟩
  · exact ⟨t.world, chance, .inl ⟨h, fault,
      Attempt.perform_bind_of_error (withChance_perform hmotion)⟩⟩
  · rcases hspawn : (World.spawn throw.kind throw.tens (some motion)).perform t.world with
      ⟨fault | handle, world⟩
    · exact ⟨world, chance, .inl ⟨h.spawn_error hspawn, fault,
        (Attempt.perform_bind_of_ok (withChance_perform hmotion)).trans
          (Attempt.perform_bind_of_error (withWorld_perform (t := { t with chance }) hspawn))⟩⟩
    · refine ⟨world, chance, .inr ⟨_, rfl, rfl, rfl, rfl, ?_,
        (Attempt.perform_bind_of_ok (withChance_perform hmotion)).trans
          ((Attempt.perform_bind_of_ok (withWorld_perform (t := { t with chance }) hspawn)).trans
            rfl)⟩⟩
      rw [List.map_append]
      exact h.spawn hspawn

/-- Where sites are counted, the dice of active rolls are not past. -/
theorem Orderly.isPast_eq (ho : Orderly S owed t) (hcounted : S.Counted) {serial : Nat}
    (h : isPast t.watermark (S.id serial) = .ok true) : ∀ r ∈ t.active, S.id serial ≠ S.id r.serial := by
  intro r hr heq
  rcases ho.watermark with hnull | ⟨n, hn⟩
  · rw [hnull] at h
    cases h
  · have hlow := ((ho.accounted hcounted).watermark n hn).2 r hr
    rw [hn, isPast, Setting.id, Value.le_int] at h
    have hle : S.start + (serial : Int) ≤ n := by simpa [Value.isNull] using h
    have hserial := Value.int.inj heq
    omega

theorem isActive_int (ho : Orderly S owed t) {n : Int} :
    t.isActive (.int n) = true ↔ ∃ r ∈ t.active, S.start + r.serial = n := by
  rw [isActive, Roll.find?, List.find?_isSome]
  refine exists_congr fun r => and_congr_right fun hr => ?_
  rw [ho.id_eq (List.mem_append_right _ hr), Setting.id, Value.same_int, decide_eq_true_iff]

theorem isActive_iff (ho : Orderly S owed t) {serial : Nat} :
    t.isActive (S.id serial) = true ↔ ∃ r ∈ t.active, r.serial = serial :=
  (isActive_int ho).trans (exists_congr fun r => and_congr_right fun _ => by omega)

/-- A die that was taken from those that wait is thrown onto the tray, or left out. -/
theorem throwDie_eq (throw : Throw) (t : Tray ω) :
    (throwDie throw).perform t =
      match isPast t.watermark throw.roll with
      | .ok true => (.ok (), t)
      | .ok false => if t.isActive throw.roll then (release throw).perform t else (.ok (), t)
      | .error fault => (.error fault, t) := by
  rw [throwDie, Attempt.perform_bind_of_ok (Attempt.perform_get _), Attempt.perform_bind]
  cases isPast t.watermark throw.roll with
  | error fault => rfl
  | ok past =>
    cases past with
    | true => rfl
    | false =>
      show (if t.isActive throw.roll then release throw else Pure.pure ()).perform _ = _
      split <;> rfl

/-- A die that was taken from those that wait is thrown if its roll is active; otherwise nothing
more happens. -/
theorem throwDie_perform (ho : Orderly S owed t) (pending : Array (Nat × Throw)) {throw : Throw}
    {serial : Nat} (hroll : throw.roll = S.id serial) :
    (throwDie throw).perform { t with pending } = (release throw).perform { t with pending } ∧
        isPast t.watermark throw.roll = .ok false ∧ (∃ r ∈ t.active, r.serial = serial) ∨
      ∃ answer, (throwDie throw).perform { t with pending } = (answer, { t with pending }) ∧
        (S.Counted → answer = .ok () → ∀ r ∈ t.active, throw.roll ≠ S.id r.serial) := by
  rw [throwDie_eq, hroll]
  cases hpast : isPast t.watermark (S.id serial) with
  | error fault => exact .inr ⟨_, rfl, fun _ h => nomatch h⟩
  | ok past =>
    cases past with
    | true => exact .inr ⟨_, rfl, fun hcounted _ => ho.isPast_eq hcounted hpast⟩
    | false =>
      by_cases hactive : t.isActive (S.id serial)
      · exact .inl ⟨if_pos hactive, rfl, (isActive_iff ho).1 hactive⟩
      · refine .inr ⟨_, if_neg hactive, fun _ _ r hr heq => hactive ((isActive_iff ho).2 ⟨r, hr, ?_⟩)⟩
        have hserial := Value.int.inj heq
        omega

omit [World ω] in
theorem pop_toList_perm {order : Nat} {throw : Throw} (hfirst : t.pending[0]? = some (order, throw)) :
    t.pending.toList.Perm
      ((order, throw) :: ((Heap.pop throwsBefore).perform t.pending).2.toList) :=
  Heap.pop_perm _ hfirst

/-- The die leaves those that wait. It is on the tray then, or it was not thrown; where sites are
counted, only the dice of rolls that are not active are not thrown. -/
theorem throwNext_perform (ho : Orderly S owed t) {order : Nat} {throw : Throw}
    (hfirst : t.pending[0]? = some (order, throw)) :
    ∃ pending world chance, t.pending.toList.Perm ((order, throw) :: pending.toList) ∧
      ((∃ answer, (throwNext throw).perform t = (answer, { t with pending, world, chance }) ∧
          S.Holds world (t.dice.map Die.handle) ∧
          (S.Counted → answer = .ok () → ∀ r ∈ t.active, throw.roll ≠ S.id r.serial)) ∨
        ∃ d, (throwNext throw).perform t =
            (.ok (), { t with pending, world, chance, dice := t.dice ++ [d] }) ∧
          S.Holds world ((t.dice ++ [d]).map Die.handle) ∧
          d.roll = throw.roll ∧ d.site = throw.site ∧ d.kind = throw.kind ∧ d.settled = false ∧
          isPast t.watermark throw.roll = .ok false ∧ ∃ r ∈ t.active, throw.roll = S.id r.serial) := by
  have hperm := pop_toList_perm hfirst
  rcases hpop : (Heap.pop throwsBefore).perform t.pending with ⟨answer, pending⟩
  rw [hpop] at hperm
  obtain ⟨serial, _, hroll⟩ := ho.pending throw ((mem_pending hperm throw).2 (.inl rfl))
  have htake : (takeThrow : Attempt (Tray ω) Unit).perform t = (answer, { t with pending }) := by
    rw [takeThrow, Attempt.perform_within, hpop]
  cases answer with
  | error fault =>
    exact ⟨pending, t.world, t.chance, hperm,
      .inl ⟨_, Attempt.perform_bind_of_error htake, ho.holds, fun _ h => nomatch h⟩⟩
  | ok _ =>
    have hperform : (throwNext throw).perform t = (throwDie throw).perform { t with pending } :=
      Attempt.perform_bind_of_ok htake
    rcases throwDie_perform ho pending hroll with
      ⟨hrelease, hlate, r, hr, hserial⟩ | ⟨answer, hdie, hinactive⟩
    · obtain ⟨world, chance, ⟨hholds, fault, hfails⟩ | ⟨d, hdroll, hsite, hkind, hmoves, hholds, hthrown⟩⟩ :=
        release_perform (t := { t with pending }) ho.holds throw
      · exact ⟨pending, world, chance, hperm, .inl
          ⟨_, hperform.trans (hrelease.trans hfails), hholds, fun _ h => nomatch h⟩⟩
      · exact ⟨pending, world, chance, hperm, .inr
          ⟨d, hperform.trans (hrelease.trans hthrown), hholds, hdroll, hsite, hkind, hmoves, hlate, r, hr,
            hserial ▸ hroll⟩⟩
    · exact ⟨pending, t.world, t.chance, hperm, .inl
        ⟨answer, hperform.trans hdie, ho.holds, hinactive⟩⟩

theorem throwNext_does {order : Nat} {throw : Throw} (hfirst : t.pending[0]? = some (order, throw)) :
    Does S owed t (throwNext throw) fun _ => Tidy S owed t := by
  intro ho hreturns
  obtain ⟨pending, world, chance, hperm, ⟨answer, hperform, hholds, hinactive⟩ |
    ⟨d, hperform, hholds, hroll, hsite, _, hmoves, hlate, r, hr, hthrow⟩⟩ := throwNext_perform ho hfirst <;>
      rw [hperform] at hreturns ⊢
  · have hskip : Change S .calm t owed { t with pending } owed := by
      refine .skip throw order pending (fun hcounted => ?_) hperm
      obtain ⟨_, hanswer⟩ := hreturns hcounted.1
      exact hinactive hcounted hanswer
    have haround : Change S .calm { t with pending } owed { t with pending, world, chance } owed :=
      .around_dice (t := { t with pending }) ho.quiet hholds chance t.clock t.formula t.nextThrow
    refine ⟨owed, .step (hskip.trace fun _ => rfl) haround fun _ => rfl, fun _ _ _ => ⟨rfl, id⟩⟩
  · have hchance := ho.change_around chance t.clock t.formula t.nextThrow
    have hthrown : Change S .calm { t with chance } owed
        { t with chance, pending, world, dice := t.dice ++ [d] } owed :=
      .throw throw order pending d world r hr hthrow hperm hroll hsite hmoves hholds hlate
    exact ⟨owed, .step (hchance.trace fun _ => rfl) hthrown fun _ => rfl, fun _ _ _ => ⟨rfl, id⟩⟩

theorem throwDue_does (left : Nat) :
    Does S owed t (throwDue left) fun _ => Tidy S owed t := by
  induction left generalizing t owed with
  | zero => exact .pure fun _ => ⟨rfl, id⟩
  | succ left ih =>
    refine .get ?_
    split
    · exact .pure fun _ => ⟨rfl, id⟩
    · rename_i order throw hfirst
      refine .lift fun due _ => ?_
      split
      · exact .bind (throwNext_does hfirst) fun _ _ _ _ h₁ => ih.mono fun _ _ _ _ h₂ => h₁.trans h₂
      · exact .pure fun _ => ⟨rfl, id⟩

/-- What is done to the world that keeps its dice in it. -/
theorem withWorld_does {α : Type} {a : Attempt ω α}
    (holds : ∀ F, S.footing? = some F → F.holds t.world (t.dice.map Die.handle) →
      F.holds (a.perform t.world).2 (t.dice.map Die.handle)) :
    Does S owed t (withWorld a) fun _ => Tidy S owed t := by
  refine .of_orderly fun ho => .of_perform (Attempt.perform_within ..) (.step .refl ?_ fun _ => rfl)
    fun _ _ _ => ⟨rfl, id⟩
  exact .around_dice ho.quiet (fun F hF => holds F hF (ho.holds F hF)) t.chance t.clock t.formula
    t.nextThrow

theorem proceed_does (dt : Num) : Does S owed t (proceed dt) fun _ => Tidy S owed t := by
  refine .of_orderly fun ho => .get (.lift fun time _ => .lift fun clock _ => ?_)
  refine .bind (.of_change (ho.change_around t.chance clock t.formula t.nextThrow))
    fun _ owed₁ t₁ _ h₁ => .get (.bind (throwDue_does _) fun _ owed₂ t₂ _ h₂ => ?_)
  obtain ⟨rfl, rfl⟩ := h₁
  refine (withWorld_does fun F _ h => F.step dt h).mono fun _ _ _ _ h₃ => ?_
  exact Tidy.trans h₂ h₃

end RollTray.Tray
