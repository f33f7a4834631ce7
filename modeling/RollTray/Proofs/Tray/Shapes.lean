import RollTray.Proofs.Saving
import RollTray.Proofs.Tray.Looking
import RollTray.Proofs.Tray.Waiting

/-!
# What dice are made of

Dice are thrown as a formula says: of a kind that there is, at a site in integers. This is so of all dice
that wait and of all dice on the tray, whatever is done with it (`upkeep_shaped`, `Shaped.announce`,
`Shaped.poll`). And those that wait can always be compared.
-/

namespace RollTray

/-- A die on the tray is made as it was when it waited. -/
theorem Throw.Sound.die {throw : Throw} (h : throw.Sound) {d : Die} (kind : d.kind = throw.kind)
    (site : d.site = throw.site) : d.Sound := by
  obtain ⟨hgroup, hlogical, htens⟩ := Site.mk.inj site
  exact ⟨kind ▸ h.kind, hgroup ▸ h.group, hlogical ▸ h.logical, htens ▸ h.tens⟩

namespace Tray

open Attempt (Keeps)

variable {ω : Type} [World ω]

/-- All dice are made as a formula says, those that wait and those on the tray. -/
structure Shaped (t : Tray ω) : Prop where
  throws : ∀ item ∈ t.pending.toList, item.2.Sound
  queued : Queued t.nextThrow t.pending.toList
  dice : ∀ d ∈ t.dice, d.Sound

namespace Shaped

variable {t t' : Tray ω}

omit [World ω] in
theorem around (h : Shaped t) (hdice : t'.dice = t.dice) (hpending : t'.pending = t.pending)
    (hnext : t'.nextThrow = t.nextThrow) : Shaped t' where
  throws := hpending ▸ h.throws
  queued := by
    rw [hpending, hnext]
    exact h.queued
  dice := hdice ▸ h.dice

theorem takeOff (taken : Die → Bool) : Keeps (Shaped (ω := ω)) (takeOff taken) := by
  refine .get fun t h => Keeps.bind (.forM fun d _ => ?_) (fun _ => .of_modify fun t h => ?_) t h
  · split
    · exact .within fun t h => h.around rfl rfl rfl
    · exact .pure _
  · exact ⟨h.throws, h.queued, fun d hd => h.dice d (List.mem_filter.1 hd).1⟩

omit [World ω] in
theorem addThrow {throw : Throw} (hsound : throw.Sound) :
    Keeps (Shaped (ω := ω)) (addThrow throw) := by
  intro t h
  obtain ⟨pending, hperform, hperm, hqueued⟩ := addThrow_perform h.queued hsound.due
  rw [hperform]
  refine ⟨fun item hitem => ?_, hqueued, h.dice⟩
  rcases List.mem_cons.1 (hperm.mem_iff.1 hitem) with rfl | hitem
  · exact hsound
  · exact h.throws item hitem

theorem release {throw : Throw} (hsound : throw.Sound) : Keeps (Shaped (ω := ω)) (release throw) := by
  refine Keeps.bind (.within fun _ h => h.around rfl rfl rfl) fun _ => ?_
  refine .bind (.within fun _ h => h.around rfl rfl rfl) fun handle => .get fun t h => ?_
  refine ⟨h.throws, h.queued, fun d hd => ?_⟩
  rcases List.mem_append.1 hd with hd | hd
  · exact h.dice d hd
  · rw [List.mem_singleton.1 hd]
    exact hsound.die rfl rfl

theorem throwNext (h : Shaped t) {order : Nat} {throw : Throw}
    (hfirst : t.pending[0]? = some (order, throw)) : Shaped ((throwNext throw).perform t).2 := by
  have hperm := pop_toList_perm hfirst
  have hsound : throw.Sound := h.throws (order, throw) (hperm.mem_iff.2 (List.mem_cons_self ..))
  have htaken : Shaped (takeThrow.perform t).2 :=
    ⟨fun item hitem => h.throws item (hperm.mem_iff.2 (List.mem_cons_of_mem _ hitem)),
      (h.queued.perm hperm.symm).tail, h.dice⟩
  rw [Tray.throwNext, Attempt.perform_bind]
  rcases hperform : (takeThrow : Attempt (Tray ω) Unit).perform t with ⟨fault | _, t'⟩ <;>
    rw [hperform] at htaken
  · exact htaken
  · exact keeps_throwDie (release hsound) t' htaken

end Shaped

/-- What dice are made of is kept by all changes. -/
theorem upkeep_shaped : Upkeep (Shaped (ω := ω)) :=
  .of_dice (fun h _ hdice hpending hnext => h.around hdice hpending hnext) Shaped.takeOff
    (fun _ hsound => Shaped.addThrow hsound) (fun h hfirst _ => h.throwNext hfirst)
    fun _ => .within fun _ h => h.around rfl rfl rfl

theorem Shaped.announce (event : Event) (r : Record) : Keeps (Shaped (ω := ω)) (announce event r) :=
  upkeep_shaped.announce (fun _ h => h.around rfl rfl rfl) (fun _ _ h => h.around rfl rfl rfl) event r

theorem Shaped.poll : Keeps (Shaped (ω := ω)) poll := by
  refine fun t h => ⟨h.throws, h.queued, fun d' hd' => ?_⟩
  have hsound := pollDice_forall₂ (Policy.ofConfig t.config) t.isFinal t.clock
    (R := fun d d' => d.Sound → d'.Sound) (fun _ h => h) (fun _ _ _ _ h => { h with })
    (fun _ _ _ h => { h with }) t.dice t.world
  obtain ⟨d, hd, hkept⟩ := forall₂_exists_left hsound hd'
  exact hkept (h.dice d hd)

/-- What dice are made of is kept by all operations, whatever listeners do. -/
theorem Shaped.operation (op : Operation) : Keeps (Shaped (ω := ω)) (op.attempt Tray.announce) :=
  (upkeep_shaped.offers (fun _ h => h.around rfl rfl rfl) announce).operation op fun _ =>
    upkeep_shaped.tick announce poll

omit [World ω] in
theorem Fresh.shaped {t : Tray ω} (fresh : Fresh t) : Shaped t where
  throws _ h := by
    rw [fresh.pending] at h
    nomatch h
  queued := by
    rw [fresh.pending]
    exact .nil _
  dice _ h := nomatch fresh.dice ▸ h

end Tray

end RollTray
