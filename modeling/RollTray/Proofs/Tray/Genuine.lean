import RollTray.Proofs.Tray.Shapes
import RollTray.Proofs.Tray.Showing
import RollTray.Proofs.World.Drawing

/-!
# Dice that show faces of their kind

If the simulated world draws fairly, the body of each die on the tray shows one of the faces of the die's
kind, and a die that has settled has such a face as its value (`Bodied`). All changes keep this
(`Bodied.upkeep`), and so do looking at the dice (`Bodied.poll`) and knocking them over (`Bodied.knock`).
-/

namespace RollTray.Tray

open Attempt (Keeps)

/-! ## Dice and their bodies -/

/-- In a simulated world with a fair source of chance, all dice are of a kind that there is, and show the
faces of their kind. -/
structure Bodied (t : Tray SimulatedWorld) : Prop where
  fair : t.world.chance.Fair
  known : ∀ handle ∈ t.world.bodies.handles, handle < t.world.nextHandle
  throws : ∀ item ∈ t.pending.toList, item.2.Sound
  dice : ∀ d ∈ t.dice, ∃ kind tens, t.world.Genuine kind tens d

namespace Bodied

variable {t t' : Tray SimulatedWorld}

theorem turn (h : Bodied t) (turns : t.world.Turns t'.world) (dice : t'.dice ⊆ t.dice)
    (pending : t'.pending = t.pending) : Bodied t' where
  fair := turns.fair
  known handle hmem := by
    obtain ⟨body, hbody⟩ := Bodies.exists_find? hmem
    obtain ⟨old, hold, _⟩ := turns.body handle body hbody
    rw [turns.nextHandle]
    exact h.known handle (Bodies.find?_isSome_iff.1 (hold ▸ rfl))
  throws := pending ▸ h.throws
  dice d hd :=
    have ⟨kind, tens, genuine⟩ := h.dice d (dice hd)
    ⟨kind, tens, genuine.turn turns⟩

theorem around (h : Bodied t) (world : t'.world = t.world) (dice : t'.dice = t.dice)
    (pending : t'.pending = t.pending) : Bodied t' :=
  h.turn (world.symm ▸ (SimulatedWorld.SameGuises.refl t.world).turns h.fair)
    (dice ▸ List.Subset.refl _) pending

theorem takeOff (taken : Die → Bool) : Keeps Bodied (takeOff taken) := by
  refine .get fun t h => Keeps.bind (.forM fun d _ => ?_) (fun _ => .of_modify fun t h => ?_) t h
  · split
    · exact .within fun t h =>
        h.turn (SimulatedWorld.turns_remove h.fair d.handle) (List.Subset.refl _) rfl
    · exact .pure _
  · exact h.turn ((SimulatedWorld.SameGuises.refl _).turns h.fair) (List.filter_subset_self _) rfl

theorem addThrow {throw : Throw} (hsound : throw.Sound) : Keeps Bodied (addThrow throw) := by
  refine .get fun t h => Keeps.bind (I := Bodied) (fun s h => ?_) (fun _ => .of_modify fun s h => ?_) t h
  · refine ⟨h.fair, h.known, fun item hitem => ?_, h.dice⟩
    rcases List.mem_cons.1 ((push_toList_perm ..).mem_iff.1 hitem) with rfl | hitem
    · exact hsound
    · exact h.throws item hitem
  · exact h.around rfl rfl rfl

theorem release {throw : Throw} (hsound : throw.Sound) : Keeps Bodied (release throw) := by
  refine Keeps.bind (.within fun t h => h.around rfl rfl rfl) fun motion t h => ?_
  obtain ⟨kind, hkind⟩ := hsound.kind
  obtain ⟨tens, htens⟩ := hsound.tens
  have hspawn := SimulatedWorld.spawn_some throw.kind throw.tens motion
  rw [hkind, htens] at hspawn ⊢
  obtain ⟨chance, hfair, ⟨fault, hperform⟩ | ⟨body, hbody, hperform⟩⟩ :=
    SimulatedWorld.enter_fair h.fair kind tens motion <;> rw [← hspawn] at hperform
  · rw [Attempt.perform_bind_of_error (withWorld_perform hperform)]
    refine ⟨hfair, fun handle hmem => Nat.lt_succ_of_lt (h.known handle hmem), h.throws, fun d hd => ?_⟩
    obtain ⟨kind, tens, genuine⟩ := h.dice d hd
    exact ⟨kind, tens, { genuine with below := Nat.lt_succ_of_lt genuine.below }⟩
  · rw [Attempt.perform_bind_of_ok (withWorld_perform hperform),
      Attempt.perform_bind_of_ok (Attempt.perform_get _)]
    refine ⟨hfair, fun handle hmem => ?_, h.throws, fun d hd => ?_⟩
    · replace hmem : handle ∈ (t.world.bodies ++ [(t.world.nextHandle, body)]).map Prod.fst := hmem
      rw [List.map_append, List.mem_append] at hmem
      rcases hmem with hmem | hmem
      · exact Nat.lt_succ_of_lt (h.known handle hmem)
      · rw [List.mem_singleton.1 hmem]
        exact Nat.lt_succ_self _
    · rcases List.mem_append.1 hd with hd | hd
      · obtain ⟨kind, tens, genuine⟩ := h.dice d hd
        refine ⟨kind, tens, { genuine with below := Nat.lt_succ_of_lt genuine.below, body := ?_ }⟩
        show ∀ body, Bodies.find? d.handle (t.world.bodies ++ [(t.world.nextHandle, _)]) = some body → _
        rw [Bodies.find?_append_of_ne (Nat.ne_of_lt genuine.below)]
        exact genuine.body
      · rw [List.mem_singleton.1 hd]
        refine ⟨kind, tens, rfl, rfl, Nat.lt_succ_self _, ?_, nofun⟩
        intro body' hbody'
        have hnew : t.world.nextHandle ∉ t.world.bodies.handles := fun hmem =>
          Nat.lt_irrefl _ (h.known _ hmem)
        cases (Bodies.find?_append_self hnew body).symm.trans hbody'
        exact hbody

theorem throwNext (h : Bodied t) {order : Nat} {throw : Throw}
    (hfirst : t.pending[0]? = some (order, throw)) : Bodied ((throwNext throw).perform t).2 := by
  have hperm := pop_toList_perm hfirst
  have hsound : throw.Sound := h.throws (order, throw) (hperm.mem_iff.2 (List.mem_cons_self ..))
  have htaken : Bodied (takeThrow.perform t).2 :=
    ⟨h.fair, h.known, fun item hitem => h.throws item (hperm.mem_iff.2 (List.mem_cons_of_mem _ hitem)),
      h.dice⟩
  exact Keeps.bind_from htaken (fun _ h => h) fun _ => keeps_throwDie (release hsound)

theorem keeps_sameGuises {α : Type} {a : Attempt SimulatedWorld α}
    (h : ∀ w : SimulatedWorld, w.SameGuises (a.perform w).2) : Keeps Bodied (withWorld a) :=
  .within fun t ht => ht.turn ((h t.world).turns ht.fair) (List.Subset.refl _) rfl

theorem upkeep : Upkeep Bodied :=
  .of_dice (fun h hworld hdice hpending _ => h.around hworld hdice hpending) takeOff
    (fun _ hsound => addThrow hsound) (fun h hfirst _ => h.throwNext hfirst)
    fun dt => keeps_sameGuises fun _ => SimulatedWorld.sameGuises_step dt

/-- A die that settles has the value that its body shows. -/
theorem poll : Keeps Bodied poll := by
  intro t h
  obtain ⟨hguises, hread⟩ := pollDice_read (Policy.ofConfig t.config) t.isFinal t.clock t.dice t.world
  have hsame := pollDice_same (Policy.ofConfig t.config) t.isFinal t.clock t.dice t.world
  have hkind := pollDice_forall₂ (Policy.ofConfig t.config) t.isFinal t.clock
    (R := fun d d' => d'.kind = d.kind) (fun _ => rfl) (fun _ _ _ _ => rfl) (fun _ _ _ => rfl) t.dice t.world
  have turns := hguises.turns h.fair
  have hworld : Bodied { t with world := (Tray.poll.perform t).2.world } :=
    h.turn turns (List.Subset.refl _) rfl
  refine ⟨hworld.fair, hworld.known, h.throws, fun d' hd' => ?_⟩
  obtain ⟨d, hd, ⟨hsame, hkind⟩, hread⟩ := forall₂_exists_left
    ((hsame.mp (fun _ _ => And.intro) hkind).mp (fun _ _ => And.intro) hread) hd'
  obtain ⟨kind, tens, genuine⟩ := h.dice d hd
  have hnow := genuine.turn turns
  obtain ⟨_, _, htens⟩ := Site.mk.inj hsame.site
  refine ⟨kind, tens, hkind.trans genuine.kind_eq, htens.trans genuine.tens_eq, ?_, ?_, fun hsettled => ?_⟩
  · rw [hsame.handle]
    exact hnow.below
  · rw [hsame.handle, hkind, show d'.tens = d.tens from htens]
    exact hnow.body
  · rcases hread hsettled with ⟨hbefore, hvalue⟩ | hface
    · rw [hvalue]
      exact genuine.value hbefore
    · obtain ⟨body, hbody, hvalue⟩ := SimulatedWorld.face_eq_ok.1 hface
      exact ⟨body.face, (genuine.body body hbody).2.2, hvalue⟩

theorem knock (handle : Nat) (velocity angularVelocity : List Value) :
    Keeps Bodied (withWorld (SimulatedWorld.disturb handle velocity angularVelocity)) :=
  .within fun _ h => h.turn (SimulatedWorld.turns_disturb h.fair handle velocity angularVelocity)
    (List.Subset.refl _) rfl

end Bodied

end RollTray.Tray
