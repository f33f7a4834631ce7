import Mathlib.Data.Set.Insert
import RollTray.Proofs.Tray.Keeping
import RollTray.Proofs.World.Faces

/-!
# What settled dice show

A die in the simulated world that has settled has the value that its body shows (`Faced`), but for
those dice that were knocked over without being seen since. Operations keep this whatever comes of
them (`upkeep_faced`). When all dice are looked at, one that was knocked over unseen stays so only if
it had settled before and still has (`Faced.poll`).
-/

namespace RollTray.Tray

open Attempt (Keeps)

variable {ω : Type} [World ω]

/-- The handles of the dice that have settled. -/
def resting (t : Tray ω) : Set Nat :=
  {handle | ∃ d ∈ t.dice, d.handle = handle ∧ d.settled = true}

/-- The settled dice show their values, but for those that were knocked over unseen. -/
structure Faced (unseen : Set Nat) (t : Tray SimulatedWorld) : Prop where
  apart : (t.dice.map Die.handle).Nodup
  below : ∀ d ∈ t.dice, d.handle < t.world.nextHandle
  shown : ∀ d ∈ t.dice, d.settled = true → d.handle ∉ unseen →
    World.face t.world d.handle = .ok d.value

variable {unseen : Set Nat} {t t' : Tray SimulatedWorld}

namespace Faced

/-- The bodies may change as long as their faces stay. -/
theorem of_sameFaces (h : Faced unseen t) (hworld : t.world.SameFaces t'.world)
    (hdice : t'.dice = t.dice) : Faced unseen t' where
  apart := hdice ▸ h.apart
  below d hd := hworld.nextHandle ▸ h.below d (hdice ▸ hd)
  shown d hd hsettled hseen := by
    rw [hworld.face]
    exact h.shown d (hdice ▸ hd) hsettled hseen

theorem around (h : Faced unseen t) (hworld : t'.world = t.world) (hdice : t'.dice = t.dice) :
    Faced unseen t' :=
  h.of_sameFaces (hworld ▸ .refl _) hdice

theorem keeps_sameFaces {α : Type} {a : Attempt SimulatedWorld α}
    (h : ∀ w : SimulatedWorld, w.SameFaces (a.perform w).2) : Keeps (Faced unseen) (withWorld a) :=
  .within fun t ht => ht.of_sameFaces (h t.world) rfl

end Faced

/-! ## Dice that come and go -/

/-- Bodies that are taken out of the world leave the others with their faces. -/
theorem forM_remove_faces (taken : Die → Bool) (dice : List Die) (t : Tray SimulatedWorld) :
    ∃ world, (dice.forM (m := Attempt (Tray SimulatedWorld)) fun d => do
        if taken d then withWorld (World.remove d.handle)).perform t = (.ok (), { t with world }) ∧
      world.nextHandle = t.world.nextHandle ∧
      ∀ handle, (∀ d ∈ dice, taken d = true → d.handle ≠ handle) →
        World.face world handle = World.face t.world handle := by
  induction dice generalizing t with
  | nil => exact ⟨t.world, rfl, rfl, fun _ _ => rfl⟩
  | cons d rest ih =>
    rw [List.forM]
    by_cases htaken : taken d
    · obtain ⟨world, hperform, hnext, hface⟩ :=
        ih { t with world := { t.world with bodies := t.world.bodies.erase d.handle } }
      refine ⟨world, ?_, hnext, fun handle h => ?_⟩
      · rw [if_pos htaken]
        exact hperform
      · rw [hface handle fun d' hd' => h d' (List.mem_cons_of_mem _ hd')]
        exact SimulatedWorld.face_remove (h d (List.mem_cons_self ..) htaken).symm
    · obtain ⟨world, hperform, hnext, hface⟩ := ih t
      refine ⟨world, ?_, hnext, fun handle h => ?_⟩
      · rw [if_neg htaken]
        exact hperform
      · exact hface handle fun d' hd' => h d' (List.mem_cons_of_mem _ hd')

theorem Faced.takeOff (taken : Die → Bool) : Keeps (Faced unseen) (takeOff taken) := by
  intro t h
  obtain ⟨world, hperform, hnext, hface⟩ := forM_remove_faces taken t.dice t
  rw [Tray.takeOff, Attempt.perform_bind_of_ok (Attempt.perform_get t),
    Attempt.perform_bind_of_ok hperform]
  refine ⟨h.apart.sublist (List.filter_sublist.map _), fun d hd => ?_, fun d hd hsettled hseen => ?_⟩
  · show d.handle < world.nextHandle
    rw [hnext]
    exact h.below d (List.mem_filter.1 hd).1
  · obtain ⟨hd, hstays⟩ := List.mem_filter.1 hd
    rw [← h.shown d hd hsettled hseen]
    refine hface d.handle fun d' hd' htaken heq => ?_
    obtain rfl := List.inj_on_of_nodup_map h.apart hd' hd heq
    rw [htaken] at hstays
    cases hstays

theorem Faced.release (throw : Throw) : Keeps (Faced unseen) (release throw) := by
  refine Keeps.bind (.within fun _ h => h.around rfl rfl) fun motion t h => ?_
  obtain ⟨chance, ⟨fault, next, hle, hperform⟩ | ⟨body, _, hperform⟩⟩ :=
    SimulatedWorld.spawn_cases t.world throw.kind throw.tens (some motion)
  · rw [Attempt.perform_bind_of_error (withWorld_perform hperform)]
    refine ⟨h.apart, fun d hd => Nat.lt_of_lt_of_le (h.below d hd) hle, fun d hd hsettled hseen => ?_⟩
    rw [← h.shown d hd hsettled hseen]
    exact SimulatedWorld.face_congr rfl
  · have hface : ∀ {handle v}, World.face t.world handle = .ok v → _ := fun hv =>
      SimulatedWorld.face_spawn hv throw.kind throw.tens (some motion)
    rw [hperform] at hface
    rw [Attempt.perform_bind_of_ok (withWorld_perform hperform),
      Attempt.perform_bind_of_ok (Attempt.perform_get _)]
    refine ⟨?_, fun d hd => ?_, fun d hd hsettled hseen => ?_⟩
    · show ((t.dice ++ [_]).map Die.handle).Nodup
      rw [List.map_append]
      refine h.apart.append (List.nodup_singleton _) fun handle hmem hnew => ?_
      obtain ⟨d, hd, rfl⟩ := List.mem_map.1 hmem
      exact Nat.ne_of_lt (h.below d hd) (List.mem_singleton.1 hnew)
    · rcases List.mem_append.1 hd with hd | hd
      · exact Nat.lt_succ_of_lt (h.below d hd)
      · rw [List.mem_singleton.1 hd]
        exact Nat.lt_succ_self _
    · rcases List.mem_append.1 hd with hd | hd
      · exact hface (h.shown d hd hsettled hseen)
      · rw [List.mem_singleton.1 hd] at hsettled
        cases hsettled

/-- What settled dice show is kept whatever comes of operations. -/
theorem upkeep_faced (unseen : Set Nat) : Upkeep (Faced unseen) := by
  refine .of_dice (fun h hworld hdice _ _ => h.around hworld hdice) Faced.takeOff ?_ ?_ ?_
  · exact fun _ _ => .get fun t h => Keeps.bind (.within fun _ h => h.around rfl rfl)
      (fun _ => .of_modify fun _ h => h.around rfl rfl) t h
  · intro t _ throw h _ _
    exact Keeps.bind (.within fun _ h => h.around rfl rfl)
      (fun _ => keeps_throwDie (Faced.release throw)) t h
  · exact fun dt => Faced.keeps_sameFaces fun _ => (SimulatedWorld.sameGuises_step dt).sameFaces

theorem Faced.announce (event : Event) (r : Record) :
    Keeps (Faced unseen) (announce event r) :=
  (upkeep_faced unseen).announce (fun _ h => h.around rfl rfl) (fun _ _ h => h.around rfl rfl) event r

/-! ## Looking -/

theorem sameGuises_calm (p : Policy) (now : Float) (d : Die) (w : SimulatedWorld) :
    w.SameGuises ((calm p now d).perform w).2 := by
  have hkeeps : Keeps w.SameGuises (calm p now d) := by
    refine (Keeps.lift _).bind fun _ => (Keeps.lift _).bind fun awakeFor => ?_
    rw [Policy.nudge]
    split
    · exact fun w' h => h.trans (SimulatedWorld.sameGuises_sleep d.handle)
    · split
      · exact (Keeps.lift _).bind fun factor w' h =>
          h.trans (SimulatedWorld.sameGuises_damp d.handle factor)
      · exact .pure _
  exact hkeeps w (.refl w)

/-- What is known of a die that has settled when it was looked at: it had settled before, or its face
was read. -/
def Read (w : ω) (d d' : Die) : Prop :=
  d'.settled = true → d.settled = true ∧ d'.value = d.value ∨ World.face w d.handle = .ok d'.value

theorem Read.of_settled {w : ω} (d : Die) : Read w d d := fun h => .inl ⟨h, rfl⟩

theorem Read.of_moving {w : ω} {d d' : Die} (h : d'.settled = false) : Read w d d' := by
  intro hsettled
  rw [h] at hsettled
  cases hsettled

theorem Read.of_sameFaces {w w' : SimulatedWorld} (h : w.SameFaces w') {d d' : Die}
    (hread : Read w' d d') : Read w d d' := fun hsettled =>
  (hread hsettled).imp_right fun hface => (h.face d.handle).symm.trans hface

variable {p : Policy} {isFinal : Value → Bool} {now : Float}

theorem face_of_settles {w : ω} {d : Die} {face : Value}
    (h : look p isFinal w d = .ok (.settles face)) : World.face w d.handle = .ok face := by
  rw [look] at h
  cases hrest : p.atRest w d.handle with
  | error fault =>
    rw [hrest] at h
    cases h
  | ok rests =>
    rw [hrest, ok_bind] at h
    cases rests with
    | false =>
      rw [if_neg Bool.false_ne_true] at h
      split at h <;> cases h
    | true =>
      rw [if_pos rfl] at h
      split at h
      · cases h
      · cases hface : World.face w d.handle with
        | error fault =>
          rw [hface] at h
          cases h
        | ok v =>
          rw [hface, ok_bind] at h
          split at h
          · cases h
          · cases h
            rfl

variable (p isFinal now) in
/-- To look at dice changes no face, and a die that settles has its face read. -/
theorem pollDice_read (dice : List Die) (w : SimulatedWorld) :
    w.SameGuises (pollDice p isFinal now dice w).2.2 ∧
      List.Forall₂ (Read w) dice (pollDice p isFinal now dice w).2.1 := by
  have hsame : ∀ (w : SimulatedWorld) (dice : List Die), List.Forall₂ (Read w) dice dice :=
    fun w dice => List.forall₂_same.2 fun d _ => .of_settled d
  have hcalm : ∀ {w w' : SimulatedWorld} {d : Die} {answer},
      (calm p now d).perform w = (answer, w') → w.SameGuises w' := fun h =>
    (congrArg (fun outcome => SimulatedWorld.SameGuises _ outcome.2) h).mp (sameGuises_calm p now _ _)
  fun_induction pollDice p isFinal now dice w with
  | case1 => exact ⟨.refl _, .nil⟩
  | case2 => exact ⟨.refl _, hsame _ _⟩
  | case3 =>
    rename_i hrest ih
    rw [hrest] at ih
    exact ⟨ih.1, .cons (.of_settled _) ih.2⟩
  | case4 =>
    rename_i hlook _ _ _ hrest ih
    rw [hrest] at ih
    exact ⟨ih.1, .cons (fun _ => .inr (face_of_settles hlook)) ih.2⟩
  | case5 => exact ⟨hcalm ‹_›, .cons (.of_moving rfl) (hsame _ _)⟩
  | case6 =>
    rename_i hmoves _ _ _ hrest ih
    rw [hrest] at ih
    have hguises := hcalm hmoves
    exact ⟨hguises.trans ih.1,
      .cons (.of_moving rfl) (ih.2.imp fun _ _ => .of_sameFaces hguises.sameFaces)⟩

/-- When all dice are looked at, one that was knocked over unseen stays so only if it had settled and
still has. -/
theorem Faced.poll (h : Faced unseen t) :
    Faced (unseen ∩ t.resting ∩ (Tray.poll.perform t).2.resting) (Tray.poll.perform t).2 := by
  have hsame := pollDice_same (Policy.ofConfig t.config) t.isFinal t.clock t.dice t.world
  obtain ⟨hguises, hread⟩ := pollDice_read (Policy.ofConfig t.config) t.isFinal t.clock t.dice
    t.world
  have hfaces := hguises.sameFaces
  have hdice : (Tray.poll.perform t).2.dice =
      (pollDice (Policy.ofConfig t.config) t.isFinal t.clock t.dice t.world).2.1 := rfl
  have hworld : (Tray.poll.perform t).2.world =
      (pollDice (Policy.ofConfig t.config) t.isFinal t.clock t.dice t.world).2.2 := rfl
  refine ⟨?_, fun d' hd' => ?_, fun d' hd' hsettled hseen => ?_⟩
  · have hhandles : t.dice.map Die.handle = (Tray.poll.perform t).2.dice.map Die.handle := by
      rw [hdice, ← List.forall₂_eq_eq_eq, List.forall₂_map_left_iff, List.forall₂_map_right_iff]
      exact hsame.imp fun _ _ hsame => hsame.handle.symm
    rw [← hhandles]
    exact h.apart
  · obtain ⟨d, hd, hsame⟩ := forall₂_exists_left hsame hd'
    rw [hsame.handle, hworld, hfaces.nextHandle]
    exact h.below d hd
  · obtain ⟨d, hd, hsame, hread⟩ := forall₂_exists_left (hsame.mp (fun _ _ => And.intro) hread) hd'
    rw [hworld, hfaces.face, hsame.handle]
    rcases hread hsettled with ⟨hbefore, hvalue⟩ | hface
    · rw [hvalue]
      refine h.shown d hd hbefore fun hmem => hseen ?_
      rw [hsame.handle]
      exact ⟨⟨hmem, d, hd, rfl, hbefore⟩, d', hd', hsame.handle, hsettled⟩
    · exact hface

end RollTray.Tray
