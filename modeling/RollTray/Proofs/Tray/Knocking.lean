import RollTray.Proofs.Keys
import RollTray.Proofs.Tray.Reentry
import RollTray.Proofs.Tray.Showing

/-!
# Dice that are knocked over

In the simulated world bodies may be knocked over and put to sleep between ticks (`Played`). When a
tick gives a roll its result, all dice of the roll have settled, and the value of each is the face that
its body shows at that moment, unless the die was knocked over and found settled at each look since
(`faces_of_played`). Such a die keeps the value that was read before.
-/

namespace RollTray.Tray

open Attempt (Keeps)

/-! ## The moments of a tick -/

section Moments

variable {ω : Type} [World ω] {notify : Notify ω} {ids rest : List Value} {t t' s : Tray ω}

/-- The trays that come one after the other while rolls get their results, each with the ids of the
rolls whose turn is still to come. -/
inductive Passes (notify : Notify ω) (ids : List Value) (t : Tray ω) :
    List Value → Tray ω → Prop where
  | refl : Passes notify ids t ids t
  | next {id rest s done s'} (passes : Passes notify ids t (id :: rest) s)
      (h : (finish notify id).perform s = (.ok done, s')) : Passes notify ids t rest s'

theorem Passes.head {id : Value} {done : Bool} {t₁ : Tray ω}
    (h : (finish notify id).perform t = (.ok done, t₁)) (passes : Passes notify ids t₁ rest s) :
    Passes notify (id :: ids) t rest s := by
  induction passes with
  | refl => exact .next .refl h
  | next _ h ih => exact .next ih h

theorem Passes.keeps {I : Tray ω → Prop} (hfinish : ∀ id ∈ ids, Keeps I (finish notify id))
    (passes : Passes notify ids t rest s) (h : I t) : I s ∧ ∀ id ∈ rest, id ∈ ids := by
  induction passes with
  | refl => exact ⟨h, fun _ => id⟩
  | next _ hperform ih =>
    have hs := hfinish _ (ih.2 _ (List.mem_cons_self ..)) _ ih.1
    rw [hperform] at hs
    exact ⟨hs, fun id hid => ih.2 id (List.mem_cons_of_mem _ hid)⟩

/-- A roll has its turn and gets its result. -/
def HasTurn (notify : Notify ω) (ids : List Value) (t : Tray ω) (id : Value) : Prop :=
  ∃ other rest s s' r, Passes notify ids t (other :: rest) s ∧ s.find? other = some r ∧ r.id = id ∧
    (finish notify other).perform s = (.ok true, s')

theorem HasTurn.head {id other : Value} {done : Bool} {t₁ : Tray ω}
    (h : (finish notify id).perform t = (.ok done, t₁)) (turn : HasTurn notify ids t₁ other) :
    HasTurn notify (id :: ids) t other := by
  obtain ⟨other, rest, s, s', r, passes, hfound, hr, hdone⟩ := turn
  exact ⟨other, rest, s, s', r, passes.head h, hfound, hr, hdone⟩

end Moments

/-! ## Runs with knocks -/

/-- The trays in the simulated world that are reached by operations, with any outcome, while bodies are
knocked over and put to sleep between ticks, with the handles of the dice that were knocked over
unseen. Listeners may do as they like. -/
inductive Played : Tray SimulatedWorld → Set Nat → Prop where
  | start {t} (fresh : Fresh t) : Played t ∅
  /-- An operation in which no time passes. -/
  | act {t unseen} (played : Played t unseen) (op : Operation) (h : op.ticks = false) :
      Played ((op.attempt announce).perform t).2 unseen
  /-- Dice that were found settled before and after the look were not seen. -/
  | tick {t unseen} (played : Played t unseen) (dt : Num) :
      Played ((Tray.tick announce dt).perform t).2
        (unseen ∩ ((proceed dt).perform t).2.resting ∩ ((watch dt).perform t).2.resting)
  | knock {t unseen} (played : Played t unseen) (handle : Nat)
      (velocity angularVelocity : List Value) :
      Played ((withWorld (SimulatedWorld.disturb handle velocity angularVelocity)).perform t).2
        (insert handle unseen)
  | sleep {t unseen} (played : Played t unseen) (handle : Nat) :
      Played ((withWorld (World.sleep handle)).perform t).2 unseen
  /-- Sources of chance and listeners are exchanged. -/
  | around {t unseen} (played : Played t unseen) (chance fate : Chance)
      (listeners : Event → List Listener) :
      Played { t with world := { t.world with chance := fate }, chance, listeners } unseen

variable {unseen : Set Nat} {t : Tray SimulatedWorld} {start : Int} {owed : Owed}

theorem Faced.knock (h : Faced unseen t) (handle : Nat) (velocity angularVelocity : List Value) :
    Faced (insert handle unseen)
      ((withWorld (SimulatedWorld.disturb handle velocity angularVelocity)).perform t).2 := by
  obtain ⟨hnext, hface⟩ :=
    SimulatedWorld.face_disturb (w := t.world) handle velocity angularVelocity
  refine ⟨h.apart, fun d hd => ?_, fun d hd hsettled hseen => ?_⟩
  · exact Nat.lt_of_lt_of_eq (h.below d hd) hnext.symm
  · obtain ⟨hne, hseen⟩ := not_or.1 hseen
    exact (hface d.handle hne).trans (h.shown d hd hsettled hseen)

/-- A die that has not settled shows nothing. -/
theorem Faced.inter_resting (h : Faced unseen t) : Faced (unseen ∩ t.resting) t :=
  ⟨h.apart, h.below, fun d hd hsettled hseen =>
    h.shown d hd hsettled fun hmem => hseen ⟨hmem, d, hd, rfl, hsettled⟩⟩

theorem Faced.watch (h : Faced unseen t) (dt : Num) :
    Faced (unseen ∩ ((proceed dt).perform t).2.resting ∩ ((Tray.watch dt).perform t).2.resting)
      ((Tray.watch dt).perform t).2 := by
  have hproceed := (upkeep_faced unseen).proceed dt t h
  rw [Tray.watch, Attempt.perform_bind]
  rcases hperform : (proceed dt).perform t with ⟨fault | _, t₁⟩ <;> rw [hperform] at hproceed
  · exact hproceed.inter_resting.inter_resting
  · exact hproceed.poll

theorem Played.faced (played : Played t unseen) : Faced unseen t := by
  induction played with
  | start fresh =>
    have hdice := fresh.dice
    exact ⟨hdice ▸ .nil, fun d hd => (nomatch hdice ▸ hd), fun d hd => (nomatch hdice ▸ hd)⟩
  | act _ op h ih =>
    exact ((upkeep_faced _).offers (fun _ h => h.around rfl rfl) Faced.announce).operation op
      (fun hticks => nomatch h.symm.trans hticks) _ ih
  | tick _ dt ih =>
    have hwatch := ih.watch dt
    rw [Tray.tick, Attempt.perform_bind]
    rcases hperform : (watch dt).perform _ with ⟨fault | ids, t₁⟩ <;> rw [hperform] at hwatch
    · exact hwatch
    · exact Keeps.lift_bind hwatch fun sorted _ =>
        (upkeep_faced _).finishAll Faced.announce sorted _ hwatch
  | knock _ handle velocity angularVelocity ih => exact ih.knock handle velocity angularVelocity
  | sleep _ handle ih =>
    exact Faced.keeps_sameFaces (fun _ => (SimulatedWorld.sameGuises_sleep handle).sameFaces) _ ih
  | around _ chance fate listeners ih => exact ih.of_sameFaces ⟨rfl, fun _ => rfl⟩ rfl

/-- Ticks one after the other are such a run too. -/
theorem Played.run (played : Played t unseen) (dt : Num) (limit : Nat) :
    ∃ unseen', Played ((Tray.run announce dt limit).perform t).2 unseen' := by
  suffices h : ∀ ticks, ∃ unseen', Played ((run.go announce dt ticks limit).perform t).2 unseen' from
    h 0
  induction limit generalizing t unseen with
  | zero => exact fun _ => ⟨unseen, played⟩
  | succ limit ih =>
    intro ticks
    rw [run.go, Attempt.perform_bind_of_ok (Attempt.perform_get t)]
    split
    · exact ⟨unseen, played⟩
    · have hticked := played.tick dt
      rw [← Attempt.perform_discard_snd] at hticked
      rw [Attempt.perform_bind]
      rcases hperform : (discard (Tray.tick announce dt)).perform t with ⟨fault | _, t₁⟩ <;>
        rw [hperform] at hticked
      · exact ⟨_, hticked⟩
      · exact ih hticked (ticks + 1)

/-! ## Rolls of such runs -/

theorem heeds_announce {ω : Type} [World ω] {F : Footing ω} :
    Heeds (amid F start) announce :=
  (reactsLabeled_announceWithin Set.univ deepest).heeds

theorem holds_simulated (w : SimulatedWorld) (handles : List Nat) :
    (amid SimulatedWorld.footing start).Holds w handles :=
  holds_amid.2 trivial

theorem Played.orderly (played : Played t unseen) :
    ∃ start owed, Orderly (amid SimulatedWorld.footing start) owed t := by
  induction played with
  | start fresh => exact ⟨_, _, fresh.orderly rfl (holds_simulated _ _) trivial⟩
  | act _ op _ ih =>
    obtain ⟨start, owed, ho⟩ := ih
    obtain ⟨owed', ho', _⟩ :=
      (op.does heeds_announce fun hexact => absurd hexact not_exact_amid).orderly not_exact_amid ho
    exact ⟨start, owed', ho'⟩
  | tick _ dt ih =>
    obtain ⟨start, owed, ho⟩ := ih
    obtain ⟨owed', ho', _⟩ := (tick_does heeds_announce not_exact_amid dt).orderly not_exact_amid ho
    exact ⟨start, owed', ho'⟩
  | knock _ _ _ _ ih =>
    obtain ⟨start, owed, ho⟩ := ih
    exact ⟨start, owed, ho.around _ _ _ _ _ _ _ (holds_simulated _ _) trivial⟩
  | sleep _ _ ih =>
    obtain ⟨start, owed, ho⟩ := ih
    exact ⟨start, owed, ho.around _ _ _ _ _ _ _ (holds_simulated _ _) trivial⟩
  | around _ _ _ _ ih =>
    obtain ⟨start, owed, ho⟩ := ih
    exact ⟨start, owed, ho.around _ _ _ _ _ _ _ (holds_simulated _ _) trivial⟩

variable {dt : Num} {ids rest : List Value} {t₁ s : Tray SimulatedWorld}

/-- What is known of the trays while rolls get their results in a tick. -/
theorem Played.passes (played : Played t unseen) {sorted : List Value}
    (hwatch : (watch dt).perform t = (.ok ids, t₁))
    (hsort : Order.sortBy Value.lt (distinct ids) = .ok sorted)
    (passes : Passes announce sorted t₁ rest s) :
    Faced (unseen ∩ ((proceed dt).perform t).2.resting ∩ ((watch dt).perform t).2.resting) s ∧
      ∃ start owed, Orderly (amid SimulatedWorld.footing start) owed s ∧
        Ids (amid SimulatedWorld.footing start) rest := by
  obtain ⟨start, owed, ho⟩ := played.orderly
  have hfaced := played.faced.watch dt
  obtain ⟨owed₁, ho₁, hids⟩ := (watch_does not_exact_amid dt).orderly not_exact_amid ho
  rw [hwatch] at hfaced hids ho₁ ⊢
  have hsorted : Ids (amid SimulatedWorld.footing start) sorted := fun id hid =>
    hids ids rfl id (mem_distinct ((Order.sortBy_perm hsort).mem_iff.1 hid))
  let I (s : Tray SimulatedWorld) : Prop :=
    Faced (unseen ∩ ((proceed dt).perform t).2.resting ∩ t₁.resting) s ∧
      ∃ owed, Orderly (amid SimulatedWorld.footing start) owed s
  have hfinish : ∀ id ∈ sorted, Keeps I (finish announce id) := by
    intro id hid s ⟨hfaced, owed, ho⟩
    obtain ⟨serial, rfl⟩ := hsorted id hid
    obtain ⟨owed', ho', _⟩ :=
      (finish_does heeds_announce not_exact_amid serial).orderly not_exact_amid ho
    exact ⟨(upkeep_faced _).finish Faced.announce _ s hfaced, owed', ho'⟩
  obtain ⟨⟨hfaced, owed', ho'⟩, hrest⟩ := passes.keeps hfinish ⟨hfaced, owed₁, ho₁⟩
  exact ⟨hfaced, start, owed', ho', fun id hid => hsorted id (hrest id hid)⟩

end RollTray.Tray
