import RollTray.Proofs.World.Faces
import RollTray.Tray.Snapshot

/-!
# Worlds that dice can be moved to

Both worlds keep up dice whose handles are apart (`Bodies.Lodged`). Of such a die the motion can always
be asked, and a die that is put into the world with a motion is where this says, whatever else is put
in after it, and stays there when it is put to sleep (`Lodging`, `SimulatedWorld.lodging`,
`ScriptedWorld.lodging`). Whether a world takes the dice of a snapshot is a matter of its chance
(`Admits`).
-/

namespace RollTray

/-- Two motions of a body at one place, turned the same way. -/
structure Motion.SameSpot (m m' : Motion) : Prop where
  position : m'.position = m.position
  orientation : m'.orientation = m.orientation

theorem Motion.SameSpot.trans {m m' m'' : Motion} (first : m.SameSpot m')
    (second : m'.SameSpot m'') : m.SameSpot m'' :=
  ⟨second.position.trans first.position, second.orientation.trans first.orientation⟩

theorem Motion.sameSpot_stopped (m : Motion) : m.SameSpot m.stopped := ⟨rfl, rfl⟩

namespace Tray

/-- A world that keeps up dice, knows their motions, and leaves them where they are when others are put
in or when they are put to sleep. -/
structure Lodging (ω : Type) [World ω] extends Footing ω where
  apart : ∀ {w handles}, holds w handles → handles.Nodup
  motion : ∀ {w handles handle}, holds w handles → handle ∈ handles →
    ∃ m, World.motion w handle = .ok m
  spawn_motion : ∀ {w handles handle w'} kind tens motion, holds w handles →
    (World.spawn kind tens (some motion)).perform w = (.ok handle, w') →
      (∃ m, World.motion w' handle = .ok m ∧ motion.SameSpot m) ∧
        ∀ other ∈ handles, World.motion w' other = World.motion w other
  sleep_motion : ∀ {w handles handle m}, holds w handles → handle ∈ handles →
    World.motion w handle = .ok m → ∃ w', (World.sleep handle).perform w = (.ok (), w') ∧
      (∃ m', World.motion w' handle = .ok m' ∧ m.SameSpot m') ∧
        ∀ other, other ≠ handle → World.motion w' other = World.motion w other

variable {ω : Type} [World ω]

/-- A world after a die of a snapshot was put into it under a handle: asleep if it has settled. -/
def settledWorld (s : SavedDie) (handle : Nat) (w : ω) : ω :=
  if s.die.settled then ((World.sleep handle).perform w).2 else w

/-- Dice can be put into a world one after the other. -/
def Admits : List SavedDie → ω → Prop
  | [], _ => True
  | s :: rest, w => ∃ handle w',
    (World.spawn s.die.kind s.die.tens (some s.motion)).perform w = (.ok handle, w') ∧
      Admits rest (settledWorld s handle w')

end Tray

/-! ## Handles that are apart -/

namespace Bodies

variable {β : Type}

/-- These handles are apart and have bodies, and all bodies have handles below the next one. -/
structure Lodged (bodies : Bodies β) (next : Nat) (handles : List Nat) : Prop where
  apart : handles.Nodup
  mem : ∀ handle ∈ handles, handle ∈ bodies.handles
  below : ∀ handle ∈ bodies.handles, handle < next

namespace Lodged

variable {bodies bodies' : Bodies β} {next next' handle : Nat} {handles handles' : List Nat}

theorem nil (next : Nat) : Lodged ([] : Bodies β) next [] :=
  ⟨.nil, fun _ h => (nomatch h), fun _ h => (nomatch h)⟩

theorem perm (h : Lodged bodies next handles) (hperm : handles.Perm handles') :
    Lodged bodies next handles' :=
  ⟨hperm.nodup_iff.1 h.apart, fun handle hmem => h.mem handle (hperm.mem_iff.2 hmem), h.below⟩

theorem of_handles (h : Lodged bodies next handles) (hbodies : bodies'.handles = bodies.handles)
    (hnext : next ≤ next') : Lodged bodies' next' handles :=
  ⟨h.apart, fun handle hmem => hbodies ▸ h.mem handle hmem,
    fun handle hmem => Nat.lt_of_lt_of_le (h.below handle (hbodies ▸ hmem)) hnext⟩

theorem notMem (h : Lodged bodies next handles) : next ∉ bodies.handles := fun hmem =>
  Nat.lt_irrefl _ (h.below next hmem)

theorem append (h : Lodged bodies next handles) (body : β) :
    Lodged (bodies ++ [(next, body)]) (next + 1) (next :: handles) := by
  have hhandles : Bodies.handles (bodies ++ [(next, body)]) = bodies.handles ++ [next] :=
    List.map_append
  refine ⟨List.nodup_cons.2 ⟨fun hmem => h.notMem (h.mem _ hmem), h.apart⟩, ?_, ?_⟩
  · intro handle hmem
    rw [hhandles, List.mem_append]
    rcases List.mem_cons.1 hmem with rfl | hmem
    · exact .inr (List.mem_cons_self ..)
    · exact .inl (h.mem handle hmem)
  · intro handle hmem
    rw [hhandles, List.mem_append, List.mem_singleton] at hmem
    rcases hmem with hmem | rfl
    · exact Nat.lt_succ_of_lt (h.below handle hmem)
    · exact Nat.lt_succ_self _

theorem erase (h : Lodged bodies next (handle :: handles)) :
    Lodged (bodies.erase handle) next handles := by
  obtain ⟨hnotin, hnodup⟩ := List.nodup_cons.1 h.apart
  refine ⟨hnodup, fun other hmem => ?_, fun other hmem => ?_⟩
  · refine mem_handles_erase (h.mem other (List.mem_cons_of_mem _ hmem)) ?_
    rintro rfl
    exact hnotin hmem
  · exact h.below other ((List.filter_sublist.map _).subset hmem)

end Lodged

end Bodies

/-! ## The simulated world -/

namespace SimulatedWorld

variable {w w' : SimulatedWorld} {handle : Nat} {handles : List Nat}

theorem motion_eq_ok {m : Motion} : World.motion w handle = .ok m ↔
    ∃ body, Bodies.find? handle w.bodies = some body ∧ body.motion = m :=
  Bodies.ask_eq_ok

theorem motion_congr (h : Bodies.find? handle w'.bodies = Bodies.find? handle w.bodies) :
    World.motion w' handle = World.motion w handle :=
  Bodies.ask_congr SimulatedBody.motion h

theorem handles_stepBodies (w : SimulatedWorld) (dt : Num) (bodies : Bodies SimulatedBody) :
    Bodies.handles (w.stepBodies dt bodies).2 = Bodies.handles bodies := by
  induction bodies with
  | nil => rfl
  | cons entry rest ih =>
    obtain ⟨key, body⟩ := entry
    rw [stepBodies]
    cases w.stepBody dt body with
    | error fault => rfl
    | ok body' => exact congrArg (key :: ·) ih

theorem handles_damp (w : SimulatedWorld) (handle : Nat) (factor : Num) :
    ((World.damp handle factor).perform w).2.bodies.handles = w.bodies.handles := by
  rw [damp_perform]
  cases w.damping.add factor with
  | error fault => rfl
  | ok damping =>
    cases w.bodies.get handle with
    | error fault => rfl
    | ok body => exact Bodies.handles_set ..

theorem handles_sleep (w : SimulatedWorld) (handle : Nat) :
    ((World.sleep handle).perform w).2.bodies.handles = w.bodies.handles := by
  rw [sleep_perform]
  cases w.bodies.get handle with
  | error fault => rfl
  | ok body => exact Bodies.handles_set ..

/-- The simulated world keeps up dice whose handles are apart. -/
def lodging : Tray.Lodging SimulatedWorld where
  holds w handles := w.bodies.Lodged w.nextHandle handles
  perm := .perm
  spawn {w _ _ _} kind tens motion h hperform := by
    obtain ⟨_, ⟨_, _, _, heq⟩ | ⟨body, _, heq⟩⟩ := spawn_cases w kind tens motion
    · cases heq.symm.trans hperform
    · cases heq.symm.trans hperform
      exact h.append body
  spawn_error {w _ _ _} kind tens motion h hperform := by
    obtain ⟨_, ⟨_, _, hle, heq⟩ | ⟨body, _, heq⟩⟩ := spawn_cases w kind tens motion
    · cases heq.symm.trans hperform
      exact h.of_handles rfl hle
    · cases heq.symm.trans hperform
  remove h := ⟨_, rfl, h.erase⟩
  step dt h := h.of_handles (handles_stepBodies ..) (Nat.le_refl _)
  damp handle factor h :=
    h.of_handles (handles_damp ..) (Nat.le_of_eq (sameGuises_damp handle factor).nextHandle.symm)
  sleep handle h :=
    h.of_handles (handles_sleep ..) (Nat.le_of_eq (sameGuises_sleep handle).nextHandle.symm)
  apart := Bodies.Lodged.apart
  motion h hmem := by
    obtain ⟨body, hbody⟩ := Bodies.exists_find? (h.mem _ hmem)
    exact ⟨body.motion, motion_eq_ok.2 ⟨body, hbody, rfl⟩⟩
  spawn_motion {w _ _ _} kind tens motion h hperform := by
    obtain ⟨_, ⟨_, _, _, heq⟩ | ⟨body, ⟨_, hbody⟩, heq⟩⟩ := spawn_cases w kind tens (some motion)
    · cases heq.symm.trans hperform
    · cases heq.symm.trans hperform
      have hnew := Bodies.find?_append_self h.notMem body
      refine ⟨⟨body.motion, motion_eq_ok.2 ⟨body, hnew, rfl⟩, ?_⟩, fun other hother => ?_⟩
      · rw [hbody motion rfl]
        exact ⟨rfl, rfl⟩
      · obtain ⟨old, hold⟩ := Bodies.exists_find? (h.mem other hother)
        exact motion_congr (hold ▸ Bodies.find?_append_of_some hold _)
  sleep_motion {w handles handle m} h hmem hm := by
    obtain ⟨body, hbody, rfl⟩ := motion_eq_ok.1 hm
    rw [sleep_perform, Bodies.get_eq_ok.2 hbody]
    refine ⟨_, rfl, ⟨_, motion_eq_ok.2 ⟨_, Bodies.find?_set_self hbody _, rfl⟩, ?_⟩, ?_⟩
    · exact body.motion.sameSpot_stopped
    · exact fun other hne => motion_congr (Bodies.find?_set_of_ne hne ..)

end SimulatedWorld

/-! ## The world moved by hand -/

namespace ScriptedWorld

variable {w w' : ScriptedWorld} {handle : Nat} {handles : List Nat}

theorem motion_eq_ok {m : Motion} : World.motion w handle = .ok m ↔
    ∃ body, Bodies.find? handle w.bodies = some body ∧ body.motion = m :=
  Bodies.ask_eq_ok

theorem motion_congr (h : Bodies.find? handle w'.bodies = Bodies.find? handle w.bodies) :
    World.motion w' handle = World.motion w handle :=
  Bodies.ask_congr ScriptedBody.motion h

theorem sleep_perform (w : ScriptedWorld) (handle : Nat) :
    (World.sleep handle).perform w =
      match w.bodies.get handle with
      | .error fault => (.error fault, w)
      | .ok body =>
        (.ok (), { w with bodies := w.bodies.set handle { body with asleep := true } }) := by
  show (sleep handle).perform w = _
  rw [sleep, Attempt.perform_bind, bodyOf, Attempt.perform_ask]
  cases w.bodies.get handle <;> rfl

/-- A body that falls asleep lies where it was. -/
theorem sameSpot_asleep (body : ScriptedBody) :
    body.motion.SameSpot { body with asleep := true }.motion := by
  rw [ScriptedBody.motion]
  split
  · exact ⟨rfl, rfl⟩
  · exact ⟨rfl, rfl⟩

/-- Whatever is done to a body, dice are kept up as before. -/
theorem lodged_rework (h : w.bodies.Lodged w.nextHandle handles) (handle : Nat)
    (f : ScriptedBody → ScriptedBody)
    (hw' : w' = ((do putBody handle (f (← bodyOf handle)) : Attempt ScriptedWorld Unit).perform w).2) :
    w'.bodies.Lodged w'.nextHandle handles := by
  obtain ⟨bodies, hhandles, heq⟩ := exists_rework w handle f
  rw [hw', heq]
  exact h.of_handles hhandles (Nat.le_refl _)

/-- The world moved by hand keeps up dice whose handles are apart. -/
def lodging : Tray.Lodging ScriptedWorld where
  holds w handles := w.bodies.Lodged w.nextHandle handles
  perm := .perm
  spawn _ _ _ h hperform := by
    cases hperform
    exact h.append _
  spawn_error _ _ _ _ hperform := nomatch hperform
  remove h := ⟨_, remove_perform (h.mem _ (List.mem_cons_self ..)), h.erase⟩
  step _ h := h
  damp _ _ h := h.of_handles rfl (Nat.le_refl _)
  sleep handle h := lodged_rework h handle (fun body => { body with asleep := true }) rfl
  apart := Bodies.Lodged.apart
  motion h hmem := by
    obtain ⟨body, hbody⟩ := Bodies.exists_find? (h.mem _ hmem)
    exact ⟨body.motion, motion_eq_ok.2 ⟨body, hbody, rfl⟩⟩
  spawn_motion {w _ _ _} _ _ motion h hperform := by
    cases hperform
    refine ⟨⟨_, motion_eq_ok.2 ⟨_, Bodies.find?_append_self h.notMem _, rfl⟩, ?_⟩,
      fun other hother => ?_⟩
    · exact ⟨rfl, rfl⟩
    · obtain ⟨old, hold⟩ := Bodies.exists_find? (h.mem other hother)
      exact motion_congr (hold ▸ Bodies.find?_append_of_some hold _)
  sleep_motion {w handles handle m} h hmem hm := by
    obtain ⟨body, hbody, rfl⟩ := motion_eq_ok.1 hm
    rw [sleep_perform, Bodies.get_eq_ok.2 hbody]
    refine ⟨_, rfl, ⟨_, motion_eq_ok.2 ⟨_, Bodies.find?_set_self hbody _, rfl⟩, ?_⟩, ?_⟩
    · exact sameSpot_asleep body
    · exact fun other hne => motion_congr (Bodies.find?_set_of_ne hne ..)

theorem admits (dice : List SavedDie) (w : ScriptedWorld) : Tray.Admits dice w := by
  induction dice generalizing w with
  | nil => trivial
  | cons s rest ih => exact ⟨_, _, rfl, ih _⟩

end ScriptedWorld

end RollTray
