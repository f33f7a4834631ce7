import RollTray.Proofs.World.Lodging

/-!
# Worlds that hold nothing but the dice

A world that is moved by nobody else has just the bodies that were put into it and not taken out again
(`Housing`, `SimulatedWorld.housing`, `ScriptedWorld.housing`). Another world that does the same with
the bodies that there are (`World.Twin`) may do anything about a handle that has no body, such as raise
an alarm (`World.guarded`).
-/

namespace RollTray

namespace Tray

/-- A world that keeps up dice, has no other bodies than theirs, and can put each of them to sleep. -/
structure Housing (ω : Type) [World ω] extends Footing ω where
  apart : ∀ {w handles}, holds w handles → handles.Nodup
  bodies : ∀ {w handles}, holds w handles → (World.handles w).Perm handles
  empty : ∀ {w}, World.handles w = [] → holds w []
  lull : ∀ {w handles handle}, holds w handles → handle ∈ handles →
    ∃ w', (World.sleep handle).perform w = (.ok (), w')

namespace Housing

variable {ω : Type} [World ω] (H : Housing ω) {w : ω} {handle : Nat} {handles : List Nat}

theorem live (h : H.holds w handles) (hmem : handle ∈ handles) : handle ∈ World.handles w :=
  (H.bodies h).mem_iff.2 hmem

end Housing

end Tray

/-! ## Worlds that differ in handles without bodies -/

namespace World

/-- Another world that does the same with the bodies that there are. What it does about a handle that
has none is left open. -/
structure Twin (ω : Type) [W : World ω] where
  other : World ω
  spawn : other.spawn = W.spawn
  step : other.step = W.step
  remove : ∀ {w handle}, handle ∈ W.handles w →
    (other.remove handle).perform w = (W.remove handle).perform w
  isSettled : ∀ {w handle}, handle ∈ W.handles w → other.isSettled w handle = W.isSettled w handle
  face : ∀ {w handle}, handle ∈ W.handles w → other.face w handle = W.face w handle
  motion : ∀ {w handle}, handle ∈ W.handles w → other.motion w handle = W.motion w handle
  damp : ∀ {w handle} factor, handle ∈ W.handles w →
    (other.damp handle factor).perform w = (W.damp handle factor).perform w
  sleep : ∀ {w handle}, handle ∈ W.handles w →
    (other.sleep handle).perform w = (W.sleep handle).perform w

variable {ω α : Type} [World ω] (alarm : Fault)

/-- An attempt on a body, unless the handle has none. -/
def guard (handle : Nat) (a : Attempt ω α) : Attempt ω α := do
  if handle ∈ World.handles (← get) then a else throw alarm

/-- What is asked of a body, unless the handle has none. -/
def guardAsk (w : ω) (handle : Nat) (x : Except Fault α) : Except Fault α :=
  if handle ∈ World.handles w then x else .error alarm

theorem guard_perform {w : ω} {handle : Nat} (h : handle ∈ World.handles w) (a : Attempt ω α) :
    (guard alarm handle a).perform w = a.perform w := by
  rw [guard, Attempt.perform_bind_of_ok (Attempt.perform_get w), if_pos h]

/-- The world that raises an alarm whenever a handle is used that has no body. -/
def guarded : Twin ω where
  other := {
    spawn := World.spawn
    remove := fun handle => guard alarm handle (World.remove handle)
    step := World.step
    isSettled := fun w handle => guardAsk alarm w handle (World.isSettled w handle)
    face := fun w handle => guardAsk alarm w handle (World.face w handle)
    motion := fun w handle => guardAsk alarm w handle (World.motion w handle)
    damp := fun handle factor => guard alarm handle (World.damp handle factor)
    sleep := fun handle => guard alarm handle (World.sleep handle)
    handles := World.handles
    emptied := World.emptied }
  spawn := rfl
  step := rfl
  remove h := guard_perform alarm h _
  isSettled h := if_pos h
  face h := if_pos h
  motion h := if_pos h
  damp _ h := guard_perform alarm h _
  sleep h := guard_perform alarm h _

end World

/-! ## The two worlds -/

namespace Bodies

variable {β : Type}

/-- These handles are apart, and they are those of the bodies, below the next one. -/
structure Housed (bodies : Bodies β) (next : Nat) (handles : List Nat) : Prop
    extends Lodged bodies next handles where
  bodies : bodies.handles.Perm handles

namespace Housed

variable {bodies bodies' : Bodies β} {next next' handle : Nat} {handles handles' : List Nat}

theorem nil (h : bodies.handles = []) (next : Nat) : Housed bodies next [] := by
  cases List.map_eq_nil_iff.1 h
  exact ⟨.nil next, .nil⟩

theorem perm (h : Housed bodies next handles) (hperm : handles.Perm handles') :
    Housed bodies next handles' :=
  ⟨h.toLodged.perm hperm, h.bodies.trans hperm⟩

theorem of_handles (h : Housed bodies next handles) (hbodies : bodies'.handles = bodies.handles)
    (hnext : next ≤ next') : Housed bodies' next' handles :=
  ⟨h.toLodged.of_handles hbodies hnext, hbodies ▸ h.bodies⟩

theorem append (h : Housed bodies next handles) (body : β) :
    Housed (bodies ++ [(next, body)]) (next + 1) (next :: handles) := by
  refine ⟨h.toLodged.append body, ?_⟩
  have hhandles : Bodies.handles (bodies ++ [(next, body)]) = bodies.handles ++ [next] :=
    List.map_append
  rw [hhandles]
  exact (List.perm_append_singleton ..).trans (h.bodies.cons next)

theorem erase (h : Housed bodies next (handle :: handles)) :
    Housed (bodies.erase handle) next handles := by
  refine ⟨h.toLodged.erase, ?_⟩
  have hnotin : handle ∉ handles := (List.nodup_cons.1 h.apart).1
  have herased : (bodies.erase handle).handles = bodies.handles.filter (· != handle) := by
    rw [Bodies.handles, Bodies.handles, Bodies.erase, List.filter_map]
    rfl
  have hkept : (handle :: handles).filter (· != handle) = handles := by
    rw [List.filter_cons_of_neg (by simp)]
    refine List.filter_eq_self.2 fun other hother => bne_iff_ne.2 ?_
    rintro rfl
    exact hnotin hother
  rw [herased, ← hkept]
  exact h.bodies.filter _

end Housed

end Bodies

open Bodies (Housed)

namespace SimulatedWorld

/-- The simulated world has the bodies of the dice and no others. -/
def housing : Tray.Housing SimulatedWorld where
  holds w handles := w.bodies.Housed w.nextHandle handles
  perm := .perm
  spawn {w _ _ _} kind tens motion h hperform := by
    obtain ⟨_, ⟨_, _, _, heq⟩ | ⟨body, _, heq⟩⟩ := spawn_cases w kind tens motion
    · cases heq.symm.trans hperform
    · cases heq.symm.trans hperform
      exact h.append body
  spawn_error {w _ _ _} kind tens motion h hperform := by
    obtain ⟨_, ⟨_, _, hle, heq⟩ | ⟨body, _, heq⟩⟩ := spawn_cases w kind tens motion
    · cases heq.symm.trans hperform
      exact h.of_handles rfl hle
    · cases heq.symm.trans hperform
  remove h := ⟨_, rfl, h.erase⟩
  step dt h := h.of_handles (handles_stepBodies ..) (Nat.le_refl _)
  damp handle factor h :=
    h.of_handles (handles_damp ..) (Nat.le_of_eq (sameGuises_damp handle factor).nextHandle.symm)
  sleep handle h :=
    h.of_handles (handles_sleep ..) (Nat.le_of_eq (sameGuises_sleep handle).nextHandle.symm)
  apart h := h.apart
  bodies h := h.bodies
  empty h := .nil h _
  lull {w _ handle} h hmem := by
    obtain ⟨body, hbody⟩ := Bodies.exists_get (h.mem handle hmem)
    rw [sleep_perform, hbody]
    exact ⟨_, rfl⟩

end SimulatedWorld

namespace ScriptedWorld

/-- The world moved by hand has the bodies of the dice and no others. -/
def housing : Tray.Housing ScriptedWorld where
  holds w handles := w.bodies.Housed w.nextHandle handles
  perm := .perm
  spawn _ _ _ h hperform := by
    cases hperform
    exact h.append _
  spawn_error _ _ _ _ hperform := nomatch hperform
  remove h := ⟨_, remove_perform (h.mem _ (List.mem_cons_self ..)), h.erase⟩
  step _ h := h
  damp _ _ h := h.of_handles rfl (Nat.le_refl _)
  sleep {w _} handle h := by
    rw [sleep_perform]
    cases w.bodies.get handle with
    | error fault => exact h
    | ok body => exact h.of_handles (Bodies.handles_set ..) (Nat.le_refl _)
  apart h := h.apart
  bodies h := h.bodies
  empty h := .nil h _
  lull {w _ handle} h hmem := by
    obtain ⟨body, hbody⟩ := Bodies.exists_get (h.mem handle hmem)
    rw [sleep_perform, hbody]
    exact ⟨_, rfl⟩

end ScriptedWorld

end RollTray
