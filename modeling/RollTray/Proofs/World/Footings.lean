import RollTray.Proofs.Tray.Orderly
import RollTray.World.Scripted
import RollTray.World.Simulated

/-!
# Worlds that keep up their dice

Out of either world a die can be taken that was put into it: out of the simulated one always
(`SimulatedWorld.footing`), out of the one moved by hand if it was not taken out before
(`ScriptedWorld.footing`).
-/

namespace RollTray

namespace Bodies

variable {β : Type}

theorem exists_get {handle : Nat} {bodies : Bodies β} (h : handle ∈ bodies.handles) :
    ∃ body, bodies.get handle = .ok body := by
  obtain ⟨entry, hentry, heq⟩ := List.mem_map.1 h
  have hsome : (find? handle bodies).isSome := List.lookup_isSome_iff.2 ⟨entry, hentry, by simp [heq]⟩
  obtain ⟨body, hbody⟩ := Option.isSome_iff_exists.1 hsome
  exact ⟨body, by rw [get, hbody]⟩

theorem handles_set (handle : Nat) (body : β) (bodies : Bodies β) :
    (bodies.set handle body).handles = bodies.handles := by
  rw [handles, handles, set, List.map_map]
  refine List.map_congr_left fun other _ => ?_
  show (if other.1 == handle then (handle, body) else other).1 = other.1
  by_cases heq : other.1 == handle
  · rw [if_pos heq]
    exact (eq_of_beq heq).symm
  · rw [if_neg heq]

theorem mem_handles_erase {handle other : Nat} {bodies : Bodies β} (h : other ∈ bodies.handles)
    (hne : other ≠ handle) : other ∈ (bodies.erase handle).handles := by
  obtain ⟨entry, hentry, rfl⟩ := List.mem_map.1 h
  exact List.mem_map_of_mem (List.mem_filter.2 ⟨hentry, by simpa using hne⟩)

end Bodies

/-- The simulated world lets go of any body. -/
def SimulatedWorld.footing : Tray.Footing SimulatedWorld where
  holds _ _ := True
  perm _ _ := trivial
  spawn _ _ _ _ _ := trivial
  spawn_error _ _ _ _ _ := trivial
  remove _ := ⟨_, rfl, trivial⟩
  step _ _ := trivial
  damp _ _ _ := trivial
  sleep _ _ := trivial

namespace ScriptedWorld

/-- These handles are apart, and their bodies are in the world. -/
structure Bears (w : ScriptedWorld) (handles : List Nat) : Prop where
  apart : handles.Nodup
  mem : ∀ handle ∈ handles, handle ∈ w.bodies.handles
  lt : ∀ handle ∈ handles, handle < w.nextHandle

variable {w w' : ScriptedWorld} {handles : List Nat}

theorem Bears.perm {handles' : List Nat} (h : w.Bears handles) (hperm : handles.Perm handles') :
    w.Bears handles' where
  apart := hperm.nodup_iff.1 h.apart
  mem handle hmem := h.mem handle (hperm.mem_iff.2 hmem)
  lt handle hmem := h.lt handle (hperm.mem_iff.2 hmem)

theorem Bears.spawn {handle : Nat} {motion : Option Motion} (h : w.Bears handles)
    (hperform : (ScriptedWorld.spawn motion).perform w = (.ok handle, w')) :
    w'.Bears (handle :: handles) := by
  cases hperform
  refine ⟨List.nodup_cons.2 ⟨fun hmem => Nat.lt_irrefl _ (h.lt _ hmem), h.apart⟩, ?_, ?_⟩
  · intro other hother
    rw [Bodies.handles, List.map_append]
    rcases List.mem_cons.1 hother with rfl | hother
    · exact List.mem_append_right _ (List.mem_cons_self ..)
    · exact List.mem_append_left _ (h.mem other hother)
  · intro other hother
    rcases List.mem_cons.1 hother with rfl | hother
    · exact Nat.lt_succ_self _
    · exact Nat.lt_succ_of_lt (h.lt other hother)

/-- A body that is in the world can be taken out of it. -/
theorem remove_perform {handle : Nat} (h : handle ∈ w.bodies.handles) :
    (World.remove handle).perform w = (.ok (), { w with bodies := w.bodies.erase handle }) := by
  obtain ⟨body, hbody⟩ := Bodies.exists_get h
  show (ScriptedWorld.remove handle).perform w = _
  rw [ScriptedWorld.remove, Attempt.perform_bind, bodyOf, Attempt.perform_ask, hbody]
  rfl

theorem Bears.remove {handle : Nat} (h : w.Bears (handle :: handles)) :
    ∃ w', (ScriptedWorld.remove handle).perform w = (.ok (), w') ∧ w'.Bears handles := by
  obtain ⟨hnotin, hnodup⟩ := List.nodup_cons.1 h.apart
  refine ⟨_, remove_perform (h.mem handle (List.mem_cons_self ..)), hnodup, fun other hother => ?_,
    fun other hother => h.lt other (List.mem_cons_of_mem _ hother)⟩
  refine Bodies.mem_handles_erase (h.mem other (List.mem_cons_of_mem _ hother)) ?_
  rintro rfl
  exact hnotin hother

/-- Whatever is done to a body, it stays in the world. -/
theorem exists_rework (w : ScriptedWorld) (handle : Nat) (f : ScriptedBody → ScriptedBody) :
    ∃ bodies : Bodies ScriptedBody, bodies.handles = w.bodies.handles ∧
      ((do putBody handle (f (← bodyOf handle)) : Attempt ScriptedWorld Unit).perform w).2 =
        { w with bodies } := by
  rw [Attempt.perform_bind, bodyOf, Attempt.perform_ask]
  cases w.bodies.get handle with
  | error fault => exact ⟨w.bodies, rfl, rfl⟩
  | ok body => exact ⟨w.bodies.set handle (f body), Bodies.handles_set .., rfl⟩

theorem Bears.rework (h : w.Bears handles) (handle : Nat) (f : ScriptedBody → ScriptedBody) :
    ((do putBody handle (f (← bodyOf handle)) : Attempt ScriptedWorld Unit).perform w).2.Bears
      handles := by
  obtain ⟨bodies, hhandles, heq⟩ := exists_rework w handle f
  rw [heq]
  exact ⟨h.apart, fun other hother => hhandles ▸ h.mem other hother, h.lt⟩

/-- The world moved by hand lets go of the bodies that it bears. -/
def footing : Tray.Footing ScriptedWorld where
  holds := Bears
  perm := Bears.perm
  spawn _ _ _ h hperform := h.spawn hperform
  spawn_error _ _ _ _ hperform := nomatch hperform
  remove := Bears.remove
  step _ h := h
  damp _ _ h := ⟨h.apart, h.mem, h.lt⟩
  sleep handle h := h.rework handle fun body => { body with asleep := true }

theorem bears_nil (w : ScriptedWorld) : w.Bears [] :=
  ⟨.nil, (fun _ h => nomatch h), fun _ h => nomatch h⟩

end ScriptedWorld

end RollTray
