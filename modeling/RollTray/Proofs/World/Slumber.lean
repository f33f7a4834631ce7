import RollTray.Proofs.World.Lodging
import RollTray.Proofs.World.Separation

/-!
# Worlds that put bodies to sleep

Bodies that are there answer: it can be asked whether they sleep, how fast they are and which face they
show, they can be slowed down by a float, and a body that is put to sleep sleeps (`World.Slumber`). They do in
both worlds, if the speeds of bodies are floats (`SimulatedWorld.slumber`, `ScriptedWorld.slumber`).
-/

namespace RollTray

/-- Whether a value is a float. -/
def Value.isFloat : Value → Bool
  | .float _ => true
  | _ => false

/-- The speeds of a motion are floats. -/
def Motion.Measured (m : Motion) : Prop :=
  ∀ v ∈ m.velocity ++ m.angularVelocity, v.isFloat = true

namespace Motion

variable {m : Motion}

theorem exists_length {components : List Value} (h : ∀ v ∈ components, v.isFloat = true) :
    ∃ x, length components = .ok x := by
  have hread : ∃ xs, (components.mapM fun v => do (← v.num).toFloat) = Except.ok (ε := Fault) xs := by
    induction components with
    | nil => exact ⟨[], rfl⟩
    | cons v rest ih =>
      obtain ⟨hfirst, hrest⟩ := List.forall_mem_cons.1 h
      obtain ⟨xs, hxs⟩ := ih hrest
      cases v with
      | float x =>
        rw [List.mapM_cons]
        exact ⟨x :: xs, bind_eq_ok.2 ⟨x, rfl, bind_eq_ok.2 ⟨xs, hxs, rfl⟩⟩⟩
      | _ => cases hfirst
  obtain ⟨xs, hxs⟩ := hread
  exact ⟨vectorLength xs, bind_eq_ok.2 ⟨xs, hxs, rfl⟩⟩

theorem measured_stopped (m : Motion) : m.stopped.Measured := by
  have hzero : ∀ v ∈ zeroVector, v.isFloat = true := List.forall_mem_map.2 fun _ _ => rfl
  exact fun v hv => (List.mem_append.1 hv).elim (hzero v) (hzero v)

/-- It can be told whether a motion is slow. -/
theorem Measured.exists_isSlower (h : m.Measured) (speedLimit spinLimit : Num) :
    ∃ slow, m.isSlower speedLimit spinLimit = .ok slow := by
  obtain ⟨speed, hspeed⟩ := exists_length fun v hv => h v (List.mem_append_left _ hv)
  obtain ⟨spin, hspin⟩ := exists_length fun v hv => h v (List.mem_append_right _ hv)
  rw [isSlower, Motion.speed, hspeed, Motion.spin, hspin]
  refine ⟨(Num.float speed).lt speedLimit && (Num.float spin).lt spinLimit, bind_eq_ok.2 ⟨speed, rfl, ?_⟩⟩
  cases (Num.float speed).lt speedLimit <;> rfl

end Motion

/-- A world whose bodies answer as long as they are there, and sleep when they are put to sleep. -/
structure World.Slumber {ω : Type} [World ω] (V : World.Separation ω) where
  /-- The body is there. -/
  Present : V.Body → Prop
  isSettled : ∀ {w handle}, Present (V.body w handle) → ∃ asleep, World.isSettled w handle = .ok asleep
  motion : ∀ {w handle}, Present (V.body w handle) → ∃ m, World.motion w handle = .ok m ∧ m.Measured
  face : ∀ {w handle}, Present (V.body w handle) → ∃ face, World.face w handle = .ok face
  damp : ∀ {w handle} (factor : Float), Present (V.body w handle) →
    ∃ w', (World.damp handle (.float factor)).perform w = (.ok (), w') ∧ Present (V.body w' handle)
  sleep : ∀ {w handle}, Present (V.body w handle) →
    ∃ w', (World.sleep handle).perform w = (.ok (), w') ∧ Present (V.body w' handle) ∧
      World.isSettled w' handle = .ok true

/-! ## The two worlds -/

namespace SimulatedWorld

/-- Bodies whose speeds are floats, in a world whose damping is one. -/
def slumber : World.Slumber separation where
  Present := fun (body, damping) => (∃ b, body = some b ∧ b.motion.Measured) ∧ ∃ x, damping = .float x
  isSettled := fun ⟨⟨b, hfind, _⟩, _⟩ => ⟨b.asleep, Bodies.ask_eq_ok.2 ⟨b, hfind, rfl⟩⟩
  motion := fun ⟨⟨b, hfind, hmeasured⟩, _⟩ => ⟨b.motion, motion_eq_ok.2 ⟨b, hfind, rfl⟩, hmeasured⟩
  face := fun ⟨⟨b, hfind, _⟩, _⟩ => ⟨.int b.face, Bodies.ask_eq_ok.2 ⟨b, hfind, rfl⟩⟩
  damp {w handle} factor := fun ⟨⟨b, hfind, hmeasured⟩, x, hdamping⟩ => by
    change Bodies.find? handle w.bodies = some b at hfind
    change w.damping = .float x at hdamping
    refine ⟨{ w with bodies := w.bodies.set handle { b with damping := .float (x + factor) } }, ?_,
      ⟨_, Bodies.find?_set_self hfind _, hmeasured⟩, x, hdamping⟩
    have hadd : w.damping.add (.float factor) = .ok (.float (x + factor)) := by
      rw [hdamping]
      rfl
    rw [damp_perform, hadd, Bodies.get_eq_ok.2 hfind]
  sleep {w handle} := fun ⟨⟨b, hfind, hmeasured⟩, hdamping⟩ => by
    have hset := Bodies.find?_set_self hfind (rested w.damping b)
    refine ⟨{ w with bodies := w.bodies.set handle (rested w.damping b) }, ?_,
      ⟨⟨_, hset, Motion.measured_stopped _⟩, hdamping⟩, Bodies.ask_eq_ok.2 ⟨_, hset, rfl⟩⟩
    rw [sleep_perform, Bodies.get_eq_ok.2 hfind]

end SimulatedWorld

namespace ScriptedWorld

/-- The body is there, and was set to move at speeds that are floats. -/
def Present (body : Option ScriptedBody × Option Num) : Prop :=
  ∃ b ∈ body.1, ∀ v ∈ b.velocity ++ b.angularVelocity, v.isFloat = true

instance : DecidablePred Present := fun body =>
  inferInstanceAs (Decidable (∃ b ∈ body.1, ∀ v ∈ b.velocity ++ b.angularVelocity, v.isFloat = true))

/-- Bodies answer in the world moved by hand, which moves none by itself. -/
def slumber : World.Slumber separation where
  Present := Present
  isSettled := fun ⟨b, hfind, _⟩ => ⟨b.asleep, Bodies.ask_eq_ok.2 ⟨b, hfind, rfl⟩⟩
  motion := fun ⟨b, hfind, hmeasured⟩ => by
    refine ⟨b.motion, motion_eq_ok.2 ⟨b, hfind, rfl⟩, ?_⟩
    rw [ScriptedBody.motion]
    split
    · exact Motion.measured_stopped _
    · exact hmeasured
  face := fun ⟨b, hfind, _⟩ => ⟨b.face, Bodies.ask_eq_ok.2 ⟨b, hfind, rfl⟩⟩
  damp {w handle} factor := fun h =>
    ⟨{ w with damped := insertDamped handle (.float factor) w.damped }, rfl, h⟩
  sleep {w handle} := fun ⟨b, hfind, hmeasured⟩ => by
    have hset := Bodies.find?_set_self hfind { b with asleep := true }
    refine ⟨{ w with bodies := w.bodies.set handle { b with asleep := true } }, ?_,
      ⟨_, hset, hmeasured⟩, Bodies.ask_eq_ok.2 ⟨_, hset, rfl⟩⟩
    rw [sleep_perform, Bodies.get_eq_ok.2 hfind]

end ScriptedWorld

end RollTray
