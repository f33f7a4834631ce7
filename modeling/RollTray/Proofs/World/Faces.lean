import RollTray.Proofs.World.Bodies

/-!
# Which face a body shows

In the simulated world a body is what it was thrown as and shows the face that was drawn for it until it
is knocked over (`SameGuises`). Time that passes and what slows a body down changes no face
(`sameGuises_step`, `sameGuises_damp`, `sameGuises_sleep`), nor do bodies that come or others that go
(`face_spawn`, `face_remove`), or others that are knocked over (`face_disturb`). All of this is read off
what each operation does to the world (`damp_perform`, `sleep_perform`, `disturb_perform`, `enter_perform`) and
what time does to one body among others (`find?_stepBodies_cases`, `stepBody_cases`).
-/

namespace RollTray.SimulatedWorld

variable {w : SimulatedWorld} {handle : Nat}

theorem face_eq (w : SimulatedWorld) (handle : Nat) : World.face w handle =
    match (Bodies.find? handle w.bodies).map SimulatedBody.face with
    | some n => .ok (.int n)
    | none => .error .missing := by
  show (do return .int (← w.bodies.get handle).face : Except Fault Value) = _
  rw [Bodies.get]
  cases Bodies.find? handle w.bodies <;> rfl

/-- A face that is shown is that of a body. -/
theorem face_eq_ok {v : Value} : World.face w handle = .ok v ↔
    ∃ body, Bodies.find? handle w.bodies = some body ∧ v = .int body.face := by
  rw [face_eq]
  cases Bodies.find? handle w.bodies <;> simp [eq_comm]

/-- The face of a body depends on nothing else. -/
theorem face_congr {w' : SimulatedWorld}
    (h : (Bodies.find? handle w'.bodies).map SimulatedBody.face =
      (Bodies.find? handle w.bodies).map SimulatedBody.face) :
    World.face w' handle = World.face w handle := by
  rw [face_eq, face_eq, h]

/-- All bodies show the faces that they showed, and no handle was used up. -/
structure SameFaces (w w' : SimulatedWorld) : Prop where
  nextHandle : w'.nextHandle = w.nextHandle
  face : ∀ handle, World.face w' handle = World.face w handle

theorem SameFaces.refl (w : SimulatedWorld) : SameFaces w w := ⟨rfl, fun _ => rfl⟩

/-- What a body is and what it shows, however it moves. -/
def guiseOf (body : SimulatedBody) : Value × Value × Int :=
  (body.kind, body.tens, body.face)

/-- All bodies are what they were and show the faces that they showed, and nothing was drawn. -/
structure SameGuises (w w' : SimulatedWorld) : Prop where
  chance : w'.chance = w.chance
  nextHandle : w'.nextHandle = w.nextHandle
  guise : ∀ handle, (Bodies.find? handle w'.bodies).map guiseOf =
    (Bodies.find? handle w.bodies).map guiseOf

namespace SameGuises

variable {w' w'' : SimulatedWorld}

theorem refl (w : SimulatedWorld) : SameGuises w w := ⟨rfl, rfl, fun _ => rfl⟩

theorem trans (first : SameGuises w w') (second : SameGuises w' w'') : SameGuises w w'' :=
  ⟨second.chance.trans first.chance, second.nextHandle.trans first.nextHandle,
    fun handle => (second.guise handle).trans (first.guise handle)⟩

theorem sameFaces (h : SameGuises w w') : SameFaces w w' := by
  refine ⟨h.nextHandle, fun handle => face_congr ?_⟩
  have hface := congrArg (Option.map fun guise => guise.2.2) (h.guise handle)
  rwa [Option.map_map, Option.map_map] at hface

/-- A body that there is now was there before, and looked the same. -/
theorem exists_body (h : SameGuises w w') {body : SimulatedBody}
    (hbody : Bodies.find? handle w'.bodies = some body) :
    ∃ old, Bodies.find? handle w.bodies = some old ∧ guiseOf old = guiseOf body := by
  have hguise := h.guise handle
  rw [hbody, Option.map_some, eq_comm, Option.map_eq_some_iff] at hguise
  exact hguise

end SameGuises

/-! ## One body among others -/

theorem damp_perform (w : SimulatedWorld) (handle : Nat) (factor : Num) :
    (World.damp handle factor).perform w =
      match w.damping.add factor, w.bodies.get handle with
      | .ok damping, .ok body =>
        (.ok (), { w with bodies := w.bodies.set handle { body with damping } })
      | .ok _, .error fault => (.error fault, w)
      | .error fault, _ => (.error fault, w) := by
  show (damp handle factor).perform w = _
  rw [damp, Attempt.perform_bind_of_ok (Attempt.perform_get w), Attempt.perform_bind,
    Attempt.perform_lift]
  cases w.damping.add factor with
  | error fault => rfl
  | ok damping =>
    dsimp only
    rw [Attempt.perform_bind, bodyOf, Attempt.perform_ask]
    cases w.bodies.get handle <;> rfl

theorem sleep_perform (w : SimulatedWorld) (handle : Nat) :
    (World.sleep handle).perform w =
      match w.bodies.get handle with
      | .error fault => (.error fault, w)
      | .ok body => (.ok (), { w with bodies := w.bodies.set handle (rested w.damping body) }) := by
  show (sleep handle).perform w = _
  rw [sleep, Attempt.perform_bind_of_ok (Attempt.perform_get w), Attempt.perform_bind, bodyOf,
    Attempt.perform_ask]
  cases w.bodies.get handle <;> rfl

/-- A body that is knocked over is awake even if no face can be drawn for it. -/
theorem disturb_perform (w : SimulatedWorld) (handle : Nat) (velocity angularVelocity : List Value) :
    (disturb handle velocity angularVelocity).perform w =
      match w.bodies.get handle with
      | .error fault => (.error fault, w)
      | .ok body =>
        match (Motion.drawFace body.kind body.tens).perform w.chance with
        | (.error fault, chance) => (.error fault, { w with
            chance
            bodies := w.bodies.set handle { body with asleep := false } })
        | (.ok face, chance) => (.ok (), { w with
            chance
            bodies := w.bodies.set handle { body with
              asleep := false
              face
              motion := { body.motion with velocity, angularVelocity } } }) := by
  rw [disturb, Attempt.perform_bind, bodyOf, Attempt.perform_ask]
  cases w.bodies.get handle with
  | error fault => rfl
  | ok body =>
    dsimp only
    rw [putBody, Attempt.perform_bind_of_ok (Attempt.perform_modify _ w), Attempt.perform_bind,
      withChance, Attempt.perform_within]
    rcases (Motion.drawFace body.kind body.tens).perform w.chance with ⟨fault | face, chance⟩
    · rfl
    · exact congrArg (fun bodies => (Except.ok (), { w with chance, bodies }))
        (Bodies.set_set handle _ _ w.bodies)

theorem sameGuises_set {old body : SimulatedBody}
    (hold : Bodies.find? handle w.bodies = some old) (hguise : guiseOf body = guiseOf old) :
    SameGuises w { w with bodies := w.bodies.set handle body } := by
  refine ⟨rfl, rfl, fun other => ?_⟩
  by_cases h : other = handle
  · subst h
    rw [Bodies.find?_set_self hold, hold, Option.map_some, Option.map_some, hguise]
  · rw [Bodies.find?_set_of_ne h]

theorem sameGuises_damp (handle : Nat) (factor : Num) :
    SameGuises w ((World.damp handle factor).perform w).2 := by
  rw [damp_perform]
  cases w.damping.add factor with
  | error fault => exact .refl w
  | ok damping =>
    cases hbody : w.bodies.get handle with
    | error fault => exact .refl w
    | ok body => exact sameGuises_set (Bodies.get_eq_ok.1 hbody) rfl

theorem sameGuises_sleep (handle : Nat) : SameGuises w ((World.sleep handle).perform w).2 := by
  rw [sleep_perform]
  cases hbody : w.bodies.get handle with
  | error fault => exact .refl w
  | ok body => exact sameGuises_set (Bodies.get_eq_ok.1 hbody) rfl

theorem face_remove {other : Nat} (h : other ≠ handle) :
    World.face ((World.remove handle).perform w).2 other = World.face w other :=
  face_congr (congrArg _ (Bodies.find?_erase_of_ne h _))

/-- The others keep their faces when a body is knocked over. -/
theorem face_disturb (handle : Nat) (velocity angularVelocity : List Value) :
    ((disturb handle velocity angularVelocity).perform w).2.nextHandle = w.nextHandle ∧
      ∀ other, other ≠ handle →
        World.face ((disturb handle velocity angularVelocity).perform w).2 other =
          World.face w other := by
  rw [disturb_perform]
  cases w.bodies.get handle with
  | error fault => exact ⟨rfl, fun _ _ => rfl⟩
  | ok body =>
    dsimp only
    rcases (Motion.drawFace body.kind body.tens).perform w.chance with ⟨fault | face, chance⟩ <;>
      exact ⟨rfl, fun other h => face_congr (congrArg _ (Bodies.find?_set_of_ne h ..))⟩

/-! ## All bodies -/

/-- A body that time passes for sleeps and stays as it is, or it moves on and may fall asleep. -/
theorem stepBody_cases {dt : Num} {body body' : SimulatedBody} (h : w.stepBody dt body = .ok body') :
    body' = body ∨ body.asleep = false ∧ ∃ motion, flown dt body.damping body.motion = .ok motion ∧
      (body' = { body with motion } ∨ body' = rested w.damping { body with motion }) := by
  rw [stepBody] at h
  split at h
  · cases h
    exact .inl rfl
  · next hawake =>
    obtain ⟨motion, hflown, h⟩ := bind_eq_ok.1 h
    obtain ⟨slow, -, h⟩ := bind_eq_ok.1 h
    refine .inr ⟨Bool.eq_false_iff.2 hawake, motion, hflown, ?_⟩
    cases h
    cases slow with
    | false => exact .inl rfl
    | true => exact .inr rfl

theorem guise_of_stepBody {dt : Num} {body body' : SimulatedBody}
    (h : w.stepBody dt body = .ok body') : guiseOf body' = guiseOf body := by
  obtain rfl | ⟨_, motion, _, rfl | rfl⟩ := stepBody_cases h <;> rfl

/-- As time passes a body stays as it is or is moved. -/
theorem find?_stepBodies_cases (w : SimulatedWorld) (dt : Num) (bodies : Bodies SimulatedBody)
    (handle : Nat) :
    Bodies.find? handle (w.stepBodies dt bodies).2 = Bodies.find? handle bodies ∨
      ∃ body body', Bodies.find? handle bodies = some body ∧ w.stepBody dt body = .ok body' ∧
        Bodies.find? handle (w.stepBodies dt bodies).2 = some body' := by
  induction bodies with
  | nil => exact .inl rfl
  | cons entry rest ih =>
    obtain ⟨key, body⟩ := entry
    rw [stepBodies]
    cases hstep : w.stepBody dt body with
    | error fault => exact .inl rfl
    | ok body' =>
      dsimp only
      rw [Bodies.find?, Bodies.find?, List.lookup_cons, List.lookup_cons]
      cases handle == key with
      | false => exact ih
      | true => exact .inr ⟨body, body', rfl, hstep, rfl⟩

/-- Bodies keep their faces as time passes. -/
theorem find?_stepBodies (w : SimulatedWorld) (dt : Num) (bodies : Bodies SimulatedBody) :
    (Bodies.find? handle (w.stepBodies dt bodies).2).map guiseOf =
      (Bodies.find? handle bodies).map guiseOf := by
  obtain hsame | ⟨body, body', hbody, hstep, hbody'⟩ := find?_stepBodies_cases w dt bodies handle
  · rw [hsame]
  · rw [hbody, hbody', Option.map_some, Option.map_some, guise_of_stepBody hstep]

theorem sameGuises_step (dt : Num) : SameGuises w ((World.step dt).perform w).2 :=
  ⟨rfl, rfl, fun _ => find?_stepBodies w dt w.bodies⟩

/-! ## New bodies -/

/-- Puts a die into the world whose motion is known. -/
def enter (kind tens : Value) (motion : Motion) : Attempt SimulatedWorld Nat := do
  let handle := (← get).nextHandle
  modify fun w => { w with nextHandle := handle + 1 }
  let face ← withChance (Motion.drawFace kind tens)
  modify fun w =>
    { w with bodies := w.bodies ++ [(handle, { kind, tens, motion, face, damping := w.damping })] }
  return handle

theorem spawn_some (kind tens : Value) (motion : Motion) :
    (World.spawn kind tens (some motion) : Attempt SimulatedWorld Nat) = enter kind tens motion := rfl

theorem spawn_none (kind tens : Value) :
    (World.spawn kind tens none : Attempt SimulatedWorld Nat) =
      (do enter kind tens (← withChance drawMotion)) := rfl

theorem enter_perform (w : SimulatedWorld) (kind tens : Value) (motion : Motion) :
    (enter kind tens motion).perform w =
      match (Motion.drawFace kind tens).perform w.chance with
      | (.error fault, chance) =>
        (.error fault, { w with chance, nextHandle := w.nextHandle + 1 })
      | (.ok face, chance) => (.ok w.nextHandle, { w with
          chance
          nextHandle := w.nextHandle + 1
          bodies := w.bodies ++
            [(w.nextHandle, { kind, tens, motion, face, damping := w.damping })] }) := by
  rw [enter, Attempt.perform_bind_of_ok (Attempt.perform_get w),
    Attempt.perform_bind_of_ok (Attempt.perform_modify _ w), Attempt.perform_bind, withChance,
    Attempt.perform_within]
  rcases (Motion.drawFace kind tens).perform w.chance with ⟨fault | face, chance⟩ <;> rfl

theorem enter_cases (w : SimulatedWorld) (kind tens : Value) (motion : Motion) :
    ∃ chance, (∃ fault, (enter kind tens motion).perform w =
        (.error fault, { w with chance, nextHandle := w.nextHandle + 1 })) ∨
      ∃ body, (body.asleep = false ∧ body.motion = motion) ∧ (enter kind tens motion).perform w =
        (.ok w.nextHandle, { w with
          chance
          nextHandle := w.nextHandle + 1
          bodies := w.bodies ++ [(w.nextHandle, body)] }) := by
  rw [enter_perform]
  rcases (Motion.drawFace kind tens).perform w.chance with ⟨fault | face, chance⟩
  · exact ⟨chance, .inl ⟨fault, rfl⟩⟩
  · exact ⟨chance, .inr ⟨_, ⟨rfl, rfl⟩, rfl⟩⟩

/-- A die that is put into the world gets the next handle, and a body that is awake unless that fails. -/
theorem spawn_cases (w : SimulatedWorld) (kind tens : Value) (motion : Option Motion) :
    ∃ chance, (∃ fault next, w.nextHandle ≤ next ∧ (World.spawn kind tens motion).perform w =
        (.error fault, { w with chance, nextHandle := next })) ∨
      ∃ body, (body.asleep = false ∧ ∀ m, motion = some m → body.motion = m) ∧
        (World.spawn kind tens motion).perform w = (.ok w.nextHandle, { w with
          chance
          nextHandle := w.nextHandle + 1
          bodies := w.bodies ++ [(w.nextHandle, body)] }) := by
  cases motion with
  | some m =>
    rw [spawn_some]
    obtain ⟨chance, ⟨fault, hperform⟩ | ⟨body, ⟨hawake, rfl⟩, hperform⟩⟩ := enter_cases w kind tens m
    · exact ⟨chance, .inl ⟨fault, _, Nat.le_succ _, hperform⟩⟩
    · exact ⟨chance, .inr ⟨body, ⟨hawake, fun _ h => Option.some.inj h⟩, hperform⟩⟩
  | none =>
    rw [spawn_none]
    rcases hdraw : drawMotion.perform w.chance with ⟨fault | m, chance⟩ <;>
      have hwith : (withChance drawMotion).perform w = _ :=
        congrArg (fun outcome => (outcome.1, { w with chance := outcome.2 })) hdraw
    · exact ⟨chance, .inl ⟨fault, _, Nat.le_refl _, Attempt.perform_bind_of_error hwith⟩⟩
    · rw [Attempt.perform_bind_of_ok hwith]
      obtain ⟨chance, ⟨fault, hperform⟩ | ⟨body, ⟨hawake, _⟩, hperform⟩⟩ :=
        enter_cases { w with chance } kind tens m
      · exact ⟨chance, .inl ⟨fault, _, Nat.le_succ _, hperform⟩⟩
      · exact ⟨chance, .inr ⟨body, ⟨hawake, fun _ h => nomatch h⟩, hperform⟩⟩

theorem face_spawn {v : Value} (h : World.face w handle = .ok v) (kind tens : Value)
    (motion : Option Motion) :
    World.face ((World.spawn kind tens motion).perform w).2 handle = .ok v := by
  obtain ⟨chance, ⟨fault, next, _, hperform⟩ | ⟨body, _, hperform⟩⟩ :=
    spawn_cases w kind tens motion <;> rw [hperform]
  · rw [← h]
    exact face_congr rfl
  · obtain ⟨old, hold, rfl⟩ := face_eq_ok.1 h
    exact face_eq_ok.2 ⟨old, Bodies.find?_append_of_some hold _, rfl⟩

end RollTray.SimulatedWorld
