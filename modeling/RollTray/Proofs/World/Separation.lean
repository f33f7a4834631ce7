import Mathlib.Data.Set.Insert
import RollTray.Proofs.World.Bodies

/-!
# What is done to single bodies

An attempt on a world is local to some handles if it leaves the bodies of all others as they are and if
what comes of it depends on the bodies of these handles alone (`Local`). A world stands apart if what can
be asked about a handle depends on its body, and slowing it down and putting it to sleep are local to it
(`World.Separation`). Both worlds do (`SimulatedWorld.separation`, `ScriptedWorld.separation`), and taking
out a body is local to its handle too. That does not follow: in a world whose bodies lean on each other
(`LeaningWorld`), those that are left wake up when one is taken out.
-/

namespace RollTray

variable {ω α β B : Type}

/-- Two worlds have the same bodies at some handles. -/
def Agree (body : ω → Nat → B) (handles : Set Nat) (w w' : ω) : Prop :=
  ∀ handle ∈ handles, body w handle = body w' handle

/-- What is done is done to the bodies of some handles, and depends on no others. -/
structure Local (body : ω → Nat → B) (handles : Set Nat) (a : Attempt ω α) : Prop where
  others : ∀ w, ∀ handle ∉ handles, body (a.perform w).2 handle = body w handle
  answer : ∀ {w w'}, Agree body handles w w' → (a.perform w).1 = (a.perform w').1
  own : ∀ {w w'}, Agree body handles w w' → Agree body handles (a.perform w).2 (a.perform w').2

namespace Local

variable {body : ω → Nat → B} {handles : Set Nat}

theorem pure (x : α) : Local body handles (Pure.pure x) := ⟨fun _ _ _ => rfl, fun _ => rfl, fun h => h⟩

theorem lift (x : Except Fault α) : Local body handles (liftM x) :=
  ⟨fun _ _ _ => rfl, fun _ => rfl, fun h => h⟩

/-- What is asked of these bodies. -/
theorem ask {f : ω → Except Fault α} (h : ∀ {w w'}, Agree body handles w w' → f w = f w') :
    Local body handles (Attempt.ask f) :=
  ⟨fun _ _ _ => rfl, h, fun hagree => hagree⟩

/-- A change of these bodies. -/
theorem modify {f : ω → ω} (others : ∀ w, ∀ handle ∉ handles, body (f w) handle = body w handle)
    (own : ∀ {w w'}, Agree body handles w w' → Agree body handles (f w) (f w')) :
    Local body handles (modify f : Attempt ω PUnit) :=
  ⟨others, fun _ => rfl, own⟩

/-- Attempts that start by reading the world, if all that they read belongs to these bodies. -/
theorem get {f : ω → Attempt ω α} (hf : ∀ w, Local body handles (f w))
    (h : ∀ {w w'}, Agree body handles w w' → f w = f w') :
    Local body handles (MonadState.get >>= f) := by
  have hperform : ∀ w, Attempt.perform (MonadState.get >>= f) w = (f w).perform w := fun w =>
    Attempt.perform_bind_of_ok (Attempt.perform_get w)
  refine ⟨fun w => ?_, fun {w w'} hagree => ?_, fun {w w'} hagree => ?_⟩
  · rw [hperform]
    exact (hf w).others w
  · rw [hperform, hperform, h hagree]
    exact (hf w').answer hagree
  · rw [hperform, hperform, h hagree]
    exact (hf w').own hagree

theorem bind {a : Attempt ω α} {f : α → Attempt ω β} (ha : Local body handles a)
    (hf : ∀ x, Local body handles (f x)) : Local body handles (a >>= f) := by
  refine ⟨fun w handle hnot => ?_, fun {w w'} hagree => ?_, fun {w w'} hagree => ?_⟩
  · have hothers := ha.others w handle hnot
    rw [Attempt.perform_bind]
    rcases hperform : a.perform w with ⟨fault | x, w₁⟩ <;> rw [hperform] at hothers
    · exact hothers
    · exact ((hf x).others w₁ handle hnot).trans hothers
  all_goals
    have hanswer := ha.answer hagree
    have hown := ha.own hagree
    rw [Attempt.perform_bind, Attempt.perform_bind]
    rcases hperform : a.perform w with ⟨answer, w₁⟩
    rcases hperform' : a.perform w' with ⟨answer', w₁'⟩
    rw [hperform, hperform'] at hanswer hown
    cases hanswer
    cases answer
  · rfl
  · exact (hf _).answer hown
  · exact hown
  · exact (hf _).own hown

theorem forM {items : List α} {f : α → Attempt ω PUnit} (h : ∀ x ∈ items, Local body handles (f x)) :
    Local body handles (items.forM f) := by
  induction items with
  | nil => exact .pure _
  | cons x rest ih =>
    rw [List.forM]
    exact (h x (List.mem_cons_self ..)).bind fun _ => ih fun y hy => h y (List.mem_cons_of_mem _ hy)

theorem mono {handles' : Set Nat} {a : Attempt ω α} (h : Local body handles a)
    (hsub : handles ⊆ handles') : Local body handles' a where
  others w handle hnot := h.others w handle fun hmem => hnot (hsub hmem)
  answer hagree := h.answer fun handle hmem => hagree handle (hsub hmem)
  own {w w'} hagree handle hmem := by
    by_cases hin : handle ∈ handles
    · exact h.own (fun handle hmem => hagree handle (hsub hmem)) handle hin
    · rw [h.others w handle hin, h.others w' handle hin]
      exact hagree handle hmem

/-- What is done to some bodies leaves alone that the others agree with those of another world. -/
theorem agree {handles' : Set Nat} {a : Attempt ω α} (h : Local body handles a)
    (hdisjoint : ∀ handle ∈ handles', handle ∉ handles) {w w' : ω} (hagree : Agree body handles' w w') :
    Agree body handles' (a.perform w).2 w' :=
  fun handle hmem => (h.others w handle (hdisjoint handle hmem)).trans (hagree handle hmem)

end Local

/-- A world in which each handle has a body of its own. Whether it rests, which face it shows and how it
moves depends on its body, and slowing it down and putting it to sleep are done to its body alone. -/
structure World.Separation (ω : Type) [World ω] where
  Body : Type
  body : ω → Nat → Body
  isSettled : ∀ {w w' handle}, body w handle = body w' handle →
    World.isSettled w handle = World.isSettled w' handle
  face : ∀ {w w' handle}, body w handle = body w' handle → World.face w handle = World.face w' handle
  motion : ∀ {w w' handle}, body w handle = body w' handle →
    World.motion w handle = World.motion w' handle
  damp : ∀ handle factor, Local body {handle} (World.damp handle factor)
  sleep : ∀ handle, Local body {handle} (World.sleep handle)

/-- A body is taken out of the world without a change of any other one. -/
def World.Separation.Removes [World ω] (V : World.Separation ω) : Prop :=
  ∀ handle, Local V.body {handle} (World.remove handle)

/-! ## The two worlds -/

namespace SimulatedWorld

/-- A body, with the damping of bodies that nothing slows down. -/
def bodyAt (w : SimulatedWorld) (handle : Nat) : Option SimulatedBody × Num :=
  (Bodies.find? handle w.bodies, w.damping)

variable {handle : Nat}

theorem local_bodyOf : Local bodyAt {handle} (bodyOf handle) :=
  .ask fun hagree => by
    have hfind := (Prod.mk.inj (hagree handle rfl)).1
    rw [Bodies.get, Bodies.get, hfind]

theorem local_putBody (body : SimulatedBody) : Local bodyAt {handle} (putBody handle body) := by
  refine .modify (fun w other hne => ?_) fun hagree => ?_
  · rw [bodyAt, bodyAt, Bodies.find?_set_of_ne hne]
  · rintro _ rfl
    obtain ⟨hfind, hdamping⟩ := Prod.mk.inj (hagree _ rfl)
    exact Prod.ext (Bodies.find?_set_congr hfind body) hdamping

/-- In the simulated world each handle has a body of its own. -/
def separation : World.Separation SimulatedWorld where
  Body := Option SimulatedBody × Num
  body := bodyAt
  isSettled h := Bodies.ask_congr SimulatedBody.asleep (Prod.mk.inj h).1
  face h := Bodies.ask_congr (fun body => Value.int body.face) (Prod.mk.inj h).1
  motion h := Bodies.ask_congr SimulatedBody.motion (Prod.mk.inj h).1
  damp handle factor := by
    refine .get (fun w => ?_) fun {w w'} hagree => ?_
    · exact .bind (.lift _) fun damping => local_bodyOf.bind fun body => local_putBody _
    · have hdamping : w.damping = w'.damping := (Prod.mk.inj (hagree handle rfl)).2
      rw [hdamping]
  sleep handle := by
    show Local bodyAt {handle} (do
      let w ← get
      let body ← bodyOf handle
      putBody handle (rested w.damping body))
    refine .get (fun w => ?_) fun {w w'} hagree => ?_
    · exact local_bodyOf.bind fun body => local_putBody _
    · have hdamping : w.damping = w'.damping := (Prod.mk.inj (hagree handle rfl)).2
      rw [hdamping]

theorem removes : separation.Removes := by
  intro handle
  refine .modify (fun w other hne => ?_) fun hagree => ?_
  · show bodyAt _ other = bodyAt w other
    rw [bodyAt, bodyAt, Bodies.find?_erase_of_ne hne]
  · rintro _ rfl
    refine Prod.ext ?_ (Prod.mk.inj (hagree _ rfl)).2
    exact (Bodies.find?_erase_self ..).trans (Bodies.find?_erase_self ..).symm

end SimulatedWorld

namespace ScriptedWorld

/-- A body, with how it was damped last. -/
def bodyAt (w : ScriptedWorld) (handle : Nat) : Option ScriptedBody × Option Num :=
  (Bodies.find? handle w.bodies, w.damped.lookup handle)

variable {handle : Nat}

theorem lookup_insertDamped_self (handle : Nat) (factor : Num) (damped : List (Nat × Num)) :
    (insertDamped handle factor damped).lookup handle = some factor := by
  fun_induction insertDamped handle factor damped with
  | case1 => simp
  | case2 => simp
  | case3 => simp
  | case4 other x rest hlt hne ih => rw [List.lookup_cons, beq_false_of_ne hne, ih]

theorem lookup_insertDamped_of_ne {other : Nat} (h : other ≠ handle) (factor : Num)
    (damped : List (Nat × Num)) : (insertDamped handle factor damped).lookup other = damped.lookup other := by
  fun_induction insertDamped handle factor damped with
  | case1 => rw [List.lookup_cons, beq_false_of_ne h]
  | case2 => rw [List.lookup_cons, beq_false_of_ne h]
  | case3 => rw [List.lookup_cons, List.lookup_cons, beq_false_of_ne h]
  | case4 other x rest hlt hne ih => rw [List.lookup_cons, List.lookup_cons, ih]

theorem local_bodyOf : Local bodyAt {handle} (bodyOf handle) :=
  .ask fun hagree => by
    have hfind := (Prod.mk.inj (hagree handle rfl)).1
    rw [Bodies.get, Bodies.get, hfind]

theorem local_putBody (body : ScriptedBody) : Local bodyAt {handle} (putBody handle body) := by
  refine .modify (fun w other hne => ?_) fun hagree => ?_
  · rw [bodyAt, bodyAt, Bodies.find?_set_of_ne hne]
  · rintro _ rfl
    obtain ⟨hfind, hdamped⟩ := Prod.mk.inj (hagree _ rfl)
    exact Prod.ext (Bodies.find?_set_congr hfind body) hdamped

/-- In the world moved by hand each handle has a body of its own. -/
def separation : World.Separation ScriptedWorld where
  Body := Option ScriptedBody × Option Num
  body := bodyAt
  isSettled h := Bodies.ask_congr ScriptedBody.asleep (Prod.mk.inj h).1
  face h := Bodies.ask_congr ScriptedBody.face (Prod.mk.inj h).1
  motion h := Bodies.ask_congr ScriptedBody.motion (Prod.mk.inj h).1
  damp handle factor := by
    refine .modify (fun w other hne => ?_) fun hagree => ?_
    · exact Prod.ext rfl (lookup_insertDamped_of_ne hne factor w.damped)
    · rintro _ rfl
      refine Prod.ext (Prod.mk.inj (hagree _ rfl)).1 ?_
      exact (lookup_insertDamped_self ..).trans (lookup_insertDamped_self ..).symm
  sleep handle := local_bodyOf.bind fun body => local_putBody _

theorem removes : separation.Removes := by
  intro handle
  refine local_bodyOf.bind fun _ => .modify (fun w other hne => ?_) fun hagree => ?_
  · exact Prod.ext (Bodies.find?_erase_of_ne hne _) rfl
  · rintro _ rfl
    refine Prod.ext ?_ (Prod.mk.inj (hagree _ rfl)).2
    exact (Bodies.find?_erase_self ..).trans (Bodies.find?_erase_self ..).symm

end ScriptedWorld

/-! ## A world whose bodies lean on each other -/

/-- The world moved by hand, with bodies that lean on each other. -/
structure LeaningWorld where
  scripted : ScriptedWorld

namespace LeaningWorld

/-- What is done in the world moved by hand is done here. -/
def upon (a : Attempt ScriptedWorld α) : Attempt LeaningWorld α :=
  a.within scripted fun w _ => ⟨w⟩

/-- All bodies wake up. -/
def stir (w : ScriptedWorld) : ScriptedWorld :=
  { w with bodies := w.bodies.map fun body => (body.1, { body.2 with asleep := false }) }

/-- When a body is taken out, those that are left wake up. Nothing else is done to other bodies. -/
instance : World LeaningWorld where
  spawn kind tens motion := upon (World.spawn kind tens motion)
  remove handle := upon do
    World.remove handle
    modify stir
  step dt := upon (World.step dt)
  isSettled w := World.isSettled w.scripted
  face w := World.face w.scripted
  motion w := World.motion w.scripted
  damp handle factor := upon (World.damp handle factor)
  sleep handle := upon (World.sleep handle)
  handles w := World.handles w.scripted
  emptied w faces := ⟨World.emptied w.scripted faces⟩

theorem local_upon {body : ScriptedWorld → Nat → B} {handles : Set Nat} {a : Attempt ScriptedWorld α}
    (h : Local body handles a) : Local (fun w : LeaningWorld => body w.scripted) handles (upon a) where
  others w := h.others w.scripted
  answer hagree := h.answer hagree
  own hagree := h.own hagree

/-- Each handle has a body of its own here too. -/
def separation : World.Separation LeaningWorld where
  Body := ScriptedWorld.separation.Body
  body w := ScriptedWorld.separation.body w.scripted
  isSettled h := ScriptedWorld.separation.isSettled h
  face h := ScriptedWorld.separation.face h
  motion h := ScriptedWorld.separation.motion h
  damp handle factor := local_upon (ScriptedWorld.separation.damp handle factor)
  sleep handle := local_upon (ScriptedWorld.separation.sleep handle)

end LeaningWorld

end RollTray
