import RollTray.Proofs.World.Faces

/-!
# What is done to bodies

Into the simulated world dice are put and out of it they are taken, time passes, and single bodies are
slowed down, put to sleep and knocked over (`Treatment`). What can become of a body in one treatment is
said once, one case for each way in which a body changes (`Fate`, `fate`); all that follows is read off
it. A treatment leaves all bodies but one as they are, unless it lets time pass (`find?_leaves_of_ne`). In a
world that was empty at first, and after any treatments, a body that sleeps does not move and time leaves
it as it is, it wakes up and shows another face only if it is knocked over, and no handle is issued twice
(`sleeps_until_disturbed`).
-/

namespace RollTray

/-- Unless it is awake, the body does not move. -/
def SimulatedBody.Restful (body : SimulatedBody) : Prop :=
  body.asleep = true →
    body.motion.velocity = Motion.zeroVector ∧ body.motion.angularVelocity = Motion.zeroVector

namespace SimulatedWorld

/-- What can be done to a simulated world. -/
inductive Treatment where
  | spawn (kind tens : Value) (motion : Option Motion)
  | step (dt : Num)
  | damp (handle : Nat) (factor : Num)
  | sleep (handle : Nat)
  | disturb (handle : Nat) (velocity angularVelocity : List Value)
  | remove (handle : Nat)

namespace Treatment

/-- The world that it leaves, whether it succeeds or not. -/
def leaves : Treatment → SimulatedWorld → SimulatedWorld
  | spawn kind tens motion, w => ((World.spawn kind tens motion).perform w).2
  | step dt, w => ((World.step dt).perform w).2
  | damp handle factor, w => ((World.damp handle factor).perform w).2
  | sleep handle, w => ((World.sleep handle).perform w).2
  | disturb handle velocity angularVelocity, w =>
    ((SimulatedWorld.disturb handle velocity angularVelocity).perform w).2
  | remove handle, w => ((World.remove handle).perform w).2

/-- The handle that it issues. -/
def issued? : Treatment → SimulatedWorld → Option Nat
  | spawn kind tens motion, w => ((World.spawn kind tens motion).perform w).1.toOption
  | _, _ => none

/-- The handle of the one body that it is about; time passes for all of them. -/
def target? : Treatment → SimulatedWorld → Option Nat
  | spawn .., w => some w.nextHandle
  | step _, _ => none
  | damp handle _, _ | sleep handle, _ | disturb handle .., _ | remove handle, _ => some handle

end Treatment

/-- The world after some treatments, one after the other, whether they succeed or not. -/
def after (w : SimulatedWorld) (treatments : List Treatment) : SimulatedWorld :=
  treatments.foldl (fun w treatment => treatment.leaves w) w

/-- The handles that are issued in some treatments, one after the other. -/
def issues : SimulatedWorld → List Treatment → List Nat
  | _, [] => []
  | w, treatment :: rest => (treatment.issued? w).toList ++ (treatment.leaves w).issues rest

/-! ## One treatment -/

/-- What can become of the body of a handle, where there is one, in a treatment of the world. -/
inductive Fate (w : SimulatedWorld) (handle : Nat) :
    Treatment → Option SimulatedBody → Option SimulatedBody → Prop where
  | same {treatment found} : Fate w handle treatment found found
  | entered {kind tens motion body} (awake : body.asleep = false)
      (issued : (Treatment.spawn kind tens motion).issued? w = some handle) :
      Fate w handle (.spawn kind tens motion) none (some body)
  | moved {dt body motion} (awake : body.asleep = false)
      (flown : flown dt body.damping body.motion = .ok motion) :
      Fate w handle (.step dt) (some body) (some { body with motion })
  | tired {dt body motion} (awake : body.asleep = false)
      (flown : flown dt body.damping body.motion = .ok motion) :
      Fate w handle (.step dt) (some body) (some (rested w.damping { body with motion }))
  | slowed {factor body damping} (sum : w.damping.add factor = .ok damping) :
      Fate w handle (.damp handle factor) (some body) (some { body with damping })
  | laid {body} : Fate w handle (.sleep handle) (some body) (some (rested w.damping body))
  /-- The body wakes up, but no face can be drawn for it. -/
  | woken {velocity angularVelocity body fault}
      (undrawn : ((Motion.drawFace body.kind body.tens).perform w.chance).1 = .error fault) :
      Fate w handle (.disturb handle velocity angularVelocity) (some body)
        (some { body with asleep := false })
  | knocked {velocity angularVelocity body face}
      (drawn : ((Motion.drawFace body.kind body.tens).perform w.chance).1 = .ok face) :
      Fate w handle (.disturb handle velocity angularVelocity) (some body)
        (some { body with
          asleep := false
          face
          motion := { body.motion with velocity, angularVelocity } })
  | taken {found} : Fate w handle (.remove handle) found none

variable {w : SimulatedWorld} {treatment : Treatment} {treatments : List Treatment} {handle : Nat}
  {found found' : Option SimulatedBody} {body body' : SimulatedBody}

/-- Where one body is changed, the others are left as they are. -/
theorem Fate.of_set {target : Nat} {old : SimulatedBody}
    (hold : Bodies.find? target w.bodies = some old)
    (h : Fate w target treatment (some old) (some body)) :
    Fate w handle treatment (Bodies.find? handle w.bodies)
      (Bodies.find? handle (w.bodies.set target body)) := by
  by_cases heq : handle = target
  · subst heq
    rw [Bodies.find?_set_self hold, hold]
    exact h
  · rw [Bodies.find?_set_of_ne heq]
    exact .same

theorem fate_spawn (kind tens : Value) (motion : Option Motion) :
    Fate w handle (.spawn kind tens motion) (Bodies.find? handle w.bodies)
      (Bodies.find? handle ((Treatment.spawn kind tens motion).leaves w).bodies) := by
  rw [Treatment.leaves]
  obtain ⟨chance, ⟨fault, next, _, hperform⟩ | ⟨body, ⟨hawake, _⟩, hperform⟩⟩ :=
    spawn_cases w kind tens motion
  · rw [hperform]
    exact .same
  · have hissued : (Treatment.spawn kind tens motion).issued? w = some w.nextHandle := by
      rw [Treatment.issued?, hperform]
      rfl
    rw [hperform]
    cases hfind : Bodies.find? handle w.bodies with
    | some old =>
      rw [Bodies.find?_append_of_some hfind]
      exact .same
    | none =>
      by_cases heq : handle = w.nextHandle
      · subst heq
        have hnot : w.nextHandle ∉ w.bodies.handles := fun hmem => by
          rw [← Bodies.find?_isSome_iff, hfind] at hmem
          cases hmem
        rw [Bodies.find?_append_self hnot]
        exact .entered hawake hissued
      · rw [Bodies.find?_append_of_ne heq, hfind]
        exact .same

/-- What becomes of each body in each treatment. -/
theorem fate (w : SimulatedWorld) (treatment : Treatment) (handle : Nat) :
    Fate w handle treatment (Bodies.find? handle w.bodies)
      (Bodies.find? handle (treatment.leaves w).bodies) := by
  cases treatment with
  | spawn kind tens motion => exact fate_spawn kind tens motion
  | step dt =>
    show Fate w handle _ _ (Bodies.find? handle (w.stepBodies dt w.bodies).2)
    obtain hsame | ⟨body, body', hbody, hstep, hbody'⟩ := find?_stepBodies_cases w dt w.bodies handle
    · rw [hsame]
      exact .same
    · rw [hbody, hbody']
      obtain rfl | ⟨hawake, motion, hflown, rfl | rfl⟩ := stepBody_cases hstep
      · exact .same
      · exact .moved hawake hflown
      · exact .tired hawake hflown
  | damp target factor =>
    rw [Treatment.leaves, damp_perform]
    cases hsum : w.damping.add factor with
    | error fault => exact .same
    | ok damping =>
      cases hget : w.bodies.get target with
      | error fault => exact .same
      | ok body => exact .of_set (Bodies.get_eq_ok.1 hget) (.slowed hsum)
  | sleep target =>
    rw [Treatment.leaves, sleep_perform]
    cases hget : w.bodies.get target with
    | error fault => exact .same
    | ok body => exact .of_set (Bodies.get_eq_ok.1 hget) .laid
  | disturb target velocity angularVelocity =>
    rw [Treatment.leaves, disturb_perform]
    cases hget : w.bodies.get target with
    | error fault => exact .same
    | ok body =>
      dsimp only
      rcases hdraw : (Motion.drawFace body.kind body.tens).perform w.chance with ⟨fault | face, chance⟩
      · exact .of_set (Bodies.get_eq_ok.1 hget) (.woken (congrArg Prod.fst hdraw))
      · exact .of_set (Bodies.get_eq_ok.1 hget) (.knocked (congrArg Prod.fst hdraw))
  | remove target =>
    show Fate w handle _ _ (Bodies.find? handle (w.bodies.erase target))
    by_cases heq : handle = target
    · subst heq
      rw [Bodies.find?_erase_self]
      exact .taken
    · rw [Bodies.find?_erase_of_ne heq]
      exact .same

theorem fate_of_find? (h : Bodies.find? handle w.bodies = found)
    (h' : Bodies.find? handle (treatment.leaves w).bodies = found') : Fate w handle treatment found found' := by
  rw [← h, ← h']
  exact fate w treatment handle

/-- A handle that is issued is the next one, and used up. -/
theorem nextHandle_of_issued (h : treatment.issued? w = some handle) :
    handle = w.nextHandle ∧ (treatment.leaves w).nextHandle = handle + 1 := by
  cases treatment with
  | spawn kind tens motion =>
    rw [Treatment.issued?] at h
    rw [Treatment.leaves]
    obtain ⟨chance, ⟨fault, next, _, hperform⟩ | ⟨body, _, hperform⟩⟩ := spawn_cases w kind tens motion <;>
      rw [hperform] at h ⊢ <;> cases h
    exact ⟨rfl, rfl⟩
  | _ => cases h

theorem nextHandle_le_leaves (w : SimulatedWorld) (treatment : Treatment) :
    w.nextHandle ≤ (treatment.leaves w).nextHandle := by
  cases treatment with
  | spawn kind tens motion =>
    rw [Treatment.leaves]
    obtain ⟨chance, ⟨fault, next, hle, hperform⟩ | ⟨body, _, hperform⟩⟩ := spawn_cases w kind tens motion <;>
      rw [hperform]
    · exact hle
    · exact Nat.le_succ _
  | step dt => exact Nat.le_refl _
  | damp target factor => exact Nat.le_of_eq (sameGuises_damp target factor).nextHandle.symm
  | sleep target => exact Nat.le_of_eq (sameGuises_sleep target).nextHandle.symm
  | disturb target velocity angularVelocity => exact Nat.le_of_eq (face_disturb target velocity angularVelocity).1.symm
  | remove target => exact Nat.le_refl _

namespace Fate

/-- Only the body that a treatment is about changes. -/
theorem eq_of_ne (h : Fate w handle treatment found found') {target : Nat}
    (htarget : treatment.target? w = some target) (hne : handle ≠ target) : found' = found := by
  cases h with
  | same => rfl
  | entered _ issued =>
    cases htarget
    exact absurd (nextHandle_of_issued issued).1 hne
  | moved | tired => cases htarget
  | slowed | laid | woken | knocked | taken =>
    cases htarget
    exact absurd rfl hne

/-- A body that sleeps is the same when time has passed. -/
theorem eq_of_step {dt : Num} (h : Fate w handle (.step dt) (some body) found')
    (asleep : body.asleep = true) : found' = some body := by
  cases h with
  | same => rfl
  | moved awake | tired awake => cases asleep.symm.trans awake

/-- A body that is not knocked over keeps its face, and sleeps on if it sleeps. -/
theorem undisturbed (h : Fate w handle treatment (some body) (some body'))
    (hnot : ∀ velocity angularVelocity, treatment ≠ .disturb handle velocity angularVelocity) :
    body'.face = body.face ∧ (body.asleep = true → body'.asleep = true) := by
  cases h with
  | same | moved | slowed => exact ⟨rfl, fun asleep => asleep⟩
  | tired | laid => exact ⟨rfl, fun _ => rfl⟩
  | woken | knocked => exact absurd rfl (hnot _ _)

theorem restful (h : Fate w handle treatment found (some body')) (hfound : ∀ body ∈ found, body.Restful) :
    body'.Restful := by
  cases h with
  | same => exact hfound _ rfl
  | entered awake | moved awake => exact fun asleep => nomatch asleep.symm.trans awake
  | slowed =>
    have hbody := hfound _ rfl
    exact hbody
  | tired | laid => exact fun _ => ⟨rfl, rfl⟩
  | woken | knocked => exact nofun

/-- A body comes only under the handle that is issued for it. -/
theorem issued (h : Fate w handle treatment none (some body)) : treatment.issued? w = some handle := by
  cases h with
  | entered _ issued => exact issued

end Fate

/-- What is done to one body leaves the others as they are. -/
theorem find?_leaves_of_ne {target : Nat} (h : treatment.target? w = some target) (hne : handle ≠ target) :
    Bodies.find? handle (treatment.leaves w).bodies = Bodies.find? handle w.bodies :=
  (fate w treatment handle).eq_of_ne h hne

/-- Whether a face can be drawn for it or not, a body that is knocked over is awake. -/
theorem awake_of_disturb (hbody : Bodies.find? handle w.bodies = some body)
    (velocity angularVelocity : List Value) :
    ∃ body', Bodies.find? handle ((Treatment.disturb handle velocity angularVelocity).leaves w).bodies =
      some body' ∧ body'.asleep = false := by
  rw [Treatment.leaves, disturb_perform, Bodies.get_eq_ok.2 hbody]
  dsimp only
  rcases (Motion.drawFace body.kind body.tens).perform w.chance with ⟨fault | face, chance⟩ <;>
    exact ⟨_, Bodies.find?_set_self hbody _, rfl⟩

/-! ## Many treatments -/

/-- All bodies have handles below the next one, and move only if they are awake. -/
structure Peaceful (w : SimulatedWorld) : Prop where
  below : ∀ {handle body}, Bodies.find? handle w.bodies = some body → handle < w.nextHandle
  restful : ∀ {handle body}, Bodies.find? handle w.bodies = some body → body.Restful

theorem peaceful_of_empty (h : w.bodies = []) : w.Peaceful where
  below hbody := by
    rw [h] at hbody
    cases hbody
  restful hbody := by
    rw [h] at hbody
    cases hbody

theorem Peaceful.leaves (h : w.Peaceful) (treatment : Treatment) : (treatment.leaves w).Peaceful where
  below {handle body'} hbody' := by
    cases hfound : Bodies.find? handle w.bodies with
    | some body => exact Nat.lt_of_lt_of_le (h.below hfound) (nextHandle_le_leaves w treatment)
    | none =>
      have hissued := (fate_of_find? hfound hbody').issued
      rw [(nextHandle_of_issued hissued).2]
      exact Nat.lt_succ_self handle
  restful hbody' := (fate_of_find? rfl hbody').restful fun _ hfound => h.restful hfound

theorem Peaceful.after (h : w.Peaceful) (treatments : List Treatment) : (w.after treatments).Peaceful := by
  induction treatments generalizing w with
  | nil => exact h
  | cons treatment rest ih => exact ih (h.leaves treatment)

/-- No body comes under a handle that was passed over. -/
theorem find?_after_eq_none (hfound : Bodies.find? handle w.bodies = none) (hlt : handle < w.nextHandle)
    (treatments : List Treatment) : Bodies.find? handle (w.after treatments).bodies = none := by
  induction treatments generalizing w with
  | nil => exact hfound
  | cons treatment rest ih =>
    refine ih ?_ (Nat.lt_of_lt_of_le hlt (nextHandle_le_leaves w treatment))
    cases hleft : Bodies.find? handle (treatment.leaves w).bodies with
    | none => rfl
    | some body =>
      have hissued := (fate_of_find? hfound hleft).issued
      exact absurd (nextHandle_of_issued hissued).1 (Nat.ne_of_lt hlt)

/-- A body that is not knocked over in any treatment keeps its face, and sleeps on if it sleeps. -/
theorem undisturbed_after (hbody : Bodies.find? handle w.bodies = some body) (hlt : handle < w.nextHandle)
    (hnot : ∀ velocity angularVelocity, .disturb handle velocity angularVelocity ∉ treatments)
    (hbody' : Bodies.find? handle (w.after treatments).bodies = some body') :
    body'.face = body.face ∧ (body.asleep = true → body'.asleep = true) := by
  induction treatments generalizing w body with
  | nil =>
    cases hbody.symm.trans hbody'
    exact ⟨rfl, fun asleep => asleep⟩
  | cons treatment rest ih =>
    have hlater : handle < (treatment.leaves w).nextHandle :=
      Nat.lt_of_lt_of_le hlt (nextHandle_le_leaves w treatment)
    cases hleft : Bodies.find? handle (treatment.leaves w).bodies with
    | none =>
      -- A body that was taken out does not come back, as its handle is not issued again.
      cases (find?_after_eq_none hleft hlater rest).symm.trans hbody'
    | some between =>
      obtain ⟨hface, hasleep⟩ := (fate_of_find? hbody hleft).undisturbed fun velocity angularVelocity heq =>
        hnot velocity angularVelocity (heq ▸ List.mem_cons_self ..)
      obtain ⟨hface', hasleep'⟩ :=
        ih hleft hlater (fun _ _ hmem => hnot _ _ (List.mem_cons_of_mem _ hmem)) hbody'
      exact ⟨hface'.trans hface, fun asleep => hasleep' (hasleep asleep)⟩

/-! ## Handles -/

theorem nextHandle_le_of_mem_issues (h : handle ∈ w.issues treatments) : w.nextHandle ≤ handle := by
  induction treatments generalizing w with
  | nil => cases h
  | cons treatment rest ih =>
    rcases List.mem_append.1 h with hissued | hlater
    · exact Nat.le_of_eq (nextHandle_of_issued (Option.mem_toList.1 hissued)).1.symm
    · exact Nat.le_trans (nextHandle_le_leaves w treatment) (ih hlater)

/-- Handles are issued in ascending order. -/
theorem pairwise_issues (w : SimulatedWorld) (treatments : List Treatment) :
    (w.issues treatments).Pairwise (· < ·) := by
  induction treatments generalizing w with
  | nil => exact .nil
  | cons treatment rest ih =>
    rw [issues]
    cases hissued : treatment.issued? w with
    | none => exact ih _
    | some handle =>
      refine List.pairwise_cons.2 ⟨fun later hlater => ?_, ih _⟩
      have hle := nextHandle_le_of_mem_issues hlater
      rw [(nextHandle_of_issued hissued).2] at hle
      exact hle

/-- The bodies that have come have the handles that were issued. -/
theorem mem_issues_of_find? (hfound : Bodies.find? handle w.bodies = none)
    (hbody : Bodies.find? handle (w.after treatments).bodies = some body) :
    handle ∈ w.issues treatments := by
  induction treatments generalizing w with
  | nil => cases hfound.symm.trans hbody
  | cons treatment rest ih =>
    rw [issues, List.mem_append]
    cases hleft : Bodies.find? handle (treatment.leaves w).bodies with
    | none => exact .inr (ih hleft hbody)
    | some between => exact .inl (Option.mem_toList.2 (fate_of_find? hfound hleft).issued)

/-! ## Worlds that were empty at first -/

/-- In a world that was empty at first, and after any treatments, which may have failed, each body has a
handle that was issued, and no handle was issued twice. A body that sleeps has no speed and no spin, and it
is just the same when time has passed. One that is knocked over is awake. If later on a body that slept is
awake, or one shows another face, it was knocked over in between. What is done to one body, or to put
one into the world, leaves all others as they are. -/
theorem sleeps_until_disturbed (empty : w.bodies = []) (past : List Treatment) :
    (∀ handle body, Bodies.find? handle (w.after past).bodies = some body →
      handle ∈ w.issues past ∧
      (body.asleep = true → body.motion.velocity = Motion.zeroVector ∧
        body.motion.angularVelocity = Motion.zeroVector ∧
        ∀ dt, Bodies.find? handle ((Treatment.step dt).leaves (w.after past)).bodies = some body) ∧
      (∀ velocity angularVelocity, ∃ body', Bodies.find? handle
        ((Treatment.disturb handle velocity angularVelocity).leaves (w.after past)).bodies = some body' ∧
          body'.asleep = false) ∧
      ∀ future body', Bodies.find? handle ((w.after past).after future).bodies = some body' →
        body.asleep = true ∧ body'.asleep = false ∨ body'.face ≠ body.face →
          ∃ velocity angularVelocity, Treatment.disturb handle velocity angularVelocity ∈ future) ∧
    (∀ treatment target, Treatment.target? treatment (w.after past) = some target → ∀ other, other ≠ target →
      Bodies.find? other (treatment.leaves (w.after past)).bodies =
        Bodies.find? other (w.after past).bodies) ∧
    (w.issues past).Nodup := by
  have hpeaceful := (peaceful_of_empty empty).after past
  refine ⟨fun handle body hbody => ⟨?_, fun asleep => ?_, awake_of_disturb hbody, ?_⟩,
    fun treatment target htarget other hne => find?_leaves_of_ne htarget hne,
    (pairwise_issues w past).imp Nat.ne_of_lt⟩
  · refine mem_issues_of_find? ?_ hbody
    rw [empty]
    rfl
  · obtain ⟨hvelocity, hspin⟩ := hpeaceful.restful hbody asleep
    exact ⟨hvelocity, hspin, fun dt => (fate_of_find? hbody rfl).eq_of_step asleep⟩
  · intro future body' hbody' hchanged
    by_contra hnot
    obtain ⟨hface, hasleep⟩ := undisturbed_after hbody (hpeaceful.below hbody)
      (fun velocity angularVelocity hmem => hnot ⟨velocity, angularVelocity, hmem⟩) hbody'
    rcases hchanged with ⟨asleep, awake⟩ | hother
    · cases (hasleep asleep).symm.trans awake
    · exact hother hface

/-- An empty world in which the first face that is drawn is the lowest one and later faces are high. -/
def emptyWorld : SimulatedWorld := { chance := { tape := #[0, 0.9, 0.9] } }

/-- A die that rolls over the floor comes, then one that is no die and another one that lies still, and the
first is put to sleep. -/
def firstRun : List Treatment :=
  let rolling := { Motion.still with velocity := Motion.vector [4, 0, 0], angularVelocity := knockSpin }
  [.spawn (.text "d6") (.bool false) (some rolling), .spawn (.text "die") (.bool false) (some rolling),
    .spawn (.text "d20") (.bool false) (some .still), .sleep 0, .damp 0 (.float 2)]

/-- Time passes, the first die is knocked over, and the other one is taken away. -/
def laterRun : List Treatment :=
  [.step (.float 1), .disturb 0 (Motion.vector [3, 0, 0]) knockSpin, .remove 2]

theorem sleeps_after_firstRun :
    ∃ body body', Bodies.find? 0 (emptyWorld.after firstRun).bodies = some body ∧
      body.asleep = true ∧ body.face = 1 ∧
      body.motion.velocity = Motion.zeroVector ∧ body.motion.angularVelocity = Motion.zeroVector ∧
      Bodies.find? 0 ((Treatment.step (.float 1)).leaves (emptyWorld.after firstRun)).bodies = some body ∧
      Bodies.find? 0 ((emptyWorld.after firstRun).after laterRun).bodies = some body' ∧
      body'.asleep = false ∧ body'.face = 6 ∧
      (∃ velocity angularVelocity, Treatment.disturb 0 velocity angularVelocity ∈ laterRun) ∧
      Bodies.find? 2 ((Treatment.sleep 0).leaves (emptyWorld.after firstRun)).bodies =
        Bodies.find? 2 (emptyWorld.after firstRun).bodies ∧
      emptyWorld.issues firstRun = [0, 2] ∧ (emptyWorld.issues firstRun).Nodup := by
  obtain ⟨hbodies, hothers, hnodup⟩ := sleeps_until_disturbed (w := emptyWorld) rfl firstRun
  obtain ⟨body, hbody, asleep, hface⟩ : ∃ body ∈ Bodies.find? 0 (emptyWorld.after firstRun).bodies,
      body.asleep = true ∧ body.face = 1 := by
    decide +kernel
  obtain ⟨body', hbody', awake, hface'⟩ :
      ∃ body' ∈ Bodies.find? 0 ((emptyWorld.after firstRun).after laterRun).bodies,
        body'.asleep = false ∧ body'.face = 6 := by
    decide +kernel
  obtain ⟨_, hsleeps, _, hchanged⟩ := hbodies 0 body hbody
  obtain ⟨hvelocity, hspin, hstep⟩ := hsleeps asleep
  exact ⟨body, body', hbody, asleep, hface, hvelocity, hspin, hstep _, hbody', awake, hface',
    hchanged laterRun body' hbody' (.inl ⟨asleep, awake⟩), hothers (.sleep 0) 0 rfl 2 (by decide),
    by decide +kernel, hnodup⟩

end SimulatedWorld

end RollTray
