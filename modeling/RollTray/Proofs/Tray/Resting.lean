import RollTray.Proofs.Number.Floats
import RollTray.Proofs.Tray.Independence
import RollTray.Proofs.World.Slumber

/-!
# Dice that do not come to rest

After all dice were looked at, a die that has not settled rests with a face that cannot be read, has been
awake for less than the limit or sleeps (`Lingers`, `lingers_of_look` for one die). What is done about other
dice does not wake it up, as a body that rests is left alone (`body_of_resting`). A die that sleeps and shows
a face settles when the dice are looked at again (`pollDice_settles`). `rests_of_poll` is all of this for
every state of the dice. Only at an infinite time a die that woke up at that time is never put to sleep: the
difference of the two times is no number.
-/

namespace RollTray

/-! ## How long a die has been awake -/

namespace Die

/-- The time since when the die has been awake. -/
def awakeFrom? (d : Die) : Option Float := do
  (← d.awakeSince.num?).toFloat.toOption

/-- If the die is awake, it has been so since a time that is a number. -/
def Timed (d : Die) : Prop :=
  d.awakeSince.isNull = true ∨ ∃ since ∈ d.awakeFrom?, since.isNaN = false

instance (d : Die) : Decidable d.Timed :=
  inferInstanceAs (Decidable (_ ∨ _))

end Die

namespace Tray

variable {ω : Type} [World ω] {V : World.Separation ω} {p : Policy} {isFinal : Value → Bool}
  {now since : Float} {d : Die} {w w' : ω} {handle : Nat}

theorem calm_perform (h : d.awakeFrom? = some since) (w : ω) :
    (calm p now d).perform w = (p.nudge d.handle (.float (now - since))).perform w := by
  obtain ⟨n, hn, hsince⟩ := Option.bind_eq_some_iff.1 h
  have hnum : d.awakeSince.num = .ok n := by
    rw [Value.num, hn]
  have hsub : (Num.float now).sub n = .ok (.float (now - since)) := by
    cases n with
    | int n =>
      cases hfloat : (Num.int n).toFloat with
      | error fault =>
        rw [hfloat] at hsince
        cases hsince
      | ok x =>
        rw [hfloat] at hsince
        cases hsince
        exact bind_eq_ok.2 ⟨now, rfl, bind_eq_ok.2 ⟨_, hfloat, rfl⟩⟩
    | float x =>
      cases hsince
      rfl
  rw [calm, hnum]
  refine (Attempt.perform_bind_of_ok (Attempt.perform_lift (.ok n) w)).trans ?_
  rw [hsub]
  exact Attempt.perform_bind_of_ok (Attempt.perform_lift _ w)

/-- A die that moves has been awake since some time: since now, if it was not awake before. -/
theorem exists_awakeFrom (h : d.Timed) (hnow : now.isNaN = false) :
    ∃ since, (inFlight now d).awakeFrom? = some since ∧ since.isNaN = false := by
  have hinFlight : (inFlight now d).awakeSince =
      if d.awakeSince.isNull then .float now else d.awakeSince := rfl
  cases hnull : d.awakeSince.isNull with
  | true =>
    rw [hnull] at hinFlight
    exact ⟨now, by rw [Die.awakeFrom?, hinFlight]; rfl, hnow⟩
  | false =>
    rw [hnull] at hinFlight
    obtain hnull' | ⟨since, hsince, hnumber⟩ := h
    · rw [hnull] at hnull'
      cases hnull'
    · exact ⟨since, by rw [Die.awakeFrom?, hinFlight]; exact hsince, hnumber⟩

/-! ## What is seen of a die -/

/-- What is seen of a die, of one that rests and of one that does not. -/
theorem look_eq_ok {sight : Sight} (h : look p isFinal w d = .ok sight) :
    (p.atRest w d.handle = .ok true ∧ d.settled = true ∧ sight = .same) ∨
    (p.atRest w d.handle = .ok true ∧ d.settled = false ∧ ∃ face, World.face w d.handle = .ok face ∧
      sight = if face.isNull then .same else .settles face) ∨
    (p.atRest w d.handle = .ok false ∧ sight = if d.settled && isFinal d.roll then .same else .moves) := by
  obtain ⟨rests, hrests, h⟩ := bind_eq_ok.1 h
  cases rests with
  | true =>
    rw [if_pos rfl] at h
    cases hsettled : d.settled with
    | true =>
      rw [hsettled] at h
      cases h
      exact .inl ⟨hrests, rfl, rfl⟩
    | false =>
      rw [hsettled] at h
      obtain ⟨face, hface, h⟩ := bind_eq_ok.1 h
      cases h
      exact .inr (.inl ⟨hrests, rfl, face, hface, rfl⟩)
  | false =>
    cases h
    exact .inr (.inr ⟨hrests, rfl⟩)

/-- What is done about a die leaves a body that rests as it is. -/
theorem body_of_tend {sight : Sight} (hrests : p.atRest w handle = .ok true)
    (hlook : look p isFinal w d = .ok sight) (htend : (sight.tend p now d).perform w = (.ok (), w')) :
    V.body w' handle = V.body w handle := by
  by_cases heq : handle = d.handle
  · -- The die itself rests, so nothing is done about it.
    have hpure : (sight.tend p now d : Attempt ω Unit) = return () := by
      obtain ⟨_, _, rfl⟩ | ⟨_, _, face, _, rfl⟩ | ⟨hmoves, _⟩ := look_eq_ok hlook
      · rfl
      · cases face.isNull <;> rfl
      · rw [heq, hmoves] at hrests
        cases hrests
    rw [hpure] at htend
    cases htend
    rfl
  · have hothers := (tend_local (V := V) p now d sight).others w handle heq
    rwa [htend] at hothers

/-- Bodies that rest are left alone when dice are looked at. -/
theorem body_of_resting {dice dice' : List Die} {ids : List Value}
    (hrests : p.atRest w handle = .ok true) (h : pollDice p isFinal now dice w = (.ok ids, dice', w')) :
    V.body w' handle = V.body w handle := by
  induction dice generalizing w ids dice' with
  | nil =>
    cases h
    rfl
  | cons d rest ih =>
    obtain ⟨sight, w₁, later, dice₁, hlook, htend, hrest, -, -⟩ := pollDice_cons_eq_ok _ _ _ h
    have hbody : V.body w₁ handle = V.body w handle := body_of_tend hrests hlook htend
    have hrests₁ : p.atRest w₁ handle = .ok true := by
      rw [← hrests, Policy.atRest, Policy.atRest, V.isSettled hbody, V.motion hbody]
    exact (ih hrests₁ hrest).trans hbody

theorem atRest_of_isSettled (h : World.isSettled w handle = .ok true) : p.atRest w handle = .ok true := by
  rw [Policy.atRest, h]
  rfl

/-- A first die is looked at, and then the others. -/
theorem pollDice_cons {sight : Sight} {rest dice' : List Die} {w₁ : ω} {later : List Value}
    (hlook : look p isFinal w d = .ok sight) (htend : (sight.tend p now d).perform w = (.ok (), w₁))
    (hrest : pollDice p isFinal now rest w₁ = (.ok later, dice', w')) :
    pollDice p isFinal now (d :: rest) w =
      (.ok (sight.news d ++ later), sight.die now d :: dice', w') := by
  rw [pollDice, hlook]
  cases sight with
  | moves =>
    change (calm p now (inFlight now d)).perform w = _ at htend
    simp only [htend, hrest]
    rfl
  | _ =>
    cases htend
    simp only [hrest]
    rfl

/-- A die that sleeps and shows a face settles when the dice are looked at, whatever is done about others. -/
theorem pollDice_settles {dice dice' : List Die} {ids : List Value} {i : Nat} {face : Value}
    (V : World.Separation ω) (h : pollDice p isFinal now dice w = (.ok ids, dice', w'))
    (hd : dice[i]? = some d) (unsettled : d.settled = false)
    (asleep : World.isSettled w d.handle = .ok true) (hface : World.face w d.handle = .ok face)
    (shown : face.isNull = false) : dice'[i]? = some (settledOn face d) ∧ d.roll ∈ ids := by
  induction dice generalizing w ids dice' i with
  | nil => cases hd
  | cons first rest ih =>
    obtain ⟨sight, w₁, later, dice₁, hlook, htend, hrest, rfl, rfl⟩ := pollDice_cons_eq_ok _ _ _ h
    have hrests : p.atRest w d.handle = .ok true := atRest_of_isSettled asleep
    cases i with
    | zero =>
      obtain rfl : first = d := Option.some.inj hd
      have hsettles : look p isFinal w first = .ok (.settles face) := by
        rw [look, hrests, unsettled]
        exact bind_eq_ok.2 ⟨true, rfl, bind_eq_ok.2 ⟨face, hface, by rw [shown]; rfl⟩⟩
      cases hlook.symm.trans hsettles
      exact ⟨rfl, List.mem_cons_self ..⟩
    | succ i =>
      have hbody : V.body w₁ d.handle = V.body w d.handle := body_of_tend hrests hlook htend
      obtain ⟨hsettled, hnews⟩ := ih hrest hd (by rw [V.isSettled hbody, asleep]) (by rw [V.face hbody, hface])
      exact ⟨hsettled, List.mem_append_right _ hnews⟩

/-! ## After the dice were looked at -/

/-- Why a die may not have settled when all dice were looked at, where dice that are awake for the time
of a limit are put to sleep. -/
inductive Lingers (p : Policy) (limit : Num) (now : Float) (w : ω) (d : Die) : Prop where
  /-- It rests, and its face cannot be read. -/
  | unread (rests : p.atRest w d.handle = .ok true) (face : World.face w d.handle = .ok .null)
  /-- It has been awake for less than the limit. -/
  | awake (since : Float) (awake : d.awakeFrom? = some since) (below : (Num.float (now - since)).lt limit = true)
  /-- Its body sleeps. -/
  | asleep (h : World.isSettled w d.handle = .ok true)
  /-- The time is infinite, and the die woke up at that time. -/
  | timeless (infinite : now.isInf = true) (since : Float) (awake : d.awakeFrom? = some since)
      (same : (now == since) = true)

/-- It stays so while other dice are looked at. -/
theorem Lingers.after {limit : Num} {dice dice' : List Die} {ids : List Value} (V : World.Separation ω)
    (hd : Lingers p limit now w d) (h : pollDice p isFinal now dice w = (.ok ids, dice', w')) :
    Lingers p limit now w' d := by
  cases hd with
  | unread rests face =>
    have hbody : V.body w' d.handle = V.body w d.handle := body_of_resting rests h
    refine .unread ?_ ?_
    · rw [← rests, Policy.atRest, Policy.atRest, V.isSettled hbody, V.motion hbody]
    · rw [← face, V.face hbody]
  | awake since awake below => exact .awake since awake below
  | asleep asleep =>
    have hbody : V.body w' d.handle = V.body w d.handle := body_of_resting (atRest_of_isSettled asleep) h
    refine .asleep ?_
    rw [← asleep, V.isSettled hbody]
  | timeless infinite since awake same => exact .timeless infinite since awake same

section Poll

variable (Z : World.Slumber V) {c : Config} {limit : Float}

/-- A die that has been awake for some time is slowed down or put to sleep, which does not fail. -/
theorem nudge_perform (h : Z.Present (V.body w handle)) (awakeFor : Float) :
    ∃ w₁, ((Policy.ofConfig c).nudge handle (.float awakeFor)).perform w = (.ok (), w₁) ∧
      Z.Present (V.body w₁ handle) ∧
      ((Policy.ofConfig c).forcesSleep (.float awakeFor) = true → World.isSettled w₁ handle = .ok true) := by
  unfold Policy.nudge
  split
  · obtain ⟨w₁, hsleep, hpresent, hasleep⟩ := Z.sleep h
    exact ⟨w₁, hsleep, hpresent, fun _ => hasleep⟩
  · next hforces =>
    split
    · obtain ⟨w₁, hdamp, hpresent⟩ := Z.damp (c.dampingStep * (awakeFor - c.dampingAfter)) h
      exact ⟨w₁, hdamp, hpresent, fun hforced => absurd hforced hforces⟩
    · exact ⟨w, rfl, h, fun hforced => absurd hforced hforces⟩

/-- A body that is there can be looked at. -/
theorem exists_look (h : Z.Present (V.body w d.handle)) (p : Policy) (isFinal : Value → Bool) :
    ∃ sight, look p isFinal w d = .ok sight := by
  obtain ⟨asleep, hasleep⟩ := Z.isSettled h
  obtain ⟨m, hmotion, hmeasured⟩ := Z.motion h
  obtain ⟨slow, hslow⟩ := hmeasured.exists_isSlower p.linearThreshold p.angularThreshold
  obtain ⟨face, hface⟩ := Z.face h
  have hrests : p.atRest w d.handle = .ok (asleep || slow) := by
    rw [Policy.atRest, hasleep]
    cases asleep with
    | true => rfl
    | false => exact bind_eq_ok.2 ⟨false, rfl, bind_eq_ok.2 ⟨m, hmotion, hslow⟩⟩
  rw [look, hrests]
  cases hrest : asleep || slow with
  | false => exact ⟨_, rfl⟩
  | true =>
    cases hsettled : d.settled with
    | true => exact ⟨_, rfl⟩
    | false => exact ⟨_, bind_eq_ok.2 ⟨true, rfl, bind_eq_ok.2 ⟨face, hface, rfl⟩⟩⟩

/-- A die is looked at, and something is done about it. No body leaves the world. -/
theorem exists_tend (h : Z.Present (V.body w d.handle)) (timed : d.Timed) (hnow : now.isNaN = false)
    (isFinal : Value → Bool) :
    ∃ sight w₁, look (.ofConfig c) isFinal w d = .ok sight ∧
      (sight.tend (.ofConfig c) now d).perform w = (.ok (), w₁) ∧
      ∀ handle, Z.Present (V.body w handle) → Z.Present (V.body w₁ handle) := by
  obtain ⟨sight, hlook⟩ := exists_look Z h (.ofConfig c) isFinal
  cases sight with
  | same => exact ⟨.same, w, hlook, rfl, fun _ h => h⟩
  | settles face => exact ⟨.settles face, w, hlook, rfl, fun _ h => h⟩
  | moves =>
    obtain ⟨since, hsince, -⟩ := exists_awakeFrom timed hnow
    obtain ⟨w₁, hnudge, hpresent, -⟩ := nudge_perform Z (c := c) h (now - since)
    have htend : (Sight.moves.tend (.ofConfig c) now d).perform w = (.ok (), w₁) :=
      (calm_perform hsince w).trans hnudge
    refine ⟨.moves, w₁, hlook, htend, fun handle hhandle => ?_⟩
    by_cases heq : handle = d.handle
    · exact heq ▸ hpresent
    · have hothers := (tend_local (V := V) (.ofConfig c) now d .moves).others w handle heq
      rw [htend] at hothers
      rwa [hothers]

/-- A die that was looked at and has not settled has a reason for that. -/
theorem lingers_of_look (set : c.forceSleepAfter = some limit) (hlimit : limit.isNaN = false)
    (hnow : now.isNaN = false) (h : Z.Present (V.body w d.handle)) (timed : d.Timed) {sight : Sight}
    (hlook : look (.ofConfig c) isFinal w d = .ok sight)
    (htend : (sight.tend (.ofConfig c) now d).perform w = (.ok (), w'))
    (unsettled : (sight.die now d).settled = false) :
    Lingers (.ofConfig c) (.float limit) now w' (sight.die now d) := by
  obtain ⟨_, hsettled, rfl⟩ | ⟨hrests, hsettled, face, hface, rfl⟩ | ⟨_, rfl⟩ := look_eq_ok hlook
  · exact absurd unsettled (by rw [Sight.die, hsettled]; nofun)
  · cases hnull : face.isNull with
    | true =>
      rw [hnull] at htend
      cases htend
      obtain rfl := Value.isNull_iff.1 hnull
      exact .unread hrests hface
    | false =>
      rw [hnull] at unsettled
      cases unsettled
  · cases hfinal : d.settled && isFinal d.roll with
    | true =>
      rw [hfinal] at unsettled
      rw [show d.settled = false from unsettled] at hfinal
      cases hfinal
    | false =>
      rw [hfinal] at htend
      obtain ⟨since, hsince, hnumber⟩ := exists_awakeFrom timed hnow
      obtain ⟨w₁, hnudge, -, hforced⟩ := nudge_perform Z (c := c) h (now - since)
      cases ((calm_perform hsince w).trans hnudge).symm.trans htend
      have hforces : (Policy.ofConfig c).forcesSleep (.float (now - since)) =
          (Num.float limit).le (.float (now - since)) := by
        rw [Policy.forcesSleep, show (Policy.ofConfig c).forceSleepAfter = some (.float limit) by
          rw [Policy.ofConfig, set]; rfl]
      cases hlong : (Num.float limit).le (.float (now - since)) with
      | true => exact .asleep (hforced (hforces.trans hlong))
      | false =>
        cases hnan : (now - since).isNaN with
        | true =>
          obtain ⟨hinfinite, hsame⟩ := (isNaN_sub_iff hnow hnumber).1 hnan
          exact .timeless hinfinite since hsince hsame
        | false =>
          rw [← Num.isNaN_float] at hlimit hnan
          exact .awake since hsince (Num.lt_of_not_le hlimit hnan hlong)

/-- Dice whose bodies are there can be looked at, and those that have not settled then have a reason for it. -/
theorem lingers_of_poll (set : c.forceSleepAfter = some limit) (hlimit : limit.isNaN = false)
    (hnow : now.isNaN = false) (isFinal : Value → Bool) {dice : List Die}
    (present : ∀ d ∈ dice, Z.Present (V.body w d.handle)) (timed : ∀ d ∈ dice, d.Timed) :
    ∃ ids dice' w', pollDice (.ofConfig c) isFinal now dice w = (.ok ids, dice', w') ∧
      ∀ d ∈ dice', d.settled = false → Lingers (.ofConfig c) (.float limit) now w' d := by
  induction dice generalizing w with
  | nil => exact ⟨[], [], w, rfl, fun _ h => nomatch h⟩
  | cons d rest ih =>
    obtain ⟨hpresent, hothers⟩ := List.forall_mem_cons.1 present
    obtain ⟨htimed, hlater⟩ := List.forall_mem_cons.1 timed
    obtain ⟨sight, w₁, hlook, htend, hstay⟩ := exists_tend Z (c := c) hpresent htimed hnow isFinal
    obtain ⟨ids, dice', w', hrest, hlingers⟩ := ih (fun d hd => hstay _ (hothers d hd)) hlater
    refine ⟨_, _, w', pollDice_cons hlook htend hrest, fun d' hd' unsettled => ?_⟩
    rcases List.mem_cons.1 hd' with rfl | hd'
    · exact (lingers_of_look Z set hlimit hnow hpresent htimed hlook htend unsettled).after V hrest
    · exact hlingers d' hd' unsettled

/-- Let dice that have been awake for the time of a limit be put to sleep, in a world in which a body that is
put to sleep sleeps, and let neither the time nor the limit nor a time since when a die has been awake be no
number. Then the dice can be looked at, and each that has not settled rests with a face that cannot be read,
has been awake for less than the limit or sleeps, unless the time is infinite and the die woke up at that
time. A die that sleeps and shows a face settles on it when it is looked at again, among whatever dice, if
nothing was done to its body; it is not awake any more then. -/
theorem rests_of_poll (set : c.forceSleepAfter = some limit) (hlimit : limit.isNaN = false)
    (hnow : now.isNaN = false) (isFinal : Value → Bool) {dice : List Die}
    (present : ∀ d ∈ dice, Z.Present (V.body w d.handle)) (timed : ∀ d ∈ dice, d.Timed) :
    ∃ ids dice' w', pollDice (.ofConfig c) isFinal now dice w = (.ok ids, dice', w') ∧
      (∀ d ∈ dice', d.settled = false → Lingers (.ofConfig c) (.float limit) now w' d) ∧
      ∀ d ∈ dice', d.settled = false → World.isSettled w' d.handle = .ok true →
        ∀ face, World.face w' d.handle = .ok face → face.isNull = false →
        ∀ (isFinal' : Value → Bool) (now' : Float) (among : List Die) (i : Nat) (w₁ : ω),
          now'.isNaN = false → (∀ d ∈ among, Z.Present (V.body w₁ d.handle)) → (∀ d ∈ among, d.Timed) →
          among[i]? = some d → V.body w₁ d.handle = V.body w' d.handle →
          ∃ ids' among' w₂, pollDice (.ofConfig c) isFinal' now' among w₁ = (.ok ids', among', w₂) ∧
            among'[i]? = some (settledOn face d) ∧ d.roll ∈ ids' := by
  obtain ⟨ids, dice', w', hpoll, hlingers⟩ := lingers_of_poll Z set hlimit hnow isFinal present timed
  refine ⟨ids, dice', w', hpoll, hlingers, ?_⟩
  intro d _ unsettled asleep face hface shown isFinal' now' among i w₁ hnow' present' timed' hd hbody
  obtain ⟨ids', among', w₂, hpoll', -⟩ := lingers_of_poll Z set hlimit hnow' isFinal' present' timed'
  exact ⟨ids', among', w₂, hpoll', pollDice_settles V hpoll' hd unsettled
    (by rw [V.isSettled hbody, asleep]) (by rw [V.face hbody, hface]) shown⟩

end Poll

/-- The default policy puts the die to sleep that has been awake for 23 seconds. Its body shows a face, so a
second later the die has settled on it. -/
theorem rests_when_crowded :
    ∃ ids dice w, pollDice (.ofConfig {}) (fun _ => false) 20 crowded.dice crowded.world = (.ok ids, dice, w) ∧
      (∀ d ∈ dice, d.settled = false → Lingers (.ofConfig {}) (.float 10) 20 w d) ∧
      ∃ d ∈ dice, d.settled = false ∧ World.isSettled w d.handle = .ok true ∧
        ∃ face ids' dice' w', pollDice (.ofConfig {}) (fun _ => false) 21 dice w = (.ok ids', dice', w') ∧
          dice'[2]? = some (settledOn face d) ∧ d.roll ∈ ids' := by
  have hpresent : ∀ d ∈ crowded.dice, ScriptedWorld.Present (crowded.world.bodyAt d.handle) := by
    decide +kernel
  obtain ⟨ids, dice, w, hpoll, hlingers, hnext⟩ :=
    rests_of_poll ScriptedWorld.slumber (rfl : ({} : Config).forceSleepAfter = some 10) (by decide +kernel)
      (by decide +kernel : (20 : Float).isNaN = false) (fun _ => false) hpresent (by decide +kernel)
  have hafter : ∀ result, pollDice (.ofConfig {}) (fun _ => false) 20 crowded.dice crowded.world = result →
      (∀ d ∈ result.2.1, ScriptedWorld.Present (result.2.2.bodyAt d.handle) ∧ d.Timed) ∧
      ∃ d ∈ result.2.1[2]?, d.settled = false ∧
        (World.isSettled result.2.2 d.handle).toOption = some true ∧
        ∃ face ∈ (World.face result.2.2 d.handle).toOption, face.isNull = false := by
    rintro _ rfl
    decide +kernel
  obtain ⟨hready, d, hd, hunsettled, hasleep, face, hface, hshown⟩ := hafter _ hpoll
  have hsettled : World.isSettled w d.handle = .ok true := toOption_eq_some.1 hasleep
  have hread : World.face w d.handle = .ok face := toOption_eq_some.1 hface
  have hmem : d ∈ dice := List.mem_of_getElem? hd
  refine ⟨ids, dice, w, hpoll, hlingers, d, hmem, hunsettled, hsettled, face, ?_⟩
  exact hnext d hmem hunsettled hsettled face hread hshown (fun _ => false) 21 dice 2 w (by decide +kernel)
    (fun d hd => (hready d hd).1) (fun d hd => (hready d hd).2) hd rfl

end Tray

end RollTray
