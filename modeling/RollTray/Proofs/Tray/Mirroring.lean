import RollTray.Proofs.Tray.Keeping
import RollTray.Proofs.Tray.Reentry
import RollTray.Proofs.World.Housing
import RollTray.Tray.Snapshot

/-!
# Worlds that a tray cannot tell apart

The dice on a tray are the bodies of its world, each once (`Housing.Houses`). All that is done with the
tray leaves it so, whatever comes of it, and is the same in any world that differs only in what it does
about handles without bodies (`World.Twin`): such handles are never used. `Mirrors` says both at once.
It is shown for each part of an operation, and so for operations (`mirrors_operation`), for snapshots
that are taken (`snapshot_twin`) and for those that are put back (`mirrors_restore`).
-/

namespace RollTray

namespace Attempt

variable {σ α β : Type} {I : σ → Prop} {s : σ}

/-- In a state of which something holds, the second attempt does what the first one does, and the same
holds after it. -/
def MirrorsAt (I : σ → Prop) (s : σ) (a b : Attempt σ α) : Prop :=
  b.perform s = a.perform s ∧ I (a.perform s).2

/-- Where something holds the second attempt does what the first one does, and the same holds after
it. -/
def Mirrors (I : σ → Prop) (a b : Attempt σ α) : Prop :=
  ∀ s, I s → MirrorsAt I s a b

theorem Keeps.mirrors {a : Attempt σ α} (h : Keeps I a) : Mirrors I a a :=
  fun s hs => ⟨rfl, h s hs⟩

namespace MirrorsAt

theorem of_eq {a b : Attempt σ α} {answer : Except Fault α} {s' : σ} (ha : a.perform s = (answer, s'))
    (hb : b.perform s = (answer, s')) (h : I s') : MirrorsAt I s a b :=
  ⟨hb.trans ha.symm, by rw [ha]; exact h⟩

theorem pure (h : I s) (x : α) : MirrorsAt I s (Pure.pure x) (Pure.pure x) := ⟨rfl, h⟩

theorem bind {a b : Attempt σ α} {f g : α → Attempt σ β} (h : MirrorsAt I s a b)
    (hf : ∀ x, Mirrors I (f x) (g x)) : MirrorsAt I s (a >>= f) (b >>= g) := by
  obtain ⟨heq, hleft⟩ := h
  rw [MirrorsAt, perform_bind, perform_bind, heq]
  rcases hperform : a.perform s with ⟨fault | x, s'⟩ <;> rw [hperform] at hleft
  · exact ⟨rfl, hleft⟩
  · exact hf x s' hleft

theorem discard {a b : Attempt σ α} (h : MirrorsAt I s a b) :
    MirrorsAt I s (Functor.discard a) (Functor.discard b) :=
  h.bind fun _ _ hs => .pure hs _

/-- Attempts that go on with something that may fail by itself. -/
theorem lift_bind {x : Except Fault α} {f g : α → Attempt σ β} (hs : I s)
    (hf : ∀ a, x = .ok a → MirrorsAt I s (f a) (g a)) :
    MirrorsAt I s ((liftM x : Attempt σ α) >>= f) ((liftM x : Attempt σ α) >>= g) := by
  rw [MirrorsAt, perform_bind, perform_bind, perform_lift]
  cases x with
  | error fault => exact ⟨rfl, hs⟩
  | ok a => exact hf a rfl

end MirrorsAt

namespace Mirrors

variable {a b : Attempt σ α}

theorem bind {f g : α → Attempt σ β} (h : Mirrors I a b) (hf : ∀ x, Mirrors I (f x) (g x)) :
    Mirrors I (a >>= f) (b >>= g) :=
  fun s hs => (h s hs).bind hf

/-- Attempts that start by reading the state. -/
theorem get {f g : σ → Attempt σ α} (h : ∀ s, I s → MirrorsAt I s (f s) (g s)) :
    Mirrors I (MonadState.get >>= f) (MonadState.get >>= g) := by
  intro s hs
  rw [MirrorsAt, perform_bind_of_ok (perform_get s), perform_bind_of_ok (perform_get s)]
  exact h s hs

theorem discard (h : Mirrors I a b) : Mirrors I (Functor.discard a) (Functor.discard b) :=
  fun s hs => (h s hs).discard

theorem forM {items : List α} {f g : α → Attempt σ PUnit} (h : ∀ x, Mirrors I (f x) (g x)) :
    Mirrors I (items.forM f) (items.forM g) := by
  induction items with
  | nil => exact fun _ hs => .pure hs _
  | cons x rest ih => exact (h x).bind fun _ => ih

end Mirrors

end Attempt

open Attempt (Keeps Mirrors MirrorsAt)

namespace Tray

variable {ω : Type} [World ω] {H : Housing ω} {t : Tray ω}

/-- The tray's dice are the bodies of its world, each once. -/
def Housing.Houses (H : Housing ω) (t : Tray ω) : Prop :=
  H.holds t.world (t.dice.map Die.handle)

theorem Housing.Houses.live (h : H.Houses t) {d : Die} (hd : d ∈ t.dice) :
    d.handle ∈ World.handles t.world :=
  H.live h (List.mem_map_of_mem hd)

/-- What neither changes the world nor the dice. -/
theorem keeps_houses {f : Tray ω → Tray ω}
    (hf : ∀ t, (f t).world = t.world ∧ (f t).dice = t.dice := by exact fun _ => ⟨rfl, rfl⟩) :
    Keeps H.Houses (modify f) :=
  .of_modify fun t ht => by rwa [Housing.Houses, (hf t).1, (hf t).2]

variable (T : World.Twin ω)

/-! ## Bodies -/

theorem forM_remove_twin (taken : Die → Bool) (dice : List Die) (rest : List Nat)
    (h : H.holds t.world (dice.map Die.handle ++ rest)) :
    (dice.forM (m := Attempt (Tray ω)) fun d => do
        if taken d then withWorld (T.other.remove d.handle)).perform t =
      (dice.forM (m := Attempt (Tray ω)) fun d => do
        if taken d then withWorld (World.remove d.handle)).perform t := by
  induction dice generalizing t rest with
  | nil => rfl
  | cons d dice ih =>
    rw [List.forM, List.forM, Attempt.perform_bind, Attempt.perform_bind]
    by_cases htaken : taken d
    · obtain ⟨world, hremove, hholds⟩ := H.remove h
      have hsame := T.remove (H.live h (List.mem_cons_self ..))
      rw [if_pos htaken, if_pos htaken, withWorld_perform hremove,
        withWorld_perform (hsame.trans hremove)]
      exact ih rest hholds
    · rw [if_neg htaken, if_neg htaken]
      exact ih (d.handle :: rest) (H.perm h List.perm_middle.symm)

theorem mirrors_takeOff (taken : Die → Bool) :
    Mirrors H.Houses (takeOff taken) (@takeOff ω T.other taken) := by
  intro t ht
  have hsame := forM_remove_twin T taken t.dice [] (by rwa [List.append_nil])
  obtain ⟨world, hholds, hperform | ⟨hexact, _⟩⟩ :=
    takeOff_perform (S := amid H.toFooting 0) (holds_amid.2 ht) taken
  · refine ⟨?_, ?_⟩
    · unfold takeOff
      rw [Attempt.perform_bind_of_ok (Attempt.perform_get t),
        Attempt.perform_bind_of_ok (Attempt.perform_get t), Attempt.perform_bind,
        Attempt.perform_bind, hsame]
    · rw [hperform]
      exact holds_amid.1 hholds
  · exact absurd hexact not_exact_amid

theorem mirrors_release (throw : Throw) :
    Mirrors H.Houses (release throw) (@release ω T.other throw) := by
  intro t ht
  refine ⟨?_, ?_⟩
  · unfold release
    rw [T.spawn]
  · obtain ⟨world, chance, ⟨hholds, _, hperform⟩ | ⟨d, _, _, _, _, hholds, hperform⟩⟩ :=
      release_perform (S := amid H.toFooting 0) (holds_amid.2 ht) throw <;> rw [hperform]
    · exact holds_amid.1 hholds
    · exact holds_amid.1 hholds

/-! ## Canceling -/

section Notified

variable {notify notify' : Notify ω}
  (hn : ∀ event r, Mirrors H.Houses (notify event r) (notify' event r))

theorem mirrors_raiseWatermark (id : Value) :
    Mirrors H.Houses (raiseWatermark id) (raiseWatermark id : Attempt (Tray ω) Unit) := by
  refine .get fun t ht => .lift_bind ht fun before _ => ?_
  split
  · exact .lift_bind ht fun _ _ => ⟨rfl, ht⟩
  · exact .pure ht _

include hn

theorem mirrors_cancel (id : Value) :
    Mirrors H.Houses (cancel notify id) (@cancel ω T.other notify' id) := by
  refine .get fun t ht => ?_
  cases Roll.find? id t.active with
  | none => exact .pure ht _
  | some r =>
    have hrest := keeps_houses (H := H)
      (f := fun t => { t with active := t.active.eraseP fun other => other.id.same id })
    exact (hrest.mirrors t ht).bind fun _ => (mirrors_raiseWatermark id).bind fun _ =>
      (mirrors_takeOff T _).bind fun _ => (hn .canceled r.record).bind fun _ _ ht => .pure ht _

theorem mirrors_cancelAll (rolls : List Roll) :
    Mirrors H.Houses (cancelAll notify rolls) (@cancelAll ω T.other notify' rolls) :=
  .forM fun r => (mirrors_cancel T hn r.id).discard

theorem mirrors_clearTray : Mirrors H.Houses (clearTray notify) (@clearTray ω T.other notify') := by
  refine .get fun t ht => (mirrors_cancelAll T hn t.active t ht).bind fun _ =>
    Mirrors.bind (Keeps.mirrors (keeps_houses fun t => ?_)) fun _ => mirrors_takeOff T _
  split <;> exact ⟨rfl, rfl⟩

theorem mirrors_prune : Mirrors H.Houses (prune notify) (@prune ω T.other notify') :=
  .get fun t ht => (mirrors_cancelAll T hn _ t ht).bind fun _ =>
    .get fun t ht => Mirrors.forM (fun _ => mirrors_takeOff T _) t ht

theorem mirrors_clearHistory :
    Mirrors H.Houses (clearHistory notify) (@clearHistory ω T.other notify') :=
  (Keeps.mirrors keeps_houses).bind fun _ => mirrors_prune T hn

/-! ## Rolling -/

theorem mirrors_trimHistory :
    Mirrors H.Houses (trimHistory notify) (@trimHistory ω T.other notify') := by
  refine .get fun t ht => ?_
  split
  · exact MirrorsAt.bind ⟨rfl, ht⟩ fun _ => mirrors_prune T hn
  · exact .pure ht _

theorem mirrors_makeRoom (needed fuel : Nat) :
    Mirrors H.Houses (makeRoom notify needed fuel) (@makeRoom ω T.other notify' needed fuel) := by
  induction fuel with
  | zero => exact Keeps.mirrors (.throw _)
  | succ fuel ih =>
    refine .get fun t ht => ?_
    cases t.active with
    | nil => exact .pure ht _
    | cons oldest rest =>
      refine .lift_bind ht fun _ _ => .lift_bind ht fun _ _ => ?_
      split
      · exact ((mirrors_cancel T hn _).discard t ht).bind fun _ => ih
      · exact .pure ht _

theorem mirrors_launch (formula : String) (compiled : Formula.Compiled) :
    Mirrors H.Houses (launch notify formula compiled)
      (@launch ω T.other notify' formula compiled) := by
  refine .get fun t ht => (mirrors_makeRoom T hn _ _ t ht).bind fun _ => ?_
  have hregister : Keeps H.Houses (register formula compiled) := .get fun _ ht => ht
  refine hregister.mirrors.bind fun r => (mirrors_trimHistory T hn).bind fun _ => ?_
  have hschedule : Keeps H.Houses (schedule r.id compiled.physicalCount 0 0 (places compiled.terms)) :=
    keeps_schedule (fun _ _ _ ht => ht) _ _ _ _ _
  exact hschedule.mirrors.bind fun _ => (hn .started r.record).bind fun _ _ ht => .pure ht _

theorem mirrors_beginRoll (compiled : Formula.Compiled) (label : String) :
    Mirrors H.Houses (beginRoll notify compiled label)
      (@beginRoll ω T.other notify' compiled label) := by
  refine .get fun t ht => ?_
  dsimp only
  split
  · exact ⟨rfl, ht⟩
  · exact mirrors_launch T hn _ _ t ht

theorem mirrors_roll (formula : String) :
    Mirrors H.Houses (roll notify formula) (@roll ω T.other notify' formula) :=
  fun _ ht => .lift_bind ht fun _ _ =>
    Mirrors.bind (Keeps.mirrors keeps_houses) (fun _ => mirrors_beginRoll T hn _ _) _ ht

theorem mirrors_rollValue (formula : Value) :
    Mirrors H.Houses (rollValue notify formula) (@rollValue ω T.other notify' formula) := by
  cases formula
  case text formula => exact mirrors_roll T hn formula
  all_goals exact Keeps.mirrors (.throw _)

theorem mirrors_rollDie (kind : String) :
    Mirrors H.Houses (rollDie notify kind) (@rollDie ω T.other notify' kind) := by
  unfold rollDie
  split
  · have hpick : Keeps H.Houses (withChance (Chance.pick DieKind.all)) := .within fun _ ht => ht
    exact hpick.mirrors.bind fun _ => mirrors_roll T hn _
  · exact mirrors_roll T hn _

theorem mirrors_reroll (id : Value) :
    Mirrors H.Houses (reroll notify id) (@reroll ω T.other notify' id) := by
  refine .get fun t ht => ?_
  cases t.find? id with
  | none => exact .pure ht _
  | some r => exact (mirrors_rollValue T hn _ t ht).bind fun _ _ ht => .pure ht _

theorem mirrors_clearAndRoll (formula : Value) :
    Mirrors H.Houses (clearAndRoll notify formula) (@clearAndRoll ω T.other notify' formula) :=
  (mirrors_clearTray T hn).bind fun _ => mirrors_rollValue T hn _

/-! ## Ticks -/

omit hn in
theorem mirrors_throwDie (throw : Throw) :
    Mirrors H.Houses (throwDie throw) (@throwDie ω T.other throw) := by
  refine .get fun t ht => .lift_bind ht fun _ _ => ?_
  split
  · exact .pure ht _
  · split
    · exact mirrors_release T throw t ht
    · exact .pure ht _

omit hn in
theorem mirrors_throwDue (left : Nat) :
    Mirrors H.Houses (throwDue left) (@throwDue ω T.other left) := by
  induction left with
  | zero => exact Keeps.mirrors (.pure _)
  | succ left ih =>
    refine .get fun t ht => ?_
    cases t.pending[0]? with
    | none => exact .pure ht _
    | some first =>
      refine .lift_bind ht fun _ _ => ?_
      split
      · have htake : Keeps H.Houses (takeThrow : Attempt (Tray ω) Unit) := .within fun _ ht => ht
        have hnext := htake.mirrors.bind fun _ => mirrors_throwDie T first.2
        exact (hnext t ht).bind fun _ => ih
      · exact .pure ht _

omit hn in
theorem mirrors_proceed (dt : Num) :
    Mirrors H.Houses (proceed dt) (@proceed ω T.other dt) := by
  refine .get fun t ht => .lift_bind ht fun _ _ => .lift_bind ht fun _ _ => ?_
  refine Mirrors.bind (Keeps.mirrors keeps_houses) (fun _ => .get fun t ht => ?_) t ht
  have hstep : Mirrors H.Houses (withWorld (World.step dt)) (withWorld (T.other.step dt)) := by
    rw [T.step]
    exact Keeps.mirrors fun _ ht => H.step dt ht
  exact Mirrors.bind (mirrors_throwDue T _) (fun _ => hstep) t ht

omit hn in
theorem look_twin {w : ω} {d : Die} (h : d.handle ∈ World.handles w) (p : Policy)
    (isFinal : Value → Bool) : @look ω T.other p isFinal w d = look p isFinal w d := by
  unfold look Policy.atRest
  rw [T.isSettled h, T.motion h, T.face h]

omit hn in
theorem calm_twin {w : ω} {d : Die} (h : d.handle ∈ World.handles w) (p : Policy) (now : Float) :
    (@calm ω T.other p now d).perform w = (calm p now d).perform w := by
  refine (MirrorsAt.lift_bind (I := fun _ => True) trivial fun _ _ => .lift_bind trivial fun _ _ => ?_).1
  unfold Policy.nudge
  split
  · exact ⟨T.sleep h, trivial⟩
  · split
    · exact .lift_bind trivial fun _ _ => ⟨T.damp _ h, trivial⟩
    · exact .pure trivial _

omit hn in
/-- Dice with bodies are seen as in the other world. -/
theorem pollDice_twin (p : Policy) (isFinal : Value → Bool) (now : Float) {handles : List Nat}
    (dice : List Die) {w : ω} (h : H.holds w handles) (hdice : ∀ d ∈ dice, d.handle ∈ handles) :
    @pollDice ω T.other p isFinal now dice w = pollDice p isFinal now dice w := by
  induction dice generalizing w with
  | nil => rfl
  | cons d rest ih =>
    have hlive := H.live h (hdice d (List.mem_cons_self ..))
    have hrest : ∀ d ∈ rest, d.handle ∈ handles := fun d hd => hdice d (List.mem_cons_of_mem _ hd)
    unfold pollDice
    rw [look_twin T hlive]
    cases look p isFinal w d with
    | error fault => rfl
    | ok sight =>
      cases sight with
      | same => rw [ih h hrest]
      | settles face => rw [ih h hrest]
      | moves =>
        have hcalmed := calm_holds H.toFooting h p now (inFlight now d)
        have hlive : (inFlight now d).handle ∈ World.handles w := hlive
        dsimp only
        rw [calm_twin T hlive]
        rcases hperform : (calm p now (inFlight now d)).perform w with ⟨fault | _, w'⟩
        · rfl
        · rw [hperform] at hcalmed
          dsimp only
          rw [ih hcalmed hrest]

omit hn in
theorem mirrors_poll : Mirrors H.Houses poll (@poll ω T.other) := by
  intro t ht
  have hsame := pollDice_twin T (Policy.ofConfig t.config) t.isFinal t.clock t.dice ht
    fun d hd => List.mem_map_of_mem hd
  refine ⟨?_, ?_⟩
  · unfold poll
    rw [Attempt.perform_of, Attempt.perform_of, hsame]
  · have hdice := SameDie.map_eq (fun _ _ h => h.handle)
      (pollDice_same (Policy.ofConfig t.config) t.isFinal t.clock t.dice t.world)
    have hholds := pollDice_holds (Policy.ofConfig t.config) t.isFinal t.clock H.toFooting t.dice ht
    rw [← hdice] at hholds
    exact hholds

theorem mirrors_conclude (id : Value) (r : Roll) :
    Mirrors H.Houses (conclude notify id r) (conclude notify' id r) := by
  refine .get fun t ht => ?_
  refine Mirrors.bind (Keeps.mirrors keeps_houses) (fun _ t ht => .lift_bind ht fun done _ => ?_) t ht
  split
  · exact (hn .resolved _ t ht).bind fun _ _ ht => .pure ht _
  · exact .pure ht _

theorem mirrors_finish (id : Value) :
    Mirrors H.Houses (finish notify id) (@finish ω T.other notify' id) := by
  refine .get fun t ht => ?_
  cases t.find? id with
  | none => exact (mirrors_takeOff T _ t ht).bind fun _ _ ht => .pure ht _
  | some r =>
    dsimp only
    split
    · exact .pure ht _
    · refine .lift_bind ht fun complete _ => ?_
      split
      · exact mirrors_conclude hn id r t ht
      · exact .pure ht _

theorem mirrors_finishAll (ids : List Value) :
    Mirrors H.Houses (finishAll notify ids) (@finishAll ω T.other notify' ids) := by
  induction ids with
  | nil => exact Keeps.mirrors (.pure _)
  | cons id rest ih =>
    exact .get fun t ht => (mirrors_finish T hn id t ht).bind fun _ => ih.bind fun _ _ ht => .pure ht _

theorem mirrors_tick (dt : Num) : Mirrors H.Houses (tick notify dt) (@tick ω T.other notify' dt) :=
  ((mirrors_proceed T dt).bind fun _ => mirrors_poll T).bind fun _ _ ht =>
    .lift_bind ht fun _ _ => mirrors_finishAll T hn _ _ ht

theorem mirrors_run (dt : Num) (limit : Nat) :
    Mirrors H.Houses (run notify dt limit) (@run ω T.other notify' dt limit) := by
  suffices hgo : ∀ ticks, Mirrors H.Houses (run.go notify dt ticks limit)
      (@run.go ω T.other notify' dt ticks limit) from hgo 0
  induction limit with
  | zero => exact fun ticks => Keeps.mirrors (.pure _)
  | succ limit ih =>
    refine fun ticks => .get fun t ht => ?_
    split
    · exact .pure ht _
    · exact ((mirrors_tick T hn dt).discard t ht).bind fun _ => ih (ticks + 1)

theorem mirrors_rollTyped (formula : String) :
    Mirrors H.Houses (rollTyped notify formula) (@rollTyped ω T.other notify' formula) := by
  unfold rollTyped
  split
  · exact Keeps.mirrors (.pure _)
  · refine .get fun t ht => ?_
    obtain ⟨hsame, hleft⟩ := mirrors_roll T hn formula t ht
    rw [hsame]
    rcases hperform : (roll notify formula).perform t with ⟨answer, t'⟩
    rw [hperform] at hleft
    refine MirrorsAt.bind ⟨rfl, hleft⟩ fun _ => ?_
    cases answer with
    | ok _ => exact (mirrors_run T hn _ _).discard.bind fun _ _ ht => .pure ht _
    | error fault =>
      cases fault <;> first | exact Keeps.mirrors (.pure _) | exact Keeps.mirrors (.throw _)

/-! ## Operations -/

theorem mirrors_operation (op : Operation) :
    Mirrors H.Houses (op.attempt notify) (@Operation.attempt ω T.other notify' op) := by
  cases op with
  | roll formula => exact (mirrors_roll T hn _).discard
  | beginRoll _ compiled _ label => exact (mirrors_beginRoll T hn _ _).discard
  | rollDie kind => exact (mirrors_rollDie T hn _).discard
  | reroll id => exact (mirrors_reroll T hn _).discard
  | clearAndRoll formula => exact (mirrors_clearAndRoll T hn _).discard
  | cancel id => exact (mirrors_cancel T hn _).discard
  | clearTray => exact mirrors_clearTray T hn
  | clearHistory => exact mirrors_clearHistory T hn
  | prune => exact mirrors_prune T hn
  | tick dt => exact (mirrors_tick T hn dt).discard
  | run dt limit => exact (mirrors_run T hn dt limit).discard

/-! ## Listeners -/

theorem mirrors_react (r : Record) (reaction : Reaction) :
    Mirrors H.Houses (react notify r reaction) (@react ω T.other notify' r reaction) := by
  cases reaction with
  | none => exact Keeps.mirrors (.pure _)
  | cancel => exact (mirrors_cancel T hn _).discard
  | clearTray => exact mirrors_clearTray T hn
  | reroll => exact (mirrors_reroll T hn _).discard
  | roll formula => exact (mirrors_rollValue T hn _).discard

theorem mirrors_tell (r : Record) (told : List Listener) :
    Mirrors H.Houses (tell notify r told) (@tell ω T.other notify' r told) := by
  induction told with
  | nil => exact Keeps.mirrors (.pure _)
  | cons listener rest ih =>
    exact (Keeps.mirrors keeps_houses).bind fun _ => (mirrors_react T hn r _).bind fun _ =>
      ih.bind fun _ _ ht => .pure ht _

/-! ## Snapshots -/

omit hn in
theorem mirrors_placeDie (s : SavedDie) :
    Mirrors H.Houses (placeDie s) (@placeDie ω T.other s) := by
  intro t ht
  rcases hspawn : (World.spawn s.die.kind s.die.tens (some s.motion)).perform t.world with
    ⟨fault | handle, w⟩
  · have hwith := withWorld_perform hspawn
    refine .of_eq (Attempt.perform_bind_of_error hwith) ?_ (H.spawn_error _ _ _ ht hspawn)
    unfold placeDie
    rw [T.spawn]
    exact Attempt.perform_bind_of_error hwith
  · have hwith := withWorld_perform hspawn
    have hentered : H.holds w (handle :: t.dice.map Die.handle) := H.spawn _ _ _ ht hspawn
    obtain ⟨w', hsleep⟩ := H.lull hentered (List.mem_cons_self ..)
    have hlaid : ∀ sleep : Attempt ω Unit, sleep.perform w = (.ok (), w') →
        (do
          if s.die.settled then withWorld sleep
          track { s.die with handle } : Attempt (Tray ω) Unit).perform { t with world := w } =
        (.ok (), { t with
          world := if s.die.settled then w' else w
          dice := t.dice ++ [{ s.die with handle }] }) := by
      intro sleep h
      cases s.die.settled
      · rfl
      · exact Attempt.perform_bind_of_ok (withWorld_perform h)
    refine .of_eq ((Attempt.perform_bind_of_ok hwith).trans (hlaid _ hsleep)) ?_ ?_
    · unfold placeDie
      rw [T.spawn]
      have hsame := T.sleep (H.live hentered (List.mem_cons_self ..))
      exact (Attempt.perform_bind_of_ok hwith).trans (hlaid _ (hsame.trans hsleep))
    · show H.holds _ ((t.dice ++ [_]).map Die.handle)
      rw [List.map_append]
      refine H.perm ?_ (List.perm_append_singleton ..).symm
      split
      · have hasleep := H.sleep handle hentered
        rwa [hsleep] at hasleep
      · exact hentered

theorem mirrors_restore (v : Value) :
    Mirrors H.Houses (restore notify v) (@restore ω T.other notify' v) := by
  refine .get fun t ht => .lift_bind ht fun saved _ => ?_
  refine Mirrors.bind (Keeps.mirrors keeps_houses) (fun _ => ?_) t ht
  refine (Mirrors.forM fun s => mirrors_placeDie T s).bind fun _ => ?_
  refine (Mirrors.forM fun throw => Keeps.mirrors (keeps_addThrow (fun _ _ ht => ht) throw)).bind fun _ => ?_
  exact mirrors_prune T hn

theorem mirrors_load (text : Option String) :
    Mirrors H.Houses (load notify text) (@load ω T.other notify' text) := by
  unfold load
  cases text with
  | none => exact Keeps.mirrors (.pure _)
  | some text =>
    dsimp only
    cases Json.read? text with
    | none => exact Keeps.mirrors (.pure _)
    | some v =>
      refine .get fun t ht => ?_
      obtain ⟨hsame, hleft⟩ := mirrors_restore T hn v t ht
      rw [hsame]
      rcases hperform : (restore notify v).perform t with ⟨answer, t'⟩
      rw [hperform] at hleft
      refine MirrorsAt.bind ⟨rfl, hleft⟩ fun _ => ?_
      cases answer with
      | ok _ => exact Keeps.mirrors (.pure _)
      | error fault =>
        cases fault <;> first | exact Keeps.mirrors (.pure _) | exact Keeps.mirrors (.throw _)

end Notified

/-- Whatever the listeners do. -/
theorem mirrors_announce (event : Event) (r : Record) :
    Mirrors H.Houses (announce event r) (@announce ω T.other event r) := by
  suffices hdepth : ∀ depth event r, Mirrors H.Houses (announceWithin depth event r)
      (@announceWithin ω T.other depth event r) from hdepth deepest event r
  intro depth
  induction depth with
  | zero => exact fun event r => (Keeps.mirrors keeps_houses).bind fun _ => Keeps.mirrors (.throw _)
  | succ depth ih =>
    refine fun event r => (Keeps.mirrors keeps_houses).bind fun _ => .get fun t ht => ?_
    exact (mirrors_tell T ih r _ t ht).bind fun _ => Keeps.mirrors keeps_houses

/-- A snapshot is taken of dice with bodies. -/
theorem snapshot_twin (h : H.Houses t) : @snapshot ω T.other t = t.snapshot := by
  have hdie : ∀ d ∈ t.dice, @savedDie ω T.other t d = t.savedDie d := by
    intro d hd
    unfold savedDie
    rw [T.motion (h.live hd)]
  have hdice : ∀ dice : List Die, (∀ d ∈ dice, d ∈ t.dice) →
      dice.mapM (@savedDie ω T.other t) = dice.mapM t.savedDie := by
    intro dice hsub
    induction dice with
    | nil => rfl
    | cons d rest ih =>
      obtain ⟨hd, hrest⟩ := List.forall_mem_cons.1 hsub
      rw [List.mapM_cons, List.mapM_cons, hdie d hd, ih hrest]
  unfold snapshot savedDice
  rw [hdice t.dice fun _ hd => hd]

end Tray

end RollTray
