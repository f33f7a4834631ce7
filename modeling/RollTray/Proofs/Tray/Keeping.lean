import RollTray.Dice.Kind
import RollTray.Proofs.Tray.Operations

/-!
# What operations keep whatever comes of them

`Keeps I a` says that if `I` holds of a state it holds of the one that an attempt leaves, whether it
returns or not. Everything that is done with a tray is made up of a few small changes. What is kept by
each of them but for rolls that begin and dice that are taken away (`Course`) is kept by canceling and by
the parts of a tick. If dice may be taken away (`Conduct`), it is kept by clearing and pruning, and if
rolls may begin too (`Upkeep`), whatever listeners do (`Upkeep.announce`). Unless rolls that leave the
history matter, it is then kept by all operations (`Upkeep.offers`, `Offers.operation`).
-/

namespace RollTray

namespace Attempt

variable {σ α β : Type} {I : σ → Prop} {s : σ}

/-- Whatever comes of the attempt, what held before it holds after it. -/
def Keeps (I : σ → Prop) (a : Attempt σ α) : Prop :=
  ∀ s, I s → I (a.perform s).2

namespace Keeps

theorem holds {a : Attempt σ α} (h : Keeps I a) {answer : Except Fault α} {s' : σ}
    (hperform : a.perform s = (answer, s')) (hs : I s) : I s' := by
  have hkept := h s hs
  rwa [hperform] at hkept

theorem pure (x : α) : Keeps I (Pure.pure x : Attempt σ α) := fun _ h => h

theorem throw (fault : Fault) : Keeps I (MonadExcept.throw fault : Attempt σ α) := fun _ h => h

theorem lift (x : Except Fault α) : Keeps I (liftM x : Attempt σ α) := fun _ h => h

theorem of_modify {f : σ → σ} (h : ∀ s, I s → I (f s)) :
    Keeps I (modify f : Attempt σ Unit) := h

/-- An attempt that goes on, with what comes of its first part. -/
theorem bind_from {J : σ → Prop} {a : Attempt σ α} {f : α → Attempt σ β} (ha : I (a.perform s).2)
    (hJ : ∀ s, I s → J s) (hf : ∀ x s, I s → J ((f x).perform s).2) :
    J ((a >>= f).perform s).2 := by
  rw [perform_bind]
  rcases hperform : a.perform s with ⟨fault | x, s'⟩ <;> rw [hperform] at ha
  · exact hJ s' ha
  · exact hf x s' ha

/-- An attempt that goes on where more is known. -/
theorem bind_of {J : σ → Prop} {a : Attempt σ α} {f : α → Attempt σ β} (ha : Keeps I a) (hs : I s)
    (hJ : ∀ s, I s → J s) (hf : ∀ x s, I s → J ((f x).perform s).2) :
    J ((a >>= f).perform s).2 :=
  bind_from (ha s hs) hJ hf

theorem bind {a : Attempt σ α} {f : α → Attempt σ β} (ha : Keeps I a) (hf : ∀ x, Keeps I (f x)) :
    Keeps I (a >>= f) :=
  fun _ hs => ha.bind_of hs (fun _ h => h) hf

/-- An attempt that starts by reading the state. -/
theorem get {f : σ → Attempt σ α} (h : ∀ s, I s → I ((f s).perform s).2) :
    Keeps I (MonadState.get >>= f) := by
  intro s hs
  rw [perform_bind_of_ok (perform_get s)]
  exact h s hs

/-- An attempt that goes on with something that may fail by itself. -/
theorem lift_bind {x : Except Fault α} {f : α → Attempt σ β} (hs : I s)
    (hf : ∀ a, x = .ok a → I ((f a).perform s).2) :
    I (((liftM x : Attempt σ α) >>= f).perform s).2 := by
  rw [perform_bind, perform_lift]
  cases x with
  | error fault => exact hs
  | ok a => exact hf a rfl

theorem map {a : Attempt σ α} (h : Keeps I a) (f : α → β) : Keeps I (f <$> a) :=
  h.bind fun _ => .pure _

theorem discard {a : Attempt σ α} (h : Keeps I a) : Keeps I (Functor.discard a) :=
  h.map _

theorem forM {items : List α} {f : α → Attempt σ PUnit} (h : ∀ x ∈ items, Keeps I (f x)) :
    Keeps I (items.forM f) := by
  induction items with
  | nil => exact .pure _
  | cons x rest ih =>
    rw [List.forM]
    exact (h x (List.mem_cons_self ..)).bind fun _ =>
      ih fun y hy => h y (List.mem_cons_of_mem _ hy)

theorem and {J : σ → Prop} {a : Attempt σ α} (h : Keeps I a) (h' : Keeps J a) :
    Keeps (fun s => I s ∧ J s) a :=
  fun s hs => ⟨h s hs.1, h' s hs.2⟩

/-- What is kept on a part of a state is kept on the whole. -/
theorem within {τ : Type} {part : σ → τ} {put : τ → σ → σ} {a : Attempt τ α}
    (h : ∀ s, I s → I (put (a.perform (part s)).2 s)) : Keeps I (Attempt.within part put a) := h

end Keeps

end Attempt

open Attempt (Keeps)

/-- A throw as it is made of a formula. -/
structure Throw.Sound (throw : Throw) : Prop where
  due : ∃ x, throw.due = .float x
  kind : ∃ kind : DieKind, throw.kind = .text kind.name
  group : ∃ n, throw.group = .int n
  logical : ∃ n, throw.logical = .int n
  tens : ∃ b, throw.tens = .bool b

namespace Tray

variable {ω : Type} [World ω]

/-- A die that is not thrown changes nothing. -/
theorem keeps_throwDie {I : Tray ω → Prop} {throw : Throw} (h : Keeps I (release throw)) :
    Keeps I (throwDie throw) := by
  refine .get fun t ht => Keeps.lift_bind ht fun _ _ => ?_
  split
  · exact ht
  · split
    · exact h t ht
    · exact ht

omit [World ω] in
/-- The dice that wait do not matter to what is said. -/
theorem keeps_addThrow {I : Tray ω → Prop}
    (h : ∀ {t} (pending : Array (Nat × Throw)) (nextThrow : Nat), I t →
      I { t with pending, nextThrow }) (throw : Throw) : Keeps I (addThrow throw) :=
  .get fun t ht => Keeps.bind (I := I) (.within fun t ht => h _ t.nextThrow ht)
    (fun _ => .of_modify fun t ht => h t.pending _ ht) t ht

omit [World ω] in
/-- Neither the dice that wait nor the source of chance matter to what is said. -/
theorem keeps_schedule {I : Tray ω → Prop}
    (h : ∀ {t} (chance : Chance) (pending : Array (Nat × Throw)) (nextThrow : Nat), I t →
      I { t with chance, pending, nextThrow })
    (id : Value) (total index : Nat) (delay : Float) (places : List Place) :
    Keeps I (schedule id total index delay places) := by
  have hadd : ∀ throw, Keeps I (addThrow throw) :=
    keeps_addThrow fun {t} pending nextThrow ht => h t.chance pending nextThrow ht
  have hdraw : Keeps I (withChance Chance.draw) := .within fun t ht => h _ t.pending t.nextThrow ht
  induction places generalizing index delay with
  | nil => exact .pure _
  | cons place rest ih =>
    exact .get fun t ht => Keeps.bind (I := I) (hadd _) (fun _ => hdraw.bind fun _ => ih _ _) t ht

omit [World ω] in
/-- The watermark does not matter to what is said. -/
theorem keeps_raiseWatermark {I : Tray ω → Prop}
    (h : ∀ {t} (watermark : Value), I t → I { t with watermark }) (id : Value) :
    Keeps I (raiseWatermark id) := by
  refine .get fun t ht => Keeps.lift_bind ht fun before _ => ?_
  split
  · exact Keeps.lift_bind ht fun _ _ => h _ ht
  · exact ht

/-! ## History -/

section History

variable {I : Tray ω → Prop} {notify : Notify ω}
  (trim : ∀ {t : Tray ω} {history : List Roll}, I t → history.Sublist t.history → I { t with history })
  (hprune : Keeps I (prune notify))

include trim hprune

/-- What is kept where rolls leave the history, and where the tray is pruned. -/
theorem keeps_trimHistory : Keeps I (trimHistory notify) := by
  refine .get fun t ht => ?_
  split
  · rw [Attempt.perform_bind_of_ok (Attempt.perform_set ..)]
    exact hprune _ (trim ht (List.dropLast_sublist _))
  · exact ht

theorem keeps_clearHistory : Keeps I (clearHistory notify) :=
  (Keeps.of_modify fun _ ht => trim ht (List.nil_sublist _)).bind fun _ => hprune

end History

/-! ## Results -/

section Results

variable {P : Value → Prop} {I : Tray ω → Prop} {notify : Notify ω}
  (known : ∀ {t}, I t → ∀ r ∈ t.history ++ t.active, P r.id)
  (orphan : ∀ {t id}, I t → t.find? id = none → I ((removeDice id).perform t).2)
  (settle : ∀ {t id r}, I t → t.find? id = some r → r.record.resolved = false →
    t.isComplete r.record = .ok true → I (t.write r.serial (Dice.resolve r.record (t.diceOf id)).2))
  (hn : ∀ event r, P r.id → Keeps I (notify event r))

include known orphan settle hn

/-- What is kept where a roll gets its result, and where dice of a roll are dropped that is not in
history. -/
theorem keeps_finish (id : Value) : Keeps I (finish notify id) := by
  refine .get fun t ht => ?_
  split
  · next hfind => exact Keeps.bind_from (orphan ht hfind) (fun _ h => h) fun _ => Keeps.pure _
  · next r hfind =>
    split
    · exact ht
    · next hresolved =>
      refine Keeps.lift_bind ht fun complete hcomplete => ?_
      split
      · next hall =>
        have hwrite := settle ht hfind (by simpa using hresolved) (hall ▸ hcomplete)
        have hmem : { r with record := (Dice.resolve r.record (t.diceOf id)).2 } ∈
            (t.write r.serial (Dice.resolve r.record (t.diceOf id)).2).history :=
          List.mem_map.2 ⟨r, (find?_id hfind).1, if_pos rfl⟩
        have hid := known hwrite _ (List.mem_append_left _ hmem)
        rw [conclude, Attempt.perform_bind_of_ok (Attempt.perform_get t),
          Attempt.perform_bind_of_ok (Attempt.perform_modify _ t)]
        refine Keeps.lift_bind hwrite fun done _ => ?_
        split
        · exact (hn .resolved _ hid).bind (fun _ => .pure _) _ hwrite
        · exact hwrite
      · exact ht

theorem keeps_finishAll (ids : List Value) : Keeps I (finishAll notify ids) := by
  induction ids with
  | nil => exact .pure _
  | cons id rest ih =>
    refine .get fun t ht => ?_
    exact Keeps.bind (keeps_finish known orphan settle hn id) (fun _ => ih.bind fun _ => .pure _) t ht

end Results

/-! ## Where no roll begins -/

/-- Something that is said of a tray and is kept by the steps that canceling and ticks are made up of.
The ids of rolls may be known to be of some kind. -/
structure Course (P : Value → Prop) (I : Tray ω → Prop) : Prop where
  known : ∀ {t}, I t → ∀ r ∈ t.history ++ t.active, P r.id
  around : ∀ {t} (chance : Chance) (clock : Float) (formula : String), I t →
    I { t with chance, clock, formula }
  depart : ∀ {t id r}, I t → P id → Roll.find? id t.active = some r → I ((depart id).perform t).2
  /-- Dice of a roll that is not in history are taken off the tray. -/
  orphan : ∀ {t id}, I t → t.find? id = none → I ((removeDice id).perform t).2
  throwNext : ∀ {t order throw}, I t → t.pending[0]? = some (order, throw) →
    throw.due.le (.float t.clock) = .ok true → I ((throwNext throw).perform t).2
  step : ∀ dt, Keeps I (withWorld (World.step dt))
  settle : ∀ {t id r}, I t → t.find? id = some r → r.record.resolved = false →
    t.isComplete r.record = .ok true → I (t.write r.serial (Dice.resolve r.record (t.diceOf id)).2)

/-- Moreover any dice may be taken off the tray: all steps keep it but for those in which rolls begin or
leave the history. -/
structure Conduct (P : Value → Prop) (I : Tray ω → Prop) : Prop extends Course P I where
  takeOff : ∀ taken, Keeps I (takeOff taken)

namespace Course

variable {P : Value → Prop} {I : Tray ω → Prop} {notify : Notify ω} (h : Course P I)

include h

theorem throwDue (left : Nat) : Keeps I (throwDue left) := by
  induction left with
  | zero => exact .pure _
  | succ left ih =>
    refine .get fun t ht => ?_
    split
    · exact ht
    · rename_i order throw hfirst
      refine Keeps.lift_bind ht fun due hdue => ?_
      split
      · next hnow => exact Keeps.bind_from (h.throwNext ht hfirst (hnow ▸ hdue)) (fun _ h => h) fun _ => ih
      · exact ht

theorem proceed (dt : Num) : Keeps I (proceed dt) := by
  refine .get fun t ht => Keeps.lift_bind ht fun _ _ => Keeps.lift_bind ht fun clock _ => ?_
  have hclock : Keeps I (modify fun t : Tray ω => { t with clock }) :=
    .of_modify fun t ht => h.around t.chance clock t.formula ht
  refine hclock.bind (fun _ => .get ?_) t ht
  exact fun t ht => Keeps.bind (h.throwDue _) (fun _ => h.step dt) t ht

variable (hn : ∀ event r, P r.id → Keeps I (notify event r))

include hn

/-! ### Canceling -/

theorem cancel {id : Value} (hid : P id) : Keeps I (cancel notify id) := by
  rw [cancel_eq]
  refine .get fun t ht => ?_
  split
  · exact ht
  · next r hfind =>
    have hr := List.mem_append_right t.history (find?_id hfind).1
    exact Keeps.bind_from (h.depart ht hid hfind) (fun _ h => h) fun _ =>
      (hn .canceled r.record (h.known ht r hr)).bind fun _ => .pure _

theorem cancelAll {rolls : List Roll} (hids : ∀ r ∈ rolls, P r.id) :
    Keeps I (cancelAll notify rolls) :=
  .forM fun r hr => (h.cancel hn (hids r hr)).discard

theorem makeRoom (needed fuel : Nat) : Keeps I (makeRoom notify needed fuel) := by
  induction fuel with
  | zero => exact .throw _
  | succ fuel ih =>
    refine .get fun t ht => ?_
    split
    · exact ht
    · next oldest rest hactive =>
      have hid : P oldest.id := h.known ht oldest (by simp [hactive])
      refine Keeps.lift_bind ht fun _ _ => Keeps.lift_bind ht fun _ _ => ?_
      split
      · exact Keeps.bind (h.cancel hn hid).discard (fun _ => ih) t ht
      · exact ht

/-! ### Results -/

theorem finish (id : Value) : Keeps I (finish notify id) :=
  keeps_finish h.known h.orphan h.settle hn id

theorem finishAll (ids : List Value) : Keeps I (finishAll notify ids) :=
  keeps_finishAll h.known h.orphan h.settle hn ids

theorem tick (hpoll : Keeps I poll) (dt : Num) : Keeps I (tick notify dt) :=
  ((h.proceed dt).bind fun _ => hpoll).bind fun _ => (Keeps.lift _).bind fun _ => h.finishAll hn _

end Course

namespace Conduct

variable {P : Value → Prop} {I : Tray ω → Prop} {notify : Notify ω} (h : Conduct P I)
  (hn : ∀ event r, P r.id → Keeps I (notify event r))

include h hn

/-- The watermark is set when no roll is active any more. -/
theorem clearTray (mark : ∀ {t}, I t → I { t with watermark := .int (t.nextId - 1) }) :
    Keeps I (clearTray notify) := by
  refine .get fun t ht => ?_
  have hids : ∀ r ∈ t.active, P r.id := fun r hr => h.known ht r (List.mem_append_right _ hr)
  refine Keeps.bind (h.cancelAll hn hids) (fun _ => .bind (.of_modify fun t ht => ?_) fun _ =>
    h.takeOff _) t ht
  split
  · exact mark ht
  · exact ht

theorem prune : Keeps I (prune notify) := by
  refine .get fun t ht => ?_
  refine Keeps.bind (h.cancelAll hn fun r hr => ?_)
    (fun _ => .get fun t ht => Keeps.forM (fun id _ => h.takeOff _) t ht) t ht
  exact h.known ht r (List.mem_append_right _ (List.mem_filter.1 hr).1)

end Conduct

/-- What is kept apart is kept together. -/
theorem Conduct.and {P : Value → Prop} {I J : Tray ω → Prop} (h : Conduct P I)
    (h' : Conduct (fun _ => True) J) : Conduct P fun t => I t ∧ J t where
  known ht := h.known ht.1
  around chance clock formula ht :=
    ⟨h.around chance clock formula ht.1, h'.around chance clock formula ht.2⟩
  depart ht hid hfind := ⟨h.depart ht.1 hid hfind, h'.depart ht.2 trivial hfind⟩
  orphan ht hfind := ⟨h.orphan ht.1 hfind, h'.orphan ht.2 hfind⟩
  throwNext ht hfirst hdue := ⟨h.throwNext ht.1 hfirst hdue, h'.throwNext ht.2 hfirst hdue⟩
  step dt := (h.step dt).and (h'.step dt)
  settle ht hfind hresolved hcomplete :=
    ⟨h.settle ht.1 hfind hresolved hcomplete, h'.settle ht.2 hfind hresolved hcomplete⟩
  takeOff taken := (h.takeOff taken).and (h'.takeOff taken)

/-! ## Changes -/

/-- Something that is said of a tray and is kept by the changes that all operations are made up of, but
for rolls that leave the history. -/
structure Upkeep (I : Tray ω → Prop) : Prop where
  around : ∀ {t t'}, I t → t'.world = t.world → t'.dice = t.dice → t'.pending = t.pending →
    t'.nextThrow = t.nextThrow → t'.history = t.history → t'.active = t.active →
    t'.listeners = t.listeners → t'.journal = t.journal → I t'
  leave : ∀ {t} (active : List Roll), I t → active.Sublist t.active → I { t with active }
  begin : ∀ {t} (r : Roll), I t → I { t with
    nextId := t.nextId + 1, nextSerial := t.nextSerial + 1,
    active := t.active ++ [r], history := r :: t.history }
  write : ∀ {t} (serial : Nat) (record : Record), I t → I (t.write serial record)
  takeOff : ∀ taken, Keeps I (takeOff taken)
  addThrow : ∀ throw : Throw, throw.Sound → Keeps I (addThrow throw)
  throwNext : ∀ {t order throw}, I t → t.pending[0]? = some (order, throw) →
    throw.due.le (.float t.clock) = .ok true → I ((throwNext throw).perform t).2
  step : ∀ dt, Keeps I (withWorld (World.step dt))

namespace Upkeep

variable {I : Tray ω → Prop} {notify : Notify ω}

/-- Rolls do not matter to what is said of the dice, of those that wait and of the world. -/
theorem of_dice (around : ∀ {t t'}, I t → t'.world = t.world → t'.dice = t.dice →
      t'.pending = t.pending → t'.nextThrow = t.nextThrow → I t')
    (takeOff : ∀ taken, Keeps I (Tray.takeOff taken))
    (addThrow : ∀ throw : Throw, throw.Sound → Keeps I (Tray.addThrow throw))
    (throwNext : ∀ {t order throw}, I t → t.pending[0]? = some (order, throw) →
      throw.due.le (.float t.clock) = .ok true → I ((Tray.throwNext throw).perform t).2)
    (step : ∀ dt, Keeps I (withWorld (World.step dt))) : Upkeep I where
  around h hworld hdice hpending hnext _ _ _ _ := around h hworld hdice hpending hnext
  leave _ h _ := around h rfl rfl rfl rfl
  begin _ h := around h rfl rfl rfl rfl
  write _ _ h := around h rfl rfl rfl rfl
  takeOff := takeOff
  addThrow := addThrow
  throwNext := throwNext
  step := step

theorem change (h : Upkeep I) {f : Tray ω → Tray ω}
    (hf : ∀ t, (f t).world = t.world ∧ (f t).dice = t.dice ∧ (f t).pending = t.pending ∧
      (f t).nextThrow = t.nextThrow ∧ (f t).history = t.history ∧ (f t).active = t.active ∧
      (f t).listeners = t.listeners ∧ (f t).journal = t.journal := by
      exact fun _ => ⟨rfl, rfl, rfl, rfl, rfl, rfl, rfl, rfl⟩) : Keeps I (modify f) :=
  .of_modify fun t ht =>
    have ⟨hworld, hdice, hpending, hnext, hhistory, hactive, hlisteners, hjournal⟩ := hf t
    h.around ht hworld hdice hpending hnext hhistory hactive hlisteners hjournal

theorem chance (h : Upkeep I) {α : Type} (a : Attempt Chance α) : Keeps I (withChance a) :=
  .within fun _ ht => h.around ht rfl rfl rfl rfl rfl rfl rfl rfl

theorem raiseWatermark (h : Upkeep I) (id : Value) : Keeps I (raiseWatermark id) :=
  keeps_raiseWatermark (fun _ ht => h.around ht rfl rfl rfl rfl rfl rfl rfl rfl) id

theorem conduct (h : Upkeep I) : Conduct (fun _ => True) I where
  known _ _ _ := trivial
  around _ _ _ ht := h.around ht rfl rfl rfl rfl rfl rfl rfl rfl
  depart {t id _} ht _ _ :=
    Keeps.bind (.of_modify fun _ ht => h.leave _ ht List.eraseP_sublist)
      (fun _ => (h.raiseWatermark id).bind fun _ => h.takeOff _) t ht
  orphan ht _ := h.takeOff _ _ ht
  takeOff := h.takeOff
  throwNext := h.throwNext
  step := h.step
  settle ht _ _ _ := h.write _ _ ht

theorem proceed (h : Upkeep I) (dt : Num) : Keeps I (proceed dt) :=
  h.conduct.proceed dt

theorem schedule (h : Upkeep I) (id : Value) (total index : Nat) (delay : Float)
    (places : List Place) : Keeps I (schedule id total index delay places) := by
  induction places generalizing index delay with
  | nil => exact .pure _
  | cons place rest ih =>
    refine .get fun t ht => ?_
    refine Keeps.bind (h.addThrow _ ⟨⟨_, rfl⟩, ⟨_, rfl⟩, ⟨_, rfl⟩, ⟨_, rfl⟩, ⟨_, rfl⟩⟩) (fun _ => ?_) t ht
    exact (h.chance _).bind fun _ => ih _ _

theorem register (h : Upkeep I) (formula : String) (compiled : Formula.Compiled) :
    Keeps I (register formula compiled) :=
  .get fun _ ht => h.begin _ ht

section Notified

variable (h : Upkeep I) (hn : ∀ event r, Keeps I (notify event r))

include h hn

theorem cancel (id : Value) : Keeps I (cancel notify id) :=
  h.conduct.cancel (fun event r _ => hn event r) trivial

theorem clearTray : Keeps I (clearTray notify) :=
  h.conduct.clearTray (fun event r _ => hn event r)
    fun ht => h.around ht rfl rfl rfl rfl rfl rfl rfl rfl

theorem prune : Keeps I (prune notify) :=
  h.conduct.prune fun event r _ => hn event r

theorem makeRoom (needed fuel : Nat) : Keeps I (makeRoom notify needed fuel) :=
  h.conduct.makeRoom (fun event r _ => hn event r) needed fuel

theorem finish (id : Value) : Keeps I (finish notify id) :=
  h.conduct.finish (fun event r _ => hn event r) id

theorem finishAll (ids : List Value) : Keeps I (finishAll notify ids) :=
  h.conduct.finishAll (fun event r _ => hn event r) ids

theorem tick (hpoll : Keeps I poll) (dt : Num) : Keeps I (tick notify dt) :=
  h.conduct.tick (fun event r _ => hn event r) hpoll dt

end Notified

end Upkeep

/-! ## Operations -/

theorem keeps_run {I : Tray ω → Prop} {notify : Notify ω}
    (htick : ∀ dt, Keeps I (tick notify dt)) (dt : Num) (limit : Nat) :
    Keeps I (run notify dt limit) := by
  suffices hgo : ∀ ticks, Keeps I (run.go notify dt ticks limit) from hgo 0
  induction limit with
  | zero => exact fun ticks => .pure _
  | succ limit ih =>
    intro ticks
    refine .get fun t ht => ?_
    split
    · exact ht
    · exact Keeps.bind (htick dt).discard (fun _ => ih (ticks + 1)) t ht

/-- Something that is kept by the parts of the operations in which no time passes. -/
structure Offers (notify : Notify ω) (I : Tray ω → Prop) : Prop where
  chance : ∀ {α : Type} (a : Attempt Chance α), Keeps I (withChance a)
  formula : ∀ formula, Keeps I (modify fun t => { t with formula })
  launch : ∀ {source compiled} (formula : String), Formula.compile source = .ok compiled →
    ∀ {t}, I t → compiled.physicalCount ≤ t.config.maxDice →
      I ((launch notify formula compiled).perform t).2
  cancel : ∀ n : Int, Keeps I (cancel notify (.int n))
  clearTray : Keeps I (clearTray notify)
  clearHistory : Keeps I (clearHistory notify)
  prune : Keeps I (prune notify)

/-- The like where each formula may be shown only as some texts. -/
structure OffersAs (shows : String → String → Prop) (notify : Notify ω) (I : Tray ω → Prop) : Prop where
  chance : ∀ {α : Type} (a : Attempt Chance α), Keeps I (withChance a)
  formula : ∀ formula, Keeps I (modify fun t => { t with formula })
  launch : ∀ {source compiled shown}, Formula.compile source = .ok compiled → shows source shown →
    ∀ {t}, I t → compiled.physicalCount ≤ t.config.maxDice →
      I ((launch notify shown compiled).perform t).2
  cancel : ∀ n : Int, Keeps I (cancel notify (.int n))
  clearTray : Keeps I (clearTray notify)
  clearHistory : Keeps I (clearHistory notify)
  prune : Keeps I (prune notify)

namespace OffersAs

variable {shows : String → String → Prop} {I : Tray ω → Prop} {notify : Notify ω}
  (h : OffersAs shows notify I)

include h

/-- A label may be shown, or the formula if there is none. -/
theorem beginRoll {source : String} {compiled : Formula.Compiled}
    (hcompiled : Formula.compile source = .ok compiled) {label : String}
    (hshown : shows source (if label = "" then source else label)) :
    Keeps I (beginRoll notify compiled label) := by
  refine .get fun t ht => ?_
  dsimp only
  split
  · exact ht
  · next hfits =>
    rw [formula_of_compile hcompiled]
    exact h.launch hcompiled hshown ht (Int.not_lt.1 hfits)

variable (hself : ∀ source, shows source source)

include hself

theorem roll (formula : String) : Keeps I (roll notify formula) := by
  have hshown : shows formula (if formula = "" then formula else formula) := by
    rw [ite_self]
    exact hself formula
  exact fun _ ht => Keeps.lift_bind ht fun _ hcompiled =>
    Keeps.bind (h.formula _) (fun _ => h.beginRoll hcompiled hshown) _ ht

theorem rollValue (formula : Value) : Keeps I (rollValue notify formula) := by
  unfold Tray.rollValue
  split
  · exact h.roll hself _
  · exact .throw _

theorem rollDie (kind : String) : Keeps I (rollDie notify kind) := by
  unfold Tray.rollDie
  split
  · exact (h.chance _).bind fun _ => h.roll hself _
  · exact h.roll hself _

theorem reroll (id : Value) : Keeps I (reroll notify id) := by
  refine .get fun t ht => ?_
  split
  · exact ht
  · exact Keeps.bind (h.rollValue hself _) (fun _ => .pure _) t ht

theorem clearAndRoll (formula : Value) : Keeps I (clearAndRoll notify formula) :=
  h.clearTray.bind fun _ => h.rollValue hself _

/-- Operations, if those in which time passes are made up of ticks that keep it too. -/
theorem operation (op : Operation)
    (hlabel : ∀ source compiled hcompiled label, op = .beginRoll source compiled hcompiled label →
      shows source (if label = "" then source else label))
    (htick : op.ticks = true → ∀ dt, Keeps I (tick notify dt)) : Keeps I (op.attempt notify) := by
  cases op with
  | roll formula => exact (h.roll hself _).discard
  | beginRoll _ compiled hcompiled label =>
    exact (h.beginRoll hcompiled (hlabel _ _ hcompiled _ rfl)).discard
  | rollDie kind => exact (h.rollDie hself _).discard
  | reroll id => exact (h.reroll hself _).discard
  | clearAndRoll formula => exact (h.clearAndRoll hself _).discard
  | cancel id => exact (h.cancel _).discard
  | clearTray => exact h.clearTray
  | clearHistory => exact h.clearHistory
  | prune => exact h.prune
  | tick dt => exact (htick rfl dt).discard
  | run dt limit => exact (keeps_run (htick rfl) dt limit).discard

end OffersAs

namespace Offers

variable {I : Tray ω → Prop} {notify : Notify ω} (h : Offers notify I)

include h

/-- Each formula may be shown as any text. -/
theorem offersAs : OffersAs (fun _ _ => True) notify I where
  chance := h.chance
  formula := h.formula
  launch hcompiled _ _ ht hfits := h.launch _ hcompiled ht hfits
  cancel := h.cancel
  clearTray := h.clearTray
  clearHistory := h.clearHistory
  prune := h.prune

theorem roll (formula : String) : Keeps I (roll notify formula) :=
  h.offersAs.roll (fun _ => trivial) formula

theorem rollValue (formula : Value) : Keeps I (rollValue notify formula) :=
  h.offersAs.rollValue (fun _ => trivial) formula

theorem reroll (id : Value) : Keeps I (reroll notify id) :=
  h.offersAs.reroll (fun _ => trivial) id

/-- Operations, if those in which time passes are made up of ticks that keep it too. -/
theorem operation (op : Operation)
    (htick : op.ticks = true → ∀ dt, Keeps I (tick notify dt)) : Keeps I (op.attempt notify) :=
  h.offersAs.operation (fun _ => trivial) op (fun _ _ _ _ _ => trivial) htick

end Offers

namespace Upkeep

variable {I : Tray ω → Prop} {notify : Notify ω}

/-- What does not depend on the history is kept by all operations. -/
theorem offers (h : Upkeep I) (trim : ∀ {t} (history : List Roll), I t → I { t with history })
    (hn : ∀ event r, Keeps I (notify event r)) : Offers notify I where
  chance := h.chance
  formula _ := h.change
  launch formula _ _ ht _ := by
    refine Keeps.get (fun t ht => ?_) _ ht
    refine Keeps.bind (h.makeRoom hn _ _) (fun _ => ?_) t ht
    refine (h.register _ _).bind fun r => Keeps.bind (.get fun t ht => ?_) fun _ =>
      (h.schedule _ _ _ _ _).bind fun _ => (hn _ _).bind fun _ => .pure _
    split
    · rw [Attempt.perform_bind_of_ok (Attempt.perform_set ..)]
      exact h.prune hn _ (trim _ ht)
    · exact ht
  cancel _ := h.cancel hn _
  clearTray := h.clearTray hn
  clearHistory := (Keeps.of_modify fun _ => trim []).bind fun _ => h.prune hn
  prune := h.prune hn

/-! ## Listeners -/

theorem react (h : Upkeep I) (offers : Offers notify I) (hn : ∀ event r, Keeps I (notify event r))
    (r : Record) (reaction : Reaction) : Keeps I (react notify r reaction) := by
  cases reaction with
  | none => exact .pure _
  | cancel => exact (h.cancel hn _).discard
  | clearTray => exact h.clearTray hn
  | reroll => exact (offers.reroll _).discard
  | roll formula => exact (offers.rollValue _).discard

theorem tell (h : Upkeep I) (offers : Offers notify I) (hn : ∀ event r, Keeps I (notify event r))
    (heard : ∀ {t} (listeners : Event → List Listener) (journal : List Notice), I t →
      I { t with listeners, journal })
    (r : Record) (told : List Listener) : Keeps I (tell notify r told) := by
  induction told with
  | nil => exact .pure _
  | cons listener rest ih =>
    have htold : Keeps I (note (.told listener.tag r.id)) := .of_modify fun t => heard t.listeners _
    exact htold.bind fun _ => (h.react offers hn r _).bind fun _ => ih.bind fun _ => .pure _

/-- Whatever the listeners do. -/
theorem announce (h : Upkeep I) (trim : ∀ {t} (history : List Roll), I t → I { t with history })
    (heard : ∀ {t} (listeners : Event → List Listener) (journal : List Notice), I t →
      I { t with listeners, journal })
    (event : Event) (r : Record) : Keeps I (announce event r) := by
  suffices hdepth : ∀ depth event r, Keeps I (announceWithin depth event r) from
    hdepth deepest event r
  intro depth
  induction depth with
  | zero => exact fun event r => Keeps.bind (.of_modify fun t => heard t.listeners _) fun _ => .throw _
  | succ depth ih =>
    refine fun event r => Keeps.bind (.of_modify fun t => heard t.listeners _) fun _ =>
      .get fun t ht => ?_
    exact Keeps.bind (h.tell (h.offers trim ih) ih heard r _)
      (fun _ => .of_modify fun t => heard _ t.journal) t ht

end Upkeep

end Tray

end RollTray
