import Mathlib.Data.Set.Defs
import RollTray.Proofs.Tray.Keeping
import RollTray.Proofs.Tray.LifeCycle
import RollTray.Proofs.Tray.Operations
import RollTray.Proofs.World.Footings

/-!
# Runs that anybody may interfere with

`Reach` relates a tray to those that can come after it if whoever is told of an event may use the
tray in turn, in the middle of operations, or fail. It is `ReachLabeled`, in which rolls are given only
some labels, for all of them. Listeners are a case of both (`reactsLabeled_announceWithin`).

`lives_of_reach` says that in all such runs each roll gets its result at most once, is canceled at
most once and gets no result after that, that a roll which is not active stays so and no die of it is
thrown, and that a record with a result does not change.
-/

namespace RollTray.Tray

open Attempt (Keeps)

variable {ω : Type} [World ω]

/-- If the operation labels a roll, then with one of these. -/
def Operation.LabeledIn (labels : Set String) : Operation → Prop
  | .beginRoll _ _ _ label => label = "" ∨ label ∈ labels
  | _ => True

/-- The trays that can come after one where rolls are given no labels but these. Operations are made, with
any outcome, and whoever is told of an event does the like. The bodies, the source of chance and the
listeners may change in between, as long as the world keeps up its dice. As whoever is told may fail at
once, the trays in the middle of operations that they are told in are among those that are reached. -/
inductive ReachLabeled (F : Footing ω) (labels : Set String) : Tray ω → Tray ω → Prop where
  | refl {t} : ReachLabeled F labels t t
  /-- An operation, whether it returns or not. -/
  | act {t t'} (reach : ReachLabeled F labels t t') (op : Operation) (labeled : op.LabeledIn labels)
      (notify : Notify ω)
      (reacts : ∀ event r s, (∃ n, r.id = .int n) →
        ReachLabeled F labels (s.noted event r) ((notify event r).perform s).2) :
      ReachLabeled F labels t ((op.attempt notify).perform t').2
  /-- Something is done to the bodies, to the source of chance or about the listeners. -/
  | outside {t t'} (reach : ReachLabeled F labels t t') (world : ω) (chance : Chance)
      (listeners : Event → List Listener)
      (holds : F.holds t'.world (t'.dice.map Die.handle) → F.holds world (t'.dice.map Die.handle)) :
      ReachLabeled F labels t { t' with world, chance, listeners }
  /-- A listener is told of a roll. -/
  | told {t t'} (reach : ReachLabeled F labels t t') (tag id : Value) :
      ReachLabeled F labels t { t' with journal := t'.journal ++ [.told tag id] }

/-- The trays that can come after one, whatever rolls are labeled. -/
abbrev Reach (F : Footing ω) : Tray ω → Tray ω → Prop :=
  ReachLabeled F Set.univ

/-- What may be done about events when anybody may interfere but give rolls other labels. -/
def ReactsLabeled (F : Footing ω) (labels : Set String) (notify : Notify ω) : Prop :=
  ∀ event r s, (∃ n, r.id = .int n) →
    ReachLabeled F labels (s.noted event r) ((notify event r).perform s).2

/-- What may be done about events when anybody may interfere. -/
abbrev Reacts (F : Footing ω) : Notify ω → Prop :=
  ReactsLabeled F Set.univ

variable {F : Footing ω} {labels : Set String} {t t' t'' : Tray ω} {notify : Notify ω}

theorem Operation.labeledIn_univ (op : Operation) : op.LabeledIn Set.univ := by
  cases op with
  | beginRoll => exact .inr trivial
  | _ => trivial

/-- What is kept by all operations, if it is by whoever is told of events, holds whoever interferes. -/
theorem ReachLabeled.keeps {I : Tray ω → Prop}
    (around : ∀ {t} (world : ω) (chance : Chance) (listeners : Event → List Listener)
      (journal : List Notice), I t → I { t with world, chance, listeners, journal })
    (operation : ∀ (op : Operation) (notify : Notify ω), op.LabeledIn labels →
      (∀ event r, (∃ n, r.id = .int n) → Keeps I (notify event r)) → Keeps I (op.attempt notify))
    (run : ReachLabeled F labels t t') : I t → I t' := by
  induction run with
  | refl => exact id
  | act _ op labeled notify _ ih ihreacts =>
    refine fun h => operation op notify labeled (fun event r hid s hs => ?_) _ (ih h)
    exact ihreacts event r s hid (around s.world s.chance s.listeners _ hs)
  | outside _ world chance listeners _ ih => exact fun h => around world chance listeners _ (ih h)
  | told _ tag id ih => exact fun h => around _ _ _ _ (ih h)

/-! ## Listeners -/

/-- No reaction of a listener gives a roll a label. -/
theorem keeps_react (h : ReactsLabeled F labels notify) {r : Record} (hid : ∃ n, r.id = .int n)
    (reaction : Reaction) : Keeps (ReachLabeled F labels t) (react notify r reaction) := by
  obtain ⟨n, hid⟩ := hid
  cases reaction with
  | none => exact .pure _
  | cancel =>
    rw [react, hid]
    exact fun _ reach => .act reach (.cancel n) trivial notify h
  | clearTray => exact fun _ reach => .act reach .clearTray trivial notify h
  | reroll =>
    rw [react, hid]
    exact fun _ reach => .act reach (.reroll n) trivial notify h
  | roll formula =>
    cases formula with
    | text formula => exact fun _ reach => .act reach (.roll formula) trivial notify h
    | _ => exact (Keeps.throw _).discard

theorem keeps_tell (h : ReactsLabeled F labels notify) {r : Record} (hid : ∃ n, r.id = .int n)
    (told : List Listener) : Keeps (ReachLabeled F labels t) (tell notify r told) := by
  induction told with
  | nil => exact .pure _
  | cons listener rest ih =>
    have htold : Keeps (ReachLabeled F labels t) (note (.told listener.tag r.id)) :=
      .of_modify fun _ reach => .told reach listener.tag r.id
    exact htold.bind fun _ => (keeps_react h hid _).bind fun _ => ih.bind fun _ => .pure _

/-- Whatever the listeners are and however deep events are nested. -/
theorem reactsLabeled_announceWithin (labels : Set String) (depth : Nat) :
    ReactsLabeled F labels (announceWithin depth : Notify ω) := by
  induction depth with
  | zero => exact fun event r s _ => .refl
  | succ depth ih =>
    intro event r s hid
    rw [announceWithin_succ]
    refine Keeps.bind (keeps_tell ih hid _) (fun staying => ?_) _ .refl
    exact .of_modify fun t' reach => reach.outside t'.world t'.chance _ id

/-! ## What such runs are made of -/

/-- The setting of runs that anybody may interfere with. -/
def amid (F : Footing ω) (start : Int) : Setting ω where
  start
  footing? := some F
  quiet _ := True

variable {start : Int}

theorem not_exact_amid : ¬(amid F start).Exact := fun h => nomatch h

theorem holds_amid {w : ω} {handles : List Nat} :
    (amid F start).Holds w handles ↔ F.holds w handles :=
  ⟨fun h => h F rfl, fun h F' hF' => by cases hF'; exact h⟩

theorem ReachLabeled.trace {owed : Owed} (reach : ReachLabeled F labels t t')
    (ho : Orderly (amid F start) owed t) : ∃ owed', Trace (amid F start) t owed t' owed' := by
  induction reach generalizing owed with
  | refl => exact ⟨owed, .refl⟩
  | act _ op _ notify _ ih ihreacts =>
    obtain ⟨owed₁, trace₁⟩ := ih ho
    have hn : Heeds (amid F start) notify := {
      exact := fun h => absurd h not_exact_amid
      loose := fun _ event r s _ hid hs =>
        ihreacts event r s hid (hs.around _ _ _ _ _ _ _ hs.holds trivial) }
    obtain ⟨owed₂, trace₂, _⟩ := op.does hn (fun h => absurd h not_exact_amid) (trace₁.orderly ho)
      fun h => absurd h not_exact_amid
    exact ⟨owed₂, trace₁.trans trace₂⟩
  | outside _ world chance listeners holds ih =>
    obtain ⟨owed₁, trace⟩ := ih ho
    have hholds := holds_amid.1 (trace.orderly ho).holds
    rename_i t' _
    have hchange : Change (amid F start) .calm t' owed₁ _ owed₁ :=
      .around world chance t'.clock t'.formula t'.nextThrow listeners (t'.journal ++ [])
        (holds_amid.2 (holds hholds)) trivial (.inr ⟨[], rfl, fun _ h => nomatch h⟩)
    rw [List.append_nil] at hchange
    exact ⟨owed₁, .step trace hchange fun _ => rfl⟩
  | told _ tag id ih =>
    obtain ⟨owed₁, trace⟩ := ih ho
    rename_i t' _
    have hchange := Change.around_journal (trace.orderly ho) t'.listeners _ trivial
      (.inr ⟨[.told tag id], rfl, fun notice h => by rw [List.mem_singleton.1 h]; trivial⟩)
    exact ⟨owed₁, .step trace hchange fun _ => rfl⟩

theorem ReactsLabeled.heeds (h : ReactsLabeled F labels notify) : Heeds (amid F start) notify where
  exact hexact := absurd hexact not_exact_amid
  loose _ event r s _ hid hs :=
    (h event r s hid).trace (hs.around _ _ _ _ _ _ _ hs.holds trivial)

/-! ## The lives of rolls -/

/-- What is known of rolls from one tray to a later one. -/
structure Lives (t t' : Tray ω) : Prop where
  /-- A roll that is not active does not become active again, and its dice are not thrown. -/
  gone : ∀ n < t.nextId, t.isActive (.int n) = false →
    t'.isActive (.int n) = false ∧ ∀ dt, ((proceed dt).perform t').2.diceOf (.int n) = []
  /-- A roll that is not active and has no result gets none. -/
  unresolved : ∀ r ∈ t.history, r.record.resolved = false → t.isActive r.id = false →
    t'.isActive r.id = false ∧ ∀ r' ∈ t'.history, r'.id = r.id → r'.record.resolved = false
  /-- A record with a result stays as it is. -/
  resolved : ∀ r ∈ t.history ++ t.active, r.record.resolved = true →
    ∀ r' ∈ t'.history ++ t'.active, r'.id = r.id → r'.record = r.record

variable {S : Setting ω} {owed owed' : Owed}

/-- A roll that is not active has no dice on the tray. -/
theorem Orderly.diceOf_of_inactive (ho : Orderly S owed t) {n : Int}
    (h : t.isActive (.int n) = false) : t.diceOf (.int n) = [] := by
  refine List.filter_eq_nil_iff.2 fun d hd hsame => ?_
  obtain ⟨r, hr, hroll⟩ := ho.dice d hd
  rw [hroll, Setting.id, Value.same_int, decide_eq_true_iff] at hsame
  rw [(isActive_int ho).2 ⟨r, hr, hsame⟩] at h
  cases h

theorem Later.inactive (later : Later t t') (ho : Orderly S owed t) (ho' : Orderly S owed' t')
    {n : Int} (hissued : n < t.nextId) (h : t.isActive (.int n) = false) :
    t'.isActive (.int n) = false := by
  refine Bool.eq_false_iff.2 fun hactive => ?_
  obtain ⟨r', hr', hid'⟩ := (isActive_int ho').1 hactive
  obtain ⟨r, hr, hserial⟩ := later.active r' hr' (by have := ho.nextId; omega)
  rw [(isActive_int ho).2 ⟨r, hr, by omega⟩] at h
  cases h

theorem Later.lives (later : Later t t') (ho : Orderly (amid F start) owed t)
    (ho' : Orderly (amid F start) owed' t') : Lives t t' := by
  -- Rolls of one id have one serial number.
  have hserial : ∀ r ∈ t.history ++ t.active, ∀ r' ∈ t'.history ++ t'.active, r'.id = r.id →
      r'.serial = r.serial ∧ r'.serial < t.nextSerial := by
    intro r hr r' hr' heq
    rw [ho.id_eq hr, ho'.id_eq hr'] at heq
    exact ⟨id_inj heq, id_inj heq ▸ (ho.issued r hr).1⟩
  have hgone : ∀ n < t.nextId, t.isActive (.int n) = false → t'.isActive (.int n) = false :=
    fun n hn h => later.inactive ho ho' hn h
  refine ⟨fun n hn h => ⟨hgone n hn h, fun dt => ?_⟩, fun r hr hnone h => ⟨?_, ?_⟩, ?_⟩
  · obtain ⟨owed'', trace, _⟩ := proceed_does dt ho' fun hexact => absurd hexact not_exact_amid
    have hlater := trace.later ho'
    refine (trace.orderly ho').diceOf_of_inactive ?_
    refine hlater.inactive ho' (trace.orderly ho') ?_ (hgone n hn h)
    have := later.nextSerial
    rw [ho.nextId] at hn
    rw [ho'.nextId]
    omega
  · have hlt := (ho.issued r (List.mem_append_left _ hr)).1
    rw [ho.id_eq (List.mem_append_left _ hr)] at h ⊢
    refine hgone _ ?_ h
    rw [ho.nextId]
    omega
  · intro r' hr' heq
    obtain ⟨hsame, hlt⟩ := hserial r (List.mem_append_left _ hr) r' (List.mem_append_left _ hr') heq
    obtain ⟨x, hx, hxserial, _, hunresolved⟩ := later.rolls r' (List.mem_append_left _ hr') hlt
    obtain rfl := ho.eq_of_serial hx (List.mem_append_left _ hr) (hxserial.trans hsame)
    refine hunresolved hnone fun other hother heq => ?_
    rw [ho.id_eq (List.mem_append_left _ hr), (isActive_iff ho).2 ⟨other, hother, heq⟩] at h
    cases h
  · intro r hr hresolved r' hr' heq
    obtain ⟨hsame, hlt⟩ := hserial r hr r' hr' heq
    obtain ⟨x, hx, hxserial, hkept, _⟩ := later.rolls r' hr' hlt
    obtain rfl := ho.eq_of_serial hx hr (hxserial.trans hsame)
    exact hkept hresolved

theorem Fresh.recorded (fresh : Fresh t) : Recorded S t where
  apart := fresh.journal ▸ .nil
  issued _ _ _ h := by
    rw [fresh.journal] at h
    nomatch h
  resolved _ _ h := by
    rw [fresh.journal] at h
    nomatch h
  canceled _ _ h := by
    rw [fresh.journal] at h
    nomatch h

/-- Whoever interferes with a tray, each roll gets its result at most once, is canceled at most once
and gets no result after that. Once it is not active it stays so, gets no result and its dice are not
thrown; and once it has a result, its record stays as it is. -/
theorem lives_of_reach {t₀ : Tray ω} (fresh : Fresh t₀) (holds : F.holds t₀.world [])
    (before : Reach F t₀ t) (after : Reach F t t') :
    t'.journal.Pairwise (fun notice notice' => ¬notice.Forbids notice') ∧ Lives t t' := by
  have ho₀ : Orderly (amid F t₀.nextId) (fun _ => []) t₀ :=
    fresh.orderly rfl (holds_amid.2 holds) trivial
  obtain ⟨owed, trace⟩ := before.trace ho₀
  have ho := trace.orderly ho₀
  obtain ⟨owed', trace'⟩ := after.trace ho
  have hrecorded := (trace.trans trace').recorded not_exact_amid ho₀ fresh.recorded
  exact ⟨hrecorded.apart, (trace'.later ho).lives ho (trace'.orderly ho)⟩

theorem reachLabeled_of_performAll {ops : List Operation}
    (hlabels : ∀ op ∈ ops, op.LabeledIn labels) (run : ReachLabeled F labels t t')
    (h : performAll announce ops t' = some t'') : ReachLabeled F labels t t'' := by
  induction ops generalizing t' with
  | nil =>
    cases h
    exact run
  | cons op rest ih =>
    obtain ⟨hop, hrest⟩ := List.forall_mem_cons.1 hlabels
    rw [performAll] at h
    split at h
    · next hperform =>
      have hact := run.act op hop announce (reactsLabeled_announceWithin labels deepest)
      rw [hperform] at hact
      exact ih hrest hact h
    · cases h

theorem reach_of_performAll {ops : List Operation} (h : performAll announce ops t = some t') :
    Reach F t t' :=
  reachLabeled_of_performAll (fun op _ => op.labeledIn_univ) .refl h

/-- An empty tray with a listener that rolls again in the middle of every cancellation. -/
def restless : Tray ScriptedWorld :=
  { vacant with
    listeners := fun event =>
      if event = .canceled then
        [{ tag := .text "again", once := false, reaction := .roll (.text "d6") }]
      else [] }

/-- The roll that was canceled stays so while another one takes its place. -/
theorem lives_after_canceling :
    ∃ t t', performAll announce [.roll "2d20", .cancel 0] restless = some t ∧
      performAll announce [.tick (.float (-1)), .clearHistory] t = some t' ∧
      t'.active.length = 1 ∧
      t'.journal.Pairwise (fun notice notice' => ¬notice.Forbids notice') ∧ Lives t t' := by
  have hactive :
      ((performAll announce [.roll "2d20", .cancel 0] restless).bind
        (performAll announce [.tick (.float (-1)), .clearHistory])).map (fun t => t.active.length) =
          some 1 := by decide +kernel
  obtain ⟨t', ht', hactive⟩ := Option.map_eq_some_iff.1 hactive
  obtain ⟨t, ht, ht'⟩ := Option.bind_eq_some_iff.1 ht'
  refine ⟨t, t', ht, ht', hactive, ?_⟩
  exact lives_of_reach (F := ScriptedWorld.footing) ⟨rfl, rfl, rfl, rfl, rfl, rfl, rfl⟩
    (ScriptedWorld.bears_nil _) (reach_of_performAll ht) (reach_of_performAll ht')

end RollTray.Tray
