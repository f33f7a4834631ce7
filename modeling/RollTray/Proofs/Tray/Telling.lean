import Mathlib.Logic.Relation
import RollTray.Proofs.Tray.Undisturbed
import RollTray.Proofs.Tray.Uses

/-!
# Telling listeners

What listeners do when they are told, and whether they leave then, may depend on anything; a tray's own
listeners are a case of this (`announceBy_own`). They may use the tray in turn, so events are announced
in the middle of announcements.

`Advance` says what happens between a tray, the announcements that are under way and the log of all that
was announced, told and answered. `history_of_session` follows everything that is done with a tray in
such steps: listeners and the journal change in no other way.
-/

namespace RollTray.Tray

open Attempt (Keeps)

variable {ω : Type}

/-! ## What listeners may do -/

/-- What a listener does when it is told of a roll, given what is done about the events that this
causes, and whether it leaves then. -/
abbrev Behavior (ω : Type) :=
  Notify ω → Listener → Record → Attempt (Tray ω) Bool

/-- Tells listeners of a roll: those that stay. -/
def tellBy (behavior : Behavior ω) (notify : Notify ω) (r : Record) :
    List Listener → Attempt (Tray ω) (List Listener)
  | [] => return []
  | listener :: rest => do
    note (.told listener.tag r.id)
    let leaves ← behavior notify listener r
    let later ← tellBy behavior notify r rest
    return if leaves then later else listener :: later

/-- Notes an event down and tells its listeners, who may cause events nested so deep. -/
def announceBy (behavior : Behavior ω) : Nat → Notify ω
  | 0, event, r => do
    note (.happened event r.id r.result)
    throw .endless
  | depth + 1, event, r => do
    note (.happened event r.id r.result)
    let staying ← tellBy behavior (announceBy behavior depth) r ((← get).listeners event)
    modify fun t => { t with
      listeners := fun e => if e = event then staying else t.listeners e }

/-! ## What leaves listeners and the journal alone -/

/-- What is said of a tray holds of any other one with its listeners and its journal. -/
def Heard (I : Tray ω → Prop) : Prop :=
  ∀ {t t'}, I t → t'.listeners = t.listeners → t'.journal = t.journal → I t'

/-- Listeners use the tray: who listens, and what is noted down, they change only by what is done about
the events that they cause. -/
def Behavior.UsesTray (behavior : Behavior ω) : Prop :=
  ∀ (I : Tray ω → Prop) (notify : Notify ω), Heard I → (∀ event r, Keeps I (notify event r)) →
    ∀ listener r, Keeps I (behavior notify listener r)

/-! ## Announcements step by step -/

/-- What is known of an announcement, which has a number. -/
inductive Entry where
  | began (number : Nat) (event : Event) (r : Record)
  | told (number : Nat) (event : Event) (listener : Listener) (r : Record)
  /-- The listener is done, and leaves or stays. -/
  | answered (number : Nat) (event : Event) (listener : Listener) (leaves : Bool)
  | ended (number : Nat) (event : Event) (broken : Bool)

/-- An announcement that is under way. -/
structure Frame (ω : Type) where
  number : Nat
  event : Event
  record : Record
  /-- The listeners that answered and stay. -/
  kept : List Listener
  /-- The listener that was told and is not done, and the tray that it was told on. -/
  current : Option (Listener × Tray ω)
  /-- The listeners that are still to be told. -/
  waiting : List Listener

/-- How far everything has come: the tray, the announcements that are under way with the innermost one
first, all that was announced, told and answered, and the number of the next announcement. -/
structure Progress (ω : Type) where
  tray : Tray ω
  frames : List (Frame ω)
  log : List Entry
  next : Nat

/-- The tray with a listener noted down that is told of a roll. -/
def hinted (t : Tray ω) (listener : Listener) (r : Record) : Tray ω :=
  { t with journal := t.journal ++ [.told listener.tag r.id] }

/-- One step of all that is done with a tray. -/
inductive Advance (behavior : Behavior ω) : Progress ω → Progress ω → Prop where
  /-- Something that neither concerns listeners nor is noted down. -/
  | aside {t t' frames log next} (listeners : t'.listeners = t.listeners)
      (journal : t'.journal = t.journal) :
      Advance behavior ⟨t, frames, log, next⟩ ⟨t', frames, log, next⟩
  /-- An event is announced: by an operation or by a listener that was told. -/
  | begin {t frames log next} (event : Event) (r : Record)
      (busy : ∀ f ∈ frames.head?, f.current.isSome) :
      Advance behavior ⟨t, frames, log, next⟩
        ⟨t.noted event r, ⟨next, event, r, [], none, t.listeners event⟩ :: frames,
          log ++ [.began next event r], next + 1⟩
  | tell {t number event r kept listener waiting frames log next} :
      Advance behavior ⟨t, ⟨number, event, r, kept, none, listener :: waiting⟩ :: frames, log, next⟩
        ⟨t.hinted listener r,
          ⟨number, event, r, kept, some (listener, t.hinted listener r), waiting⟩ :: frames,
          log ++ [.told number event listener r], next⟩
  /-- What was done since the listener was told is what it does, and so is its answer. -/
  | answer {t s number event r kept listener waiting frames log next} (depth : Nat) (leaves : Bool)
      (returns : (behavior (announceBy behavior depth) listener r).perform s = (.ok leaves, t)) :
      Advance behavior
        ⟨t, ⟨number, event, r, kept, some (listener, s), waiting⟩ :: frames, log, next⟩
        ⟨t, ⟨number, event, r, if leaves then kept else kept ++ [listener], none, waiting⟩ :: frames,
          log ++ [.answered number event listener leaves], next⟩
  /-- All listeners were told. Those that are kept are the event's listeners now. -/
  | finish {t number event r kept frames log next} :
      Advance behavior ⟨t, ⟨number, event, r, kept, none, []⟩ :: frames, log, next⟩
        ⟨{ t with listeners := fun e => if e = event then kept else t.listeners e }, frames,
          log ++ [.ended number event false], next⟩
  /-- The listener that was told fails, or announcements are nested too deep. -/
  | breakOff {t f frames log next}
      (fails : ∀ listener s, f.current = some (listener, s) → ∃ depth fault,
        (behavior (announceBy behavior depth) listener f.record).perform s = (.error fault, t)) :
      Advance behavior ⟨t, f :: frames, log, next⟩
        ⟨t, frames, log ++ [.ended f.number f.event true], next⟩

variable {behavior : Behavior ω} {start : Tray ω} {frames : List (Frame ω)}

variable [World ω]

variable {I : Tray ω → Prop} {notify : Notify ω}

theorem Heard.upkeep (h : Heard I) : Upkeep I where
  around ht _ _ _ _ _ _ hlisteners hjournal := h ht hlisteners hjournal
  leave _ ht _ := h ht rfl rfl
  begin _ ht := h ht rfl rfl
  write _ _ ht := h ht rfl rfl
  takeOff taken t ht := by
    obtain ⟨world, dice, hperform⟩ := takeOff_perform_snd taken t
    rw [hperform]
    exact h ht rfl rfl
  addThrow throw _ := keeps_addThrow (fun _ _ ht => h ht rfl rfl) throw
  throwNext ht _ _ := by
    refine Keeps.bind (.within fun _ ht => h ht rfl rfl) (fun _ => keeps_throwDie ?_) _ ht
    refine Keeps.bind (.within fun _ ht => h ht rfl rfl) fun _ => ?_
    exact .bind (.within fun _ ht => h ht rfl rfl) fun _ => .get fun _ ht => h ht rfl rfl
  step _ := .within fun _ ht => h ht rfl rfl

theorem Heard.offers (h : Heard I) (hn : ∀ event r, Keeps I (notify event r)) : Offers notify I :=
  h.upkeep.offers (fun _ ht => h ht rfl rfl) hn

/-- Whatever is done changes listeners and the journal only by what is done about events. -/
theorem Heard.deed (h : Heard I) (hn : ∀ event r, Keeps I (notify event r)) (deed : Deed) :
    Keeps I (deed.attempt notify) := by
  refine h.upkeep.deed hn (fun _ ht => h ht rfl rfl) (fun _ ht => h ht rfl rfl)
    (fun _ => .of_modify fun _ ht => h ht rfl rfl) (keeps_placeDie fun _ _ ht => h ht rfl rfl)
    (fun _ => keeps_addThrow (fun _ _ ht => h ht rfl rfl) _) deed

/-- Listeners that do some things to the tray, one after the other, and leave or stay as their answers are
for a roll. -/
theorem usesTray_deeds (deeds : Listener → Record → List Deed) (leaves : Listener → Record → Bool) :
    Behavior.UsesTray (ω := ω) fun notify listener r => do
      (deeds listener r).forM fun deed => deed.attempt notify
      return leaves listener r := fun _ _ h hn _ _ =>
  (Keeps.forM fun deed _ => h.deed hn deed).bind fun _ => .pure _

end RollTray.Tray
