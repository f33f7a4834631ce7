import RollTray.Proofs.Tray.Ticking
import RollTray.Tray.Listening
import RollTray.World.Scripted

/-!
# Operations

What can be done with a tray from outside (`Operation`), and the trays that there are at first
(`Fresh`). Whatever is done about events, an operation is made up of changes (`Operation.does`).
-/

namespace RollTray.Tray

variable {ω : Type}

/-- A tray on which nothing has happened yet. -/
structure Fresh (t : Tray ω) : Prop where
  history : t.history = []
  active : t.active = []
  watermark : t.watermark = .null
  pending : t.pending = #[]
  dice : t.dice = []
  serial : t.nextSerial = 0
  journal : t.journal = []

/-- An empty tray in a world moved by hand. -/
def vacant : Tray ScriptedWorld := { world := {} }

theorem fresh_vacant : Fresh vacant := ⟨rfl, rfl, rfl, rfl, rfl, rfl, rfl⟩

/-- A tray in a world moved by hand, after something was done to the bodies. -/
def byHand (a : Attempt ScriptedWorld Unit) (t : Tray ScriptedWorld) : Tray ScriptedWorld :=
  { t with world := (a.perform t.world).2 }

/-- What can be done with a tray. Ids are integers, and a formula that is begun was compiled. -/
inductive Operation where
  | roll (formula : String)
  | beginRoll (source : String) (compiled : Formula.Compiled)
      (h : Formula.compile source = .ok compiled) (label : String)
  | rollDie (kind : String)
  | reroll (id : Int)
  | clearAndRoll (formula : String)
  | cancel (id : Int)
  | clearTray
  | clearHistory
  | prune
  | tick (dt : Num)
  | run (dt : Num) (limit : Nat)

variable [World ω]

/-- The operation without its answer. -/
def Operation.attempt (notify : Notify ω) : Operation → Attempt (Tray ω) Unit
  | .roll formula => discard (Tray.roll notify formula)
  | .beginRoll _ compiled _ label => discard (Tray.beginRoll notify compiled label)
  | .rollDie kind => discard (Tray.rollDie notify kind)
  | .reroll id => discard (Tray.reroll notify (.int id))
  | .clearAndRoll formula => discard (Tray.clearAndRoll notify (.text formula))
  | .cancel id => discard (Tray.cancel notify (.int id))
  | .clearTray => Tray.clearTray notify
  | .clearHistory => Tray.clearHistory notify
  | .prune => Tray.prune notify
  | .tick dt => discard (Tray.tick notify dt)
  | .run dt limit => discard (Tray.run notify dt limit)

/-- The tray after some operations, if they return. -/
def performAll (notify : Notify ω) : List Operation → Tray ω → Option (Tray ω)
  | [], t => some t
  | op :: rest, t =>
    match (op.attempt notify).perform t with
    | (.ok _, t') => performAll notify rest t'
    | (.error _, _) => none

theorem performAll_singleton {notify : Notify ω} {op : Operation} {t t' : Tray ω}
    (h : performAll notify [op] t = some t') :
    (op.attempt notify).perform t = (.ok (), t') := by
  rw [performAll] at h
  split at h
  · next hperform =>
    cases h
    exact hperform
  · cases h

/-- Whether time passes in the operation. -/
def Operation.ticks : Operation → Bool
  | .tick _ => true
  | .run _ _ => true
  | _ => false

variable {S : Setting ω} {owed : Owed} {t : Tray ω} {notify : Notify ω}

/-- A fresh tray is orderly. -/
theorem Fresh.orderly (fresh : Fresh t) (start : S.start = t.nextId) (holds : S.Holds t.world [])
    (quiet : S.quiet t.listeners) : Orderly S (fun _ => []) t := by
  obtain ⟨hhistory, hactive, hwatermark, hpending, hdice, hserial, _⟩ := fresh
  have hrolls : t.history ++ t.active = [] := by rw [hhistory, hactive, List.append_nil]
  exact {
    nextId := by rw [hserial, start]; exact (Int.add_zero _).symm
    issued := fun r hr => nomatch hrolls ▸ hr
    sound := fun r hr => nomatch hrolls ▸ hr
    history := hhistory ▸ .nil
    active := hactive ▸ .nil
    agree := fun r hr => nomatch hhistory ▸ hr
    watermark := .inl hwatermark
    pending := fun throw h => by rw [hpending] at h; nomatch h
    dice := fun d hd => nomatch hdice ▸ hd
    holds := by rw [hdice]; exact holds
    quiet
    unused := fun _ _ => rfl
    accounted := fun _ => {
      watermark := fun n hn => by rw [hwatermark] at hn; nomatch hn
      sites := fun r hr => nomatch hactive ▸ hr
      resolved := fun r hr => nomatch hrolls ▸ hr } }

/-- To announce an event is to note it down and tell the listeners. -/
theorem announceWithin_succ (depth : Nat) (event : Event) (r : Record) (t : Tray ω) :
    (announceWithin (depth + 1) event r).perform t =
      (do
        let staying ← tell (announceWithin depth) r (t.listeners event)
        modify fun t => { t with
          listeners := fun e => if e = event then staying else t.listeners e } :
          Attempt (Tray ω) Unit).perform (t.noted event r) := by
  rw [announceWithin, note, Attempt.perform_bind_of_ok (Attempt.perform_modify _ t),
    Attempt.perform_bind_of_ok (Attempt.perform_get _)]
  rfl

theorem Does.discard_tidy {α : Type} {a : Attempt (Tray ω) α}
    (h : Does S owed t a fun _ => Tidy S owed t) :
    Does S owed t (Functor.discard a) fun _ => Tidy S owed t :=
  h.discard.mono fun _ _ _ _ ⟨_, h⟩ => h

/-- What an operation does; in an exact setting, if no time passes in it. -/
theorem Operation.does (hn : Heeds S notify) (op : Operation) (h : S.Exact → op.ticks = false) :
    Does S owed t (op.attempt notify) fun _ => Tidy S owed t := by
  cases op with
  | roll formula => exact (roll_tidy hn formula).discard_tidy
  | beginRoll source compiled hcompiled label =>
    exact (beginRoll_tidy hn hcompiled label).discard_tidy
  | rollDie kind => exact (rollDie_tidy hn kind).discard_tidy
  | reroll id => exact (reroll_tidy hn _).discard_tidy
  | clearAndRoll formula => exact (clearAndRoll_tidy hn _).discard_tidy
  | cancel id => exact (cancel_tidy hn id).discard_tidy
  | clearTray => exact clearTray_tidy hn
  | clearHistory => exact clearHistory_tidy hn
  | prune => exact prune_tidy hn
  | tick dt =>
    have hexact : ¬S.Exact := fun hexact => nomatch h hexact
    exact (tick_does hn hexact dt).discard.mono fun _ _ _ _ _ h => absurd h hexact
  | run dt limit =>
    have hexact : ¬S.Exact := fun hexact => nomatch h hexact
    exact (run_does hn hexact dt limit).discard.mono fun _ _ _ _ _ h => absurd h hexact

end RollTray.Tray
