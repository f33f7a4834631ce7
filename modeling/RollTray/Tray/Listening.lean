import RollTray.Tray.Rolling

/-!
# Listeners

Listeners wait for an event. When it happens it is noted down, and then each listener is told in
turn and reacts; its reaction may cause further events, which are told before the next listener.
Listeners that only wait for one event leave after it. If listeners keep each other busy, the
innermost event fails once they are nested too deep.

How deep is said by `deepest`. An event is nested in another one only if a listener that was told of that
one rolled or canceled in turn. So listeners that only look on never meet the bound, nor do listeners
whose chains of reactions come to an end before it. It is met where each reaction leads to a further one,
as with a listener that rolls whenever a roll begins, and such a chain has no end of its own.
-/

namespace RollTray.Tray

variable {ω : Type}

def note (notice : Notice) : Attempt (Tray ω) Unit :=
  modify fun t => { t with journal := t.journal ++ [notice] }

/-- Adds a listener after those that there are. -/
def listen (event : Event) (listener : Listener) : Attempt (Tray ω) Unit :=
  modify fun t => { t with
    listeners := fun e => if e = event then t.listeners e ++ [listener] else t.listeners e }

variable [World ω]

/-- What a listener does, given what is done about the events that this causes. -/
def react (notify : Notify ω) (r : Record) : Reaction → Attempt (Tray ω) Unit
  | .none => return ()
  | .cancel => discard (cancel notify r.id)
  | .clearTray => clearTray notify
  | .reroll => discard (reroll notify r.id)
  | .roll formula => discard (rollValue notify formula)

/-- Tells listeners of a roll: those that stay. -/
def tell (notify : Notify ω) (r : Record) : List Listener → Attempt (Tray ω) (List Listener)
  | [] => return []
  | listener :: rest => do
    note (.told listener.tag r.id)
    react notify r listener.reaction
    let later ← tell notify r rest
    return if listener.once then later else listener :: later

/-- Notes an event down and tells its listeners, who may cause events nested so deep. The listeners
that stay are those of the list that was there at first. -/
def announceWithin : Nat → Notify ω
  | 0, event, r => do
    note (.happened event r.id r.result)
    throw .endless
  | depth + 1, event, r => do
    note (.happened event r.id r.result)
    let staying ← tell (announceWithin depth) r ((← get).listeners event)
    modify fun t => { t with
      listeners := fun e => if e = event then staying else t.listeners e }

/-- How deep events may be nested. -/
def deepest : Nat := 200

/-- What the tray does when something happens to a roll. -/
def announce : Notify ω :=
  announceWithin deepest

end RollTray.Tray
