import RollTray.Attempt
import RollTray.Motion

/-!
# The world that dice live in

The tray does not move its dice itself. It talks to a world through the operations of the class
`World`: put a die into it and get a handle back, take one out, let time pass, and ask whether a
body has come to rest and which face is up. `Bodies` is what both worlds keep their dice in.
-/

namespace RollTray

class World (ω : Type) where
  /-- Puts a die of a kind into the world, as a tens die if the second value counts as set. Where
  no motion is given the world chooses one. -/
  spawn (kind tens : Value) (motion : Option Motion) : Attempt ω Nat
  remove (handle : Nat) : Attempt ω Unit
  /-- Lets so many seconds pass. -/
  step (dt : Num) : Attempt ω Unit
  /-- Whether the world has put a body to sleep. -/
  isSettled (w : ω) (handle : Nat) : Except Fault Bool
  /-- The face on top; null while it cannot be read. -/
  face (w : ω) (handle : Nat) : Except Fault Value
  motion (w : ω) (handle : Nat) : Except Fault Motion
  /-- Slows a body down that does not come to rest. -/
  damp (handle : Nat) (factor : Num) : Attempt ω Unit
  /-- Makes a body rest where it is. -/
  sleep (handle : Nat) : Attempt ω Unit
  /-- The handles of the bodies, in ascending order. -/
  handles (w : ω) : List Nat
  /-- The same world without its bodies, with faces that its next dice are to show. -/
  emptied (w : ω) (faces : List Value) : ω

/-- Bodies under their handles, in the order in which they came. -/
abbrev Bodies (β : Type) := List (Nat × β)

namespace Bodies

variable {β : Type}

def find? (handle : Nat) (bodies : Bodies β) : Option β :=
  bodies.lookup handle

/-- The body of a handle. -/
def get (handle : Nat) (bodies : Bodies β) : Except Fault β :=
  match find? handle bodies with
  | some body => .ok body
  | none => .error .missing

def set (handle : Nat) (body : β) (bodies : Bodies β) : Bodies β :=
  bodies.map fun other => if other.1 == handle then (handle, body) else other

def erase (handle : Nat) (bodies : Bodies β) : Bodies β :=
  bodies.filter fun other => other.1 != handle

def handles (bodies : Bodies β) : List Nat :=
  bodies.map Prod.fst

end Bodies

end RollTray
