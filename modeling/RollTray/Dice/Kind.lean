/-!
# Kinds of dice

The eight dice of the tray. A d100 is thrown as two physical dice, one for the tens and one for
the units; every other die is one.
-/

namespace RollTray

inductive DieKind where
  | d2
  | d4
  | d6
  | d8
  | d10
  | d12
  | d20
  | d100
  deriving DecidableEq, Repr

namespace DieKind

/-- All kinds, by their number of faces. -/
def all : List DieKind :=
  [d2, d4, d6, d8, d10, d12, d20, d100]

def faces : DieKind → Nat
  | d2 => 2
  | d4 => 4
  | d6 => 6
  | d8 => 8
  | d10 => 10
  | d12 => 12
  | d20 => 20
  | d100 => 100

def name : DieKind → String
  | d2 => "d2"
  | d4 => "d4"
  | d6 => "d6"
  | d8 => "d8"
  | d10 => "d10"
  | d12 => "d12"
  | d20 => "d20"
  | d100 => "d100"

/-- The kind with a number of faces, if there is one. -/
def ofSides? (sides : Int) : Option DieKind :=
  all.find? fun kind => kind.faces = sides

def ofName? (name : String) : Option DieKind :=
  all.find? fun kind => kind.name = name

/-- For each physical die that one die of the kind is thrown as, whether it is the tens half. -/
def halves : DieKind → List Bool
  | d100 => [true, false]
  | _ => [false]

theorem mem_all (kind : DieKind) : kind ∈ all := by
  cases kind <;> simp [all]

theorem ofSides?_faces (kind : DieKind) : ofSides? kind.faces = some kind := by
  cases kind <;> rfl

theorem ofName?_name (kind : DieKind) : ofName? kind.name = some kind := by
  cases kind <;> decide

theorem faces_of_ofSides? {sides : Int} {kind : DieKind} (h : ofSides? sides = some kind) :
    kind.faces = sides := by
  simpa using List.find?_some h

end DieKind

end RollTray
