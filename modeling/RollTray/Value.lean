import RollTray.Number

/-!
# Loosely typed data

What a saved tray or a configuration may hold, before anything is known about it. Saved fields are
taken over as they are, so the tray's own records hold such values, and every operation on them
says what it does for each kind: `num`, `toInt`, `toFloat` and `items` read a value as something
else, `same` and `lt` compare, `sameKey` tells keys and items apart, and `truthy` decides whether a
value counts as set.
-/

namespace RollTray

inductive Value where
  | null
  | bool (b : Bool)
  | int (n : Int)
  | float (x : Float)
  /-- The float that is no number, as a saved text names it. It equals no number, not even itself,
  but as all texts name the same one it is found again as a key. -/
  | notANumber
  | text (s : String)
  | list (items : List Value)
  | object (fields : List (String × Value))
  deriving Repr, Inhabited

namespace Value

/-- A number as a value. -/
def ofNum : Num → Value
  | .int n => int n
  | .float x => float x

/-- The value as a number: integers, floats, and truth values as one and zero. -/
def num? : Value → Option Num
  | bool b => some (.int (if b then 1 else 0))
  | int n => some (.int n)
  | float x => some (.float x)
  | notANumber => some (.float (0.0 / 0.0))
  | _ => none

def num (v : Value) : Except Fault Num :=
  match v.num? with
  | some n => .ok n
  | none => .error .mistyped

/-- A value that counts as set: anything but null, false, zero and what is empty. -/
def truthy : Value → Bool
  | null => false
  | bool b => b
  | int n => n != 0
  | float x => !(x == 0)
  | notANumber => true
  | text s => s != ""
  | list items => !items.isEmpty
  | object fields => !fields.isEmpty

/-- A value that counts as set, or zero. -/
def orZero (v : Value) : Value :=
  if v.truthy then v else int 0

def isNull : Value → Bool
  | null => true
  | _ => false

/-! ## Fields and items -/

/-- The value under a key. -/
def lookup? (key : String) : List (String × Value) → Option Value
  | [] => none
  | (k, v) :: rest => if k = key then some v else lookup? key rest

/-- Puts a value under a key: in place of the one that is there, or at the end. -/
def insertField (key : String) (v : Value) : List (String × Value) → List (String × Value)
  | [] => [(key, v)]
  | (k, w) :: rest => if k = key then (k, v) :: rest else (k, w) :: insertField key v rest

/-- The object of a list of fields, in which a later field replaces an earlier one of its key. -/
def ofFields (fields : List (String × Value)) : Value :=
  object (fields.foldl (fun acc field => insertField field.1 field.2 acc) [])

/-- The field of an object. Other kinds of values have no fields. -/
def field (v : Value) (key : String) : Except Fault Value :=
  match v with
  | object fields =>
    match lookup? key fields with
    | some v => .ok v
    | none => .error .missing
  | _ => .error .mistyped

/-- The field of an object, or another value if it has none. -/
def fieldD (v : Value) (key : String) (default : Value) : Value :=
  match v with
  | object fields => (lookup? key fields).getD default
  | _ => default

/-- The items of a list, the keys of an object or the characters of a text. -/
def items : Value → Except Fault (List Value)
  | list items => .ok items
  | object fields => .ok (fields.map fun field => text field.1)
  | text s => .ok (s.toList.map fun c => text (String.singleton c))
  | _ => .error .mistyped

/-! ## Reading a value as a number -/

/-- The value as an integer: floats are cut, texts are read. -/
def toInt : Value → Except Fault Int
  | bool b => .ok (if b then 1 else 0)
  | int n => .ok n
  | float x => (Num.float x).truncate
  | notANumber => .error .unreadable
  | text s =>
    match readInt s with
    | some n => .ok n
    | none => .error .unreadable
  | _ => .error .mistyped

/-- The value as a float: integers are rounded, texts are read. -/
def toFloat : Value → Except Fault Float
  | bool b => .ok (if b then 1 else 0)
  | int n => (Num.int n).toFloat
  | float x => .ok x
  | notANumber => .ok (0.0 / 0.0)
  | text s =>
    match readFloat s with
    | some x => .ok x
    | none => .error .unreadable
  | _ => .error .mistyped

/-! ## Comparison -/

/-- Whether both values are what texts name as no number. -/
def bothUndefined : Value → Value → Bool
  | notANumber, notANumber => true
  | _, _ => false

mutual

/-- Equality: of numbers whatever their kind, of lists item by item, of objects key by key. -/
def same : Value → Value → Bool
  | list xs, list ys => sameItems xs ys
  | object xs, object ys => xs.length == ys.length && sameFields xs ys
  | null, null => true
  | text a, text b => a == b
  | a, b =>
    match a.num?, b.num? with
    | some m, some n => m.same n
    | _, _ => false

def sameItems : List Value → List Value → Bool
  | [], [] => true
  | x :: xs, y :: ys => (bothUndefined x y || same x y) && sameItems xs ys
  | _, _ => false

/-- Whether each of the first fields has an equal one under its key among the second. -/
def sameFields : List (String × Value) → List (String × Value) → Bool
  | [], _ => true
  | (key, v) :: rest, ys =>
    (match lookup? key ys with
      | some w => bothUndefined v w || same v w
      | none => false) && sameFields rest ys

end

/-- Equality as keys of a table or as items of a list, where what texts name as no number is one
thing. -/
def sameKey (a b : Value) : Bool :=
  bothUndefined a b || a.same b

mutual

/-- Whether one value comes before another: numbers by size, texts by code points, lists by the
first items that differ. No other two values have an order. -/
def lt : Value → Value → Except Fault Bool
  | list xs, list ys => ltItems xs ys
  | text a, text b => .ok (a < b)
  | a, b =>
    match a.num?, b.num? with
    | some m, some n => .ok (m.lt n)
    | _, _ => .error .mistyped

def ltItems : List Value → List Value → Except Fault Bool
  | [], ys => .ok (!ys.isEmpty)
  | _ :: _, [] => .ok false
  | x :: xs, y :: ys => if sameKey x y then ltItems xs ys else lt x y

end

/-- Whether one value comes before another or equals it, with the order of `lt`. -/
def le (a b : Value) : Except Fault Bool :=
  match a.num?, b.num? with
  | some m, some n => .ok (m.le n)
  | _, _ => do
    let before ← a.lt b
    return before || a.same b

/-- Values that may be keys: all but lists and objects. -/
def isKey : Value → Bool
  | list _ => false
  | object _ => false
  | _ => true

/-- The value itself, if it may be a key. -/
def asKey (v : Value) : Except Fault Value :=
  if v.isKey then .ok v else .error .mistyped

/-- Whether a value is one of a list, as a key. -/
def among (v : Value) (vs : List Value) : Bool :=
  vs.any v.sameKey

/-- The sum of two numbers, or two texts or lists one after the other. -/
def add : Value → Value → Except Fault Value
  | text a, text b => .ok (text (a ++ b))
  | list a, list b => .ok (list (a ++ b))
  | a, b => do return ofNum (← (← a.num).add (← b.num))

/-! ## Text -/

mutual

/-- The value's text inside a list or an object: texts are quoted there. An integer of too many digits
has none. -/
def inner : Value → Except Fault String
  | null => .ok "None"
  | bool b => .ok (if b then "True" else "False")
  | int n => Num.writeInt n
  | float x => .ok (shortestText x)
  | notANumber => .ok "nan"
  | text s => .ok (Text.quoted s)
  | list items => do return "[" ++ ", ".intercalate (← innerItems items) ++ "]"
  | object fields => do return "\x7b" ++ ", ".intercalate (← innerFields fields) ++ "\x7d"

def innerItems : List Value → Except Fault (List String)
  | [] => .ok []
  | v :: vs => do return (← inner v) :: (← innerItems vs)

def innerFields : List (String × Value) → Except Fault (List String)
  | [] => .ok []
  | (key, v) :: rest => do return (Text.quoted key ++ ": " ++ (← inner v)) :: (← innerFields rest)

end

/-- The value's text, which it does not have if an integer in it has too many digits. -/
def shown : Value → Except Fault String
  | text s => .ok s
  | v => v.inner

theorem shown_int (n : Int) : (int n).shown = Num.writeInt n :=
  rfl

end Value

end RollTray
