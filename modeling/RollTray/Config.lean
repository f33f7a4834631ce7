import RollTray.Toml.Reader

/-!
# Configuration

The tunables of the tray. A configuration file may set any of them in its `[tray]` table; what it
does not set keeps its default, and a key that is no tunable is refused. `Config.ofValue?` reads
the table of a document and `Config.load` the text of a file.
-/

namespace RollTray

structure Config where
  /-- Most physical dice that may be on the tray at once. A d100 counts as two. -/
  maxDice : Int := 256
  /-- Most rolls kept in history. The oldest is dropped first. -/
  maxHistory : Int := 256
  /-- Seconds between consecutive dice of one throw. -/
  spawnDelayBase : Float := 0.010
  /-- Random extra delay added to each gap, from none to this many seconds. -/
  spawnDelayVar : Float := 0.010
  /-- Speed below which a die counts as resting. -/
  linearThreshold : Float := 0.01
  /-- Spin below which a die counts as resting. -/
  angularThreshold : Float := 0.01
  /-- Seconds that a die may stay awake before it is damped. -/
  dampingAfter : Float := 2.0
  /-- Damping added for every further second awake. -/
  dampingStep : Float := 0.5
  /-- Seconds awake after which a die is put to sleep; never, if none. -/
  forceSleepAfter : Option Float := some 10.0
  deriving Repr

namespace Config

/-- The names of the tunables in a file. -/
def keys : List String :=
  ["max_dice", "max_history", "spawn_delay_base", "spawn_delay_var", "linear_threshold",
    "angular_threshold", "damping_after", "damping_step", "force_sleep_after"]

/-- A tunable's name in messages. -/
def qualified (key : String) : String := "tray." ++ key

/-- A count: an integer, no truth value, and at least one. -/
def readCount (key : String) : Value → Except Fault Int
  | .int n => if n < 1 then .error (.config (.belowOne (qualified key))) else .ok n
  | _ => .error (.config (.notInteger (qualified key)))

/-- A measure: a number, no truth value, that is not below zero. -/
def readMeasure (key : String) : Value → Except Fault Float
  | .int n =>
    if n < 0 then .error (.config (.negative (qualified key))) else (Num.int n).toFloat
  | .float x =>
    if x < 0 then .error (.config (.negative (qualified key))) else .ok x
  | _ => .error (.config (.notNumber (qualified key)))

/-- Sets the tunable of a key. -/
def set (c : Config) (key : String) (v : Value) : Except Fault Config :=
  match key, v with
  | "max_dice", v => do return { c with maxDice := ← readCount key v }
  | "max_history", v => do return { c with maxHistory := ← readCount key v }
  | "force_sleep_after", .bool false => .ok { c with forceSleepAfter := none }
  | "force_sleep_after", v => do return { c with forceSleepAfter := some (← readMeasure key v) }
  | "spawn_delay_base", v => do return { c with spawnDelayBase := ← readMeasure key v }
  | "spawn_delay_var", v => do return { c with spawnDelayVar := ← readMeasure key v }
  | "linear_threshold", v => do return { c with linearThreshold := ← readMeasure key v }
  | "angular_threshold", v => do return { c with angularThreshold := ← readMeasure key v }
  | "damping_after", v => do return { c with dampingAfter := ← readMeasure key v }
  | "damping_step", v => do return { c with dampingStep := ← readMeasure key v }
  | _, _ => .ok c

/-- The keys of a table that are no tunables, in the order of their code points. -/
def unknownKeys (fields : List (String × Value)) : List String :=
  ((fields.map Prod.fst).filter fun key => !keys.contains key).mergeSort (· ≤ ·)

/-- The configuration of a table. -/
def ofTable (fields : List (String × Value)) : Except Fault Config :=
  match unknownKeys fields with
  | [] => fields.foldlM (fun c field => c.set field.1 field.2) {}
  | unknown => .error (.config (.unknownKeys unknown))

/-- The configuration in a document's `[tray]` table. -/
def ofValue? : Value → Except Fault Config
  | .object fields =>
    match Value.lookup? "tray" fields with
    | none => .ok {}
    | some (.object table) => ofTable table
    | some _ => .error (.config .notTable)
  | _ => .error .unsupported

/-- The configuration in a file, given its text, or none if there is no such file. -/
def load (path : String) (text : Option String) : Except Fault Config :=
  match text with
  | none => .error (.config (.noFile path))
  | some text =>
    match Toml.read text with
    | .ok document => ofValue? document
    | .error .malformed => .error (.config (.badSource path))
    | .error .tooManyDigits => .error .unreadable

/-- The configuration in a file that need not exist; one that is refused gives the defaults, with
the reason. -/
def loadOrDefault (path : String) (text : Option String) : Except Fault (Config × Option String) :=
  if text.isNone then .ok ({}, none)
  else
    match load path text with
    | .ok c => .ok (c, none)
    | .error (.config reason) => .ok ({}, some reason.message)
    | .error fault => .error fault

/-- The tunables by name, in the order of their declaration. -/
def toValue (c : Config) : Value :=
  .object [("max_dice", .int c.maxDice), ("max_history", .int c.maxHistory),
    ("spawn_delay_base", .float c.spawnDelayBase), ("spawn_delay_var", .float c.spawnDelayVar),
    ("linear_threshold", .float c.linearThreshold),
    ("angular_threshold", .float c.angularThreshold), ("damping_after", .float c.dampingAfter),
    ("damping_step", .float c.dampingStep),
    ("force_sleep_after", match c.forceSleepAfter with
      | some x => .float x
      | none => .null)]

end Config

end RollTray
