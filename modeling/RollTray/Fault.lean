import RollTray.Text.Quoted
import RollTray.Text.Digit

/-!
# What can go wrong

Each fault names its cause. The faults that a user of the tray reads about carry what their
wording needs, and `message` is that wording; the others are faults of data (a field that is not
there, a value of the wrong kind) and have none.
-/

namespace RollTray

/-- Why an expression has no value. -/
inductive EvaluationError where
  | unexpectedCharacter (c : Char) (position : Nat)
  | missingOperator (before : String)
  | nothingBefore (token : String)
  | nothingAfter (token : String)
  | tooFewOperands (operator : String)
  | unknownFunction (name : String)
  | unopenedFunction (name : String)
  | noArguments (function : String)
  | noGroupValue (index : Nat)
  | mismatchedParentheses
  | emptyParentheses
  | tooManyValues
  | unexpectedComma
  | divisionByZero
  deriving DecidableEq, Repr

def EvaluationError.message : EvaluationError → String
  | unexpectedCharacter c position =>
    "Unexpected character " ++ Text.quoted (String.singleton c) ++ " at position " ++
      toString position
  | missingOperator before => "Missing operator before " ++ Text.quoted before
  | nothingBefore token => "Insufficient operands before " ++ Text.quoted token
  | nothingAfter token => "Insufficient operands after " ++ Text.quoted token
  | tooFewOperands operator => "Insufficient operands for " ++ Text.quoted operator
  | unknownFunction name => "Unknown function: " ++ name
  | unopenedFunction name => "Expected '(' after " ++ name
  | noArguments function => function ++ "() needs at least one argument"
  | noGroupValue index => "No value for dice group " ++ toString index
  | mismatchedParentheses => "Mismatched parentheses"
  | emptyParentheses => "Empty parentheses"
  | tooManyValues => "Too many values"
  | unexpectedComma => "Unexpected comma"
  | divisionByZero => "Division by zero"

/-- Why a formula cannot be rolled. -/
inductive FormulaError where
  | noDiceThrown (term : String)
  | noDice (formula : String)
  | invalidCharacters (formula : String)
  | invalid (formula : String) (reason : EvaluationError)
  deriving DecidableEq, Repr

def FormulaError.message : FormulaError → String
  | noDiceThrown term => "Can't roll zero dice: " ++ term
  | noDice formula => "No dice found in " ++ Text.quoted formula
  | invalidCharacters formula => "Invalid characters in " ++ Text.quoted formula
  | invalid formula reason =>
    "Invalid formula " ++ Text.quoted formula ++ ": " ++ reason.message

/-- A roll that needs more physical dice than the tray holds. -/
structure CapacityError where
  formula : String
  needed : Int
  capacity : Int
  deriving DecidableEq, Repr

def CapacityError.message (e : CapacityError) : String :=
  Text.quoted e.formula ++ " needs " ++ Text.decimalOfInt e.needed ++
    " dice, but the tray holds only " ++ Text.decimalOfInt e.capacity

/-- Why a configuration is refused. -/
inductive ConfigError where
  | notTable
  | unknownKeys (keys : List String)
  | notInteger (name : String)
  | belowOne (name : String)
  | notNumber (name : String)
  | negative (name : String)
  | noFile (path : String)
  | badSource (path : String)
  deriving DecidableEq, Repr

def ConfigError.message : ConfigError → String
  | notTable => "Expected [tray] to be a table."
  | unknownKeys keys => "Unknown [tray] keys: " ++ ", ".intercalate keys
  | notInteger name => "Expected " ++ name ++ " to be an integer."
  | belowOne name => "Expected " ++ name ++ " to be at least 1."
  | notNumber name => "Expected " ++ name ++ " to be a number."
  | negative name => "Expected " ++ name ++ " to be non-negative."
  | noFile path => "Config file not found: " ++ path
  | badSource path => "Invalid TOML in " ++ path

/-- Everything an operation can fail with. -/
inductive Fault where
  | evaluation (error : EvaluationError)
  | formula (error : FormulaError)
  | capacity (error : CapacityError)
  | config (error : ConfigError)
  /-- A field, or the body of a handle, that is not there. -/
  | missing
  /-- A value of a kind that the operation does not take. -/
  | mistyped
  /-- A text or number from which the wanted value cannot be read, or an integer that is too long to
  be written. -/
  | unreadable
  /-- A number too large to be a float, or no finite number where one is needed. -/
  | overflow
  /-- A position beyond the end of a list, or the top of an empty stack. -/
  | outOfRange
  /-- A division by zero that nothing guards. -/
  | zeroDivisor
  /-- An operation that a kind of value does not have at all. -/
  | unsupported
  /-- Listeners that call each other without end. -/
  | endless
  deriving DecidableEq, Repr

/-- The wording of a fault that has one. -/
def Fault.message? : Fault → Option String
  | evaluation e => some e.message
  | formula e => some e.message
  | capacity e => some e.message
  | config e => some e.message
  | _ => none

/-! ## Outcomes -/

section

variable {ε ε' α β : Type}

theorem bind_eq_ok {x : Except ε α} {f : α → Except ε β} {b : β} :
    x >>= f = .ok b ↔ ∃ a, x = .ok a ∧ f a = .ok b := by
  cases x with
  | error e => exact ⟨nofun, fun ⟨_, h, _⟩ => nomatch h⟩
  | ok a => exact ⟨fun h => ⟨a, rfl, h⟩, fun ⟨_, h, hf⟩ => by cases h; exact hf⟩

theorem bind_eq_error {x : Except ε α} {f : α → Except ε β} {e : ε} :
    x >>= f = .error e ↔ x = .error e ∨ ∃ a, x = .ok a ∧ f a = .error e := by
  cases x with
  | error e' =>
    exact ⟨fun h => .inl (congrArg _ (Except.error.inj h)), fun | .inl rfl => rfl⟩
  | ok a => exact ⟨fun h => .inr ⟨a, rfl, h⟩, fun | .inr ⟨_, rfl, h⟩ => h⟩

theorem ok_bind (a : α) (f : α → Except ε β) : Except.ok a >>= f = f a := rfl

theorem pure_eq_ok {a b : α} : (pure a : Except ε α) = .ok b ↔ a = b :=
  Iff.of_eq (Except.ok.injEq a b)

theorem mapError_eq_ok {x : Except ε α} {f : ε → ε'} {a : α} :
    x.mapError f = .ok a ↔ x = .ok a := by
  cases x with
  | error e => exact ⟨nofun, nofun⟩
  | ok b =>
    show Except.ok b = .ok a ↔ Except.ok b = .ok a
    rw [Except.ok.injEq, Except.ok.injEq]

theorem toOption_eq_some {x : Except ε α} {a : α} : x.toOption = some a ↔ x = .ok a := by
  cases x with
  | error e => exact ⟨nofun, nofun⟩
  | ok b => simp [Except.toOption]

end

end RollTray
