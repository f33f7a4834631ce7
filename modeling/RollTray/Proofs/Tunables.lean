import RollTray.Proofs.Number.Nearest
import RollTray.Proofs.Tray.Capacity

/-!
# What a configuration file may set

A configuration that is read has room for a die and for a roll, and its measures are numbers from
zero on (`Usable`); a document that gives none is refused for a reason of its own. Two kinds of
tables break that promise (`lawful_ofValue?_iff`): a measure may be set to no number, which is not
below zero (`readMeasure_eq_ok`), and to an integer too large for a float, which fails while it is
converted (`readMeasure_of_large`).
-/

namespace RollTray

namespace Config

/-! ## Measures -/

/-- The names of the measures. -/
def measureKeys : List String :=
  keys.filter fun key => key ≠ "max_dice" ∧ key ≠ "max_history"

/-- The measure of a name. -/
def measure? (c : Config) : String → Option Float
  | "spawn_delay_base" => some c.spawnDelayBase
  | "spawn_delay_var" => some c.spawnDelayVar
  | "linear_threshold" => some c.linearThreshold
  | "angular_threshold" => some c.angularThreshold
  | "damping_after" => some c.dampingAfter
  | "damping_step" => some c.dampingStep
  | "force_sleep_after" => c.forceSleepAfter
  | _ => none

/-- All measures of a configuration. -/
def measures (c : Config) : List Float :=
  [c.spawnDelayBase, c.spawnDelayVar, c.linearThreshold, c.angularThreshold, c.dampingAfter,
    c.dampingStep] ++ c.forceSleepAfter.toList

theorem mem_measures_iff {c : Config} {x : Float} :
    x ∈ c.measures ↔ ∃ key ∈ measureKeys, c.measure? key = some x := by
  have hkeys : measureKeys = ["spawn_delay_base", "spawn_delay_var", "linear_threshold",
    "angular_threshold", "damping_after", "damping_step", "force_sleep_after"] := by decide
  rw [hkeys]
  simp [measures, measure?, eq_comm]

/-- The measures of the defaults are numbers from zero on. -/
theorem zero_le_default {x : Float} (h : x ∈ ({} : Config).measures) : 0 ≤ x := by
  revert x
  decide +kernel

/-! ## Reading a measure -/

/-- A measure that is read is the number that was given, from zero on unless it is no number. -/
theorem readMeasure_eq_ok {key : String} {v : Value} {x : Float} (h : readMeasure key v = .ok x) :
    0 ≤ x ∨ v = .float x ∧ x.isNaN = true := by
  unfold readMeasure at h
  split at h
  · rename_i n
    split at h
    · cases h
    · rw [Num.eq_of_toFloat_int h]
      exact .inl (zero_le_nearestInt (by omega))
  · rename_i y
    split at h
    · cases h
    · cases h
      rename_i hlt
      cases hnan : x.isNaN with
      | false => exact .inl (zero_le_of_not_lt hnan hlt)
      | true => exact .inr ⟨rfl, rfl⟩
  · cases h

/-- Only an integer that is too large is refused without a reason. -/
theorem readMeasure_eq_error {key : String} {v : Value} {fault : Fault}
    (h : readMeasure key v = .error fault) :
    (∃ reason, fault = .config reason) ∨
      fault = .overflow ∧ ∃ n : Int, v = .int n ∧ (floatLimit : Int) ≤ n := by
  unfold readMeasure at h
  split at h
  · rename_i n
    split at h
    · cases h
      exact .inl ⟨_, rfl⟩
    · unfold Num.toFloat at h
      dsimp only at h
      split at h
      · rename_i hinf
        rw [isInf_nearestInt_iff] at hinf
        cases h
        exact .inr ⟨rfl, n, rfl, by omega⟩
      · cases h
  · split at h
    · cases h
      exact .inl ⟨_, rfl⟩
    · cases h
  · cases h
    exact .inl ⟨_, rfl⟩

theorem readMeasure_of_large (key : String) {n : Int} (h : (floatLimit : Int) ≤ n) :
    readMeasure key (.int n) = .error .overflow := by
  have hpos : ¬n < 0 := by omega
  have hinf : (nearestInt n).isInf = true := (isInf_nearestInt_iff n).2 (by omega)
  show (if n < 0 then _ else (Num.int n).toFloat) = _
  rw [if_neg hpos]
  show (if (nearestInt n).isInf = true then _ else _) = _
  rw [if_pos hinf]

theorem readCount_eq_error {key : String} {v : Value} {fault : Fault}
    (h : readCount key v = .error fault) : ∃ reason, fault = .config reason := by
  unfold readCount at h
  split at h
  · split at h <;> cases h
    exact ⟨_, rfl⟩
  · cases h
    exact ⟨_, rfl⟩

/-! ## Setting a tunable -/

/-- What a value makes of a measure: none, where that may be switched off, or what is read. -/
def Makes (key : String) (v : Value) (measure : Option Float) : Prop :=
  key = "force_sleep_after" ∧ v = .bool false ∧ measure = none ∨
    ∃ x, readMeasure key v = .ok x ∧ measure = some x

/-- Setting a measure makes that measure and leaves the others as they are. -/
theorem set_measure {c c' : Config} {key : String} {v : Value} (h : c.set key v = .ok c') :
    (key ∈ measureKeys → Makes key v (c'.measure? key)) ∧
      ∀ other, other ≠ key → c'.measure? other = c.measure? other := by
  unfold Config.set at h
  split at h <;> try obtain ⟨x, hx, h⟩ := bind_eq_ok.1 h
  case h_1 | h_2 =>
    cases h
    exact ⟨fun hkey => absurd hkey (by decide), fun _ _ => rfl⟩
  case h_11 =>
    cases h
    refine ⟨fun hkey => ?_, fun _ _ => rfl⟩
    simp_all [measureKeys, keys]
  all_goals
    cases h
    refine ⟨fun _ => ?_, fun other hne => ?_⟩
    · first
      | exact .inl ⟨rfl, rfl, rfl⟩
      | exact .inr ⟨x, hx, rfl⟩
    · unfold measure?
      split <;> first | rfl | exact absurd rfl hne

theorem set_eq_error {c : Config} {key : String} {v : Value} {fault : Fault}
    (h : c.set key v = .error fault) :
    (∃ reason, fault = .config reason) ∨
      fault = .overflow ∧ key ∈ measureKeys ∧ ∃ n : Int, v = .int n ∧ (floatLimit : Int) ≤ n := by
  unfold Config.set at h
  split at h <;> try rcases bind_eq_error.1 h with h | ⟨x, -, h⟩
  case h_1.inl | h_2.inl => exact .inl (readCount_eq_error h)
  all_goals first
    | cases h
    | exact (readMeasure_eq_error h).imp_right fun ⟨hfault, hlarge⟩ => ⟨hfault, by decide, hlarge⟩

theorem set_of_large (c : Config) {key : String} (hkey : key ∈ measureKeys) {n : Int}
    (h : (floatLimit : Int) ≤ n) : c.set key (.int n) = .error .overflow := by
  unfold Config.set
  split
  case h_1 | h_2 => exact absurd hkey (by decide)
  case h_3 heq => cases heq
  case h_11 =>
    clear h
    simp_all [measureKeys, keys]
  all_goals rw [readMeasure_of_large _ h]; rfl

/-! ## Reading a table -/

/-- Every measure is what was last set for it, or its default. -/
theorem measure?_of_foldlM {fields : List (String × Value)} {c : Config} {key : String}
    (hkey : key ∈ measureKeys)
    (h : fields.foldlM (fun c field => c.set field.1 field.2) ({} : Config) = .ok c) :
    match Value.lookup? key fields.reverse with
    | none => c.measure? key = ({} : Config).measure? key
    | some v => Makes key v (c.measure? key) := by
  induction fields using List.reverseRecOn generalizing c with
  | nil =>
    cases h
    rfl
  | append_singleton init field ih =>
    rw [List.foldlM_append] at h
    obtain ⟨c₁, hinit, h⟩ := bind_eq_ok.1 h
    obtain ⟨c₂, hset, h⟩ := bind_eq_ok.1 h
    cases h
    obtain ⟨hmake, hother⟩ := set_measure hset
    rw [List.reverse_append, List.reverse_singleton, List.singleton_append, Value.lookup?]
    by_cases heq : field.1 = key
    · rw [if_pos heq]
      subst heq
      exact hmake hkey
    · rw [if_neg heq, hother key (Ne.symm heq)]
      exact ih hinit

/-- A failure is that of the first field that is refused. -/
theorem foldlM_eq_error_iff {fields : List (String × Value)} {c : Config} {fault : Fault} :
    fields.foldlM (fun c field => c.set field.1 field.2) c = .error fault ↔
      ∃ before field after c', fields = before ++ field :: after ∧
        before.foldlM (fun c field => c.set field.1 field.2) c = .ok c' ∧
          c'.set field.1 field.2 = .error fault := by
  constructor
  · induction fields generalizing c with
    | nil => exact nofun
    | cons field rest ih =>
      intro h
      rw [List.foldlM_cons, bind_eq_error] at h
      rcases h with h | ⟨c₁, hset, h⟩
      · exact ⟨[], field, rest, c, rfl, rfl, h⟩
      · obtain ⟨before, later, after, c', rfl, hbefore, hlater⟩ := ih h
        refine ⟨field :: before, later, after, c', rfl, ?_, hlater⟩
        rw [List.foldlM_cons, hset]
        exact hbefore
  · rintro ⟨before, field, after, c', rfl, hbefore, hfield⟩
    rw [List.foldlM_append, hbefore, ok_bind, List.foldlM_cons, hfield]
    rfl

theorem unknownKeys_eq_nil_iff {fields : List (String × Value)} :
    unknownKeys fields = [] ↔ ∀ field ∈ fields, field.1 ∈ keys := by
  rw [unknownKeys, ← List.length_eq_zero_iff, List.length_mergeSort, List.length_eq_zero_iff]
  simp

theorem ofTable_eq {fields : List (String × Value)} (h : unknownKeys fields = []) :
    ofTable fields = fields.foldlM (fun c field => c.set field.1 field.2) {} := by
  rw [ofTable, h]

/-! ## The promise -/

/-- A configuration for a tray: there is room, and every measure is a number from zero on. -/
structure Usable (c : Config) : Prop where
  room : c.HasRoom
  measured : ∀ x ∈ c.measures, 0 ≤ x

/-- A configuration that can be used, or a reason for there being none. -/
def Lawful : Except Fault Config → Prop
  | .ok c => c.Usable
  | .error fault => ∃ reason, fault = .config reason

/-- The first field of a table that is not read sets a measure to an integer too large for a
float. -/
def Overlarge (table : List (String × Value)) : Prop :=
  unknownKeys table = [] ∧ ∃ before key n after c, table = before ++ (key, .int n) :: after ∧
    ofTable before = .ok c ∧ key ∈ measureKeys ∧ (floatLimit : Int) ≤ n

/-- A table is read, and what it sets last for some measure is no number. -/
def Undefined (table : List (String × Value)) : Prop :=
  (∃ c, ofTable table = .ok c) ∧
    ∃ key ∈ measureKeys, ∃ x, Value.lookup? key table.reverse = some (.float x) ∧ x.isNaN = true

theorem Overlarge.ofTable_eq {table : List (String × Value)} (h : Overlarge table) :
    ofTable table = .error .overflow := by
  obtain ⟨hknown, before, key, n, after, c, rfl, hbefore, hkey, hlarge⟩ := h
  have hfront : unknownKeys before = [] := unknownKeys_eq_nil_iff.2 fun field hfield =>
    unknownKeys_eq_nil_iff.1 hknown field (List.mem_append_left _ hfield)
  rw [Config.ofTable_eq hfront] at hbefore
  rw [Config.ofTable_eq hknown, foldlM_eq_error_iff]
  exact ⟨before, _, after, c, rfl, hbefore, set_of_large c hkey hlarge⟩

/-- A table that is refused without a reason sets a measure too large. -/
theorem ofTable_eq_error {table : List (String × Value)} {fault : Fault}
    (h : ofTable table = .error fault) :
    (∃ reason, fault = .config reason) ∨ fault = .overflow ∧ Overlarge table := by
  by_cases hknown : unknownKeys table = []
  · rw [Config.ofTable_eq hknown, foldlM_eq_error_iff] at h
    obtain ⟨before, ⟨key, v⟩, after, c, rfl, hbefore, hset⟩ := h
    refine (set_eq_error hset).imp_right fun ⟨hfault, hkey, n, hv, hlarge⟩ => ⟨hfault, hknown, ?_⟩
    have hfront : unknownKeys before = [] := unknownKeys_eq_nil_iff.2 fun field hfield =>
      unknownKeys_eq_nil_iff.1 hknown field (List.mem_append_left _ hfield)
    rw [← Config.ofTable_eq hfront] at hbefore
    exact ⟨before, key, n, after, c, by rw [← hv], hbefore, hkey, hlarge⟩
  · unfold ofTable at h
    split at h
    · exact absurd ‹_› hknown
    · cases h
      exact .inl ⟨_, rfl⟩

/-- A table that is read gives a configuration that can be used unless it leaves a measure that is
no number. -/
theorem usable_iff {table : List (String × Value)} {c : Config} (h : ofTable table = .ok c) :
    c.Usable ↔ ¬Undefined table := by
  have hknown : unknownKeys table = [] := by
    by_contra hne
    unfold ofTable at h
    split at h
    · exact hne ‹_›
    · cases h
  have hroom : c.HasRoom :=
    hasRoom_of_ofValue? (v := .object [("tray", .object table)]) h
  have hfold := h
  rw [Config.ofTable_eq hknown] at hfold
  constructor
  · rintro husable ⟨-, key, hkey, x, hlast, hnan⟩
    have hmake := measure?_of_foldlM hkey hfold
    rw [hlast] at hmake
    rcases hmake with ⟨-, hfalse, -⟩ | ⟨y, hread, hy⟩
    · cases hfalse
    · have hx : x = y := by
        unfold readMeasure at hread
        dsimp only at hread
        split at hread
        · cases hread
        · exact Except.ok.inj hread
      have hzero := husable.measured y (mem_measures_iff.2 ⟨key, hkey, hy⟩)
      exact not_zero_le_of_isNaN (hx ▸ hnan) hzero
  · refine fun hdefined => ⟨hroom, fun x hx => ?_⟩
    obtain ⟨key, hkey, hx⟩ := mem_measures_iff.1 hx
    have hmake := measure?_of_foldlM hkey hfold
    split at hmake
    · rw [hmake] at hx
      exact zero_le_default (mem_measures_iff.2 ⟨key, hkey, hx⟩)
    · rename_i v hlast
      rcases hmake with ⟨-, -, hnone⟩ | ⟨y, hread, hy⟩
      · rw [hnone] at hx
        cases hx
      · rw [hy] at hx
        cases hx
        refine (readMeasure_eq_ok hread).resolve_right ?_
        rintro ⟨rfl, hnan⟩
        exact hdefined ⟨⟨c, h⟩, key, hkey, x, hlast, hnan⟩

theorem lawful_ofTable_iff (table : List (String × Value)) :
    Lawful (ofTable table) ↔ ¬Overlarge table ∧ ¬Undefined table := by
  cases h : ofTable table with
  | ok c =>
    refine (usable_iff h).trans ⟨fun hdefined => ⟨fun hlarge => ?_, hdefined⟩, And.right⟩
    rw [hlarge.ofTable_eq] at h
    cases h
  | error fault =>
    have hundefined : ¬Undefined table := by
      rintro ⟨⟨c, hc⟩, -⟩
      rw [hc] at h
      cases h
    rcases ofTable_eq_error h with ⟨reason, rfl⟩ | ⟨rfl, hlarge⟩
    · refine iff_of_true ⟨reason, rfl⟩ ⟨fun hlarge => ?_, hundefined⟩
      rw [hlarge.ofTable_eq] at h
      cases h
    · exact iff_of_false nofun fun hno => hno.1 hlarge

/-- Reading a document gives a configuration that can be used or is refused for a reason, unless the
`[tray]` table is one of the two kinds; and nothing but an overflow comes in place of a reason. -/
theorem lawful_ofValue?_iff (document : List (String × Value)) :
    (∀ fault, ofValue? (.object document) = .error fault →
        (∃ reason, fault = .config reason) ∨ fault = .overflow) ∧
      (Lawful (ofValue? (.object document)) ↔
        ∀ table, Value.lookup? "tray" document = some (.object table) →
          ¬Overlarge table ∧ ¬Undefined table) := by
  cases hlookup : Value.lookup? "tray" document with
  | none =>
    have hread : ofValue? (.object document) = .ok {} := by simp only [ofValue?, hlookup]
    rw [hread]
    refine ⟨nofun, iff_of_true ⟨⟨by decide, by decide⟩, fun x => zero_le_default⟩ nofun⟩
  | some v =>
    by_cases htable : ∃ table, v = .object table
    · obtain ⟨table, rfl⟩ := htable
      have hread : ofValue? (.object document) = ofTable table := by simp only [ofValue?, hlookup]
      rw [hread, lawful_ofTable_iff]
      refine ⟨fun fault h => (ofTable_eq_error h).imp_right And.left, ?_⟩
      simp only [Option.some.injEq, Value.object.injEq, forall_eq']
    · have hread : ofValue? (.object document) = .error (.config .notTable) := by
        unfold ofValue?
        simp only [hlookup]
        split
        · rename_i heq
          cases heq
        · rename_i table heq
          exact absurd ⟨table, Option.some.inj heq⟩ htable
        · rfl
      rw [hread]
      refine ⟨fun fault h => .inl ⟨_, (Except.error.inj h).symm⟩, iff_of_true ⟨_, rfl⟩ ?_⟩
      intro table heq
      exact absurd ⟨table, Option.some.inj heq⟩ htable

end Config

end RollTray
