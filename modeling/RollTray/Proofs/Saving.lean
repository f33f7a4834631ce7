import Mathlib.Data.List.Forall2
import Mathlib.Data.List.ReduceOption
import RollTray.Proofs.Tray.Sites
import RollTray.Tray.Snapshot

/-!
# Plain data that is read back

A record, a throw or a die that was written as plain data is read back as it was
(`Record.ofValue?_toValue`, `Throw.ofValue?_toValue`, `SavedDie.ofValue?_toValue`): writer and reader
name the same fields, and a reader checks only what the writer provides. A die must be of a kind that
there is and have its roll and its place in integers. So a whole snapshot is read as it was taken
(`Saved.ofValue?_snapshotOf`).
-/

namespace RollTray

section Items

variable {α β γ : Type} {items : List α}

theorem mapM_eq_ok {f : α → Except Fault β} {results : List β} :
    items.mapM f = .ok results ↔ List.Forall₂ (fun x y => f x = .ok y) items results := by
  induction items generalizing results with
  | nil => rw [List.mapM_nil, pure_eq_ok, List.forall₂_nil_left_iff, eq_comm]
  | cons x rest ih =>
    rw [List.mapM_cons, bind_eq_ok, List.forall₂_cons_left_iff]
    refine ⟨fun ⟨y, hy, h⟩ => ?_, ?_⟩
    · obtain ⟨ys, hys, h⟩ := bind_eq_ok.1 h
      exact ⟨y, ys, hy, ih.1 hys, (pure_eq_ok.1 h).symm⟩
    · rintro ⟨y, ys, hy, hys, rfl⟩
      exact ⟨y, hy, bind_eq_ok.2 ⟨ys, ih.2 hys, rfl⟩⟩

theorem mapM_map_eq_ok {write : α → β} {read : β → Except Fault γ} {f : α → γ}
    (h : ∀ x ∈ items, read (write x) = .ok (f x)) :
    (items.map write).mapM read = .ok (items.map f) := by
  rw [mapM_eq_ok, List.forall₂_map_left_iff, List.forall₂_map_right_iff, List.forall₂_same]
  exact h

/-- What was written is read back. -/
theorem mapM_map_eq_self {write : α → β} {read : β → Except Fault α}
    (h : ∀ x ∈ items, read (write x) = .ok x) : (items.map write).mapM read = .ok items := by
  rw [mapM_eq_ok, List.forall₂_map_left_iff, List.forall₂_same]
  exact h

end Items

theorem DieResult.ofValue?_toValue (r : DieResult) : DieResult.ofValue? r.toValue = .ok r := rfl

theorem Group.ofValue?_toValue (g : Group) : Group.ofValue? g.toValue = .ok g := rfl

theorem Record.groupResults?_toValue (results : List DieResult) :
    Record.groupResults? (.list (results.map DieResult.toValue)) = .ok results :=
  mapM_map_eq_self fun r _ => r.ofValue?_toValue

theorem Record.ofValue?_toValue (r : Record) : Record.ofValue? r.toValue = .ok r := by
  have hgroups : (r.groups.map Group.toValue).mapM Group.ofValue? = .ok r.groups :=
    mapM_map_eq_self fun g _ => g.ofValue?_toValue
  have hresults : (r.results.map fun ds => Value.list (ds.map DieResult.toValue)).mapM
      Record.groupResults? = .ok r.results :=
    mapM_map_eq_self fun ds _ => Record.groupResults?_toValue ds
  show (do
    let groups ← (r.groups.map Group.toValue).mapM Group.ofValue?
    let results ← (r.results.map fun ds => Value.list (ds.map DieResult.toValue)).mapM
      Record.groupResults?
    return { r with groups, results } : Except Fault Record) = _
  rw [hgroups, ok_bind, hresults, ok_bind]
  rfl

theorem Throw.ofValue?_toValue (w : Throw) : Throw.ofValue? w.toValue = .ok w := rfl

/-- A die of a kind that there is, at a site in integers. -/
structure Die.Sound (d : Die) : Prop where
  kind : ∃ kind : DieKind, d.kind = .text kind.name
  group : ∃ n, d.group = .int n
  logical : ∃ n, d.logical = .int n
  tens : ∃ b, d.tens = .bool b

theorem SavedDie.readKind_name (kind : DieKind) :
    SavedDie.readKind (.text kind.name) = .ok (.text kind.name) := by
  cases kind <;> rfl

/-- A die as it is read, without a handle. -/
def SavedDie.bare (s : SavedDie) : SavedDie :=
  { s with die := { s.die with handle := 0 } }

/-- A die is read back without its handle. -/
theorem SavedDie.ofValue?_toValue {s : SavedDie} (h : s.die.Sound) (hroll : ∃ n, s.die.roll = .int n) :
    SavedDie.ofValue? s.toValue = .ok s.bare := by
  obtain ⟨⟨handle, kind, roll, group, logical, tens, settled, value, awakeSince⟩, motion⟩ := s
  obtain ⟨⟨kind, rfl⟩, ⟨group, rfl⟩, ⟨logical, rfl⟩, ⟨tens, rfl⟩⟩ := h
  obtain ⟨roll, rfl⟩ := hroll
  show (do
    let kind ← SavedDie.readKind (.text kind.name)
    return SavedDie.mk (Die.mk 0 kind (.int roll) (.int group) (.int logical) (.bool tens) settled
      value awakeSince) motion : Except Fault SavedDie) = _
  rw [SavedDie.readKind_name, ok_bind]
  rfl

/-! ## Active rolls -/

namespace Saved

variable {history : List Record} {ids : List Value}

/-- A record of an id is in its place in history. -/
def Places (history : List Record) (id : Value) (place : Nat) : Prop :=
  ∃ r, history[place]? = some r ∧ r.id = id

/-- If ids are integers, a record of an id that is in history has a place there. -/
theorem exists_placeOf? (hids : ∀ r ∈ history, ∃ n, r.id = .int n) {id : Value}
    (h : id ∈ history.map Record.id) :
    ∃ place, placeOf? id history = some place ∧ Places history id place := by
  obtain ⟨r, hr, rfl⟩ := List.mem_map.1 h
  obtain ⟨n, hn⟩ := hids r hr
  have hsome : (history.zipIdx.findRev? fun entry => entry.1.id.sameKey r.id).isSome = true := by
    obtain ⟨place, hplace⟩ := List.mem_iff_getElem?.1 hr
    rw [List.findRev?_eq_find?_reverse, List.find?_isSome]
    refine ⟨(r, place), List.mem_reverse.2 (List.mk_mem_zipIdx_iff_getElem?.2 hplace), ?_⟩
    rw [hn, Value.sameKey_int, decide_eq_true_iff]
  obtain ⟨⟨found, place⟩, hfound⟩ := Option.isSome_iff_exists.1 hsome
  refine ⟨place, by rw [placeOf?, hfound]; rfl, found, ?_⟩
  rw [List.findRev?_eq_find?_reverse] at hfound
  have hplace : history[place]? = some found :=
    List.mk_mem_zipIdx_iff_getElem?.1 (List.mem_reverse.1 (List.mem_of_find?_eq_some hfound))
  refine ⟨hplace, ?_⟩
  have hsame := List.find?_some (p := fun entry : Record × Nat => entry.1.id.sameKey r.id) hfound
  obtain ⟨m, hm⟩ := hids found (List.mem_of_getElem? hplace)
  rw [hm, hn, Value.sameKey_int, decide_eq_true_iff] at hsame
  rw [hm, hn, hsame]

/-- The active rolls are found in history, in their order. -/
theorem exists_readActive (hids : ∀ r ∈ history, ∃ n, r.id = .int n)
    (hactive : ∀ id ∈ ids, id ∈ history.map Record.id) :
    ∃ places, readActive history ids = .ok places ∧ List.Forall₂ (Places history) ids places := by
  have hkey : ∀ id ∈ history.map Record.id, id.asKey = .ok id := by
    intro id h
    obtain ⟨r, hr, rfl⟩ := List.mem_map.1 h
    obtain ⟨n, hn⟩ := hids r hr
    rw [hn]
    rfl
  have hkeys : history.mapM (fun r => r.id.asKey) = .ok (history.map Record.id) := by
    rw [mapM_eq_ok, List.forall₂_map_right_iff, List.forall₂_same]
    exact fun r hr => hkey _ (List.mem_map_of_mem hr)
  have hplaces : ids.mapM (fun id => do return placeOf? (← id.asKey) history) =
      .ok (ids.map fun id => placeOf? id history) := by
    rw [mapM_eq_ok, List.forall₂_map_right_iff, List.forall₂_same]
    intro id hid
    rw [hkey id (hactive id hid)]
    rfl
  refine ⟨(ids.map fun id => placeOf? id history).reduceOption, ?_, ?_⟩
  · rw [readActive, hkeys, ok_bind, hplaces]
    rfl
  · clear hplaces
    induction ids with
    | nil => exact .nil
    | cons id rest ih =>
      obtain ⟨place, hplace, hmem⟩ := exists_placeOf? hids (hactive id (List.mem_cons_self ..))
      rw [List.map_cons, hplace, List.reduceOption_cons_of_some]
      exact .cons hmem (ih fun id hid => hactive id (List.mem_cons_of_mem _ hid))

end Saved

/-! ## Whole snapshots -/

/-- A tray as it was saved, with the places of its active rolls in history. -/
def Tray.savedAs {ω : Type} (t : Tray ω) (dice : List SavedDie) (throws : List Throw)
    (active : List Nat) : Saved where
  nextId := t.nextId
  watermark := t.watermark
  clock := t.clock
  formula := t.formula
  history := t.history.map Roll.record
  dice := dice.map SavedDie.bare
  throws
  active

/-- What is read of a snapshot is what was saved. -/
theorem Saved.ofValue?_snapshotOf {ω : Type} {t : Tray ω} {dice : List SavedDie} {throws : List Throw}
    (hdice : ∀ s ∈ dice, s.die.Sound ∧ ∃ n, s.die.roll = .int n)
    (hwatermark : t.watermark = .null ∨ ∃ n, t.watermark = .int n) {places : List Nat}
    (hactive : Saved.readActive (t.history.map Roll.record) t.activeIds = .ok places) (nextId : Int) :
    Saved.ofValue? nextId (t.snapshotOf (dice.map SavedDie.toValue) throws) =
      .ok (t.savedAs dice throws places) := by
  have hhistory : (t.history.map fun r => r.record.toValue).mapM Record.ofValue? =
      .ok (t.history.map Roll.record) :=
    mapM_map_eq_ok fun r _ => r.record.ofValue?_toValue
  have hdice : (dice.map SavedDie.toValue).mapM SavedDie.ofValue? = .ok (dice.map SavedDie.bare) :=
    mapM_map_eq_ok fun s hs => SavedDie.ofValue?_toValue (hdice s hs).1 (hdice s hs).2
  have hthrows : (throws.map Throw.toValue).mapM Throw.ofValue? = .ok throws :=
    mapM_map_eq_self fun throw _ => throw.ofValue?_toValue
  have hread : Saved.ofValue? nextId (t.snapshotOf (dice.map SavedDie.toValue) throws) = (do
      let history ← (t.history.map fun r => r.record.toValue).mapM Record.ofValue?
      let dice ← (dice.map SavedDie.toValue).mapM SavedDie.ofValue?
      let throws ← (throws.map Throw.toValue).mapM Throw.ofValue?
      let active ← Saved.readActive history t.activeIds
      return { nextId := t.nextId, watermark := t.watermark, clock := t.clock, formula := t.formula,
               history, dice, throws, active }) := by
    rcases hwatermark with h | ⟨n, h⟩ <;> rw [Tray.snapshotOf, h] <;> rfl
  rw [hread, hhistory, ok_bind, hdice, ok_bind, hthrows, ok_bind, hactive, ok_bind]
  rfl

end RollTray
