import RollTray.Proofs.Tray.Refusing

/-!
# Loading a text

`load_answers` says what comes of loading a text, whatever it holds. The answer is false for one that holds
no snapshot, and the tray is as it was. But two things are not answered with false alone. A number too
large to be read makes loading fail, with the tray as it was (`Value.Oversized`, `load_infinite_id`). And a
snapshot whose throws do not compare is refused when its rolls are on the tray already.

All that reading data can fail with otherwise are faults of data (`Misreads`), which loading answers with
false.
-/

namespace RollTray

/-! ## Why data is not read -/

/-- Data is not what it should be: a field is not there, a value is of the wrong kind, or it holds nothing
of the kind that is wanted. -/
def Fault.IsOfData (fault : Fault) : Prop :=
  fault = .missing ∨ fault = .mistyped ∨ fault = .unreadable

/-- Data is not read because it is not what it should be or, if that may be, a number is too large. -/
def Misreads {α : Type} (large : Prop) (x : Except Fault α) : Prop :=
  ∀ fault, x = .error fault → fault.IsOfData ∨ fault = .overflow ∧ large

namespace Misreads

variable {α β : Type} {large large' : Prop}

theorem ok (a : α) : Misreads large (.ok a : Except Fault α) := fun _ h => nomatch h

theorem of_data {fault : Fault} (h : fault.IsOfData) : Misreads large (.error fault : Except Fault α) :=
  fun _ heq => .inl (Except.error.inj heq ▸ h)

theorem mistyped : Misreads large (.error .mistyped : Except Fault α) := of_data (.inr (.inl rfl))

theorem unreadable : Misreads large (.error .unreadable : Except Fault α) := of_data (.inr (.inr rfl))

theorem overflow (h : large) : Misreads large (.error .overflow : Except Fault α) := fun _ heq =>
  .inr ⟨(Except.error.inj heq).symm, h⟩

theorem mono {x : Except Fault α} (h : Misreads large x) (himp : large → large') :
    Misreads large' x := fun fault hx =>
  (h fault hx).imp_right (And.imp_right himp)

theorem bind {x : Except Fault α} {f : α → Except Fault β} (hx : Misreads large x)
    (hf : ∀ a, x = .ok a → Misreads large (f a)) : Misreads large (x >>= f) := by
  intro fault h
  rcases bind_eq_error.1 h with h | ⟨a, ha, h⟩
  · exact hx fault h
  · exact hf a ha fault h

theorem mapM {items : List α} {f : α → Except Fault β} (h : ∀ a ∈ items, Misreads large (f a)) :
    Misreads large (items.mapM f) := by
  induction items with
  | nil => exact ok _
  | cons a items ih =>
    rw [List.mapM_cons]
    refine (h a (List.mem_cons_self ..)).bind fun _ _ => ?_
    exact (ih fun a ha => h a (List.mem_cons_of_mem _ ha)).bind fun _ _ => ok _

end Misreads

namespace Value

/-- An infinite float. -/
def IsInfinite (v : Value) : Prop :=
  ∃ x negative, v = float x ∧ FloatForm.of x = .infinite negative

/-- An integer so large that no float is near to it. -/
def IsBeyondFloats (v : Value) : Prop :=
  ∃ n, v = int n ∧ (nearestInt n).isInf = true

/-- The value has a field of which something is so. -/
def Has (v : Value) (key : String) (P : Value → Prop) : Prop :=
  ∃ w, v.field key = .ok w ∧ P w

variable {v : Value} {key : String} {large : Prop}

theorem misreads_field (v : Value) (key : String) : Misreads large (v.field key) := by
  unfold field
  split
  · split
    · exact .ok _
    · exact .of_data (.inl rfl)
  · exact .mistyped

theorem misreads_items (v : Value) : Misreads large v.items := by
  cases v <;> first | exact .ok _ | exact .mistyped

theorem misreads_asKey (v : Value) : Misreads large v.asKey := by
  unfold asKey
  split
  · exact .ok _
  · exact .mistyped

theorem misreads_writeInt (n : Int) : Misreads large (Num.writeInt n) := by
  unfold Num.writeInt
  split
  · exact .ok _
  · exact .unreadable

mutual

theorem misreads_inner : (v : Value) → Misreads large v.inner
  | null | bool _ | float _ | notANumber | text _ => .ok _
  | int n => misreads_writeInt n
  | list items => (misreads_innerItems items).bind fun _ _ => .ok _
  | object fields => (misreads_innerFields fields).bind fun _ _ => .ok _

theorem misreads_innerItems : (items : List Value) → Misreads large (innerItems items)
  | [] => .ok _
  | v :: rest => (misreads_inner v).bind fun _ _ => (misreads_innerItems rest).bind fun _ _ => .ok _

theorem misreads_innerFields : (fields : List (String × Value)) → Misreads large (innerFields fields)
  | [] => .ok _
  | (_, v) :: rest => (misreads_inner v).bind fun _ _ => (misreads_innerFields rest).bind fun _ _ => .ok _

end

theorem misreads_shown (v : Value) : Misreads large v.shown := by
  cases v with
  | text s => exact .ok _
  | _ => exact misreads_inner _

/-- An integer cannot be read from an infinite float. -/
theorem misreads_toInt (v : Value) : Misreads v.IsInfinite v.toInt := by
  cases v with
  | float x =>
    unfold toInt Num.truncate
    dsimp only
    split
    · exact .unreadable
    · cases hform : FloatForm.of x with
      | finite negative m q => exact .ok _
      | infinite negative =>
        exact .overflow ⟨x, negative, rfl, hform⟩
      | notANumber => contradiction
  | text s =>
    unfold toInt
    dsimp only
    split
    · exact .ok _
    · exact .unreadable
  | bool | int => exact .ok _
  | notANumber => exact .unreadable
  | null | list | object => exact .mistyped

/-- A float cannot be read from an integer that is too large. -/
theorem misreads_toFloat (v : Value) : Misreads v.IsBeyondFloats v.toFloat := by
  cases v with
  | int n =>
    unfold toFloat Num.toFloat
    dsimp only
    split
    · next hinf => exact .overflow ⟨n, rfl, hinf⟩
    · exact .ok _
  | text s =>
    unfold toFloat
    dsimp only
    split
    · exact .ok _
    · exact .unreadable
  | bool | float | notANumber => exact .ok _
  | null | list | object => exact .mistyped

/-- What is found under a key, and is not what stands in for it, is a field. -/
theorem field_of_fieldD (default : Value) (h : v.fieldD key default ≠ default) :
    v.field key = .ok (v.fieldD key default) := by
  cases v with
  | object fields =>
    unfold fieldD field at *
    dsimp only at *
    cases hlookup : lookup? key fields with
    | none =>
      rw [hlookup] at h
      exact absurd rfl h
    | some w => rfl
  | _ => exact absurd rfl h

theorem has_of_fieldD {default : Value} {P : Value → Prop} (h : P (v.fieldD key default))
    (hdefault : ¬P default) : v.Has key P :=
  ⟨_, field_of_fieldD default fun heq => hdefault (by rwa [heq] at h), h⟩

/-- Somewhere in a snapshot there is a number that is too large. -/
def Oversized (v : Value) : Prop :=
  v.Has "next_roll_id" IsInfinite ∨ v.Has "canceled_watermark" IsInfinite ∨
    v.Has "clock" IsBeyondFloats ∨
    v.Has "dice" fun dice => ∃ items, dice.items = .ok items ∧ ∃ die ∈ items,
      ∃ key ∈ ["roll_id", "group_index", "logical_index"], die.Has key IsInfinite

end Value

/-! ## Reading a snapshot -/

theorem Group.misreads_ofValue? {large : Prop} (v : Value) : Misreads large (Group.ofValue? v) :=
  (v.misreads_field _).bind fun _ _ => (v.misreads_field _).bind fun _ _ => .ok _

theorem DieResult.misreads_ofValue? {large : Prop} (v : Value) :
    Misreads large (DieResult.ofValue? v) :=
  (v.misreads_field _).bind fun _ _ => (v.misreads_field _).bind fun _ _ => .ok _

theorem Record.misreads_ofValue? {large : Prop} (v : Value) : Misreads large (Record.ofValue? v) := by
  refine (v.misreads_field _).bind fun _ _ => (v.misreads_field _).bind fun _ _ => ?_
  refine (v.misreads_field _).bind fun _ _ => (v.misreads_field _).bind fun groups _ => ?_
  refine groups.misreads_items.bind fun _ _ => ?_
  refine (Misreads.mapM fun g _ => Group.misreads_ofValue? g).bind fun _ _ => ?_
  refine (Value.misreads_items _).bind fun _ _ => .bind (.mapM fun results _ => ?_) fun _ _ => .ok _
  exact results.misreads_items.bind fun _ _ => .mapM fun r _ => DieResult.misreads_ofValue? r

theorem Motion.misreads_ofValue? {large : Prop} (v : Value) : Misreads large (Motion.ofValue? v) := by
  refine (v.misreads_field _).bind fun w _ => w.misreads_items.bind fun _ _ => ?_
  refine (v.misreads_field _).bind fun w _ => w.misreads_items.bind fun _ _ => ?_
  refine (v.misreads_field _).bind fun w _ => w.misreads_items.bind fun _ _ => ?_
  exact (v.misreads_field _).bind fun w _ => w.misreads_items.bind fun _ _ => .ok _

theorem Throw.misreads_ofValue? {large : Prop} (v : Value) : Misreads large (Throw.ofValue? v) := by
  unfold Throw.ofValue?
  split
  · dsimp only
    split
    · split
      · exact .ok _
      · exact .mistyped
    · exact .mistyped
  · exact .mistyped

/-- A die of a snapshot cannot be read if one of its indices is infinite. -/
theorem SavedDie.misreads_ofValue? (v : Value) :
    Misreads (∃ key ∈ ["roll_id", "group_index", "logical_index"], v.Has key Value.IsInfinite)
      (SavedDie.ofValue? v) := by
  have hindex : ∀ key ∈ ["roll_id", "group_index", "logical_index"], ∀ w, v.field key = .ok w →
      Misreads (∃ key ∈ ["roll_id", "group_index", "logical_index"], v.Has key Value.IsInfinite)
        w.toInt := fun key hkey w hw =>
    w.misreads_toInt.mono fun hinf => ⟨key, hkey, w, hw, hinf⟩
  have hkind : ∀ w, Misreads (∃ key ∈ ["roll_id", "group_index", "logical_index"],
      v.Has key Value.IsInfinite) (SavedDie.readKind w) := by
    intro w
    unfold SavedDie.readKind
    split
    · exact .ok _
    · exact .unreadable
  refine (v.misreads_field _).bind fun w _ => (hkind w).bind fun _ _ => ?_
  refine (v.misreads_field _).bind fun w hw => (hindex _ (by simp) w hw).bind fun _ _ => ?_
  refine (v.misreads_field _).bind fun w hw => (hindex _ (by simp) w hw).bind fun _ _ => ?_
  refine (v.misreads_field _).bind fun w hw => (hindex _ (by simp) w hw).bind fun _ _ => ?_
  refine (v.misreads_field _).bind fun _ _ => (v.misreads_field _).bind fun _ _ => ?_
  refine (v.misreads_field _).bind fun _ _ => ?_
  exact (Motion.misreads_ofValue? v).bind fun _ _ => .ok _

namespace Saved

theorem misreads_readActive {large : Prop} (history : List Record) (ids : List Value) :
    Misreads large (readActive history ids) := by
  refine Misreads.bind (.mapM fun r _ => r.id.misreads_asKey) fun _ _ => ?_
  exact .bind (.mapM fun id _ => id.misreads_asKey.bind fun _ _ => .ok _) fun _ _ => .ok _

/-- A snapshot cannot be read if it is no data of this kind or has a number that is too large. -/
theorem misreads_ofValue? (nextId : Int) (v : Value) : Misreads v.Oversized (ofValue? nextId v) := by
  have hrest : ∀ nextId watermark, Misreads v.Oversized (do
      let clock ← (v.fieldD "clock" (.float 0)).toFloat
      let formula ← (v.fieldD "formula" (.text "")).shown
      let history ← (← (v.fieldD "roll_history" (.list [])).items).mapM Record.ofValue?
      let dice ← (← (v.fieldD "dice" (.list [])).items).mapM SavedDie.ofValue?
      let throws ← (← (v.fieldD "pending_spawns" (.list [])).items).mapM Throw.ofValue?
      let active ← readActive history (← (v.fieldD "active_rolls" (.list [])).items)
      return ({ nextId, watermark, clock, formula, history, dice, throws, active } : Saved)) := by
    intro nextId watermark
    refine Misreads.bind ((Value.misreads_toFloat _).mono fun hlarge => ?_) fun _ _ => ?_
    · refine .inr (.inr (.inl (Value.has_of_fieldD hlarge ?_)))
      exact fun ⟨_, h, _⟩ => nomatch h
    refine (Value.misreads_shown _).bind fun _ _ => (Value.misreads_items _).bind fun _ _ => ?_
    refine Misreads.bind (.mapM fun r _ => Record.misreads_ofValue? r) fun history _ => ?_
    refine (Value.misreads_items _).bind fun dice hdice => ?_
    refine Misreads.bind (.mapM fun die hdie => ?_) fun _ _ => ?_
    · refine (SavedDie.misreads_ofValue? die).mono fun hlarge => .inr (.inr (.inr ?_))
      refine Value.has_of_fieldD (P := fun dice => ∃ items, dice.items = .ok items ∧ ∃ die ∈ items, _)
        ⟨dice, hdice, die, hdie, hlarge⟩ ?_
      rintro ⟨items, hitems, die, hdie, _⟩
      cases hitems
      nomatch hdie
    refine (Value.misreads_items _).bind fun _ _ => ?_
    refine Misreads.bind (.mapM fun throw _ => Throw.misreads_ofValue? throw) fun _ _ => ?_
    refine (Value.misreads_items _).bind fun _ _ => ?_
    exact (misreads_readActive _ _).bind fun _ _ => .ok _
  unfold ofValue?
  split
  · refine Misreads.bind ((Value.misreads_toInt _).mono fun hlarge => ?_) fun nextId _ => ?_
    · refine .inl (Value.has_of_fieldD hlarge ?_)
      exact fun ⟨_, _, h, _⟩ => nomatch h
    · dsimp only
      split
      · exact hrest nextId .null
      · next hnull =>
        refine Misreads.bind ((Value.misreads_toInt _).mono fun hlarge => ?_) fun n _ =>
          hrest nextId (.int n)
        refine .inr (.inl (Value.has_of_fieldD hlarge ?_))
        exact fun ⟨_, _, h, _⟩ => nomatch h
  · exact .mistyped

end Saved

/-! ## Loading -/

namespace Tray

variable {ω : Type} [World ω] {notify : Notify ω} {t : Tray ω} {text : String} {v : Value}

theorem load_of_unread (h : Json.read? text = none) :
    (load notify (some text)).perform t = (.ok false, t) := by
  rw [load, h]
  rfl

theorem load_of_restored {t' : Tray ω} (h : Json.read? text = some v)
    (hrestore : (restore notify v).perform t = (.ok (), t')) :
    (load notify (some text)).perform t = (.ok true, t') := by
  rw [load, h]
  dsimp only
  rw [Attempt.perform_bind_of_ok (Attempt.perform_get t), hrestore]
  rfl

/-- The tray is left as the restoring left it that failed. Faults of data are answered with false. -/
theorem load_of_error {t' : Tray ω} {fault : Fault} (h : Json.read? text = some v)
    (hrestore : (restore notify v).perform t = (.error fault, t')) :
    ∃ answer, (load notify (some text)).perform t = (answer, t') ∧ answer ≠ .ok true ∧
      (fault.IsOfData → answer = .ok false) ∧ (fault = .overflow → answer = .error .overflow) := by
  rw [load, h]
  dsimp only
  rw [Attempt.perform_bind_of_ok (Attempt.perform_get t), hrestore]
  cases fault <;> exact ⟨_, rfl, by simp [Fault.IsOfData]⟩

/-- What comes of loading a text, or the lack of one: true if it held a snapshot, which was restored;
false if it held none, with the tray as it was; a failure if it held a number that is too large, with the
tray as it was. But where a snapshot was read and its throws do not compare, or the world does not take its
dice, its rolls are on the tray, though the answer is not true. -/
theorem load_answers (L : Lodging ω) {t' : Tray ω} (holds : L.holds t.world (t.dice.map Die.handle))
    (notify : Notify ω) (text : Option String) {answer : Except Fault Bool}
    (hload : (load notify text).perform t = (answer, t')) :
    (answer = .ok true ∧
        ∃ v, text.bind Json.read? = some v ∧ (restore notify v).perform t = (.ok (), t')) ∨
      (answer = .ok false ∧ t' = t ∧ ∀ v, text.bind Json.read? = some v →
        ∃ fault, Saved.ofValue? t.nextId v = .error fault) ∨
      (answer = .error .overflow ∧ t' = t ∧ ∃ v, text.bind Json.read? = some v ∧ v.Oversized) ∨
      ∃ v saved, text.bind Json.read? = some v ∧ Saved.ofValue? t.nextId v = .ok saved ∧
        (∃ world dice pending nextThrow,
          t' = { placeRolls saved t with world, dice, pending, nextThrow }) ∧ answer ≠ .ok true ∧
        (answer = .ok false ∧ Clash (t.pending.toList ++ numbered t.nextThrow saved.throws) ∨
          ¬Admits saved.dice t.world) := by
  rcases text with _ | text
  · cases hload
    exact .inr (.inl ⟨rfl, rfl, fun _ h => nomatch h⟩)
  rw [Option.bind_some]
  rcases hread : Json.read? text with _ | v
  · cases (load_of_unread hread).symm.trans hload
    exact .inr (.inl ⟨rfl, rfl, fun _ h => nomatch h⟩)
  rcases restore_cases L holds notify v with ⟨fault, hvalue, hperform⟩ | ⟨saved, hvalue,
    ⟨t'', hperform⟩ | ⟨fault, world, dice, pending, nextThrow, hperform, hcause⟩⟩
  · obtain ⟨_, hanswer, _, hdata, hoverflow⟩ := load_of_error hread hperform
    cases hanswer.symm.trans hload
    rcases Saved.misreads_ofValue? t.nextId v fault hvalue with hfault | ⟨hfault, hlarge⟩
    · exact .inr (.inl ⟨hdata hfault, rfl, fun v' hv => ⟨fault, Option.some.inj hv ▸ hvalue⟩⟩)
    · exact .inr (.inr (.inl ⟨hoverflow hfault, rfl, v, rfl, hlarge⟩))
  · cases (load_of_restored hread hperform).symm.trans hload
    exact .inl ⟨rfl, v, rfl, hperform⟩
  · obtain ⟨_, hanswer, hnot, hdata, _⟩ := load_of_error hread hperform
    cases hanswer.symm.trans hload
    refine .inr (.inr (.inr ⟨v, saved, rfl, hvalue, ⟨world, dice, pending, nextThrow, rfl⟩, hnot, ?_⟩))
    rcases hcause with hadmits | ⟨hclash, hfault⟩
    · exact .inr hadmits
    · exact .inl ⟨hdata (.inr (.inl hfault)), hclash⟩

/-- A snapshot of nothing but a next id that is infinite. -/
def infiniteId : String := "\x7b\"next_roll_id\": Infinity\x7d"

theorem load_infinite_id :
    (load announce (some infiniteId)).perform vacant = (.error .overflow, vacant) ∧
      ((Except.error Fault.overflow = .ok true ∧ ∃ v, (some infiniteId).bind Json.read? = some v ∧
          (restore announce v).perform vacant = (.ok (), vacant)) ∨
        (Except.error Fault.overflow = .ok false ∧ vacant = vacant ∧
          ∀ v, (some infiniteId).bind Json.read? = some v →
            ∃ fault, Saved.ofValue? vacant.nextId v = .error fault) ∨
        (Except.error (α := Bool) Fault.overflow = .error .overflow ∧ vacant = vacant ∧
          ∃ v, (some infiniteId).bind Json.read? = some v ∧ v.Oversized) ∨
        ∃ v saved, (some infiniteId).bind Json.read? = some v ∧
          Saved.ofValue? vacant.nextId v = .ok saved ∧
          (∃ world dice pending nextThrow,
            vacant = { placeRolls saved vacant with world, dice, pending, nextThrow }) ∧
          Except.error Fault.overflow ≠ .ok true ∧
          (Except.error Fault.overflow = .ok false ∧
              Clash (vacant.pending.toList ++ numbered vacant.nextThrow saved.throws) ∨
            ¬Admits saved.dice vacant.world)) := by
  have hread : (Json.read? infiniteId).map (fun v => (Saved.ofValue? 0 v).map fun _ => ()) =
      some (.error .overflow) := by decide +kernel
  obtain ⟨v, hv, hvalue⟩ := Option.map_eq_some_iff.1 hread
  have hload : (load announce (some infiniteId)).perform vacant = (.error .overflow, vacant) := by
    have hunread : Saved.ofValue? vacant.nextId v = .error .overflow := by
      rcases hsaved : Saved.ofValue? 0 v with fault | saved <;> rw [hsaved] at hvalue <;> cases hvalue
      exact hsaved
    have hrestore : (restore announce v).perform vacant = (.error .overflow, vacant) := by
      rw [restore, Attempt.perform_bind_of_ok (Attempt.perform_get _)]
      exact Attempt.perform_bind_of_error (congrArg (·, vacant) hunread)
    obtain ⟨answer, hanswer, _, _, hoverflow⟩ := load_of_error hv hrestore
    rw [hanswer, hoverflow rfl]
  exact ⟨hload, load_answers ScriptedWorld.lodging (t := vacant) (.nil 0) announce _ hload⟩

end Tray

end RollTray
