import RollTray.Proofs.Saving
import RollTray.Proofs.Tray.Shapes
import RollTray.Proofs.Tray.Undisturbed
import RollTray.Proofs.Tray.Waiting
import RollTray.Proofs.World.Lodging

/-!
# Snapshots that are restored

While listeners only look on, a snapshot can be taken of a tray at any time. It says field by field what
is on the tray (`Value.Describes`), and a fresh tray onto which it is put holds the same records, throws
and dice in the same order (`Tray.PutBack`): none is lost and none is added. Dice get handles of their own
and lie where they were, whatever their velocities. No die is dropped at the end, as active rolls are in
history and dice belong to active rolls (`restored_of_undisturbed`).
-/

namespace RollTray

/-- A die of a snapshot after it was put onto a tray. -/
structure SavedDie.Again (s s' : SavedDie) : Prop where
  die : s'.die = { s.die with handle := s'.die.handle }
  spot : s.motion.SameSpot s'.motion

/-- Both values have this field, and it is the same. -/
def Value.Share (v v' : Value) (key : String) : Prop :=
  ∃ x, v.field key = .ok x ∧ v'.field key = .ok x

/-- Two snapshots of the same rolls, throws and dice. -/
structure Value.SameSnapshot (v v' : Value) : Prop where
  rolls : ∀ key ∈ ["roll_history", "next_roll_id", "canceled_watermark", "clock", "formula",
    "active_rolls", "pending_spawns"], v.Share v' key
  dice : ∃ dice dice', v.field "dice" = .ok (.list dice) ∧ v'.field "dice" = .ok (.list dice') ∧
    List.Forall₂ (fun d d' => ∀ key ∈ ["type", "roll_id", "group_index", "logical_index", "tens",
      "settled", "value", "awake_since", "position", "orientation"], d.Share d' key) dice dice'

/-- The snapshot says field by field what is on the tray: every roll, every throw in the order in which
they are due, and every die with how it moves. -/
structure Value.Describes {ω : Type} [World ω] (v : Value) (t : Tray ω) : Prop where
  history : v.field "roll_history" = .ok (.list (t.history.map fun r => r.record.toValue))
  nextId : v.field "next_roll_id" = .ok (.int t.nextId)
  watermark : v.field "canceled_watermark" = .ok t.watermark
  clock : v.field "clock" = .ok (.float t.clock)
  formula : v.field "formula" = .ok (.text t.formula)
  active : v.field "active_rolls" = .ok (.list t.activeIds)
  throws : ∃ throws, v.field "pending_spawns" = .ok (.list (throws.map Throw.toValue)) ∧
    t.waiting = .ok throws ∧ throws.Perm (t.pending.toList.map Prod.snd)
  dice : ∃ saved, v.field "dice" = .ok (.list (saved.map SavedDie.toValue)) ∧
    List.Forall₂ (fun d s => s.die = d ∧ World.motion t.world d.handle = .ok s.motion) t.dice saved

/-- The second tray holds the same records, throws and dice as the first one, each in its place. -/
structure Tray.PutBack {ω ω' : Type} [World ω] [World ω'] (t : Tray ω) (t' : Tray ω') : Prop where
  history : t'.history.map Roll.record = t.history.map Roll.record
  active : t'.active.map Roll.record = t.active.map Roll.record
  nextId : t'.nextId = t.nextId
  watermark : t'.watermark = t.watermark
  clock : t'.clock = t.clock
  formula : t'.formula = t.formula
  throws : ∃ throws, t.waiting = .ok throws ∧ t'.waiting = .ok throws ∧
    throws.Perm (t.pending.toList.map Prod.snd) ∧ throws.Perm (t'.pending.toList.map Prod.snd)
  dice : List.Forall₂ (fun d d' => d' = { d with handle := d'.handle } ∧
    ∃ m m', World.motion t.world d.handle = .ok m ∧ World.motion t'.world d'.handle = .ok m' ∧
      m.SameSpot m') t.dice t'.dice

theorem SavedDie.Again.share {s s' : SavedDie} (h : s.Again s') :
    ∀ key ∈ ["type", "roll_id", "group_index", "logical_index", "tens", "settled", "value",
      "awake_since", "position", "orientation"], s.toValue.Share s'.toValue key := by
  obtain ⟨d, m⟩ := s
  obtain ⟨d', m'⟩ := s'
  obtain ⟨hdie, ⟨hposition, horientation⟩⟩ := h
  dsimp only at hdie hposition horientation
  rw [hdie]
  simp only [List.mem_cons, List.not_mem_nil, or_false, forall_eq_or_imp, forall_eq]
  refine ⟨⟨_, rfl, rfl⟩, ⟨_, rfl, rfl⟩, ⟨_, rfl, rfl⟩, ⟨_, rfl, rfl⟩, ⟨_, rfl, rfl⟩, ⟨_, rfl, rfl⟩,
    ⟨_, rfl, rfl⟩, ⟨_, rfl, rfl⟩, ⟨_, rfl, ?_⟩, ⟨_, rfl, ?_⟩⟩
  · rw [← hposition]
    rfl
  · rw [← horientation]
    rfl

namespace Tray

variable {ω ω' : Type} [World ω] [World ω']

theorem savedDie_eq_ok {t : Tray ω} {d : Die} {s : SavedDie} :
    t.savedDie d = .ok s ↔ s.die = d ∧ World.motion t.world d.handle = .ok s.motion := by
  rw [savedDie, bind_eq_ok]
  constructor
  · rintro ⟨motion, hmotion, h⟩
    obtain rfl := pure_eq_ok.1 h
    exact ⟨rfl, hmotion⟩
  · rintro ⟨rfl, hmotion⟩
    exact ⟨s.motion, hmotion, rfl⟩

theorem savedDice_eq_ok {t : Tray ω} {saved : List SavedDie} : t.savedDice = .ok saved ↔
    List.Forall₂ (fun d s => s.die = d ∧ World.motion t.world d.handle = .ok s.motion) t.dice saved := by
  rw [savedDice, mapM_eq_ok]
  simp only [savedDie_eq_ok]

/-! ## Putting dice back -/

/-- A die that was put into a world is where it was, and the others stay where they are. -/
theorem Lodging.put (L : Lodging ω) {w w' : ω} {handles : List Nat} (holds : L.holds w handles)
    {s : SavedDie} {handle : Nat}
    (hspawn : (World.spawn s.die.kind s.die.tens (some s.motion)).perform w = (.ok handle, w')) :
    (s.die.settled = true → ((World.sleep handle).perform w').1 = .ok ()) ∧
      L.holds (settledWorld s handle w') (handle :: handles) ∧
      (∃ m, World.motion (settledWorld s handle w') handle = .ok m ∧ s.motion.SameSpot m) ∧
      ∀ other ∈ handles, World.motion (settledWorld s handle w') other = World.motion w other := by
  have hholds := L.spawn _ _ _ holds hspawn
  obtain ⟨⟨m, hm, hspot⟩, hothers⟩ := L.spawn_motion _ _ _ holds hspawn
  obtain ⟨hnew, -⟩ := List.nodup_cons.1 (L.apart hholds)
  rw [settledWorld]
  cases s.die.settled with
  | false => exact ⟨fun h => (nomatch h), hholds, ⟨m, hm, hspot⟩, hothers⟩
  | true =>
    obtain ⟨w'', hsleep, ⟨m', hm', hspot'⟩, hothers'⟩ :=
      L.sleep_motion hholds (List.mem_cons_self ..) hm
    have hholds' := L.sleep handle hholds
    rw [hsleep] at hholds' ⊢
    refine ⟨fun _ => rfl, hholds', ⟨m', hm', hspot.trans hspot'⟩, fun other hother => ?_⟩
    rw [if_pos rfl, hothers' other (ne_of_mem_of_not_mem hother hnew), hothers other hother]

/-- A die is put onto a tray, of which a snapshot can be taken as before. -/
theorem placeDie_perform (L : Lodging ω) {t : Tray ω}
    (holds : L.holds t.world (t.dice.map Die.handle)) {before : List SavedDie}
    (hbefore : t.savedDice = .ok before) {s : SavedDie} {handle : Nat} {w : ω}
    (hspawn : (World.spawn s.die.kind s.die.tens (some s.motion)).perform t.world =
      (.ok handle, w)) :
    ∃ dice, (placeDie s).perform t = (.ok (), { t with world := settledWorld s handle w, dice }) ∧
      L.holds (settledWorld s handle w) (dice.map Die.handle) ∧
      ∃ after, { t with world := settledWorld s handle w, dice }.savedDice = .ok (before ++ [after]) ∧
        s.Again after := by
  obtain ⟨hsleeps, hholds, ⟨m, hm, hspot⟩, hothers⟩ := L.put holds hspawn
  refine ⟨t.dice ++ [{ s.die with handle }], ?_, ?_, ⟨{ s.die with handle }, m⟩, ?_, rfl, hspot⟩
  · rw [placeDie, Attempt.perform_bind_of_ok (withWorld_perform hspawn)]
    rw [settledWorld]
    cases hsettled : s.die.settled with
    | false => rfl
    | true =>
      have hsleep : (withWorld (World.sleep handle)).perform { t with world := w } =
          (.ok (), { t with world := ((World.sleep handle).perform w).2 }) :=
        withWorld_perform (Prod.ext (hsleeps hsettled) rfl)
      exact Attempt.perform_bind_of_ok hsleep
  · rw [List.map_append]
    exact L.perm hholds (List.perm_append_singleton ..).symm
  · rw [savedDice_eq_ok] at hbefore ⊢
    refine List.rel_append ?_ (.cons ⟨rfl, hm⟩ .nil)
    have hstay : ∀ d ∈ t.dice, World.motion (settledWorld s handle w) d.handle =
        World.motion t.world d.handle := fun d hd => hothers d.handle (List.mem_map_of_mem hd)
    refine ((List.forall₂_and_left ..).2 ⟨hstay, hbefore⟩).imp fun d s h => ?_
    exact ⟨h.2.1, h.1.trans h.2.2⟩

theorem forM_placeDie_perform (L : Lodging ω) {t : Tray ω}
    (holds : L.holds t.world (t.dice.map Die.handle)) {before : List SavedDie}
    (hbefore : t.savedDice = .ok before) {dice : List SavedDie} (admits : Admits dice t.world) :
    ∃ world placed, (dice.forM placeDie).perform t = (.ok (), { t with world, dice := placed }) ∧
      ∃ after, { t with world, dice := placed }.savedDice = .ok (before ++ after) ∧
        List.Forall₂ SavedDie.Again dice after := by
  induction dice generalizing t before with
  | nil =>
    refine ⟨t.world, t.dice, rfl, [], ?_, .nil⟩
    rw [List.append_nil]
    exact hbefore
  | cons s rest ih =>
    obtain ⟨handle, w, hspawn, hadmits⟩ := admits
    obtain ⟨placed, hplace, hholds, first, hfirst, hagain⟩ :=
      placeDie_perform L holds hbefore hspawn
    obtain ⟨world, placed', hrest, after, hafter, hagain'⟩ := ih hholds hfirst hadmits
    refine ⟨world, placed', ?_, first :: after, ?_, .cons hagain hagain'⟩
    · rw [List.forM, Attempt.perform_bind_of_ok hplace]
      exact hrest
    · rw [List.append_assoc] at hafter
      exact hafter

/-- Whether a world takes dice does not depend on the handles that they had. -/
theorem Admits.bare {dice : List SavedDie} {w : ω} (h : Admits dice w) :
    Admits (dice.map SavedDie.bare) w := by
  induction dice generalizing w with
  | nil => trivial
  | cons s rest ih =>
    obtain ⟨handle, w', hspawn, hrest⟩ := h
    exact ⟨handle, w', hspawn, ih hrest⟩

/-! ## Putting rolls back -/

omit [World ω] in
theorem placeRolls_history (saved : Saved) (t : Tray ω) :
    (placeRolls saved t).history.map Roll.record = saved.history := by
  rw [placeRolls, List.map_map]
  exact List.zipIdx_map_fst ..

omit [World ω] in
/-- The active rolls are put back in their order, each from its place in history. -/
theorem placeRolls_activeIds {saved : Saved} {ids : List Value}
    (h : List.Forall₂ (Saved.Places saved.history) ids saved.active) (t : Tray ω) :
    (placeRolls saved t).activeIds = ids := by
  have hhistory := placeRolls_history saved t
  show (((saved.active.map fun n => (placeRolls saved t).history[n]?).reduceOption).map Roll.id) = ids
  generalize (placeRolls saved t).history = history at hhistory
  generalize saved.active = places at h
  induction h with
  | nil => rfl
  | cons hplace _ ih =>
    obtain ⟨r, hr, rfl⟩ := hplace
    rw [← hhistory, List.getElem?_map, Option.map_eq_some_iff] at hr
    obtain ⟨roll, hroll, rfl⟩ := hr
    rw [List.map_cons, hroll, List.reduceOption_cons_of_some, List.map_cons, ih]
    rfl

omit [World ω] in
theorem placeRolls_listed (saved : Saved) (t : Tray ω) :
    ∀ r ∈ (placeRolls saved t).active, r ∈ (placeRolls saved t).history := by
  intro r hr
  obtain ⟨place, _, hplace⟩ := List.mem_map.1 (List.reduceOption_mem_iff.1 hr)
  exact List.mem_of_getElem? hplace

/-- Nothing is pruned of a tray whose active rolls and dice are in history. -/
theorem prune_of_among (notify : Notify ω) {t : Tray ω}
    (hactive : ∀ id ∈ t.activeIds, id.among (t.history.map Roll.id) = true)
    (hdice : ∀ d ∈ t.dice, d.roll.among (t.history.map Roll.id) = true) :
    (prune notify).perform t = (.ok (), t) := by
  have hrolls : t.active.filter (fun r => !r.id.among (t.history.map Roll.id)) = [] :=
    List.filter_eq_nil_iff.2 fun r hr => by simp [hactive r.id (List.mem_map_of_mem hr)]
  have horphans : (t.dice.map Die.roll).filter (fun id => !id.among (t.history.map Roll.id)) = [] := by
    refine List.filter_eq_nil_iff.2 fun id hid => ?_
    obtain ⟨d, hd, rfl⟩ := List.mem_map.1 hid
    simp [hdice d hd]
  rw [prune, Attempt.perform_bind_of_ok (Attempt.perform_get t)]
  dsimp only
  have hnone : (cancelAll notify []).perform t = (.ok (), t) := rfl
  rw [hrolls, Attempt.perform_bind_of_ok hnone, Attempt.perform_bind_of_ok (Attempt.perform_get t),
    horphans]
  rfl

/-! ## Whole snapshots -/

/-- Ids that are integers are found among others as keys. -/
theorem among_of_mem {ids : List Value} (hids : ∀ id ∈ ids, ∃ n, id = .int n) {id : Value}
    (h : id ∈ ids) : id.among ids = true := by
  obtain ⟨n, rfl⟩ := hids id h
  refine List.any_eq_true.2 ⟨_, h, ?_⟩
  rw [Value.sameKey_int, decide_eq_true_iff]

/-- What is read of a snapshot whose dice and active rolls are in its history. -/
structure Coherent (saved : Saved) (ids : List Value) : Prop where
  history : ∀ r ∈ saved.history, ∃ n, r.id = .int n
  active : List.Forall₂ (Saved.Places saved.history) ids saved.active
  dice : ∀ s ∈ saved.dice, s.die.roll ∈ saved.history.map Record.id
  timely : ∀ throw ∈ saved.throws, throw.Timely
  inTurn : InTurn saved.throws

/-- A snapshot that was put onto a tray. -/
structure Carries (t : Tray ω) (saved : Saved) (ids : List Value) : Prop where
  history : t.history.map Roll.record = saved.history
  nextId : t.nextId = saved.nextId
  watermark : t.watermark = saved.watermark
  clock : t.clock = saved.clock
  formula : t.formula = saved.formula
  active : t.activeIds = ids
  listed : ∀ r ∈ t.active, r ∈ t.history
  dice : ∃ after, t.savedDice = .ok after ∧ List.Forall₂ SavedDie.Again saved.dice after
  waiting : t.waiting = .ok saved.throws

/-- What was read of a snapshot is put onto a fresh tray, if its world takes the dice. -/
theorem restore_perform (L : Lodging ω) {t : Tray ω} (fresh : Fresh t) (holds : L.holds t.world [])
    (notify : Notify ω) {v : Value} {saved : Saved} (hread : Saved.ofValue? t.nextId v = .ok saved)
    {ids : List Value} (coherent : Coherent saved ids) (admits : Admits saved.dice t.world) :
    ∃ t', (restore notify v).perform t = (.ok (), t') ∧ Carries t' saved ids := by
  have hdice : (placeRolls saved t).dice = [] := fresh.dice
  have hpending : (placeRolls saved t).pending = #[] := fresh.pending
  have hnone : (placeRolls saved t).savedDice = .ok [] := by
    rw [savedDice, hdice]
    rfl
  obtain ⟨world, placed, hplaced, after, hafter, hagain⟩ :=
    forM_placeDie_perform L (t := placeRolls saved t) (by rw [hdice]; exact holds) hnone admits
  obtain ⟨pending, nextThrow, hthrows, hperm⟩ :=
    forM_addThrow_perform (t := { placeRolls saved t with world, dice := placed })
      (by rw [hpending]; exact .nil _)
      fun throw hthrow => (coherent.timely throw hthrow).imp fun _ h => h.1
  have hids : (placeRolls saved t).history.map Roll.id = saved.history.map Record.id := by
    rw [← placeRolls_history saved t, List.map_map]
    rfl
  have hamong : ∀ id ∈ saved.history.map Record.id,
      id.among ((placeRolls saved t).history.map Roll.id) = true := by
    rw [hids]
    refine fun id hid => among_of_mem (fun id hid => ?_) hid
    obtain ⟨r, hr, rfl⟩ := List.mem_map.1 hid
    exact coherent.history r hr
  have hprune := prune_of_among notify
    (t := { placeRolls saved t with world, dice := placed, pending, nextThrow }) ?_ ?_
  · refine ⟨{ placeRolls saved t with world, dice := placed, pending, nextThrow }, ?_,
      placeRolls_history saved t, rfl, rfl, rfl, rfl, placeRolls_activeIds coherent.active t,
      placeRolls_listed saved t, ⟨after, hafter, hagain⟩,
      waiting_of_perm (n := (placeRolls saved t).nextThrow) ?_ coherent.timely coherent.inTurn⟩
    · rw [restore, Attempt.perform_bind_of_ok (Attempt.perform_get t), hread,
        Attempt.perform_bind_of_ok (Attempt.perform_lift ..),
        Attempt.perform_bind_of_ok (Attempt.perform_modify ..), Attempt.perform_bind_of_ok hplaced,
        Attempt.perform_bind_of_ok hthrows]
      exact hprune
    · rw [hpending] at hperm
      simpa using hperm
  · intro id hid
    have hid : id ∈ ids := placeRolls_activeIds coherent.active t ▸ hid
    obtain ⟨place, _, r, hr, rfl⟩ := forall₂_exists_right coherent.active hid
    exact hamong _ (List.mem_map_of_mem (List.mem_of_getElem? hr))
  · intro d hd
    obtain ⟨s, hs, hdie, _⟩ := forall₂_exists_right (savedDice_eq_ok.1 hafter) hd
    obtain ⟨s', hs', hagain⟩ := forall₂_exists_left hagain hs
    refine hamong _ ?_
    rw [← hdie, hagain.die]
    exact coherent.dice s' hs'

/-! ## Runs -/

/-- What dice are made of in runs in which listeners only look on. -/
theorem Undisturbed.shaped {F : Footing ω} {t t' : Tray ω} (run : Undisturbed F t t')
    (h : Shaped t) : Shaped t' := by
  induction run with
  | refl => exact h
  | act _ op ih => exact Shaped.operation op _ ih
  | outside _ _ _ _ _ _ ih => exact ih.around rfl rfl rfl

/-- A snapshot can be taken of dice that the world keeps up. -/
theorem exists_savedDice (L : Lodging ω) {t : Tray ω}
    (holds : L.holds t.world (t.dice.map Die.handle)) : ∃ saved, t.savedDice = .ok saved := by
  have hdice : ∀ dice : List Die, (∀ d ∈ dice, d ∈ t.dice) →
      ∃ saved, dice.mapM t.savedDie = .ok saved := by
    intro dice
    induction dice with
    | nil => exact fun _ => ⟨[], rfl⟩
    | cons d rest ih =>
      intro hmem
      obtain ⟨m, hm⟩ := L.motion holds (List.mem_map_of_mem (hmem d (List.mem_cons_self ..)))
      obtain ⟨saved, hsaved⟩ := ih fun d hd => hmem d (List.mem_cons_of_mem _ hd)
      exact ⟨⟨d, m⟩ :: saved, mapM_eq_ok.2 (.cons (savedDie_eq_ok.2 ⟨rfl, hm⟩) (mapM_eq_ok.1 hsaved))⟩
  exact hdice t.dice fun _ => id

/-- No die that waits is due at a time that is no number. -/
def Dated (t : Tray ω) : Prop :=
  ∀ item ∈ t.pending, item.2.due.num?.any Num.isNaN = false

instance (t : Tray ω) : Decidable (Dated t) :=
  inferInstanceAs (Decidable (∀ item ∈ t.pending, item.2.due.num?.any Num.isNaN = false))

omit [World ω] in
theorem Shaped.timely {t : Tray ω} (h : Shaped t) (hdated : Dated t) :
    ∀ item ∈ t.pending, item.2.Timely := by
  intro item hitem
  obtain ⟨x, hx⟩ := h.queued.due item (Array.mem_toList_iff.2 hitem)
  have hnumber := hdated item hitem
  rw [hx] at hnumber
  exact ⟨x, hx, hnumber⟩

/-- A snapshot can be taken of an intact tray, and it is read as it was taken. -/
theorem exists_snapshot (L : Lodging ω) {start : Int} {t : Tray ω}
    (h : Intact L.toFooting start t) (hshaped : Shaped t) (hdated : Dated t) (nextId : Int) :
    ∃ dice throws places, t.savedDice = .ok dice ∧ t.waiting = .ok throws ∧
      t.snapshot = .ok (t.snapshotOf (dice.map SavedDie.toValue) throws) ∧
      Saved.ofValue? nextId (t.snapshotOf (dice.map SavedDie.toValue) throws) =
        .ok (t.savedAs dice throws places) ∧
      Coherent (t.savedAs dice throws places) t.activeIds := by
  obtain ⟨⟨owed, ho⟩, hlisted⟩ := h
  obtain ⟨dice, hdice⟩ := exists_savedDice L (holds_undisturbed.1 ho.holds)
  obtain ⟨throws, hwaiting, hperm, hturn⟩ :=
    exists_waiting hshaped.queued.apart (hshaped.timely hdated)
  have hids : ∀ r ∈ t.history.map Roll.record, ∃ n, r.id = .int n := by
    intro record hrecord
    obtain ⟨r, hr, rfl⟩ := List.mem_map.1 hrecord
    exact ⟨_, ho.id_eq (List.mem_append_left _ hr)⟩
  have hmem : ∀ r ∈ t.active, r.id ∈ (t.history.map Roll.record).map Record.id := by
    intro r hr
    rw [List.map_map]
    exact List.mem_map_of_mem (hlisted r hr)
  obtain ⟨places, hread, hplaces⟩ := Saved.exists_readActive hids fun id hid => by
    obtain ⟨r, hr, rfl⟩ := List.mem_map.1 hid
    exact hmem r hr
  have hroll : ∀ s ∈ dice, ∃ d ∈ t.dice, s.die = d ∧ ∃ r ∈ t.active, d.roll = r.id := by
    intro s hs
    obtain ⟨d, hd, hdie, _⟩ := forall₂_exists_left (savedDice_eq_ok.1 hdice) hs
    obtain ⟨r, hr, hroll⟩ := ho.dice d hd
    exact ⟨d, hd, hdie, r, hr, hroll.trans (ho.id_eq (List.mem_append_right _ hr)).symm⟩
  have hsound : ∀ s ∈ dice, s.die.Sound ∧ ∃ n, s.die.roll = .int n := by
    intro s hs
    obtain ⟨d, hd, hdie, r, hr, hroll⟩ := hroll s hs
    rw [hdie, hroll]
    exact ⟨hshaped.dice d hd, _, ho.id_eq (List.mem_append_right _ hr)⟩
  refine ⟨dice, throws, places, hdice, hwaiting, ?_,
    Saved.ofValue?_snapshotOf hsound ho.watermark hread nextId, hids, hplaces, ?_, ?_, hturn⟩
  · rw [snapshot, hdice, ok_bind, hwaiting]
    rfl
  · intro s hs
    obtain ⟨s, hdice, rfl⟩ := List.mem_map.1 hs
    obtain ⟨d, _, hdie, r, hr, hroll⟩ := hroll s hdice
    show s.die.roll ∈ _
    rw [hdie, hroll]
    exact hmem r hr
  · intro throw hthrow
    obtain ⟨item, hitem, rfl⟩ := List.mem_map.1 (hperm.mem_iff.1 hthrow)
    exact hshaped.timely hdated item (Array.mem_toList_iff.1 hitem)

/-- A snapshot that was taken of a tray describes it. -/
theorem describes_of_snapshot {t : Tray ω} {v : Value} (h : t.snapshot = .ok v) : v.Describes t := by
  obtain ⟨dice, hdice, h⟩ := bind_eq_ok.1 h
  obtain ⟨throws, hwaiting, h⟩ := bind_eq_ok.1 h
  obtain rfl := pure_eq_ok.1 h
  exact {
    history := rfl, nextId := rfl, watermark := rfl, clock := rfl, formula := rfl, active := rfl
    throws := ⟨throws, rfl, hwaiting, perm_of_waiting hwaiting⟩
    dice := ⟨dice, rfl, savedDice_eq_ok.1 hdice⟩ }

section PutBack

variable {S : Setting ω} {owed : Owed} {t : Tray ω} {t' : Tray ω'}

omit [World ω'] in
/-- Where histories have the same records, so have active rolls of the same ids. -/
theorem map_record_active (ho : Orderly S owed t) (hlisted : ∀ r ∈ t'.active, r ∈ t'.history)
    (hhistory : t'.history.map Roll.record = t.history.map Roll.record)
    (hids : t'.activeIds = t.activeIds) : t'.active.map Roll.record = t.active.map Roll.record := by
  have hsame : List.Forall₂ (fun id id' => id = id') t.activeIds t'.activeIds := by
    rw [List.forall₂_eq_eq_eq, hids]
  rw [activeIds, activeIds, List.forall₂_map_left_iff, List.forall₂_map_right_iff] at hsame
  have hleft := (List.forall₂_and_left ..).2 ⟨fun r hr => hr, hsame⟩
  have hboth := (List.forall₂_and_left ..).2 ⟨fun r hr => hr, hleft.flip⟩
  have hrecords : List.Forall₂ (fun r r' => r = r') (t'.active.map Roll.record)
      (t.active.map Roll.record) := by
    rw [List.forall₂_map_left_iff, List.forall₂_map_right_iff]
    refine hboth.imp fun r' r ⟨hr', hr, hid⟩ => ?_
    have hmem : r'.record ∈ t.history.map Roll.record :=
      hhistory ▸ List.mem_map_of_mem (hlisted r' hr')
    obtain ⟨x, hx, hrecord⟩ := List.mem_map.1 hmem
    -- The record of this id in the first history is that of the active roll.
    have hxid : x.id = r.id := (congrArg Record.id hrecord).trans hid.symm
    rw [← hrecord, ho.eq_of_id (List.mem_append_left _ hx) (List.mem_append_right _ hr) hxid]
  rwa [List.forall₂_eq_eq_eq] at hrecords

/-- What was saved of a tray is put back onto what carries it. -/
theorem Carries.putBack (ho : Orderly S owed t) {dice : List SavedDie} {throws : List Throw}
    {places : List Nat} (hdice : t.savedDice = .ok dice) (hwaiting : t.waiting = .ok throws)
    (h : Carries t' (t.savedAs dice throws places) t.activeIds) : t.PutBack t' where
  history := h.history
  active := map_record_active ho h.listed h.history h.active
  nextId := h.nextId
  watermark := h.watermark
  clock := h.clock
  formula := h.formula
  throws := ⟨throws, hwaiting, h.waiting, perm_of_waiting hwaiting, perm_of_waiting h.waiting⟩
  dice := by
    obtain ⟨after, hafter, hagain⟩ := h.dice
    -- From a die to how it was saved, from there to how it was saved again, and to the die that this is of.
    have hback : List.Forall₂ (fun s d' => s.die = d' ∧ World.motion t'.world d'.handle = .ok s.motion)
        after t'.dice := (savedDice_eq_ok.1 hafter).flip
    have hagain : List.Forall₂ (fun s d' => d' = { s.die with handle := d'.handle } ∧
        ∃ m', World.motion t'.world d'.handle = .ok m' ∧ s.motion.SameSpot m') dice t'.dice :=
      forall₂_trans (fun s s' d' ⟨hdie, hspot⟩ ⟨heq, hmotion⟩ => heq ▸ ⟨hdie, _, heq ▸ hmotion, hspot⟩)
        (List.forall₂_map_left_iff.1 hagain) hback
    refine forall₂_trans (fun d s d' ⟨heq, hmotion⟩ ⟨hdie, m', hmotion', hspot⟩ => ?_)
      (savedDice_eq_ok.1 hdice) hagain
    exact ⟨heq ▸ hdie, s.motion, m', hmotion, hmotion', hspot⟩

/-- Snapshots of a tray and of one onto which the same was put are the same but for the handles and the
velocities of dice. -/
theorem PutBack.sameSnapshot (h : t.PutBack t') {v v' : Value} (hv : v.Describes t)
    (hv' : v'.Describes t') : v.SameSnapshot v' where
  rolls := by
    have hhistory := congrArg (List.map Record.toValue) h.history
    have hactive : t'.activeIds = t.activeIds := by
      have hids := congrArg (List.map Record.id) h.active
      rwa [List.map_map, List.map_map] at hids
    rw [List.map_map, List.map_map] at hhistory
    obtain ⟨throws, hthrows, hwaiting, -⟩ := hv.throws
    obtain ⟨throws', hthrows', hwaiting', -⟩ := hv'.throws
    obtain ⟨both, hboth, hboth', -⟩ := h.throws
    obtain rfl := Except.ok.inj (hwaiting.symm.trans hboth)
    obtain rfl := Except.ok.inj (hwaiting'.symm.trans hboth')
    simp only [List.mem_cons, List.not_mem_nil, or_false, forall_eq_or_imp, forall_eq]
    exact ⟨⟨_, hv.history, hhistory ▸ hv'.history⟩, ⟨_, hv.nextId, h.nextId ▸ hv'.nextId⟩,
      ⟨_, hv.watermark, h.watermark ▸ hv'.watermark⟩, ⟨_, hv.clock, h.clock ▸ hv'.clock⟩,
      ⟨_, hv.formula, h.formula ▸ hv'.formula⟩, ⟨_, hv.active, hactive ▸ hv'.active⟩,
      ⟨_, hthrows, hthrows'⟩⟩
  dice := by
    obtain ⟨saved, hdice, hsaved⟩ := hv.dice
    obtain ⟨saved', hdice', hsaved'⟩ := hv'.dice
    refine ⟨_, _, hdice, hdice', ?_⟩
    -- From how a die was saved to the die, to the one that was put back, and to how that is saved.
    have hback : List.Forall₂ (fun s d' => d' = { s.die with handle := d'.handle } ∧
        ∃ m', World.motion t'.world d'.handle = .ok m' ∧ s.motion.SameSpot m') saved t'.dice :=
      forall₂_trans (fun s d d' ⟨heq, hmotion⟩ ⟨hdie, m, m', hm, hm', hspot⟩ =>
        ⟨heq ▸ hdie, m', hm', Except.ok.inj (hm.symm.trans hmotion) ▸ hspot⟩) hsaved.flip h.dice
    have hagain : List.Forall₂ SavedDie.Again saved saved' :=
      forall₂_trans (fun s d' s' ⟨hdie, m', hm', hspot⟩ ⟨heq, hmotion⟩ =>
        ⟨heq ▸ hdie, Except.ok.inj (hm'.symm.trans hmotion) ▸ hspot⟩) hback hsaved'
    rw [List.forall₂_map_left_iff, List.forall₂_map_right_iff]
    exact hagain.imp fun _ _ => SavedDie.Again.share

end PutBack

/-- While listeners only look on and all dice that wait are due at numbers, a snapshot can be taken of
a tray, which describes it, and a fresh tray whose world takes its dice can be restored from it. It then
holds the same rolls, throws and dice, in the same order and where they were, and a snapshot of it is the
same but for the handles and the velocities of its dice. -/
theorem restored_of_undisturbed (L : Lodging ω) (L' : Lodging ω') {t₀ t : Tray ω} (fresh : Fresh t₀)
    (holds : L.holds t₀.world []) (quiet : Onlookers t₀.listeners)
    (run : Undisturbed L.toFooting t₀ t) (dated : Dated t) {t' : Tray ω'} (fresh' : Fresh t')
    (holds' : L'.holds t'.world []) (notify : Notify ω')
    (admits : ∀ dice, t.savedDice = .ok dice → Admits dice t'.world) :
    ∃ v, t.snapshot = .ok v ∧ v.Describes t ∧ ∃ t'', (restore notify v).perform t' = (.ok (), t'') ∧
      t.PutBack t'' ∧ ∃ v', t''.snapshot = .ok v' ∧ v'.Describes t'' ∧ v.SameSnapshot v' := by
  have hintact := run.intact (fresh.intact holds quiet)
  obtain ⟨owed, ho⟩ := hintact.orderly
  obtain ⟨dice, throws, places, hdice, hwaiting, hsnapshot, hread, hcoherent⟩ :=
    exists_snapshot L hintact (run.shaped fresh.shaped) dated t'.nextId
  obtain ⟨t'', hrestore, hcarries⟩ :=
    restore_perform L' fresh' holds' notify hread hcoherent (admits dice hdice).bare
  have hputBack : t.PutBack t'' := hcarries.putBack ho hdice hwaiting
  obtain ⟨after, hafter, -⟩ := hcarries.dice
  have hsnapshot' : t''.snapshot = .ok (t''.snapshotOf (after.map SavedDie.toValue) throws) := by
    rw [snapshot, hafter, ok_bind, hcarries.waiting]
    rfl
  have hdescribes := describes_of_snapshot hsnapshot
  have hdescribes' := describes_of_snapshot hsnapshot'
  exact ⟨_, hsnapshot, hdescribes, t'', hrestore, hputBack, _, hsnapshot', hdescribes',
    hputBack.sameSnapshot hdescribes hdescribes'⟩

/-- One roll was canceled. Of the dice of another one two still move and one has settled, and the die of a
third roll waits. -/
theorem restored_after_canceling :
    ∃ t₁ t, performAll announce [.roll "d20", .roll "d100+d6kh1", .tick (.float 9), .cancel 0] vacant =
        some t₁ ∧
      performAll announce [.tick (.float 1), .roll "d8"]
        (byHand (ScriptedWorld.settle 3 (some (.int 5))) t₁) = some t ∧
      (t.history.length, t.active.length, t.watermark.toInt.toOption, t.pending.size) =
        (3, 2, some 0, 1) ∧
      t.dice.map (fun d => (d.settled, d.value.toInt.toOption)) =
        [(false, none), (false, none), (true, some 5)] ∧
      ∃ v, t.snapshot = .ok v ∧ v.Describes t ∧
        ∃ t', (restore announce v).perform vacant = (.ok (), t') ∧ t.PutBack t' ∧
          ∃ v', t'.snapshot = .ok v' ∧ v'.Describes t' ∧ v.SameSnapshot v' := by
  have hrun : ∃ t₁ ∈ performAll announce [.roll "d20", .roll "d100+d6kh1", .tick (.float 9), .cancel 0]
      vacant, ∃ t ∈ performAll announce [.tick (.float 1), .roll "d8"]
        (byHand (ScriptedWorld.settle 3 (some (.int 5))) t₁),
      Dated t ∧ (t.history.length, t.active.length, t.watermark.toInt.toOption, t.pending.size) =
        (3, 2, some 0, 1) ∧ t.dice.map (fun d => (d.settled, d.value.toInt.toOption)) =
          [(false, none), (false, none), (true, some 5)] := by
    decide +kernel
  obtain ⟨t₁, ht₁, t, ht, hdated, hcounts, hdice⟩ := hrun
  have hthrown : Undisturbed ScriptedWorld.lodging.toFooting vacant t₁ := undisturbed_of_performAll ht₁
  have hlaid := hthrown.byHand (fresh_vacant.intact (.nil 0) onlookers_vacant)
    (ScriptedWorld.settle 3 (some (.int 5))) fun h =>
      ScriptedWorld.lodged_rework h 3 (fun body => { body with face := .int 5, asleep := true }) rfl
  have run := hlaid.trans (undisturbed_of_performAll ht)
  exact ⟨t₁, t, ht₁, ht, hcounts, hdice, restored_of_undisturbed ScriptedWorld.lodging
    ScriptedWorld.lodging fresh_vacant (.nil 0) onlookers_vacant run hdated fresh_vacant (.nil 0) announce
    fun dice _ => ScriptedWorld.admits dice _⟩

end Tray

end RollTray
