import RollTray.Proofs.Tray.Restoring

/-!
# Snapshots that are refused

A snapshot that cannot be read leaves the tray as it is, as it is read before the tray is touched. One
that is read may still be refused: its throws keep the times that they were saved with, whatever these
are, and times that do not compare are found out only when the throws are added. Then the rolls of the
snapshot are on the tray already. `refused_of_restore` says that nothing else can go wrong, unless the
world does not take the dice.
-/

namespace RollTray

/-! ## Keys that are not found -/

/-- A key that is not found under itself is like nothing else. -/
theorem Value.unlike_of_not_sameKey {key : Value} (hkey : key.isKey = true)
    (h : key.sameKey key = false) (v : Value) : v.same key = false := by
  obtain ⟨hboth, hself⟩ := Bool.or_eq_false_iff.1 h
  cases key with
  | null => simp [same] at hself
  | text s => simp [same] at hself
  | notANumber => cases hboth
  | list items => cases hkey
  | object fields => cases hkey
  | bool _ | int _ | float _ =>
    simp only [same, num?] at hself
    have hnan := Num.isNaN_of_not_same hself
    cases v <;> simp [same, num?, Num.same_of_isNaN hnan]

namespace Saved

theorem isKey_of_readActive {history : List Record} {ids : List Value} {places : List Nat}
    (h : readActive history ids = .ok places) : ∀ r ∈ history, r.id.isKey = true := by
  obtain ⟨keys, hkeys, -⟩ := bind_eq_ok.1 h
  intro r hr
  obtain ⟨key, -, hkey⟩ := Tray.forall₂_exists_right (mapM_eq_ok.1 hkeys) hr
  unfold Value.asKey at hkey
  split at hkey
  · next hr => exact hr
  · cases hkey

/-- What is read of a snapshot: its watermark is an integer if there is one, and the rest is read item by
item. -/
theorem parts_of_ofValue? {nextId : Int} {v : Value} {saved : Saved}
    (h : ofValue? nextId v = .ok saved) :
    (saved.watermark = .null ∨ ∃ n, saved.watermark = .int n) ∧
      (∃ items : List Value, items.mapM SavedDie.ofValue? = .ok saved.dice) ∧
      ∃ ids, readActive saved.history ids = .ok saved.active := by
  unfold ofValue? at h
  split at h
  · obtain ⟨nextId, _, h⟩ := bind_eq_ok.1 h
    dsimp only at h
    split at h
    case' h_2 => obtain ⟨n, _, h⟩ := bind_eq_ok.1 h
    all_goals
      obtain ⟨watermark, hwatermark, h⟩ := bind_eq_ok.1 h
      obtain ⟨clock, _, h⟩ := bind_eq_ok.1 h
      obtain ⟨formula, _, h⟩ := bind_eq_ok.1 h
      obtain ⟨items, _, h⟩ := bind_eq_ok.1 h
      obtain ⟨history, _, h⟩ := bind_eq_ok.1 h
      obtain ⟨diceItems, _, h⟩ := bind_eq_ok.1 h
      obtain ⟨dice, hdice, h⟩ := bind_eq_ok.1 h
      obtain ⟨items, _, h⟩ := bind_eq_ok.1 h
      obtain ⟨throws, _, h⟩ := bind_eq_ok.1 h
      obtain ⟨ids, _, h⟩ := bind_eq_ok.1 h
      obtain ⟨active, hactive, h⟩ := bind_eq_ok.1 h
      cases hwatermark
      cases h
      refine ⟨?_, ⟨diceItems, hdice⟩, ids, hactive⟩
      first | exact .inl rfl | exact .inr ⟨_, rfl⟩
  · cases h

/-- The ids of the rolls in a snapshot that can be read are keys. -/
theorem isKey_of_ofValue? {nextId : Int} {v : Value} {saved : Saved}
    (h : ofValue? nextId v = .ok saved) : ∀ r ∈ saved.history, r.id.isKey = true :=
  have ⟨_, _, _, hactive⟩ := parts_of_ofValue? h
  isKey_of_readActive hactive

/-- The dice of a snapshot that can be read belong to integers. -/
theorem roll_of_ofValue? {nextId : Int} {v : Value} {saved : Saved}
    (h : ofValue? nextId v = .ok saved) : ∀ s ∈ saved.dice, ∃ n, s.die.roll = .int n := by
  obtain ⟨_, ⟨items, hdice⟩, _⟩ := parts_of_ofValue? h
  intro s hs
  obtain ⟨item, -, hitem⟩ := Tray.forall₂_exists_left (mapM_eq_ok.1 hdice) hs
  unfold SavedDie.ofValue? at hitem
  simp only [bind_eq_ok] at hitem
  obtain ⟨_, -, _, -, _, -, roll, -, _, -, _, -, _, -, _, -, _, -, _, -, _, -, _, -, hitem⟩ := hitem
  cases pure_eq_ok.1 hitem
  exact ⟨roll, rfl⟩

end Saved

namespace Tray

variable {ω : Type}

/-! ## Throws that do not compare -/

/-- Throws are added one after the other until two do not compare. -/
theorem forM_addThrow_cases (throws : List Throw) (t : Tray ω) :
    ∃ pending nextThrow,
      (throws.forM addThrow).perform t = (.ok (), { t with pending, nextThrow }) ∨
        Clash (t.pending.toList ++ numbered t.nextThrow throws) ∧
          (throws.forM addThrow).perform t = (.error .mistyped, { t with pending, nextThrow }) := by
  induction throws generalizing t with
  | nil => exact ⟨t.pending, t.nextThrow, .inl rfl⟩
  | cons throw rest ih =>
    have hall : ((t.nextThrow, throw) :: t.pending.toList ++ numbered (t.nextThrow + 1) rest).Perm
        (t.pending.toList ++ numbered t.nextThrow (throw :: rest)) := List.perm_middle.symm
    obtain ⟨pending, hperm, hadd | ⟨hclash, hadd⟩⟩ := addThrow_cases throw t
    · obtain ⟨pending', nextThrow, hrest⟩ := ih { t with pending, nextThrow := t.nextThrow + 1 }
      refine ⟨pending', nextThrow, ?_⟩
      rw [List.forM, Attempt.perform_bind_of_ok hadd]
      exact hrest.imp_right fun h => ⟨h.1.perm ((hperm.append_right _).trans hall), h.2⟩
    · refine ⟨pending, t.nextThrow, .inr ⟨?_, ?_⟩⟩
      · exact (hclash.sublist (List.sublist_append_left ..)).perm hall
      rw [List.forM]
      exact Attempt.perform_bind_of_error hadd

variable [World ω]

/-! ## Dice that are not taken -/

/-- Dice are put back one after the other until the world does not take one. -/
theorem forM_placeDie_cases (L : Lodging ω) {t : Tray ω}
    (holds : L.holds t.world (t.dice.map Die.handle)) (dice : List SavedDie) :
    ∃ world placed,
      L.holds world (placed.map Die.handle) ∧
          (dice.forM placeDie).perform t = (.ok (), { t with world, dice := placed }) ∨
        ¬Admits dice t.world ∧
          ∃ fault, (dice.forM placeDie).perform t = (.error fault, { t with world, dice := placed }) := by
  induction dice generalizing t with
  | nil => exact ⟨t.world, t.dice, .inl ⟨holds, rfl⟩⟩
  | cons s rest ih =>
    rcases hspawn : (World.spawn s.die.kind s.die.tens (some s.motion)).perform t.world with
      ⟨fault | handle, w⟩
    · refine ⟨w, t.dice, .inr ⟨?_, fault, ?_⟩⟩
      · rintro ⟨handle, w', hspawn', _⟩
        cases hspawn.symm.trans hspawn'
      · rw [List.forM]
        refine Attempt.perform_bind_of_error ?_
        exact Attempt.perform_bind_of_error (withWorld_perform hspawn)
    · obtain ⟨before, hbefore⟩ := exists_savedDice L holds
      obtain ⟨placed, hplace, hholds, _⟩ := placeDie_perform L holds hbefore hspawn
      obtain ⟨world, placed', hrest⟩ :=
        ih (t := { t with world := settledWorld s handle w, dice := placed }) hholds
      refine ⟨world, placed', ?_⟩
      rw [List.forM, Attempt.perform_bind_of_ok hplace]
      refine hrest.imp_right fun h => ⟨?_, h.2⟩
      rintro ⟨handle', w', hspawn', hadmits⟩
      cases hspawn.symm.trans hspawn'
      exact h.1 hadmits

/-! ## Pruning what was put back -/

/-- Nothing is canceled if no active roll is found. -/
theorem cancelAll_of_unfound (notify : Notify ω) {rolls : List Roll} {t : Tray ω}
    (h : ∀ r ∈ rolls, Roll.find? r.id t.active = none) :
    (cancelAll notify rolls).perform t = (.ok (), t) := by
  induction rolls with
  | nil => rfl
  | cons r rest ih =>
    obtain ⟨hfirst, hrest⟩ := List.forall_mem_cons.1 h
    have hcancel : (cancel notify r.id).perform t = (.ok false, t) := by
      rw [cancel, Attempt.perform_bind_of_ok (Attempt.perform_get t), hfirst]
      rfl
    have hdiscard : (discard (cancel notify r.id)).perform t = (.ok (), t) := by
      rw [Attempt.perform_discard, hcancel]
    rw [cancelAll, List.forM, Attempt.perform_bind_of_ok hdiscard]
    exact ih hrest

/-- Dice that are in the world can be taken off the tray. -/
theorem forM_removeDice_ok (F : Footing ω) {t : Tray ω} (holds : F.holds t.world (t.dice.map Die.handle))
    (ids : List Value) : ((ids.forM removeDice).perform t).1 = .ok () := by
  induction ids generalizing t with
  | nil => rfl
  | cons id rest ih =>
    obtain ⟨world, hholds, hperform | ⟨hexact, _⟩⟩ := takeOff_perform (S := undisturbed F 0)
      (holds_undisturbed.2 holds) fun d => d.roll.same id
    · rw [List.forM, removeDice, Attempt.perform_bind_of_ok hperform]
      exact ih (holds_undisturbed.1 hholds)
    · exact absurd hexact not_exact_undisturbed

/-- Active rolls that are from history are not canceled when the tray is pruned. -/
theorem prune_of_listed (notify : Notify ω) {t : Tray ω} (hlisted : Listed t)
    (hkeys : ∀ r ∈ t.history, r.id.isKey = true) :
    ∃ ids : List Value, (prune notify).perform t = (ids.forM removeDice).perform t := by
  have hunfound : ∀ r ∈ t.active.filter (fun r => !r.id.among (t.history.map Roll.id)),
      Roll.find? r.id t.active = none := by
    intro r hr
    obtain ⟨hactive, hamong⟩ := List.mem_filter.1 hr
    have hself : r.id.sameKey r.id = false := by
      refine Bool.eq_false_iff.2 fun hsame => ?_
      have hfound : r.id.among (t.history.map Roll.id) = true :=
        List.any_eq_true.2 ⟨r.id, List.mem_map_of_mem (hlisted r hactive), hsame⟩
      rw [hfound] at hamong
      cases hamong
    refine List.find?_eq_none.2 fun other _ => ?_
    rw [Value.unlike_of_not_sameKey (hkeys r (hlisted r hactive)) hself]
    exact Bool.false_ne_true
  rw [prune, Attempt.perform_bind_of_ok (Attempt.perform_get t)]
  dsimp only
  rw [Attempt.perform_bind_of_ok (cancelAll_of_unfound notify hunfound),
    Attempt.perform_bind_of_ok (Attempt.perform_get t)]
  exact ⟨_, rfl⟩

/-- So nothing fails. -/
theorem prune_ok (F : Footing ω) (notify : Notify ω) {t : Tray ω}
    (holds : F.holds t.world (t.dice.map Die.handle)) (hlisted : Listed t)
    (hkeys : ∀ r ∈ t.history, r.id.isKey = true) : ((prune notify).perform t).1 = .ok () := by
  obtain ⟨ids, hprune⟩ := prune_of_listed notify hlisted hkeys
  rw [hprune]
  exact forM_removeDice_ok F holds ids

/-! ## Whole snapshots -/

/-- What comes of restoring a snapshot: it cannot be read, and the tray is as it was; or it is restored;
or its rolls are on the tray, but the world did not take its dice, or of two throws it cannot be said which
one comes first. -/
theorem restore_cases (L : Lodging ω) {t : Tray ω} (holds : L.holds t.world (t.dice.map Die.handle))
    (notify : Notify ω) (v : Value) :
    (∃ fault, Saved.ofValue? t.nextId v = .error fault ∧
        (restore notify v).perform t = (.error fault, t)) ∨
      ∃ saved, Saved.ofValue? t.nextId v = .ok saved ∧
        ((∃ t', (restore notify v).perform t = (.ok (), t')) ∨
          ∃ fault world dice pending nextThrow, (restore notify v).perform t =
              (.error fault, { placeRolls saved t with world, dice, pending, nextThrow }) ∧
            (¬Admits saved.dice t.world ∨
              Clash (t.pending.toList ++ numbered t.nextThrow saved.throws) ∧ fault = .mistyped)) := by
  rw [restore, Attempt.perform_bind_of_ok (Attempt.perform_get t)]
  cases hread : Saved.ofValue? t.nextId v with
  | error fault => exact .inl ⟨fault, rfl, Attempt.perform_bind_of_error (Attempt.perform_lift ..)⟩
  | ok saved =>
    refine .inr ⟨saved, rfl, ?_⟩
    rw [Attempt.perform_bind_of_ok (Attempt.perform_lift ..),
      Attempt.perform_bind_of_ok (Attempt.perform_modify ..)]
    obtain ⟨world, dice, ⟨hholds, hplace⟩ | ⟨hnot, fault, hplace⟩⟩ :=
      forM_placeDie_cases L (t := placeRolls saved t) holds saved.dice
    · rw [Attempt.perform_bind_of_ok hplace]
      obtain ⟨pending, nextThrow, hadd | ⟨hclash, hadd⟩⟩ :=
        forM_addThrow_cases saved.throws { placeRolls saved t with world, dice }
      · rw [Attempt.perform_bind_of_ok hadd]
        have hkeys : ∀ r ∈ (placeRolls saved t).history, r.id.isKey = true := fun r hr =>
          Saved.isKey_of_ofValue? hread r.record
            (placeRolls_history saved t ▸ List.mem_map_of_mem hr)
        have hok := prune_ok L.toFooting notify
          (t := { placeRolls saved t with world, dice, pending, nextThrow }) hholds
          (placeRolls_listed saved t) hkeys
        exact .inl ⟨_, Prod.ext hok rfl⟩
      · exact .inr ⟨.mistyped, world, dice, pending, nextThrow, Attempt.perform_bind_of_error hadd,
          .inr ⟨hclash, rfl⟩⟩
    · exact .inr ⟨fault, world, dice, t.pending, t.nextThrow, Attempt.perform_bind_of_error hplace,
        .inl hnot⟩

/-- If a snapshot cannot be restored, either it cannot be read and the tray is as it was, or its rolls
are on the tray: the world did not take its dice, or of two throws, among those that waited before and
those of the snapshot, it cannot be said which one comes first. -/
theorem refused_of_restore (L : Lodging ω) {t t' : Tray ω}
    (holds : L.holds t.world (t.dice.map Die.handle)) (notify : Notify ω) {v : Value} {fault : Fault}
    (hrestore : (restore notify v).perform t = (.error fault, t')) :
    Saved.ofValue? t.nextId v = .error fault ∧ t' = t ∨
      ∃ saved, Saved.ofValue? t.nextId v = .ok saved ∧
        (¬Admits saved.dice t.world ∨
          Clash (t.pending.toList ++ numbered t.nextThrow saved.throws)) ∧
        ∃ world dice pending nextThrow,
          t' = { placeRolls saved t with world, dice, pending, nextThrow } := by
  rcases restore_cases L holds notify v with ⟨fault', hread, hperform⟩ |
    ⟨saved, hread, ⟨t'', hperform⟩ | ⟨fault', world, dice, pending, nextThrow, hperform, hcause⟩⟩ <;>
      cases hperform.symm.trans hrestore
  · exact .inl ⟨hread, rfl⟩
  · exact .inr ⟨saved, hread, hcause.imp_right And.left, world, dice, pending, nextThrow, rfl⟩

/-- A snapshot of nothing but a throw whose time is a text. -/
def dueLater : Value :=
  .object [("next_roll_id", .int 5), ("formula", .text "x"),
    ("pending_spawns", .list [Throw.toValue {
      due := .text "later"
      roll := .int 0
      kind := .text "d6"
      group := .int 0
      logical := .int 0
      tens := .bool false
      index := .int 0
      total := .int 1 }])]

/-- A snapshot is put onto a tray on which a die waits. It is refused when the history of the tray is
lost already. -/
theorem refused_dueLater :
    ∃ t t' fault, performAll announce [.roll "1d6"] vacant = some t ∧
      (restore announce dueLater).perform t = (.error fault, t') ∧
      t.history.length = 1 ∧ t'.history.length = 0 ∧ t'.nextId = 5 ∧
      (Saved.ofValue? t.nextId dueLater = .error fault ∧ t' = t ∨
        ∃ saved, Saved.ofValue? t.nextId dueLater = .ok saved ∧
          (¬Admits saved.dice t.world ∨
            Clash (t.pending.toList ++ numbered t.nextThrow saved.throws)) ∧
          ∃ world dice pending nextThrow,
            t' = { placeRolls saved t with world, dice, pending, nextThrow }) := by
  have hrun : (performAll announce [.roll "1d6"] vacant).map (fun t =>
      (t.history.length,
        match (restore announce dueLater).perform t with
        | (.error _, t') => some (t'.history.length, t'.nextId)
        | (.ok _, _) => none)) = some (1, some (0, 5)) := by decide +kernel
  obtain ⟨t, ht, hrun⟩ := Option.map_eq_some_iff.1 hrun
  obtain ⟨hhistory, hrun⟩ := Prod.mk.inj hrun
  have hrunning : Undisturbed ScriptedWorld.lodging.toFooting vacant t := undisturbed_of_performAll ht
  obtain ⟨owed, ho⟩ := (hrunning.intact (fresh_vacant.intact (.nil 0) onlookers_vacant)).orderly
  have hholds := holds_undisturbed.1 ho.holds
  rcases hrestore : (restore announce dueLater).perform t with ⟨fault | _, t'⟩ <;> rw [hrestore] at hrun
  · obtain ⟨hlost, hnext⟩ := Prod.mk.inj (Option.some.inj hrun)
    exact ⟨t, t', fault, ht, hrestore, hhistory, hlost, hnext,
      refused_of_restore ScriptedWorld.lodging hholds announce hrestore⟩
  · cases hrun

end Tray

end RollTray
