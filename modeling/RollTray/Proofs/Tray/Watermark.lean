import RollTray.Proofs.Tray.Subsiding
import RollTray.Proofs.Tray.Undisturbed
import RollTray.Proofs.World.Footings

/-!
# The watermark

The dice of rolls up to the watermark are not thrown. While listeners only look on and ids are not
negative, rolls are in the order of their ids and the watermark only rises, but stays below the rolls
that are active, so that all their dice are thrown (`watermark_of_undisturbed`).
-/

namespace RollTray

/-- One integer below another. -/
def Value.Below (v w : Value) : Prop :=
  ∃ m n : Int, v = .int m ∧ w = .int n ∧ m < n

namespace Tray

open Attempt (Keeps)

variable {ω : Type} [World ω]

/-- A watermark is the same later, or higher. -/
def Rises (before after : Value) : Prop :=
  before = .null ∨ ∃ m n : Int, before = .int m ∧ after = .int n ∧ m ≤ n

theorem rises_refl {watermark : Value} (h : watermark = .null ∨ ∃ m, watermark = .int m) :
    Rises watermark watermark :=
  h.imp_right fun ⟨m, hm⟩ => ⟨m, m, hm, hm, Int.le_refl m⟩

theorem Rises.trans_int {before after : Value} (h : Rises before after) {n : Int}
    (hle : ∀ m, after = .int m → m ≤ n) : Rises before (.int n) :=
  h.imp_right fun ⟨k, m, hk, hm, hkm⟩ => ⟨k, n, hk, rfl, Int.le_trans hkm (hle m hm)⟩

/-- The watermark is below the active rolls, and not below where it once was. -/
structure Marked (F : Footing ω) (start : Int) (once : Value) (t : Tray ω) : Prop where
  orderly : ∃ owed, Orderly (undisturbed F start) owed t
  mark : ∀ n, t.watermark = .int n → n < t.nextId ∧ ∀ r ∈ t.active, n < start + r.serial
  rises : Rises once t.watermark

variable {F : Footing ω} {start : Int} {once : Value} {t t' : Tray ω}

namespace Marked

/-- A roll that begins is above the watermark. -/
theorem begin (h : Marked F start once t) {r : Roll} (serial : r.serial = t.nextSerial)
    (id : r.record.id = .int t.nextId) (sound : r.record.Sound)
    (unresolved : r.record.resolved = false) :
    Marked F start once { t with
      nextId := t.nextId + 1, nextSerial := t.nextSerial + 1,
      active := t.active ++ [r], history := r :: t.history } := by
  obtain ⟨owed, ho⟩ := h.orderly
  refine ⟨⟨_, ho.begin serial id sound unresolved⟩, fun n hn => ?_, h.rises⟩
  obtain ⟨hlt, hbelow⟩ := h.mark n hn
  refine ⟨Int.lt_add_one_of_le (Int.le_of_lt hlt), fun r' hr' => ?_⟩
  rcases List.mem_append.1 hr' with hr' | hr'
  · exact hbelow r' hr'
  · have hnext : t.nextId = start + t.nextSerial := ho.nextId
    rw [List.mem_singleton.1 hr', serial, ← hnext]
    exact hlt

/-- The dice of a roll that begins are set to be thrown. -/
theorem schedule (h : Marked F start once t) {serial : Nat} (hbegun : serial < t.nextSerial)
    (total index : Nat) (delay : Float) (places : List Place) :
    Marked F start once
      ((schedule ((undisturbed F start).id serial) total index delay places).perform t).2 := by
  obtain ⟨owed, ho⟩ := h.orderly
  have hdoes : Does (undisturbed F start) owed t (Tray.schedule _ total index delay places) _ :=
    schedule_does total index delay hbegun fun hexact => absurd hexact not_exact_undisturbed
  obtain ⟨owed', ho', _⟩ := hdoes.orderly not_exact_undisturbed ho
  have hsame : Keeps (fun s : Tray ω =>
      s.nextId = t.nextId ∧ s.active = t.active ∧ s.watermark = t.watermark)
      (Tray.schedule ((undisturbed F start).id serial) total index delay places) :=
    keeps_schedule (fun _ _ _ hs => hs) _ _ _ _ _
  obtain ⟨hnext, hactive, hwatermark⟩ := hsame t ⟨rfl, rfl, rfl⟩
  refine ⟨⟨owed', ho'⟩, fun n hn => ?_, hwatermark ▸ h.rises⟩
  rw [hnext, hactive]
  exact h.mark n (hwatermark ▸ hn)

/-- The watermark was below the rolls that are still active. -/
theorem mark_of_subsides (h : Marked F start once t) (hsubsides : Subsides (undisturbed F start) t t')
    {n : Int} (hn : t.watermark = .int n) : n < t'.nextId ∧ ∀ r ∈ t'.active, n < start + r.serial := by
  obtain ⟨hlt, hbelow⟩ := h.mark n hn
  refine ⟨hsubsides.nextId ▸ hlt, fun r hr => ?_⟩
  obtain ⟨x, hx, hserial, _⟩ := hsubsides.exists_active hr
  exact hserial ▸ hbelow x hx

section

variable (hstart : 0 ≤ start)

include hstart

theorem lasts : Lasts (undisturbed F start) (Marked F start once) where
  inexact := not_exact_undisturbed
  orderly h := h.orderly
  subside {t t'} h hsubsides := by
    rcases hsubsides.watermark with hsame | ⟨m, hm, r, hr, hraised, hlater⟩
    · exact ⟨hsubsides.orderly, fun n hn => h.mark_of_subsides hsubsides (hsame ▸ hn),
        hsame ▸ h.rises⟩
    · obtain ⟨owed, ho⟩ := h.orderly
      have hissued : start + (r.serial : Int) < t'.nextId := by
        have hlt := ho.serial_lt hr
        have hnext : t.nextId = start + t.nextSerial := ho.nextId
        rw [hsubsides.nextId]
        omega
      have hbefore : ∀ k, t.watermark = .int k → m = k := by
        intro k hk
        rw [hk, Value.orZero_int] at hm
        exact (Value.int.inj hm).symm
      have hm : m < t'.nextId ∧ ∀ r' ∈ t'.active, m < start + r'.serial := by
        rcases ho.watermark with hnull | ⟨k, hk⟩
        · rw [hnull] at hm
          obtain rfl : (0 : Int) = m := Value.int.inj hm
          refine ⟨by omega, fun r' hr' => ?_⟩
          have := hlater r' hr'
          omega
        · obtain rfl := hbefore k hk
          exact h.mark_of_subsides hsubsides hk
      refine ⟨hsubsides.orderly, fun n hn => ?_, ?_⟩
      · rw [hraised] at hn
        obtain rfl := Value.int.inj hn
        refine ⟨Int.max_lt.2 ⟨hissued, hm.1⟩, fun r' hr' => Int.max_lt.2 ⟨?_, hm.2 r' hr'⟩⟩
        have := hlater r' hr'
        show start + (r.serial : Int) < start + r'.serial
        omega
      · rw [hraised]
        exact h.rises.trans_int fun k hk => hbefore k hk ▸ Int.le_max_right ..

theorem announce (event : Event) (r : Record) :
    Keeps (Marked F start once) (Tray.announce event r) :=
  keeps_announce (lasts hstart).quiet
    (fun _ _ h hquiet => (lasts hstart).around h _ _ _ _ _ _ _ ((lasts hstart).holds h) hquiet) event r

/-! ### Clearing the tray -/

theorem clearTray : Keeps (Marked F start once) (clearTray Tray.announce) := by
  intro t h
  obtain ⟨owed, ho⟩ := h.orderly
  have hids : ∀ r ∈ t.active, ∃ n, r.id = .int n := fun r hr =>
    (lasts hstart).ids h r (List.mem_append_right _ hr)
  have hcanceled := (lasts hstart).conduct.cancelAll (fun event r _ => announce hstart event r) hids t h
  obtain ⟨t₁, hperform, _, hall⟩ :=
    cancelAll_observed not_exact_undisturbed observes_announce ho hids
  have hnone : t₁.active = [] := hall.active_eq_nil
  rw [hperform] at hcanceled
  rw [Tray.clearTray, Attempt.perform_bind_of_ok (Attempt.perform_get t),
    Attempt.perform_bind_of_ok hperform, Attempt.perform_bind_of_ok (Attempt.perform_modify _ t₁)]
  refine (lasts hstart).takeOff _ _ ?_
  split
  · -- The new watermark is not lower, as the old one was below the next id.
    obtain ⟨owed₁, ho₁⟩ := hcanceled.orderly
    refine ⟨⟨owed₁, ho₁.mark fun _ => hnone⟩, fun n hn => ?_, ?_⟩
    · obtain rfl := Value.int.inj hn
      refine ⟨Int.sub_one_lt_iff.2 (Int.le_refl _), fun r hr => ?_⟩
      nomatch hnone ▸ hr
    · exact hcanceled.rises.trans_int fun m hm => Int.le_sub_one_of_lt (hcanceled.mark m hm).1
  · exact hcanceled

/-! ### Rolling -/

theorem trimHistory : Keeps (Marked F start once) (trimHistory Tray.announce) :=
  keeps_trimHistory (fun h => (lasts hstart).trim h)
    ((lasts hstart).conduct.prune fun event r _ => announce hstart event r)

theorem launch {source : String} {compiled : Formula.Compiled} (formula : String)
    (hcompiled : Formula.compile source = .ok compiled) :
    Keeps (Marked F start once) (launch Tray.announce formula compiled) :=
  keeps_launch (fun _ => Marked F start once)
    orderly ((lasts hstart).conduct.makeRoom fun event r _ => announce hstart event r)
    (fun {t _} h hserial hrecord => h.begin hserial (congrArg Record.id hrecord)
      (hrecord ▸ sound_ofCompiled hcompiled t.nextId formula) (congrArg Record.resolved hrecord))
    (fun _ => trimHistory hstart) id
    (fun _ h hissued => h.schedule hissued _ _ _ _)
    (announce hstart _)

theorem operation (op : Operation) : Keeps (Marked F start once) (op.attempt Tray.announce) := by
  have hoffers : Offers Tray.announce (Marked F start once) :=
    (lasts hstart).offers (fun event r _ => announce hstart event r)
      (fun formula hcompiled _ h _ => launch hstart formula hcompiled _ h) (clearTray hstart)
  exact hoffers.operation op fun _ => (lasts hstart).tick fun event r _ => announce hstart event r

theorem of_undisturbed (run : Undisturbed F t t') (h : Marked F start once t) :
    Marked F start once t' := by
  induction run with
  | refl => exact h
  | act _ op ih => exact operation hstart op _ ih
  | outside _ world chance listeners holds quiet ih =>
    have hholds := holds_undisturbed.1 ((lasts hstart).holds ih)
    exact (lasts hstart).around ih _ _ _ _ _ _ _ (holds_undisturbed.2 (holds hholds)) quiet

end

end Marked

/-! ## The order of ids -/

/-- The rolls of a tray are in the order of their ids, and the watermark is below those that are active.
So no watermark keeps one of their dice from being thrown, whatever else there is on the tray. -/
structure InOrder (t : Tray ω) : Prop where
  history : t.history.Pairwise fun r r' => r'.id.Below r.id
  active : t.active.Pairwise fun r r' => r.id.Below r'.id
  listed : Listed t
  issued : ∀ r ∈ t.history, r.id.Below (.int t.nextId)
  watermark : t.watermark = .null ∨
    t.watermark.Below (.int t.nextId) ∧ ∀ r ∈ t.active, t.watermark.Below r.id
  thrown : ∀ r ∈ t.active, ∀ throw : Throw, throw.roll = r.id → ∀ (world : ω) (chance : Chance)
    (clock : Float) (pending : Array (Nat × Throw)) (dice : List Die),
    (throwDie throw).perform { t with world, chance, clock, pending, dice } =
      (release throw).perform { t with world, chance, clock, pending, dice }

/-- The watermark does not keep a die of an active roll from being thrown. -/
theorem Marked.throwDie_of_active (h : Marked F start once t) {r : Roll} (hr : r ∈ t.active)
    {throw : Throw} (hroll : throw.roll = r.id) (world : ω) (chance : Chance) (clock : Float)
    (pending : Array (Nat × Throw)) (dice : List Die) :
    (throwDie throw).perform { t with world, chance, clock, pending, dice } =
      (release throw).perform { t with world, chance, clock, pending, dice } := by
  obtain ⟨owed, ho⟩ := h.orderly
  have hid : r.id = .int (start + r.serial) := ho.id_eq (List.mem_append_right _ hr)
  have hpast : isPast t.watermark throw.roll = .ok false := by
    rw [hroll, hid]
    rcases ho.watermark with hnull | ⟨n, hn⟩
    · rw [hnull]
      rfl
    · have hlow := (h.mark n hn).2 r hr
      rw [hn, isPast, Value.le_int, decide_eq_false (Int.not_le.2 hlow)]
      rfl
  have hactive : t.isActive throw.roll = true := by
    rw [hroll, hid]
    exact (isActive_int ho).2 ⟨r, hr, rfl⟩
  rw [throwDie, Attempt.perform_bind_of_ok (Attempt.perform_get _)]
  dsimp only
  rw [hpast, Attempt.perform_bind_of_ok (Attempt.perform_lift ..), if_neg Bool.false_ne_true]
  exact congrFun (congrArg Attempt.perform (if_pos hactive)) _

theorem Marked.inOrder (h : Marked F start once t) (hlisted : Listed t) :
    InOrder t := by
  obtain ⟨owed, ho⟩ := h.orderly
  have hid : ∀ r ∈ t.history ++ t.active, r.id = .int (start + r.serial) := fun r hr => ho.id_eq hr
  have hbelow : ∀ r ∈ t.history ++ t.active, ∀ r' ∈ t.history ++ t.active, r.serial < r'.serial →
      r.id.Below r'.id := fun r hr r' hr' hlt => ⟨_, _, hid r hr, hid r' hr', by omega⟩
  refine {
    history := ho.history.imp_of_mem fun hr hr' hlt =>
      hbelow _ (List.mem_append_left _ hr') _ (List.mem_append_left _ hr) hlt
    active := ho.active.imp_of_mem fun hr hr' hlt =>
      hbelow _ (List.mem_append_right _ hr) _ (List.mem_append_right _ hr') hlt
    listed := hlisted
    issued := fun r hr => ?_, watermark := ?_, thrown := fun r hr throw hroll => ?_ }
  · have hlt := (ho.issued r (List.mem_append_left _ hr)).1
    have hnext : t.nextId = start + t.nextSerial := ho.nextId
    exact ⟨_, _, hid r (List.mem_append_left _ hr), rfl, by omega⟩
  · refine ho.watermark.imp_right fun ⟨n, hn⟩ => ?_
    obtain ⟨hlt, hlow⟩ := h.mark n hn
    refine ⟨⟨n, _, hn, rfl, hlt⟩, fun r hr => ?_⟩
    exact ⟨n, _, hn, hid r (List.mem_append_right _ hr), hlow r hr⟩
  · exact h.throwDie_of_active hr hroll

/-- While listeners only look on and ids are not negative, rolls are in the order of their ids, the
watermark is below the active ones, and it only rises. -/
theorem watermark_of_undisturbed {t₀ : Tray ω} (fresh : Fresh t₀) (holds : F.holds t₀.world [])
    (hstart : 0 ≤ t₀.nextId) (quiet : Onlookers t₀.listeners) (before : Undisturbed F t₀ t)
    (after : Undisturbed F t t') : InOrder t ∧ Rises t.watermark t'.watermark := by
  have hintact := before.intact (fresh.intact holds quiet)
  have hfresh : Marked F t₀.nextId .null t₀ := by
    refine ⟨(fresh.intact holds quiet).orderly, fun n hn => ?_, .inl rfl⟩
    rw [fresh.watermark] at hn
    nomatch hn
  have hmarked := Marked.of_undisturbed hstart before hfresh
  obtain ⟨owed, ho⟩ := hmarked.orderly
  have hsince : Marked F t₀.nextId t.watermark t :=
    { hmarked with rises := rises_refl ho.watermark }
  exact ⟨hmarked.inOrder hintact.listed, (Marked.of_undisturbed hstart after hsince).rises⟩

/-- Of three rolls the second one is canceled, which leaves the watermark alone, then the first one and,
when the tray is cleared, the last one. -/
theorem watermark_after_clearing :
    ∃ t t', performAll announce [.roll "d20", .roll "d6", .roll "d8", .cancel 1, .cancel 0] vacant = some t ∧
      performAll announce [.clearTray] t = some t' ∧
      t.watermark.same (.int 0) = true ∧ t'.watermark.same (.int 2) = true ∧
      InOrder t ∧ Rises t.watermark t'.watermark := by
  have hrun :
      ((performAll announce [.roll "d20", .roll "d6", .roll "d8", .cancel 1, .cancel 0] vacant).bind
        fun t => (performAll announce [.clearTray] t).map fun t' =>
          (t.watermark.same (.int 0), t'.watermark.same (.int 2))) = some (true, true) := by
    decide +kernel
  obtain ⟨t, ht, hrun⟩ := Option.bind_eq_some_iff.1 hrun
  obtain ⟨t', ht', hrun⟩ := Option.map_eq_some_iff.1 hrun
  obtain ⟨hbefore, hafter⟩ := Prod.mk.inj hrun
  refine ⟨t, t', ht, ht', hbefore, hafter, ?_⟩
  exact watermark_of_undisturbed (F := ScriptedWorld.footing) fresh_vacant (ScriptedWorld.bears_nil _)
    (by decide) onlookers_vacant (undisturbed_of_performAll ht) (undisturbed_of_performAll ht')

end Tray

end RollTray
