import Mathlib.Algebra.Order.BigOperators.Group.List
import Mathlib.Algebra.Order.Ring.Nat
import RollTray.Proofs.Tray.Reentry
import RollTray.Proofs.Tray.Subsiding
import RollTray.Proofs.World.Housing

/-!
# How full a tray gets

Whoever interferes with a tray, the dice of its active rolls and its history keep to their limits
(`bounded_of_reach`), which are above zero if they were read (`Config.hasRoom_of_ofValue?`).

Rolls may begin in the middle of an operation: while room is made for a roll, or when the oldest one
leaves the history, before the dice of the new one are set to be thrown. `Roomy` holds throughout; it
keeps account of the rolls whose dice are still to come, of which there are none on the tray or waiting,
whatever happens in between.
-/

namespace RollTray

/-! ## Limits that are read -/

namespace Config

/-- A tray has room for a die and for a roll in its history. -/
def HasRoom (c : Config) : Prop :=
  1 ≤ c.maxDice ∧ 1 ≤ c.maxHistory

theorem one_le_of_readCount {key : String} {v : Value} {n : Int} (h : readCount key v = .ok n) :
    1 ≤ n := by
  unfold readCount at h
  split at h
  · split at h <;> cases h
    omega
  · cases h

theorem HasRoom.set {c c' : Config} {key : String} {v : Value} (h : c.HasRoom)
    (hset : c.set key v = .ok c') : c'.HasRoom := by
  unfold Config.set at hset
  split at hset <;> try obtain ⟨x, hx, hset⟩ := bind_eq_ok.1 hset
  case h_1 =>
    cases hset
    exact ⟨one_le_of_readCount hx, h.2⟩
  case h_2 =>
    cases hset
    exact ⟨h.1, one_le_of_readCount hx⟩
  all_goals
    cases hset
    exact h

/-- The limits in a configuration that is read are at least one. -/
theorem hasRoom_of_ofValue? {v : Value} {c : Config} (h : ofValue? v = .ok c) : c.HasRoom := by
  have hdefault : ({} : Config).HasRoom := ⟨by decide, by decide⟩
  have hfields : ∀ (fields : List (String × Value)) (c₀ : Config), c₀.HasRoom →
      fields.foldlM (fun c field => c.set field.1 field.2) c₀ = .ok c → c.HasRoom := by
    intro fields
    induction fields with
    | nil =>
      intro c₀ h₀ h
      cases h
      exact h₀
    | cons field rest ih =>
      intro c₀ h₀ h
      obtain ⟨c₁, hset, h⟩ := bind_eq_ok.1 h
      exact ih c₁ (h₀.set hset) h
  unfold ofValue? at h
  split at h
  · split at h
    · cases h
      exact hdefault
    · unfold ofTable at h
      split at h
      · exact hfields _ _ hdefault h
      · cases h
    · cases h
  · cases h

end Config

namespace Tray

open Attempt (Keeps)

variable {ω : Type}

/-- How many physical dice the active rolls have, on the tray or not. -/
def expected (t : Tray ω) : Nat :=
  ((t.active.map Roll.size).map Prod.snd).sum

/-- The dice of sound rolls are counted without fail. -/
theorem totalDice_eq {t : Tray ω} (h : ∀ r ∈ t.active, r.record.Sound) :
    t.totalDice = .ok (.int t.expected) := by
  have hrolls : ∀ (rolls : List Roll) (n : Nat), (∀ r ∈ rolls, r.record.Sound) →
      rolls.foldlM (fun (sum : Num) r => do sum.add (← r.record.expectedDice) :
        Num → Roll → Except Fault Num) (.int n) =
          .ok (.int ((n + ((rolls.map Roll.size).map Prod.snd).sum : Nat) : Int)) := by
    intro rolls
    induction rolls with
    | nil => exact fun _ _ => rfl
    | cons r rest ih =>
      intro n hsound
      obtain ⟨hfirst, hrest⟩ := List.forall_mem_cons.1 hsound
      have hadd : Num.add (.int n) (.int r.record.sites.length) =
          .ok (.int ((n + r.record.sites.length : Nat) : Int)) := by simp [Num.add]
      rw [List.foldlM_cons, hfirst.expectedDice]
      show (Num.add (.int n) (.int r.record.sites.length) >>= _) = _
      rw [hadd]
      refine (ih _ hrest).trans ?_
      rw [List.map_cons, List.map_cons, List.sum_cons, Nat.add_assoc]
      rfl
  have hload := hrolls t.active 0 h
  rw [Nat.zero_add] at hload
  exact hload

/-- Dice that all belong to some rolls are no more than the dice of each roll together. -/
theorem length_le_sum (rolls : List Roll) (dice : List Die)
    (h : ∀ d ∈ dice, ∃ r ∈ rolls, d.roll.same r.id = true) :
    dice.length ≤ (rolls.map fun r => (dice.filter fun d => d.roll.same r.id).length).sum := by
  induction rolls generalizing dice with
  | nil =>
    cases dice with
    | nil => exact Nat.le_refl _
    | cons d rest =>
      obtain ⟨_, hr, _⟩ := h d (List.mem_cons_self ..)
      nomatch hr
  | cons r rest ih =>
    have hsplit := List.length_eq_length_filter_add (l := dice) fun d => d.roll.same r.id
    have hothers := ih (dice.filter fun d => !d.roll.same r.id) fun d hd => by
      obtain ⟨hd, hne⟩ := List.mem_filter.1 hd
      obtain ⟨r', hr', hsame⟩ := h d hd
      rcases List.mem_cons.1 hr' with rfl | hr'
      · rw [hsame] at hne
        nomatch hne
      · exact ⟨r', hr', hsame⟩
    have hfewer : (rest.map fun r' => ((dice.filter fun d => !d.roll.same r.id).filter
        fun d => d.roll.same r'.id).length).sum ≤
          (rest.map fun r' => (dice.filter fun d => d.roll.same r'.id).length).sum :=
      List.sum_le_sum fun r' _ => (List.filter_sublist.filter _).length_le
    rw [List.map_cons, List.sum_cons]
    omega

variable [World ω]

/-! ## What holds in the middle of operations -/

/-- The tray keeps to the limits of its configuration. The rolls in a list, by their serial numbers, are
those whose dice are still to be set to be thrown, with how many these are. -/
structure Roomy (F : Footing ω) (start : Int) (c : Config) (coming : List (Nat × Nat)) (t : Tray ω) :
    Prop where
  orderly : ∃ owed, Orderly (amid F start) owed t
  config : t.config = c
  expected : (t.expected : Int) ≤ c.maxDice
  history : (t.history.length : Int) ≤ c.maxHistory
  held : ∀ r ∈ t.active, t.held ((amid F start).id r.serial) ≤ r.record.sites.length
  coming : ∀ entry ∈ coming, entry.1 < t.nextSerial ∧ t.held ((amid F start).id entry.1) = 0 ∧
    ∀ r ∈ t.active, r.serial = entry.1 → r.record.sites.length = entry.2

variable {F : Footing ω} {start : Int} {c : Config} {coming : List (Nat × Nat)} {t t' : Tray ω}

namespace Roomy

/-- While no roll begins there is room as before. -/
theorem lasts : Lasts (amid F start) (Roomy F start c coming) where
  inexact := not_exact_amid
  orderly h := h.orderly
  subside {t t'} h hsubsides := by
    have hexpected : t'.expected ≤ t.expected :=
      (hsubsides.active.map Prod.snd).sum_le_sum fun _ _ => Nat.zero_le _
    refine ⟨hsubsides.orderly, hsubsides.config.trans h.config, ?_, ?_, fun r' hr' => ?_,
      fun entry hentry => ?_⟩
    · exact Int.le_trans (Int.ofNat_le.2 hexpected) h.expected
    · exact Int.le_trans (Int.ofNat_le.2 hsubsides.history) h.history
    · obtain ⟨r, hr, hserial, hsites⟩ := hsubsides.exists_active hr'
      rw [← hsites, ← hserial]
      exact Nat.le_trans (hsubsides.held _) (h.held r hr)
    · obtain ⟨hlt, hnone, hcount⟩ := h.coming entry hentry
      refine ⟨hsubsides.nextSerial ▸ hlt, Nat.le_zero.1 (hnone ▸ hsubsides.held _), ?_⟩
      intro r' hr' hserial'
      obtain ⟨r, hr, hserial, hsites⟩ := hsubsides.exists_active hr'
      rw [← hsites]
      exact hcount r hr (hserial.trans hserial')

/-- The tray is as full as before. -/
theorem around (h : Roomy F start c coming t) (world : ω) (chance : Chance) (nextThrow : Nat)
    (listeners : Event → List Listener) (journal : List Notice)
    (holds : (amid F start).Holds world (t.dice.map Die.handle)) :
    Roomy F start c coming { t with world, chance, nextThrow, listeners, journal } :=
  lasts.around h world chance t.clock t.formula nextThrow listeners journal holds trivial

end Roomy

/-! ## Rolls that begin -/

/-- Dice of a roll are to be set to be thrown that the roll has no others for. -/
structure Booked (F : Footing ω) (start : Int) (c : Config) (coming : List (Nat × Nat))
    (serial left : Nat) (t : Tray ω) : Prop where
  roomy : Roomy F start c coming t
  begun : serial < t.nextSerial
  left : ∀ r ∈ t.active, r.serial = serial →
    t.held ((amid F start).id serial) + left ≤ r.record.sites.length

variable {serial left : Nat}

namespace Booked

theorem around (h : Booked F start c coming serial left t) (chance : Chance) (nextThrow : Nat) :
    Booked F start c coming serial left { t with chance, nextThrow } :=
  ⟨h.roomy.around _ chance nextThrow _ _ (Roomy.lasts.holds h.roomy), h.begun, h.left⟩

theorem push (h : Booked F start c coming serial (left + 1) t)
    (hapart : ∀ entry ∈ coming, entry.1 ≠ serial) {throw : Throw}
    (hroll : throw.roll = (amid F start).id serial) {order : Nat} {pending : Array (Nat × Throw)}
    (hperm : pending.toList.Perm ((order, throw) :: t.pending.toList)) :
    Booked F start c coming serial left { t with pending } := by
  obtain ⟨owed, ho⟩ := h.roomy.orderly
  have ho' : Orderly (amid F start) (Function.update owed serial []) { t with pending } :=
    ho.push hroll h.begun (fun hcounted => absurd hcounted.1 not_exact_amid) hperm
  have hheld : ∀ id, { t with pending }.held id =
      t.held id + if throw.roll.same id then 1 else 0 := by
    intro id
    show (t.diceOf id).length + (throwsIn pending id).length = _
    rw [length_throwsIn hperm, ← Nat.add_assoc]
    rfl
  have hothers : ∀ {k : Nat}, k ≠ serial → { t with pending }.held ((amid F start).id k) =
      t.held ((amid F start).id k) := by
    intro k hne
    rw [hheld, hroll, same_id, decide_eq_false (Ne.symm hne)]
    rfl
  refine ⟨{ h.roomy with orderly := ⟨_, ho'⟩, held := fun r hr => ?_, coming := ?_ }, h.begun, ?_⟩
  · by_cases hserial : r.serial = serial
    · have := h.left r hr hserial
      rw [hserial, hheld]
      split <;> omega
    · rw [hothers hserial]
      exact h.roomy.held r hr
  · intro entry hentry
    obtain ⟨hlt, hnone, hcount⟩ := h.roomy.coming entry hentry
    exact ⟨hlt, (hothers (hapart entry hentry)).trans hnone, hcount⟩
  · intro r hr hserial
    have := h.left r hr hserial
    rw [hheld, hroll, same_id, decide_eq_true rfl, if_pos rfl]
    omega

theorem addThrow (h : Booked F start c coming serial (left + 1) t)
    (hapart : ∀ entry ∈ coming, entry.1 ≠ serial) {throw : Throw}
    (hroll : throw.roll = (amid F start).id serial) :
    Booked F start c coming serial left ((addThrow throw).perform t).2 := by
  rw [Tray.addThrow, Attempt.perform_bind_of_ok (Attempt.perform_get t)]
  have hpush : Booked F start c coming serial left
      (((Heap.push throwsBefore (t.nextThrow, throw)).within Tray.pending
        fun pending t => { t with pending }).perform t).2 :=
    h.push hapart hroll (push_toList_perm ..)
  exact Keeps.bind_from hpush (fun _ h => h) fun _ =>
    Keeps.of_modify fun t h => h.around t.chance _

/-- The dice of a roll that begins are set to be thrown. -/
theorem schedule (hapart : ∀ entry ∈ coming, entry.1 ≠ serial) {places : List Place} (total index : Nat)
    (delay : Float) (h : Booked F start c coming serial places.length t) :
    Roomy F start c coming
      ((schedule ((amid F start).id serial) total index delay places).perform t).2 := by
  induction places generalizing t index delay with
  | nil => exact h.roomy
  | cons place rest ih =>
    rw [Tray.schedule, Attempt.perform_bind_of_ok (Attempt.perform_get t)]
    refine Keeps.bind_from (h.addThrow hapart rfl) (fun _ h => h.roomy) fun _ t h => ?_
    have hchance : Keeps (Booked F start c coming serial rest.length) (withChance Chance.draw) :=
      .within fun t h => h.around _ t.nextThrow
    exact hchance.bind_of h (fun _ h => h.roomy) fun _ t h => ih _ _ h

end Booked

namespace Roomy

variable {notify : Notify ω}

theorem sound (h : Roomy F start c coming t) : ∀ r ∈ t.active, r.record.Sound :=
  have ⟨_, ho⟩ := h.orderly
  fun r hr => ho.sound r (List.mem_append_right _ hr)

theorem mark (h : Roomy F start c coming t) :
    Roomy F start c coming { t with watermark := .int (t.nextId - 1) } :=
  have ⟨owed, ho⟩ := h.orderly
  { h with orderly := ⟨owed, ho.mark fun hcounted => absurd hcounted.1 not_exact_amid⟩ }

/-- No dice of a roll are taken to be coming any more. -/
theorem tail {entry : Nat × Nat} (h : Roomy F start c (entry :: coming) t) :
    Roomy F start c coming t :=
  { h with coming := fun other hother => h.coming other (List.mem_cons_of_mem _ hother) }

/-- A roll for which there is room begins, and its dice are still to come. -/
theorem begin (h : Roomy F start c coming t) {r : Roll} (serial : r.serial = t.nextSerial)
    (id : r.record.id = .int t.nextId) (sound : r.record.Sound) (unresolved : r.record.resolved = false)
    (fits : (t.expected + r.record.sites.length : Int) ≤ c.maxDice) {history : List Roll}
    (sublist : history.Sublist (r :: t.history)) (short : (history.length : Int) ≤ c.maxHistory) :
    Roomy F start c ((r.serial, r.record.sites.length) :: coming)
      { t with nextId := t.nextId + 1, nextSerial := t.nextSerial + 1, active := t.active ++ [r],
               history } := by
  obtain ⟨owed, ho⟩ := h.orderly
  have ho' := (ho.begin serial id sound unresolved).trim sublist
  have hlt : ∀ r' ∈ t.active, r'.serial < r.serial := fun r' hr' => serial ▸ ho.serial_lt hr'
  have hnone : t.held ((amid F start).id r.serial) = 0 := by
    rw [Tray.held, ho.diceOf_eq_nil fun r' hr' => Nat.ne_of_lt (hlt r' hr'),
      ho.throwsOf_eq_nil (Nat.le_of_eq serial.symm)]
    rfl
  refine ⟨⟨_, ho'⟩, h.config, ?_, short, fun r' hr' => ?_, fun entry hentry => ?_⟩
  · simpa [Tray.expected, Roll.size] using fits
  · rcases List.mem_append.1 hr' with hr' | hr'
    · exact h.held r' hr'
    · rw [List.mem_singleton.1 hr']
      exact Nat.le_trans (Nat.le_of_eq hnone) (Nat.zero_le _)
  · rcases List.mem_cons.1 hentry with rfl | hentry
    · refine ⟨serial ▸ Nat.lt_succ_self _, hnone, fun r' hr' hserial => ?_⟩
      rcases List.mem_append.1 hr' with hr' | hr'
      · exact absurd hserial (Nat.ne_of_lt (hlt r' hr'))
      · rw [List.mem_singleton.1 hr']
    · obtain ⟨hlt', hnone', hcount⟩ := h.coming entry hentry
      refine ⟨Nat.lt_succ_of_lt hlt', hnone', fun r' hr' hserial => ?_⟩
      rcases List.mem_append.1 hr' with hr' | hr'
      · exact hcount r' hr' hserial
      · rw [List.mem_singleton.1 hr'] at hserial
        omega

section Notified

variable (hn : ∀ coming event r, (∃ n, r.id = .int n) →
  Keeps (Roomy F start c coming) (notify event r))

include hn

/-- If room is made for a roll there is room for it. -/
theorem makeRoom_fits {needed : Nat} (hneeded : needed ≤ c.maxDice) {fuel : Nat}
    (h : Roomy F start c coming t)
    (hreturns : (makeRoom notify needed fuel).perform t = (.ok (), t')) :
    (t'.expected + needed : Int) ≤ c.maxDice := by
  induction fuel generalizing t with
  | zero => nomatch hreturns
  | succ fuel ih =>
    rw [Tray.makeRoom, Attempt.perform_bind_of_ok (Attempt.perform_get t)] at hreturns
    cases hactive : t.active with
    | nil =>
      simp only [hactive] at hreturns
      cases hreturns
      rw [Tray.expected, hactive]
      simpa using hneeded
    | cons oldest rest =>
      have hid : ∃ n, oldest.id = .int n :=
        lasts.ids h oldest (List.mem_append_right _ (hactive ▸ List.mem_cons_self ..))
      simp only [hactive] at hreturns
      rw [totalDice_eq h.sound, Attempt.perform_bind_of_ok (Attempt.perform_lift ..)] at hreturns
      have hadd : Num.add (.int t.expected) (.int needed) = .ok (.int (t.expected + needed)) := by
        simp [Num.add]
      rw [hadd, Attempt.perform_bind_of_ok (Attempt.perform_lift ..)] at hreturns
      split at hreturns
      · have hcancel := (lasts.conduct.cancel (hn coming) hid).discard t h
        rw [Attempt.perform_bind] at hreturns
        split at hreturns
        · next heq =>
          rw [heq] at hcancel
          exact ih hcancel hreturns
        · cases hreturns
      · next hfits =>
        cases hreturns
        rw [h.config] at hfits
        simpa [Num.lt, Num.compare?, Int.compare_eq_lt] using hfits

/-- A roll begins where there is room for it, and the history is cut if it is too long then. -/
theorem register_trim {source : String} {compiled : Formula.Compiled} (formula : String)
    (hcompiled : Formula.compile source = .ok compiled) (h : Roomy F start c coming t)
    (hfits : (t.expected + compiled.physicalCount : Int) ≤ c.maxDice) :
    ∃ r s, (register formula compiled).perform t = (.ok r, s) ∧ r.id = (amid F start).id t.nextSerial ∧
      Roomy F start c ((t.nextSerial, compiled.physicalCount) :: coming)
        ((trimHistory notify).perform s).2 := by
  obtain ⟨owed, ho⟩ := h.orderly
  let r : Roll := { serial := t.nextSerial, record := Record.ofCompiled t.nextId formula compiled }
  have hsites : r.record.sites.length = compiled.physicalCount := by
    rw [sites_of_groups rfl, List.length_map, length_places]
  have hbegun : ∀ history : List Roll, history.Sublist (r :: t.history) →
      (history.length : Int) ≤ c.maxHistory →
      Roomy F start c ((t.nextSerial, compiled.physicalCount) :: coming)
        { t with nextId := t.nextId + 1, nextSerial := t.nextSerial + 1, active := t.active ++ [r],
                 history } := by
    intro history hsublist hshort
    rw [← hsites]
    exact h.begin rfl rfl (sound_ofCompiled hcompiled t.nextId formula) rfl (hsites ▸ hfits) hsublist
      hshort
  refine ⟨r, _, rfl, congrArg Value.int ho.nextId, ?_⟩
  rw [Tray.trimHistory, Attempt.perform_bind_of_ok (Attempt.perform_get _)]
  split
  · rw [Attempt.perform_bind_of_ok (Attempt.perform_set ..)]
    refine lasts.conduct.prune (hn _) _ (hbegun _ (List.dropLast_sublist _) ?_)
    simpa using h.history
  · next hshort =>
    rw [h.config] at hshort
    exact hbegun _ (List.Sublist.refl _) (Int.not_lt.1 hshort)

/-- Rolls begin only where there is room for them. -/
theorem launch {source : String} {compiled : Formula.Compiled} (formula : String)
    (hcompiled : Formula.compile source = .ok compiled) (h : Roomy F start c coming t)
    (hneeded : compiled.physicalCount ≤ c.maxDice) :
    Roomy F start c coming ((launch notify formula compiled).perform t).2 := by
  rw [Tray.launch, Attempt.perform_bind_of_ok (Attempt.perform_get t), Attempt.perform_bind]
  have hroom := lasts.conduct.makeRoom (hn coming) compiled.physicalCount (t.active.length + patience) t h
  rcases hmake : (makeRoom notify compiled.physicalCount (t.active.length + patience)).perform t with
    ⟨fault | _, t₁⟩ <;> rw [hmake] at hroom
  · exact hroom
  · have hfits := makeRoom_fits hn hneeded h hmake
    obtain ⟨r, t₂, hregister, hid, htrim⟩ := register_trim hn formula hcompiled hroom hfits
    dsimp only
    rw [Attempt.perform_bind_of_ok hregister, hid]
    refine Keeps.bind_from htrim (fun _ h => h.tail) fun _ t h => ?_
    refine Keeps.bind_from (Booked.schedule ?_ _ _ _ ?_) (fun _ h => h) fun _ => ?_
    · exact fun entry hentry => Nat.ne_of_lt (hroom.coming entry hentry).1
    · obtain ⟨hbegun, hnone, hcount⟩ := h.coming _ (List.mem_cons_self ..)
      refine ⟨h.tail, hbegun, fun r' hr' hserial => ?_⟩
      rw [hnone, hcount r' hr' hserial, length_places, Nat.zero_add]
    · exact (hn coming _ _ ⟨_, hid⟩).bind fun _ => .pure _

/-- Whatever is done about events, operations keep to the limits of the tray. -/
theorem operation (op : Operation) : Keeps (Roomy F start c coming) (op.attempt notify) := by
  have hoffers : Offers notify (Roomy F start c coming) :=
    lasts.offers (hn coming)
      (fun formula hcompiled _ h hfits => h.launch hn formula hcompiled (h.config ▸ hfits))
      (lasts.conduct.clearTray (hn coming) mark)
  exact hoffers.operation op fun _ => lasts.tick (hn coming)

end Notified

/-- Whoever interferes with a tray, it keeps to its limits. -/
theorem of_reach (reach : Reach F t t') (h : Roomy F start c coming t) : Roomy F start c coming t' := by
  induction reach generalizing coming with
  | refl => exact h
  | act _ op _ notify _ ih ihreacts =>
    refine operation (fun coming event r hid s hs => ?_) op _ (ih h)
    exact ihreacts event r s hid (hs.around _ s.chance s.nextThrow s.listeners _ (lasts.holds hs))
  | outside _ world chance listeners holds ih =>
    have hholds := holds (holds_amid.1 (lasts.holds (ih h)))
    exact (ih h).around world chance _ listeners _ (holds_amid.2 hholds)
  | told _ tag id ih => exact (ih h).around _ _ _ _ _ (lasts.holds (ih h))

end Roomy

/-! ## The limits -/

/-- The tray is not fuller than its configuration allows, and no die lies on it for nothing. -/
structure Bounded (t : Tray ω) : Prop where
  total : ∃ n : Nat, t.totalDice = .ok (.int n) ∧ n ≤ t.config.maxDice
  each : ∀ r ∈ t.active, ∃ n : Nat, r.record.expectedDice = .ok (.int n) ∧ (t.diceOf r.id).length ≤ n
  wanted : ∀ d ∈ t.dice, t.isActive d.roll = true
  bodies : (World.handles t.world).length ≤ t.config.maxDice
  history : t.history.length ≤ t.config.maxHistory

theorem Roomy.bounded (H : Housing ω) (h : Roomy H.toFooting start c coming t) : Bounded t := by
  obtain ⟨owed, ho⟩ := h.orderly
  have hsounds := h.sound
  obtain ⟨_, rfl, hexpected, hhistory, hheld, _⟩ := h
  have heach : ∀ r ∈ t.active, (t.diceOf r.id).length ≤ r.record.sites.length := fun r hr => by
    rw [ho.id_eq (List.mem_append_right _ hr)]
    exact Nat.le_trans (Nat.le_add_right _ _) (hheld r hr)
  have howner : ∀ d ∈ t.dice, ∃ r ∈ t.active, d.roll.same r.id = true := by
    intro d hd
    obtain ⟨r, hr, hroll⟩ := ho.dice d hd
    refine ⟨r, hr, ?_⟩
    rw [hroll, ho.id_eq (List.mem_append_right _ hr), same_id, decide_eq_true rfl]
  have hdice : t.dice.length ≤ t.expected := by
    refine Nat.le_trans (length_le_sum t.active t.dice howner) ?_
    rw [Tray.expected, List.map_map]
    exact List.sum_le_sum heach
  have hbodies : (World.handles t.world).length = t.dice.length := by
    rw [(H.bodies (holds_amid.1 ho.holds)).length_eq, List.length_map]
  refine ⟨⟨_, totalDice_eq hsounds, hexpected⟩, fun r hr => ⟨_, (hsounds r hr).expectedDice, heach r hr⟩,
    fun d hd => ?_, ?_, hhistory⟩
  · obtain ⟨r, hr, hroll⟩ := ho.dice d hd
    rw [hroll]
    exact (isActive_iff ho).2 ⟨r, hr, rfl⟩
  · omega

/-- Whoever interferes with a tray, and however operations are nested, it is never fuller than its
configuration allows, not even in the middle of operations. -/
theorem bounded_of_reach (H : Housing ω) {t₀ t : Tray ω} (fresh : Fresh t₀)
    (empty : World.handles t₀.world = []) (hdice : 0 ≤ t₀.config.maxDice)
    (hhistory : 0 ≤ t₀.config.maxHistory) (reach : Reach H.toFooting t₀ t) :
    t.config = t₀.config ∧ Bounded t := by
  have ho : Orderly (amid H.toFooting t₀.nextId) (fun _ => []) t₀ :=
    fresh.orderly rfl (holds_amid.2 (H.empty empty)) trivial
  have hroomy : Roomy H.toFooting t₀.nextId t₀.config [] t₀ := by
    refine ⟨⟨_, ho⟩, rfl, ?_, ?_, fun r hr => ?_, fun _ hentry => nomatch hentry⟩
    · rw [Tray.expected, fresh.active]
      exact hdice
    · rw [fresh.history]
      exact hhistory
    · nomatch fresh.active ▸ hr
  have h := hroomy.of_reach reach
  exact ⟨h.config, h.bounded H⟩

/-- A listener that rolls again whenever a roll is canceled is met while room is made for another roll,
on a tray for two dice. -/
theorem bounded_restless :
    ∃ t, performAll announce [.roll "2d20", .roll "d6"]
        { restless with config := { maxDice := 2, maxHistory := 2 } } = some t ∧
      t.nextId = 3 ∧ t.active.length = 2 ∧ Bounded t := by
  have hrun : (performAll announce [.roll "2d20", .roll "d6"]
      { restless with config := { maxDice := 2, maxHistory := 2 } }).map
        (fun t => (t.nextId, t.active.length)) = some (3, 2) := by decide +kernel
  obtain ⟨t, ht, hrun⟩ := Option.map_eq_some_iff.1 hrun
  obtain ⟨hnext, hactive⟩ := Prod.mk.inj hrun
  refine ⟨t, ht, hnext, hactive, ?_⟩
  exact (bounded_of_reach ScriptedWorld.housing ⟨rfl, rfl, rfl, rfl, rfl, rfl, rfl⟩ rfl (by decide)
    (by decide) (reach_of_performAll ht)).2

end Tray

end RollTray
