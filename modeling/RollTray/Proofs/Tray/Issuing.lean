import RollTray.Proofs.Tray.Draining
import RollTray.Proofs.Tray.Evicting
import RollTray.Proofs.Tray.Reentry
import RollTray.Proofs.Tray.Watermark

/-!
# Ids that were given

A tray gives its next id to a roll that begins, and counts on. So where all rolls have lower ids than
the next one (`Issued`), no id is given twice, whoever interferes (`issued_of_reach`). If moreover the
watermark is below the next id (`Ahead`) and listeners only look on, it stays below all rolls that
begin from then on, and does not keep their dice from being thrown (`Ahead.throws`). This is said of
trays that may hold any rolls at first, so rolls of one id among them too.
-/

namespace RollTray

theorem Value.below_int {v : Value} {n : Int} : v.Below (.int n) ↔ ∃ m, v = .int m ∧ m < n := by
  constructor
  · rintro ⟨m, _, hm, ⟨⟩, hlt⟩
    exact ⟨m, hm, hlt⟩
  · exact fun ⟨m, hm, hlt⟩ => ⟨m, n, hm, rfl, hlt⟩

theorem Value.below_int_int {m n : Int} : (int m).Below (int n) ↔ m < n := by
  rw [below_int]
  exact ⟨fun ⟨_, h, hlt⟩ => int.inj h ▸ hlt, fun hlt => ⟨m, rfl, hlt⟩⟩

theorem Value.Below.mono {v : Value} {m n : Int} (h : v.Below (.int m)) (hle : m ≤ n) :
    v.Below (.int n) := by
  obtain ⟨k, hk, hlt⟩ := below_int.1 h
  exact below_int.2 ⟨k, hk, by omega⟩

theorem Value.Below.trans {u v w : Value} (first : u.Below v) (second : v.Below w) : u.Below w := by
  obtain ⟨k, m, hk, rfl, hkm⟩ := first
  obtain ⟨_, n, ⟨⟩, hn, hmn⟩ := second
  exact ⟨k, n, hk, hn, by omega⟩

namespace Tray

open Attempt (Keeps)

variable {ω : Type} {start : Int} {t t' : Tray ω}

/-! ## Ids that were given -/

/-- All rolls have lower ids than the next one, which is not below where it started. -/
structure Issued (start : Int) (t : Tray ω) : Prop where
  start_le : start ≤ t.nextId
  ids : ∀ r ∈ t.history ++ t.active, r.id.Below (.int t.nextId)

/-- A roll that gets its result takes no id that no roll has. -/
theorem exists_of_mem_write {id : Value} {r : Roll} (hfind : t.find? id = some r) (dice : List Die) {x : Roll}
    (hx : x ∈ (t.write r.serial (Dice.resolve r.record dice).2).history ++
      (t.write r.serial (Dice.resolve r.record dice).2).active) :
    ∃ y ∈ t.history ++ t.active, x.id = y.id := by
  obtain ⟨y, hy, rfl⟩ := mem_write.1 hx
  unfold Roll.put
  split
  · exact ⟨r, List.mem_append_left _ (find?_id hfind).1, Dice.id_resolve r.record dice⟩
  · exact ⟨y, hy, rfl⟩

namespace Issued

theorem known (h : Issued start t) {r : Roll} (hr : r ∈ t.history ++ t.active) : ∃ n, r.id = .int n :=
  have ⟨n, hid, _⟩ := Value.below_int.1 (h.ids r hr)
  ⟨n, hid⟩

theorem isNew (h : Issued start t) {n : Int} (hle : t.nextId ≤ n) : IsNew t (.int n) :=
  ⟨n, rfl, fun r hr => Value.below_int.1 ((h.ids r hr).mono hle)⟩

theorem around (h : Issued start t) (nextId : t'.nextId = t.nextId)
    (history : t'.history = t.history) (active : t'.active = t.active) : Issued start t' where
  start_le := nextId ▸ h.start_le
  ids := by
    rw [nextId, history, active]
    exact h.ids

theorem fewer (h : Issued start t) {history active : List Roll} (hhistory : history.Sublist t.history)
    (hactive : active.Sublist t.active) : Issued start { t with history, active } where
  start_le := h.start_le
  ids r hr := h.ids r ((hhistory.append hactive).subset hr)

theorem trim (h : Issued start t) {history : List Roll} (hhistory : history.Sublist t.history) :
    Issued start { t with history } :=
  h.fewer hhistory (List.Sublist.refl _)

theorem begun (h : Issued start t) (formula : String) (compiled : Formula.Compiled) :
    Issued start (t.begun (t.upcoming formula compiled)) where
  start_le := Int.le_add_one h.start_le
  ids r hr := by
    rcases mem_begun.1 hr with rfl | hr
    · exact Value.below_int.2 ⟨_, rfl, Int.lt_succ _⟩
    · exact (h.ids r hr).mono (Int.le_add_one (Int.le_refl _))

theorem write (h : Issued start t) {id : Value} {r : Roll} (hfind : t.find? id = some r)
    (dice : List Die) :
    Issued start (t.write r.serial (Dice.resolve r.record dice).2) where
  start_le := h.start_le
  ids x hx := by
    obtain ⟨y, hy, hid⟩ := exists_of_mem_write hfind dice hx
    exact hid ▸ h.ids y hy

variable [World ω] {F : Footing ω} {notify : Notify ω}

theorem conduct : Conduct (fun id => ∃ n, id = .int n) (Issued (ω := ω) start) :=
  .of_rolls (fun h _ hr => h.known hr)
    (fun h _ nextId _ history active _ _ => h.around nextId history active)
    (fun {_ id _} h _ _ => keeps_raiseWatermark (fun _ h => h.around rfl rfl rfl) id _
      (h.fewer (List.Sublist.refl _) List.eraseP_sublist))
    (fun h hfind _ dice => h.write hfind dice)

variable (hn : ∀ event r, (∃ n, r.id = .int n) → Keeps (Issued start) (notify event r))

include hn

theorem launch (formula : String) (compiled : Formula.Compiled) :
    Keeps (Issued start) (launch notify formula compiled) :=
  conduct.launch hn (fun h => h.trim) (keeps_schedule (fun _ _ _ h => h.around rfl rfl rfl) · · 0 0 ·)
    fun h => h.begun formula compiled

theorem operation (op : Operation) : Keeps (Issued start) (op.attempt notify) := by
  have hoffers : Offers notify (Issued (ω := ω) start) := {
    chance := fun _ => .within fun _ h => h.around rfl rfl rfl
    formula := fun _ => .of_modify fun _ h => h.around rfl rfl rfl
    launch := fun formula _ _ h _ => launch hn formula _ _ h
    cancel := fun n => conduct.cancel hn ⟨n, rfl⟩
    clearTray := conduct.clearTray hn fun h => h.around rfl rfl rfl
    clearHistory := keeps_clearHistory (fun h => h.trim) (conduct.prune hn)
    prune := conduct.prune hn }
  exact hoffers.operation op fun _ => conduct.tick hn fun _ h => h.around rfl rfl rfl

end Issued

variable [World ω] {F : Footing ω} {notify : Notify ω}

/-- Whoever interferes, ids only go up. -/
theorem issued_of_reach (run : Reach F t t') (h : Issued start t) : Issued start t' :=
  run.keeps (fun _ _ _ _ h => h.around rfl rfl rfl)
    (fun op _ _ hn => Issued.operation hn op) h

/-- A roll that begins gets an id that is not lower than the next one, and the next one is higher then. -/
theorem issued_of_beginRoll (reacts : Reacts F notify) (h : Issued start t)
    {compiled : Formula.Compiled} {label : String} {new : Record}
    (hbegin : (beginRoll notify compiled label).perform t = (.ok new, t')) :
    ∃ n, new.id = .int n ∧ t.nextId ≤ n ∧ Issued (n + 1) t' := by
  have hn (start : Int) : ∀ event r, (∃ n, r.id = .int n) → Keeps (Issued start) (notify event r) :=
    fun event r hid s hs => issued_of_reach (reacts event r s hid) (hs.around rfl rfl rfl)
  obtain ⟨t₁, t₂, t₃, hmake, htrim, hschedule, htold, rfl⟩ := launch_eq_ok (beginRoll_eq_ok hbegin)
  have h₁ : Issued t.nextId t₁ :=
    (Issued.conduct.makeRoom (hn _) _ _).holds hmake ⟨Int.le_refl _, h.ids⟩
  have h₂ : Issued (t₁.nextId + 1) t₂ :=
    (keeps_trimHistory (fun h => h.trim) (Issued.conduct.prune (hn _))).holds htrim
      ⟨Int.le_refl _, (h₁.begun _ compiled).ids⟩
  have h₃ : Issued (t₁.nextId + 1) t₃ :=
    (keeps_schedule (fun _ _ _ h => h.around rfl rfl rfl) _ _ _ _ _).holds hschedule h₂
  exact ⟨t₁.nextId, rfl, h₁.start_le, (hn _ .started _ ⟨_, rfl⟩).holds htold h₃⟩

/-! ## Watermarks that stay behind -/

omit [World ω] in
/-- An integer is compared with the first one of some rolls whose ids are integers. -/
theorem isBefore_of_ints (n : Int) {rolls : List Roll} (h : ∀ r ∈ rolls, ∃ m, r.id = .int m) :
    ∃ before, isBefore (.int n) rolls = .ok before ∧
      (before = true → ∀ r ∈ rolls.head?, (Value.int n).Below r.id) := by
  cases rolls with
  | nil => exact ⟨true, rfl, fun _ r hr => nomatch hr⟩
  | cons first rest =>
    obtain ⟨m, hm⟩ := h first (List.mem_cons_self ..)
    refine ⟨decide (n < m), by rw [isBefore, hm, Value.lt_int], fun hlt r hr => ?_⟩
    cases hr
    exact ⟨n, m, rfl, hm, of_decide_eq_true hlt⟩

/-- The roll began with this id or a later one. -/
def Since (start : Int) (r : Roll) : Prop :=
  ∃ n, start ≤ n ∧ r.id = .int n

/-- Moreover the rolls since some id are the last ones that are active, in the order of their ids, and the
watermark is below them. -/
structure Ahead (start : Int) (t : Tray ω) : Prop extends Issued start t where
  nonneg : 0 ≤ start
  serials : ∀ r ∈ t.history ++ t.active, r.serial < t.nextSerial
  agree : ∀ r ∈ t.history ++ t.active, ∀ r' ∈ t.history ++ t.active, r.serial = r'.serial → r.id = r'.id
  /-- No watermark that was never set counts as more than the id of a roll that is canceled. -/
  floor : ∀ r ∈ t.active, 0 < start ∨ Since 0 r
  active : t.active.Pairwise fun r r' => Since start r' → r.id.Below r'.id
  watermark : t.watermark = .null ∨
    t.watermark.Below (.int t.nextId) ∧ ∀ r ∈ t.active, Since start r → t.watermark.Below r.id
  quiet : Onlookers t.listeners

/-! ## Rolls that are all canceled -/

/-- Where listeners only look on a roll that is canceled is not active any more, whatever comes of it. -/
theorem cancel_active (quiet : Onlookers t.listeners) (id : Value) :
    ((cancel announce id).perform t).2.active = t.active.eraseP (fun r => r.id.same id) ∧
      Onlookers ((cancel announce id).perform t).2.listeners := by
  rw [cancel, Attempt.perform_bind_of_ok (Attempt.perform_get t)]
  cases hfind : Roll.find? id t.active with
  | none =>
    refine ⟨(List.eraseP_of_forall_not fun r hr => ?_).symm, quiet⟩
    exact List.find?_eq_none.1 hfind r hr
  | some r =>
    let Gone (s : Tray ω) : Prop :=
      s.active = t.active.eraseP (fun r => r.id.same id) ∧ Onlookers s.listeners
    have hraise : Keeps Gone (raiseWatermark id) := keeps_raiseWatermark (fun _ h => h) id
    have hremove : Keeps Gone (removeDice id) := by
      intro s h
      obtain ⟨world, dice, hperform⟩ := takeOff_perform_snd (fun d => d.roll.same id) s
      rw [removeDice, hperform]
      exact h
    have htold : Keeps Gone (announce .canceled r.record) :=
      keeps_announce (I := Gone) And.right (fun _ _ h hquiet => ⟨h.1, hquiet⟩) _ _
    dsimp only
    rw [Attempt.perform_bind_of_ok (Attempt.perform_modify _ t)]
    exact (hraise.bind fun _ => hremove.bind fun _ => htold.bind fun _ => .pure _) _ ⟨rfl, quiet⟩

/-- All rolls were canceled where that did not fail, even if they have one id. -/
theorem cancelAll_active (quiet : Onlookers t.listeners) (hids : ∀ r ∈ t.active, ∃ n, r.id = .int n)
    (h : (cancelAll announce t.active).perform t = (.ok (), t')) : t'.active = [] := by
  generalize hactive : t.active = rolls at h
  induction rolls generalizing t with
  | nil =>
    cases h
    exact hactive
  | cons r rest ih =>
    rw [cancelAll, List.forM] at h
    obtain ⟨_, t₁, hfirst, hrest⟩ := Attempt.perform_bind_eq_ok.1 h
    obtain ⟨answer, hcancel⟩ := Attempt.perform_discard_eq_ok.1 hfirst
    obtain ⟨n, hid⟩ := hids r (hactive ▸ List.mem_cons_self ..)
    have hself : r.id.same r.id = true := by rw [hid, Value.same_int, decide_eq_true rfl]
    obtain ⟨hgone, hquiet⟩ := cancel_active quiet r.id
    rw [hcancel, hactive] at hgone
    replace hgone : t₁.active = rest := hgone.trans (List.eraseP_cons_of_pos (by exact hself))
    rw [hcancel] at hquiet
    exact ih hquiet (fun x hx => hids x (hactive ▸ List.mem_cons_of_mem _ (hgone ▸ hx))) hgone hrest

namespace Ahead

omit [World ω] in
theorem around (h : Ahead start t) (nextId : t'.nextId = t.nextId)
    (nextSerial : t'.nextSerial = t.nextSerial) (history : t'.history = t.history)
    (active : t'.active = t.active) (watermark : t'.watermark = t.watermark)
    (quiet : Onlookers t'.listeners) : Ahead start t' where
  toIssued := h.toIssued.around nextId history active
  nonneg := h.nonneg
  serials := by
    rw [history, active, nextSerial]
    exact h.serials
  agree := by
    rw [history, active]
    exact h.agree
  floor := active ▸ h.floor
  active := active ▸ h.active
  watermark := by
    rw [active, watermark, nextId]
    exact h.watermark
  quiet := quiet

omit [World ω] in
theorem fewer (h : Ahead start t) {history active : List Roll} (hhistory : history.Sublist t.history)
    (hactive : active.Sublist t.active) : Ahead start { t with history, active } where
  toIssued := h.toIssued.fewer hhistory hactive
  nonneg := h.nonneg
  serials r hr := h.serials r ((hhistory.append hactive).subset hr)
  agree r hr r' hr' :=
    h.agree r ((hhistory.append hactive).subset hr) r' ((hhistory.append hactive).subset hr')
  floor r hr := h.floor r (hactive.subset hr)
  active := h.active.sublist hactive
  watermark := h.watermark.imp_right fun ⟨hnext, hbelow⟩ =>
    ⟨hnext, fun r hr => hbelow r (hactive.subset hr)⟩
  quiet := h.quiet

omit [World ω] in
theorem trim (h : Ahead start t) {history : List Roll} (hhistory : history.Sublist t.history) :
    Ahead start { t with history } :=
  h.fewer hhistory (List.Sublist.refl _)

omit [World ω] in
theorem marked (h : Ahead start t) {n : Int} (hnext : n < t.nextId)
    (hactive : ∀ r ∈ t.active, Since start r → (Value.int n).Below r.id) :
    Ahead start { t with watermark := .int n } :=
  { h with watermark := .inr ⟨⟨n, _, rfl, rfl, hnext⟩, hactive⟩ }

omit [World ω] in
theorem begun (h : Ahead start t) (formula : String) (compiled : Formula.Compiled) :
    Ahead start (t.begun (t.upcoming formula compiled)) := by
  refine {
    toIssued := h.toIssued.begun formula compiled
    nonneg := h.nonneg
    serials := fun x hx => ?_
    agree := fun x hx y hy heq => ?_
    floor := fun x hx => ?_
    active := List.pairwise_append.2 ⟨h.active, List.pairwise_singleton .., fun x hx y hy _ => ?_⟩
    watermark := h.watermark.imp_right fun ⟨hnext, hbelow⟩ =>
      ⟨hnext.mono (Int.le_add_one (Int.le_refl _)), fun x hx hsince => ?_⟩
    quiet := h.quiet }
  · rcases mem_begun.1 hx with rfl | hx
    · exact Nat.lt_succ_self _
    · exact Nat.lt_succ_of_lt (h.serials x hx)
  · rcases mem_begun.1 hx with rfl | hx <;> rcases mem_begun.1 hy with rfl | hy
    · rfl
    · exact absurd heq (h.serials y hy).ne'
    · exact absurd heq (h.serials x hx).ne
    · exact h.agree x hx y hy heq
  · rcases List.mem_append.1 hx with hx | hx
    · exact h.floor x hx
    · rw [List.mem_singleton.1 hx]
      exact .inr ⟨_, Int.le_trans h.nonneg h.start_le, rfl⟩
  · rw [List.mem_singleton.1 hy]
    exact h.ids x (List.mem_append_right _ hx)
  · rcases List.mem_append.1 hx with hx | hx
    · exact hbelow x hx hsince
    · rw [List.mem_singleton.1 hx]
      exact hnext

omit [World ω] in
theorem write (h : Ahead start t) {id : Value} {r : Roll} (hfind : t.find? id = some r)
    (dice : List Die) :
    Ahead start (t.write r.serial (Dice.resolve r.record dice).2) := by
  let put := Roll.put r.serial (Dice.resolve r.record dice).2
  have hr : r ∈ t.history ++ t.active := List.mem_append_left _ (find?_id hfind).1
  -- The record is written into rolls of the same id only.
  have hid : ∀ x ∈ t.history ++ t.active, (put x).id = x.id := fun x hx =>
    Roll.id_put fun hserial => (Dice.id_resolve ..).trans (h.agree x hx r hr hserial).symm
  have hsince : ∀ x ∈ t.history ++ t.active, Since start (put x) ↔ Since start x := fun x hx => by
    rw [Since, Since, hid x hx]
  have hactive : ∀ {x}, x ∈ t.active → x ∈ t.history ++ t.active := List.mem_append_right _
  exact {
    toIssued := h.toIssued.write hfind dice
    nonneg := h.nonneg
    serials := fun x hx => by
      obtain ⟨y, hy, rfl⟩ := mem_write.1 hx
      exact (Roll.serial_put ..).trans_lt (h.serials y hy)
    agree := fun x hx x' hx' heq => by
      obtain ⟨y, hy, rfl⟩ := mem_write.1 hx
      obtain ⟨y', hy', rfl⟩ := mem_write.1 hx'
      rw [hid y hy, hid y' hy']
      exact h.agree y hy y' hy' ((Roll.serial_put ..).symm.trans (heq.trans (Roll.serial_put ..)))
    floor := fun x hx => by
      obtain ⟨y, hy, rfl⟩ := List.mem_map.1 hx
      rw [Since, hid y (hactive hy)]
      exact h.floor y hy
    active := List.pairwise_map.2 <| h.active.imp_of_mem fun hx hy hxy hnew => by
      rw [hid _ (hactive hx), hid _ (hactive hy)]
      exact hxy ((hsince _ (hactive hy)).1 hnew)
    watermark := h.watermark.imp_right fun hmark => ⟨hmark.1, fun x hx hnew => by
      obtain ⟨y, hy, rfl⟩ := List.mem_map.1 hx
      rw [hid y (hactive hy)]
      exact hmark.2 y hy ((hsince y (hactive hy)).1 hnew)⟩
    quiet := h.quiet }

omit [World ω] in
/-- What is below the first active roll is below all that began since. -/
theorem below_of_first (h : Ahead start t) {id : Value} (hfirst : ∀ r ∈ t.active.head?, id.Below r.id)
    {r : Roll} (hr : r ∈ t.active) (hsince : Since start r) : id.Below r.id := by
  have hpairwise := h.active
  cases hactive : t.active with
  | nil => nomatch hactive ▸ hr
  | cons first rest =>
    rw [hactive] at hr hfirst hpairwise
    have hbelow := hfirst first rfl
    rcases List.mem_cons.1 hr with rfl | hr
    · exact hbelow
    · exact hbelow.trans ((List.pairwise_cons.1 hpairwise).1 r hr hsince)

omit [World ω] in
/-- The watermark, as a number, and what is above it. A watermark that is not set counts as zero. -/
theorem exists_watermark (h : Ahead start t) : ∃ m : Int, t.watermark.orZero = .int m ∧
    ∀ k : Int, 0 < k → t.watermark = .null ∨ t.watermark.Below (.int k) → m < k := by
  rcases h.watermark with hnull | ⟨hbelow, _⟩
  · refine ⟨0, by rw [hnull]; rfl, fun k hpos _ => hpos⟩
  · obtain ⟨m, hm, _⟩ := Value.below_int.1 hbelow
    refine ⟨m, by rw [hm, Value.orZero_int], fun k _ habove => ?_⟩
    rw [hm, Value.below_int_int] at habove
    exact habove.resolve_left nofun

omit [World ω] in
/-- If the watermark is raised to a roll, this came before all active ones that began since. -/
theorem raise (h : Ahead start t) {k : Int} {r : Roll} (hfind : Roll.find? (.int k) t.active = some r) :
    Ahead start ((raiseWatermark (.int k)).perform
      { t with active := t.active.eraseP fun other => other.id.same (.int k) }).2 := by
  let rest := t.active.eraseP fun other => other.id.same (.int k)
  have hrest : Ahead start { t with active := rest } := h.fewer (List.Sublist.refl _) List.eraseP_sublist
  obtain ⟨hmem, hsame⟩ := find?_id hfind
  obtain ⟨n, hid, hnext⟩ := Value.below_int.1 (h.ids r (List.mem_append_right _ hmem))
  obtain rfl : n = k := by
    rw [hid, Value.same_int] at hsame
    exact of_decide_eq_true hsame
  have hfloor : 0 < start ∨ 0 ≤ n := by
    rcases h.floor r hmem with hstart | ⟨m, hm, hrm⟩
    · exact .inl hstart
    · obtain rfl := Value.int.inj (hid.symm.trans hrm)
      exact .inr hm
  have hids : ∀ r ∈ rest, ∃ m, r.id = .int m := fun r hr => hrest.known (List.mem_append_right _ hr)
  obtain ⟨before, hbefore, hfirst⟩ := isBefore_of_ints n hids
  obtain ⟨m, hm, habove⟩ := h.exists_watermark
  -- An id that is above the one of the roll is above the new watermark if it was above the old one.
  have hmax {k : Int} (hlt : n < k) (hstart : start ≤ k)
      (hbelow : t.watermark = .null ∨ t.watermark.Below (.int k)) : max n m < k :=
    Int.max_lt.2 ⟨hlt, habove k (by omega) hbelow⟩
  rw [raiseWatermark, Attempt.perform_bind_of_ok (Attempt.perform_get _), hbefore,
    Attempt.perform_bind_of_ok (Attempt.perform_lift ..)]
  cases before with
  | false => exact hrest
  | true =>
    rw [if_pos rfl, higher_int hm, Attempt.perform_bind_of_ok (Attempt.perform_lift ..)]
    refine hrest.marked (hmax hnext h.start_le (h.watermark.imp_right And.left)) fun r' hr' hsince => ?_
    obtain ⟨n', hle, hid'⟩ := id hsince
    have hlow := hrest.below_of_first (hfirst rfl) hr' hsince
    rw [hid', Value.below_int_int] at hlow
    rw [hid', Value.below_int_int]
    refine hmax hlow hle (h.watermark.imp_right fun hmark => ?_)
    exact hid' ▸ hmark.2 r' (List.eraseP_sublist.subset hr') hsince

theorem conduct : Conduct (fun id => ∃ n, id = .int n) (Ahead (ω := ω) start) :=
  .of_rolls (fun h _ hr => h.known hr)
    (fun h _ nextId nextSerial history active watermark listeners =>
      h.around nextId nextSerial history active watermark (listeners ▸ h.quiet))
    (fun h hid hfind => by
      obtain ⟨k, rfl⟩ := hid
      exact h.raise hfind)
    (fun h hfind _ dice => h.write hfind dice)

theorem announce (event : Event) (r : Record) : Keeps (Ahead (ω := ω) start) (announce event r) :=
  keeps_announce (fun h => h.quiet) (fun _ _ h hquiet => h.around rfl rfl rfl rfl rfl hquiet) event r

theorem clearTray : Keeps (Ahead (ω := ω) start) (clearTray Tray.announce) := by
  intro t h
  have hids : ∀ r ∈ t.active, ∃ n, r.id = .int n := fun r hr => h.known (List.mem_append_right _ hr)
  rw [Tray.clearTray, Attempt.perform_bind_of_ok (Attempt.perform_get t)]
  rcases hperform : (cancelAll Tray.announce t.active).perform t with ⟨fault | _, t₁⟩ <;>
    have hcanceled : Ahead start t₁ :=
      (conduct.cancelAll (fun event r _ => announce event r) hids).holds hperform h
  · rw [Attempt.perform_bind_of_error hperform]
    exact hcanceled
  · have hnone := cancelAll_active h.quiet hids hperform
    rw [Attempt.perform_bind_of_ok hperform, Attempt.perform_bind_of_ok (Attempt.perform_modify _ t₁)]
    refine conduct.takeOff _ _ ?_
    split
    · exact hcanceled.marked (Int.sub_one_lt_of_le (Int.le_refl _)) fun r hr =>
        absurd (hnone ▸ hr) List.not_mem_nil
    · exact hcanceled

theorem operation (op : Operation) : Keeps (Ahead (ω := ω) start) (op.attempt Tray.announce) := by
  have hn : ∀ event r, (∃ n, r.id = .int n) → Keeps (Ahead (ω := ω) start) (Tray.announce event r) :=
    fun event r _ => announce event r
  have hoffers : Offers Tray.announce (Ahead (ω := ω) start) := {
    chance := fun _ => .within fun _ h => h.around rfl rfl rfl rfl rfl h.quiet
    formula := fun _ => .of_modify fun _ h => h.around rfl rfl rfl rfl rfl h.quiet
    launch := fun formula compiled _ h _ => conduct.launch hn (fun h => h.trim)
      (keeps_schedule (fun _ _ _ h => h.around rfl rfl rfl rfl rfl h.quiet) · · 0 0 ·)
      (fun h => h.begun formula _) _ h
    cancel := fun n => conduct.cancel hn ⟨n, rfl⟩
    clearTray := clearTray
    clearHistory := keeps_clearHistory (fun h => h.trim) (conduct.prune hn)
    prune := conduct.prune hn }
  exact hoffers.operation op fun _ => conduct.tick hn fun _ h => h.around rfl rfl rfl rfl rfl h.quiet

/-- While listeners only look on, the watermark stays below what began. -/
theorem of_undisturbed (run : Undisturbed F t t') (h : Ahead start t) : Ahead start t' := by
  induction run with
  | refl => exact h
  | act _ op ih => exact operation op _ ih
  | outside _ world chance listeners _ quiet ih => exact ih.around rfl rfl rfl rfl rfl quiet

omit [World ω] in
theorem of_fresh (fresh : Fresh t) (nonneg : 0 ≤ t.nextId) (quiet : Onlookers t.listeners) :
    Ahead t.nextId t := by
  have hrolls : t.history ++ t.active = [] := by rw [fresh.history, fresh.active, List.append_nil]
  exact {
    start_le := Int.le_refl _
    ids := fun r hr => nomatch hrolls ▸ hr
    nonneg := nonneg
    serials := fun r hr => nomatch hrolls ▸ hr
    agree := fun r hr => nomatch hrolls ▸ hr
    floor := fun r hr => nomatch fresh.active ▸ hr
    active := fresh.active ▸ .nil
    watermark := .inl fresh.watermark
    quiet := quiet }

omit [World ω] in
/-- The watermark does not keep a die of a roll from being thrown that began since. -/
theorem throws (h : Ahead start t) {r : Roll} (hr : r ∈ t.active) (hsince : Since start r) {throw : Throw}
    (hroll : throw.roll = r.id) : t.throws throw = true := by
  obtain ⟨n, -, hid⟩ := id hsince
  have hactive : t.isActive throw.roll = true := by
    rw [hroll, isActive, Roll.find?, List.find?_isSome]
    exact ⟨r, hr, by rw [hid, Value.same_int, decide_eq_true rfl]⟩
  have hpast : isPast t.watermark throw.roll = .ok false := by
    rw [hroll]
    rcases h.watermark with hnull | ⟨-, hbelow⟩
    · rw [hnull]
      rfl
    · obtain ⟨m, _, hm, hn, hlt⟩ := hbelow r hr hsince
      rw [hm, hn, isPast, Value.le_int, decide_eq_false (Int.not_le.2 hlt)]
      rfl
  rw [Tray.throws, hpast]
  exact hactive

end Ahead

/-! ## Watermarks that are ahead of rolls -/

/-- The watermark is at this id or above it. -/
structure Covers (n : Int) (t : Tray ω) : Prop where
  ids : ∀ r ∈ t.history ++ t.active, ∃ m, r.id = .int m
  watermark : ∃ m, t.watermark = .int m ∧ n ≤ m
  quiet : Onlookers t.listeners

namespace Covers

variable {n : Int}

omit [World ω] in
theorem around (h : Covers n t) (history : t'.history = t.history) (active : t'.active = t.active)
    (watermark : t'.watermark = t.watermark) (quiet : Onlookers t'.listeners) : Covers n t' where
  ids := by
    rw [history, active]
    exact h.ids
  watermark := watermark ▸ h.watermark
  quiet := quiet

omit [World ω] in
theorem fewer (h : Covers n t) {history active : List Roll} (hhistory : history.Sublist t.history)
    (hactive : active.Sublist t.active) : Covers n { t with history, active } where
  ids r hr := h.ids r ((hhistory.append hactive).subset hr)
  watermark := h.watermark
  quiet := h.quiet

omit [World ω] in
/-- The watermark is not raised to a lower one. -/
theorem raise (k : Int) : Keeps (Covers (ω := ω) n) (raiseWatermark (.int k)) := by
  refine .get fun t h => Keeps.lift_bind h fun before _ => ?_
  split
  · refine Keeps.lift_bind h fun watermark hhigher => ?_
    obtain ⟨m, hm, hle⟩ := h.watermark
    rw [hm, higher_int (Value.orZero_int m)] at hhigher
    cases hhigher
    exact { h with watermark := ⟨_, rfl, Int.le_trans hle (Int.le_max_right ..)⟩ }
  · exact h

theorem conduct : Conduct (fun id => ∃ n, id = .int n) (Covers (ω := ω) n) :=
  .of_rolls (fun h => h.ids)
    (fun h _ _ _ history active watermark listeners =>
      h.around history active watermark (listeners ▸ h.quiet))
    (fun h hid _ => by
      obtain ⟨k, rfl⟩ := hid
      exact raise k _ (h.fewer (List.Sublist.refl _) List.eraseP_sublist))
    (fun h hfind _ dice => {
      ids := fun x hx => by
        obtain ⟨y, hy, hid⟩ := exists_of_mem_write hfind dice hx
        exact hid ▸ h.ids y hy
      watermark := h.watermark
      quiet := h.quiet })

theorem launch (formula : String) (compiled : Formula.Compiled) :
    Keeps (Covers (ω := ω) n) (launch announce formula compiled) := by
  have hn : ∀ event r, Keeps (Covers (ω := ω) n) (announce event r) :=
    keeps_announce (fun h => h.quiet) fun _ _ h hquiet => h.around rfl rfl rfl hquiet
  refine conduct.launch (fun event r _ => hn event r)
    (fun h hhistory => h.fewer hhistory (List.Sublist.refl _))
    (keeps_schedule (fun _ _ _ h => h.around rfl rfl rfl h.quiet) · · 0 0 ·) fun h => ?_
  refine { h with ids := fun r hr => ?_ }
  rcases mem_begun.1 hr with rfl | hr
  · exact ⟨_, rfl⟩
  · exact h.ids r hr

omit [World ω] in
/-- The dice of a roll that the watermark is not below are not thrown. -/
theorem not_throws (h : Covers n t) {throw : Throw} (hroll : throw.roll = .int n) :
    t.throws throw = false := by
  obtain ⟨m, hm, hle⟩ := h.watermark
  have hpast : isPast t.watermark throw.roll = .ok true := by
    rw [hroll, hm, isPast, Value.le_int, decide_eq_true hle]
    rfl
  rw [throws, hpast]

end Covers

end Tray

end RollTray
