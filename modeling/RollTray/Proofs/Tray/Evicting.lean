import Mathlib.Order.Bounds.Basic
import RollTray.Proofs.Tray.Capacity
import RollTray.Proofs.Tray.Pruning
import RollTray.Proofs.Tray.Restoring

/-!
# Rolls that make way

A formula is refused if it alone needs more dice than the tray holds. Otherwise it is rolled, whatever is on
the tray. The oldest active rolls make way for it, and the loop that cancels them stops at the first point at
which the new dice fit (`makeRoom_sheds`). When the new roll was put in front of the history the oldest one may
leave that (`trimHistory_sheds`), and to set dice to be thrown never fails (`schedule_perform`).
`admitted_of_undisturbed` puts these together: which rolls are canceled, in which order, and which stay.
-/

namespace RollTray.Tray

open Attempt (Keeps)

variable {ω : Type}

/-- So many more dice fit on the tray beside those of its active rolls. -/
def Fits (needed : Nat) (t : Tray ω) : Prop :=
  ∃ count : Nat, t.totalDice = .ok (.int count) ∧ (count + needed : Int) ≤ t.config.maxDice

/-- The oldest one of some rolls, if they are too many for the history. -/
def dropped? (c : Config) (rolls : List Roll) : Option Roll :=
  if c.maxHistory < rolls.length then rolls.getLast? else none

/-- A roll `r` of so many dice began, for which the `n` oldest active rolls were canceled. -/
structure TakesIn (needed : Nat) (r : Roll) (n : Nat) (t t' : Tray ω) : Prop where
  /-- The new dice fit without these rolls, and would not with fewer of them canceled. -/
  fewest : IsLeast {k | Fits needed { t with active := t.active.drop k }} n
  history : r :: t.history = t'.history ++ (dropped? t.config (r :: t.history)).toList
  /-- Active rolls stay in history, canceled or not, but for the one without a place. -/
  found : ∀ x ∈ t.active ++ [r], t'.find? x.id = some x ∨ dropped? t.config (r :: t.history) = some x
  active : t'.active = (t.active.drop n ++ [r]).filter fun x => (t'.find? x.id).isSome
  /-- After the rolls that made way only those are canceled that left the history. -/
  canceled : canceledIn t'.journal = canceledIn t.journal ++
    (t.active.take n ++ (t.active.drop n ++ [r]).filter fun x => (t'.find? x.id).isNone).map Roll.id

/-! ## Room -/

variable {needed : Nat} {t t' : Tray ω}

/-- Whether dice of sound rolls fit. -/
theorem fits_iff (h : ∀ r ∈ t.active, r.record.Sound) :
    Fits needed t ↔ (t.expected + needed : Int) ≤ t.config.maxDice := by
  rw [Fits, totalDice_eq h]
  constructor
  · rintro ⟨count, hcount, hfits⟩
    cases hcount
    exact hfits
  · exact fun hfits => ⟨_, rfl, hfits⟩

/-- What is compared where room is made. -/
theorem lt_total_iff (h : ∀ r ∈ t.active, r.record.Sound) (needed : Nat) :
    ∃ total, Num.add (.int t.expected) (.int needed) = .ok total ∧
      ((Num.int t.config.maxDice).lt total = true ↔ ¬Fits needed t) := by
  refine ⟨.int (t.expected + needed), by simp [Num.add], ?_⟩
  rw [fits_iff h, Int.not_le]
  simp [Num.lt, Num.compare?, Int.compare_eq_lt]

variable [World ω] {F : Footing ω} {start : Int} {owed : Owed}

theorem Sheds.queued {rolls : List Roll} {taken : Die → Bool} (h : Sheds rolls taken t t')
    (hqueued : Queued t.nextThrow t.pending.toList) : Queued t'.nextThrow t'.pending.toList := by
  obtain ⟨watermark, listeners, hrest⟩ := h.rest
  rw [hrest]
  exact hqueued

theorem Firm.of_orderly (ho : Orderly (undisturbed F start) owed t) : Firm F t where
  ids r hr := by
    rw [ho.id_eq (List.mem_append_right _ hr)]
    exact Value.isNumber_int _
  apart := ho.active.imp_of_mem fun {r r'} hr hr' hlt => by
    rw [ho.id_eq (List.mem_append_right _ hr), ho.id_eq (List.mem_append_right _ hr'), same_id,
      decide_eq_false (Nat.ne_of_lt hlt)]
  dice d hd := by
    obtain ⟨r, _, hroll⟩ := ho.dice d hd
    rw [hroll]
    exact Value.isNumber_int _
  watermark := ho.watermark.imp id fun ⟨n, hn⟩ => hn ▸ Value.isNumber_int n
  holds := holds_undisturbed.1 ho.holds
  quiet := ho.quiet

/-- The oldest active roll is canceled, and the others stay active. -/
theorem cancel_oldest_sheds (h : Firm F t) {oldest : Roll} {rest : List Roll}
    (hactive : t.active = oldest :: rest) :
    ∃ t' taken, (cancel announce oldest.id).perform t = (.ok true, t') ∧ Sheds [oldest] taken t t' ∧
      Firm F t' ∧ t'.active = rest := by
  have hmem : oldest ∈ t.active := hactive ▸ List.mem_cons_self ..
  obtain ⟨t', hperform, hsheds, h'⟩ := cancel_sheds h hmem
  refine ⟨t', _, hperform, hsheds, h', ?_⟩
  have hself := (h.ids oldest hmem).same_self
  rw [hsheds.active, hactive, List.filter_cons_of_neg (by simp [hself]), h.filter_others (hactive ▸ .refl _)]

/-- The oldest active rolls are canceled without fail, up to the first point at which the dice fit. -/
theorem makeRoom_sheds (h : Firm F t) (hsound : ∀ r ∈ t.active, r.record.Sound)
    (hneeded : needed ≤ t.config.maxDice) {fuel : Nat} (hfuel : t.active.length < fuel) :
    ∃ t' taken n, (makeRoom announce needed fuel).perform t = (.ok (), t') ∧
      Sheds (t.active.take n) taken t t' ∧ Firm F t' ∧ t'.active = t.active.drop n ∧
      IsLeast {k | Fits needed { t with active := t.active.drop k }} n := by
  induction fuel generalizing t with
  | zero => omega
  | succ fuel ih =>
    rw [makeRoom, Attempt.perform_bind_of_ok (Attempt.perform_get t)]
    cases hactive : t.active with
    | nil =>
      have hfits : Fits needed { t with active := [] } := ⟨0, rfl, by simpa using hneeded⟩
      exact ⟨t, _, 0, rfl, .refl, h, by rw [hactive]; rfl, hfits, fun _ _ => Nat.zero_le _⟩
    | cons oldest rest =>
      obtain ⟨total, htotal, hlt⟩ := lt_total_iff hsound needed
      simp only
      rw [totalDice_eq hsound, Attempt.perform_bind_of_ok (Attempt.perform_lift ..), htotal,
        Attempt.perform_bind_of_ok (Attempt.perform_lift ..)]
      split
      · next hfull =>
        obtain ⟨t₁, taken₁, hcancel, hsheds₁, h₁, hactive₁⟩ := cancel_oldest_sheds h hactive
        have hsame : ∀ rolls, Fits needed { t₁ with active := rolls } ↔
            Fits needed { t with active := rolls } := fun rolls => by
          rw [Fits, Fits, hsheds₁.config]
          rfl
        obtain ⟨t₂, taken₂, n, hmake, hsheds₂, h₂, hactive₂, hfits, hfewest⟩ :=
          ih h₁ (fun r hr => hsound r (hactive ▸ List.mem_cons_of_mem _ (hactive₁ ▸ hr)))
            (hsheds₁.config ▸ hneeded) (by rw [hactive₁]; simpa [hactive] using hfuel)
        rw [hactive₁] at hsheds₂ hactive₂ hfits hfewest
        refine ⟨t₂, _, n + 1, ?_, hsheds₁.trans hsheds₂, h₂, hactive₂, (hsame _).1 hfits, ?_⟩
        · rw [Attempt.perform_bind_of_ok (Attempt.perform_discard_eq_ok.2 ⟨true, hcancel⟩)]
          exact hmake
        · -- The dice do not fit beside all active rolls, and beside fewer it is as it was later.
          rintro (_ | k) hk
          · rw [← hactive] at hk
            exact absurd hk (hlt.1 hfull)
          · exact Nat.succ_le_succ (hfewest ((hsame _).2 hk))
      · next hroom =>
        have hfits : Fits needed t := by simpa using mt hlt.2 hroom
        exact ⟨t, _, 0, rfl, .refl, h, hactive, hactive ▸ hfits, fun _ _ => Nat.zero_le _⟩

/-! ## The history -/

/-- The oldest roll leaves the history if that is too long, and is canceled if it is active. -/
theorem trimHistory_sheds (h : Firm F t) (hlisted : Listed t) :
    ∃ history t' taken, (trimHistory announce).perform t = (.ok (), t') ∧
      t.history = history ++ (dropped? t.config t.history).toList ∧
      Sheds (t.active.filter fun r => (Roll.find? r.id history).isNone) taken { t with history } t' ∧
      Firm F t' := by
  rw [trimHistory, Attempt.perform_bind_of_ok (Attempt.perform_get t), dropped?]
  split
  · have hcut : Firm F { t with history := t.history.dropLast } := { h with }
    have hsplit : t.history = t.history.dropLast ++ t.history.getLast?.toList := by
      rcases t.history.eq_nil_or_concat with hnil | ⟨rest, last, hconcat⟩
      · rw [hnil]
        rfl
      · simp [hconcat]
    obtain ⟨t', hprune, hsheds, h'⟩ := prune_sheds hcut
    refine ⟨_, t', _, ?_, hsplit, hsheds, h'⟩
    rw [Attempt.perform_bind_of_ok (Attempt.perform_set ..)]
    exact hprune
  · refine ⟨t.history, t, fun _ => false, rfl, (List.append_nil _).symm, ?_, h⟩
    rw [List.filter_eq_nil_iff.2 fun r hr => ?_]
    · exact .refl
    · rw [Option.isNone_iff_eq_none, Roll.find?, List.find?_eq_none]
      exact fun hnone => hnone r (hlisted r hr) (h.ids r hr).same_self

/-! ## Setting dice to be thrown -/

theorem draw_perform (c : Chance) : ∃ x chance, Chance.draw.perform c = (.ok x, chance) := by
  rw [Chance.draw, Attempt.perform_of]
  split
  · exact ⟨_, _, rfl⟩
  · exact ⟨_, _, rfl⟩

omit [World ω] in
/-- Dice are set to be thrown without fail. -/
theorem schedule_perform (h : Queued t.nextThrow t.pending.toList) (id : Value) (total index : Nat)
    (delay : Float) (places : List Place) :
    ∃ pending nextThrow chance, (schedule id total index delay places).perform t =
      (.ok (), { t with pending, nextThrow, chance }) := by
  induction places generalizing t index delay with
  | nil => exact ⟨t.pending, t.nextThrow, t.chance, rfl⟩
  | cons place rest ih =>
    let throw : Throw := {
      due := .float (t.clock + delay), roll := id, kind := .text place.kind.name, group := .int place.group
      logical := .int place.logical, tens := .bool place.tens, index := .int index, total := .int total }
    have hdue : ∃ x, throw.due = .float x := ⟨_, rfl⟩
    obtain ⟨pending, hadd, _, hqueued⟩ := addThrow_perform h hdue
    obtain ⟨x, chance, hdraw⟩ := draw_perform t.chance
    have hchance : (withChance Chance.draw).perform { t with pending, nextThrow := t.nextThrow + 1 } =
        (.ok x, { t with pending, nextThrow := t.nextThrow + 1, chance }) := by
      rw [withChance, Attempt.perform_within, hdraw]
    rw [schedule, Attempt.perform_bind_of_ok (Attempt.perform_get t), Attempt.perform_bind_of_ok hadd,
      Attempt.perform_bind_of_ok hchance]
    exact ih (t := { t with pending, nextThrow := t.nextThrow + 1, chance }) hqueued _ _

/-! ## Rolling -/

/-- The tray on which a roll begins, before its history is cut. -/
def begun (t : Tray ω) (r : Roll) : Tray ω :=
  { t with
    nextId := t.nextId + 1, nextSerial := t.nextSerial + 1, active := t.active ++ [r], history := r :: t.history }

omit [World ω] in
theorem mem_begun {r r' : Roll} : r' ∈ (t.begun r).history ++ (t.begun r).active ↔
    r' = r ∨ r' ∈ t.history ++ t.active :=
  mem_added

omit [World ω] in
theorem Listed.begun (h : Listed t) (r : Roll) : Listed (t.begun r) := by
  intro x hx
  rcases List.mem_append.1 hx with hx | hx
  · exact List.mem_cons_of_mem _ (h x hx)
  · exact List.mem_singleton.1 hx ▸ List.mem_cons_self ..

/-- The roll that begins next. -/
def upcoming (t : Tray ω) (formula : String) (compiled : Formula.Compiled) : Roll where
  serial := t.nextSerial
  record := Record.ofCompiled t.nextId formula compiled

omit [World ω] in
theorem register_perform (formula : String) (compiled : Formula.Compiled) (t : Tray ω) :
    (register formula compiled).perform t =
      (.ok (t.upcoming formula compiled), t.begun (t.upcoming formula compiled)) :=
  rfl

/-- What is rolled without fail makes room, begins, is cut from the history if that is too long, and has its
dice set to be thrown, before anybody is told. -/
theorem launch_eq_ok {notify : Notify ω} {formula : String} {compiled : Formula.Compiled} {new : Record}
    (h : (launch notify formula compiled).perform t = (.ok new, t')) :
    ∃ t₁ t₂ t₃, (makeRoom notify compiled.physicalCount (t.active.length + patience)).perform t =
        (.ok (), t₁) ∧
      (trimHistory notify).perform (t₁.begun (t₁.upcoming formula compiled)) = (.ok (), t₂) ∧
      (schedule (.int t₁.nextId) compiled.physicalCount 0 0 (places compiled.terms)).perform t₂ =
        (.ok (), t₃) ∧
      (notify .started new).perform t₃ = (.ok (), t') ∧ new = Record.ofCompiled t₁.nextId formula compiled := by
  rw [launch, Attempt.perform_bind_of_ok (Attempt.perform_get t)] at h
  obtain ⟨_, t₁, hmake, h⟩ := Attempt.perform_bind_eq_ok.1 h
  rw [Attempt.perform_bind_of_ok (register_perform formula compiled t₁)] at h
  obtain ⟨_, t₂, htrim, h⟩ := Attempt.perform_bind_eq_ok.1 h
  obtain ⟨_, t₃, hschedule, h⟩ := Attempt.perform_bind_eq_ok.1 h
  obtain ⟨_, _, htold, h⟩ := Attempt.perform_bind_eq_ok.1 h
  cases h
  exact ⟨t₁, t₂, t₃, hmake, htrim, hschedule, htold, rfl⟩

theorem beginRoll_eq_ok {notify : Notify ω} {compiled : Formula.Compiled} {label : String} {new : Record}
    (h : (beginRoll notify compiled label).perform t = (.ok new, t')) :
    (launch notify (if label = "" then compiled.formula else label) compiled).perform t = (.ok new, t') := by
  rw [beginRoll, Attempt.perform_bind_of_ok (Attempt.perform_get t)] at h
  dsimp only at h
  split at h
  · cases h
  · exact h

/-- An integer above the ids of all rolls. -/
def IsNew (t : Tray ω) (id : Value) : Prop :=
  ∃ n, id = .int n ∧ ∀ r ∈ t.history ++ t.active, ∃ m, r.id = .int m ∧ m < n

namespace Conduct

variable {P : Value → Prop} {I : Tray ω → Prop} {notify : Notify ω} (h : Conduct P I)
  (hn : ∀ event r, P r.id → Keeps I (notify event r))
  (trim : ∀ {t} {history : List Roll}, I t → history.Sublist t.history → I { t with history })

include h hn trim

/-- What is kept where a roll begins is kept where one is rolled. -/
theorem launch (schedule : ∀ id total places, Keeps I (schedule id total 0 0 places)) {formula : String}
    {compiled : Formula.Compiled}
    (begin : ∀ {t}, I t → I (t.begun (t.upcoming formula compiled))) :
    Keeps I (launch notify formula compiled) := by
  refine .get fun t ht => Keeps.bind (h.makeRoom hn _ _) (fun _ t ht => ?_) t ht
  have hbegun := begin ht
  have hid : P (t.upcoming formula compiled).id :=
    h.known hbegun _ (List.mem_append_left _ (List.mem_cons_self ..))
  rw [Attempt.perform_bind_of_ok (register_perform formula compiled t)]
  refine Keeps.bind (keeps_trimHistory trim (h.prune hn)) (fun _ => (schedule _ _ _).bind fun _ => ?_) _ hbegun
  exact (hn .started _ hid).bind fun _ => .pure _

end Conduct

/-- A roll begins whose id no active roll has. -/
theorem Firm.begin (h : Firm F t) {r : Roll} (hid : r.id = .int t.nextId)
    (hnew : ∀ r' ∈ t.active, r'.id.same (.int t.nextId) = false) : Firm F (t.begun r) where
  ids r' hr' := by
    rcases List.mem_append.1 hr' with hr' | hr'
    · exact h.ids r' hr'
    · rw [List.mem_singleton.1 hr', hid]
      exact Value.isNumber_int _
  apart := List.pairwise_append.2 ⟨h.apart, List.pairwise_singleton .., fun r' hr' x hx => by
    rw [List.mem_singleton.1 hx, hid]
    exact hnew r' hr'⟩
  dice := h.dice
  watermark := h.watermark
  holds := h.holds
  quiet := h.quiet

omit [World ω] in
/-- A roll of an id is found where it is the first one. -/
theorem find?_cons_self {r : Roll} (hid : r.id.IsNumber) (rest : List Roll) :
    Roll.find? r.id (r :: rest) = some r :=
  List.find?_cons_of_pos hid.same_self

/-- A roll that just began stays active where another one leaves the history. -/
theorem trimHistory_begun {r : Roll} (h : Firm F (t.begun r))
    (hqueued : Queued t.nextThrow t.pending.toList) :
    ∃ t', (trimHistory announce).perform (t.begun r) = (.ok (), t') ∧
      Queued t'.nextThrow t'.pending.toList ∧ Onlookers t'.listeners ∧
      (1 ≤ t.config.maxHistory → t'.history.head? = some r ∧ r ∈ t'.active) := by
  have hmem : r ∈ (t.begun r).active := List.mem_append_right _ (List.mem_singleton_self r)
  rw [trimHistory, Attempt.perform_bind_of_ok (Attempt.perform_get _)]
  split
  · next hlong =>
    let cut : Tray ω := { t.begun r with history := (t.begun r).history.dropLast }
    have hcut : Firm F cut := { h with }
    obtain ⟨t', hprune, hsheds, h'⟩ := prune_sheds hcut
    refine ⟨t', ?_, hsheds.queued hqueued, h'.quiet, fun hroom => ?_⟩
    · rw [Attempt.perform_bind_of_ok (Attempt.perform_set ..)]
      exact hprune
    · obtain ⟨rest, hrest⟩ : ∃ rest, cut.history = r :: rest := by
        change t.config.maxHistory < ((r :: t.history).length : Int) at hlong
        show ∃ rest, (r :: t.history).dropLast = r :: rest
        cases hhistory : t.history with
        | nil =>
          rw [hhistory] at hlong
          simp at hlong
          omega
        | cons first rest => exact ⟨_, rfl⟩
      refine ⟨by rw [hsheds.history, hrest]; rfl, ?_⟩
      have hfind : cut.find? r.id = some r := by
        rw [Tray.find?, hrest]
        exact find?_cons_self (h.ids r hmem) rest
      rw [hsheds.active]
      refine List.mem_filter.2 ⟨hmem, ?_⟩
      rw [hcut.any_filter (fun r => (cut.find? r.id).isNone) hmem, hfind]
      rfl
  · exact ⟨_, rfl, hqueued, h.quiet, fun _ => ⟨rfl, hmem⟩⟩

/-- A formula that fits on the tray is rolled without fail if no active roll has the next id and listeners
only look on. -/
theorem launch_returns (h : Firm F t) (hsound : ∀ r ∈ t.active, r.record.Sound)
    (hnew : ∀ r ∈ t.active, r.id.same (.int t.nextId) = false)
    (hqueued : Queued t.nextThrow t.pending.toList) (formula : String) {compiled : Formula.Compiled}
    (hfits : compiled.physicalCount ≤ t.config.maxDice) :
    ∃ r t', (launch announce formula compiled).perform t = (.ok r.record, t') ∧
      (1 ≤ t.config.maxHistory → t'.history.head? = some r ∧ r ∈ t'.active) := by
  obtain ⟨t₁, taken₁, n, hmake, hsheds₁, h₁, hactive₁, -⟩ := makeRoom_sheds h hsound hfits
    (Nat.lt_add_of_pos_right (show 0 < patience by decide))
  have hnext : t₁.nextId = t.nextId := hsheds₁.nextId
  let r := t₁.upcoming formula compiled
  have hbegun : Firm F (t₁.begun r) := by
    refine h₁.begin rfl fun r' hr' => ?_
    rw [hactive₁] at hr'
    exact hnext ▸ hnew r' (List.mem_of_mem_drop hr')
  obtain ⟨t₂, htrim, hqueued₂, hquiet₂, hstays⟩ := trimHistory_begun hbegun (hsheds₁.queued hqueued)
  obtain ⟨pending, nextThrow, chance, hschedule⟩ :=
    schedule_perform hqueued₂ r.id compiled.physicalCount 0 0 (places compiled.terms)
  obtain ⟨listeners, notices, -, -, hannounce⟩ := announce_onlookers
    (t := { t₂ with pending, nextThrow, chance }) .started r.record hquiet₂
  have hperform : (launch announce formula compiled).perform t = (.ok r.record, { t₂ with
      pending, nextThrow, chance, listeners
      journal := t₂.journal ++ [.happened .started r.id r.record.result] ++ notices }) := by
    rw [launch, Attempt.perform_bind_of_ok (Attempt.perform_get t), Attempt.perform_bind_of_ok hmake,
      Attempt.perform_bind_of_ok (register_perform formula compiled t₁),
      Attempt.perform_bind_of_ok htrim, Attempt.perform_bind_of_ok hschedule,
      Attempt.perform_bind_of_ok hannounce]
    rfl
  exact ⟨r, _, hperform, fun hroom => hstays (hsheds₁.config ▸ hroom)⟩

/-- A roll begins. The only other one that can be canceled then is the one that leaves the history. -/
theorem begun_sheds (h : Intact F start t) {r : Roll}
    (serial : r.serial = t.nextSerial) (id : r.record.id = .int t.nextId) (sound : r.record.Sound)
    (unresolved : r.record.resolved = false) :
    ∃ t' taken, (trimHistory announce).perform (t.begun r) = (.ok (), t') ∧
      r :: t.history = t'.history ++ (dropped? t.config (r :: t.history)).toList ∧
      (∀ x ∈ r :: t.history, t'.find? x.id = some x ∨ dropped? t.config (r :: t.history) = some x) ∧
      Sheds ((t.active ++ [r]).filter fun x => (t'.find? x.id).isNone) taken
        { t.begun r with history := t'.history } t' ∧
      t'.active = (t.active ++ [r]).filter (fun x => (t'.find? x.id).isSome) ∧ Firm F t' := by
  obtain ⟨owed, ho⟩ := h.orderly
  have ho' : Orderly (undisturbed F start) _ (t.begun r) := ho.begin serial id sound unresolved
  obtain ⟨history, t', taken, htrim, hsplit, hsheds, h'⟩ :=
    trimHistory_sheds (Firm.of_orderly ho') (h.listed.begun r)
  obtain rfl : t'.history = history := hsheds.history
  change r :: t.history = _ at hsplit
  have hsublist : t'.history.Sublist (t.begun r).history := by
    show t'.history.Sublist (r :: t.history)
    rw [hsplit]
    exact List.sublist_append_left ..
  have hcut := ho'.trim hsublist
  refine ⟨t', taken, htrim, hsplit, fun x hx => ?_, hsheds, ?_, h'⟩
  · rw [hsplit] at hx
    rcases List.mem_append.1 hx with hx | hx
    · have hfind := find?_of_mem hcut hx
      rw [← hcut.id_eq (List.mem_append_left _ hx)] at hfind
      exact .inl hfind
    · exact .inr (Option.mem_toList.1 hx)
  · rw [hsheds.active]
    refine List.filter_congr fun x hx => ?_
    rw [(Firm.of_orderly hcut).any_filter _ hx]
    simp [Tray.find?]

/-- What is told of a roll that starts is not told of one that was canceled. -/
theorem canceledIn_started (journal : List Notice) (id : Value) (result : Value) {notices : List Notice}
    (h : ∀ notice ∈ notices, notice.Passing) :
    canceledIn (journal ++ [.happened .started id result] ++ notices) = canceledIn journal := by
  rw [canceledIn, List.filterMap_append, List.filterMap_append]
  refine (congrArg _ (canceledIn_passing h)).trans ?_
  simp [canceledIn]

theorem launch_takesIn {source : String} {compiled : Formula.Compiled} (formula : String)
    (hcompiled : Formula.compile source = .ok compiled) (h : Intact F start t)
    (hqueued : Queued t.nextThrow t.pending.toList) (hneeded : compiled.physicalCount ≤ t.config.maxDice) :
    ∃ r n t', (launch announce formula compiled).perform t = (.ok r.record, t') ∧
      r.record = Record.ofCompiled t.nextId formula compiled ∧
      TakesIn compiled.physicalCount r n t t' := by
  obtain ⟨owed, ho⟩ := h.orderly
  have hsound : ∀ r ∈ t.active, r.record.Sound := fun r hr => ho.sound r (List.mem_append_right _ hr)
  obtain ⟨t₁, taken₁, n, hmake, hsheds₁, -, hactive₁, hfewest⟩ := makeRoom_sheds (Firm.of_orderly ho) hsound
    hneeded (Nat.lt_add_of_pos_right (show 0 < patience by decide))
  have h₁ : Intact F start t₁ := by
    have hkept := Intact.keeps_of_open (fun _ _ => makeRoom_does heeds_undisturbed compiled.physicalCount _)
      (upkeep_open.makeRoom Open.announce _ (t.active.length + patience)) t h
    rwa [hmake] at hkept
  let r : Roll := { serial := t₁.nextSerial, record := Record.ofCompiled t₁.nextId formula compiled }
  have hregister : (register formula compiled).perform t₁ = (.ok r, t₁.begun r) := rfl
  obtain ⟨t₂, taken₂, htrim, hhistory, hfound, hsheds₂, hactive₂, h₂⟩ := begun_sheds h₁ (r := r) rfl rfl
    (sound_ofCompiled hcompiled t₁.nextId formula) rfl
  obtain ⟨pending, nextThrow, chance, hschedule⟩ := schedule_perform
    (hsheds₂.queued (t := { t₁.begun r with history := t₂.history }) (hsheds₁.queued hqueued)) r.id
    compiled.physicalCount 0 0 (places compiled.terms)
  obtain ⟨listeners, notices, hquiet, hpassing, hannounce⟩ := announce_onlookers
    (t := { t₂ with pending, nextThrow, chance }) .started r.record h₂.quiet
  have hperform : (launch announce formula compiled).perform t = (.ok r.record, { t₂ with
      pending, nextThrow, chance, listeners
      journal := t₂.journal ++ [.happened .started r.id r.record.result] ++ notices }) := by
    rw [launch, Attempt.perform_bind_of_ok (Attempt.perform_get t), Attempt.perform_bind_of_ok hmake,
      Attempt.perform_bind_of_ok hregister, Attempt.perform_bind_of_ok htrim,
      Attempt.perform_bind_of_ok hschedule, Attempt.perform_bind_of_ok hannounce]
    rfl
  have hid : t₁.nextId = t.nextId := hsheds₁.nextId
  refine ⟨r, n, _, hperform, congrArg (Record.ofCompiled · formula compiled) hid, ?_⟩
  rw [hsheds₁.history, hsheds₁.config] at hhistory hfound
  rw [hactive₁] at hactive₂ hsheds₂
  refine { fewest := hfewest, history := hhistory, active := hactive₂, canceled := ?_
           found := fun x hx => hfound x (h.listed.begun r x hx) }
  refine (canceledIn_started t₂.journal _ _ hpassing).trans ?_
  rw [hsheds₂.canceled, List.map_append, ← List.append_assoc]
  exact congrArg (· ++ _) hsheds₁.canceled

theorem fault_of_writeInt {n : Int} {fault : Fault} (h : Num.writeInt n = .error fault) :
    fault = .unreadable := by
  unfold Num.writeInt at h
  split at h <;> cases h
  rfl

/-- A refusal tells of too little room if both numbers can be written. -/
theorem refusal_eq_capacity_iff (formula : String) (needed capacity : Int) :
    (∃ reason, refusal formula needed capacity = .capacity reason) ↔
      (∃ text, Num.writeInt needed = .ok text) ∧ ∃ text, Num.writeInt capacity = .ok text := by
  unfold refusal
  constructor
  · rintro ⟨reason, hreason⟩
    split at hreason
    · next text text' hneeded hcapacity => exact ⟨⟨text, hneeded⟩, text', hcapacity⟩
    · next fault _ hcapacity => cases (fault_of_writeInt hcapacity).symm.trans hreason
    · next fault hneeded => cases (fault_of_writeInt hneeded).symm.trans hreason
  · rintro ⟨⟨text, hneeded⟩, text', hcapacity⟩
    exact ⟨_, by rw [hneeded, hcapacity]⟩

/-- A formula is refused if it alone needs more dice than the tray holds, which leaves the tray as it is. The
refusal says so, unless one of the two numbers is too long to be written. Any other formula is rolled, and as
few of the oldest active rolls make way for it as can be. -/
theorem admitted_of_undisturbed {t₀ : Tray ω} (fresh : Fresh t₀) (holds : F.holds t₀.world [])
    (quiet : Onlookers t₀.listeners) (run : Undisturbed F t₀ t) {source : String}
    {compiled : Formula.Compiled} (hcompiled : Formula.compile source = .ok compiled) (label : String) :
    ((∃ reason, ((beginRoll announce compiled label).perform t).1 = .error (.capacity reason)) ↔
      t.config.maxDice < compiled.physicalCount ∧ (∃ text, Num.writeInt compiled.physicalCount = .ok text) ∧
        ∃ text, Num.writeInt t.config.maxDice = .ok text) ∧
    (t.config.maxDice < compiled.physicalCount →
      ∃ fault, (beginRoll announce compiled label).perform t = (.error fault, t)) ∧
    (compiled.physicalCount ≤ t.config.maxDice →
      ∃ r n t', (beginRoll announce compiled label).perform t = (.ok r.record, t') ∧
        r.record = Record.ofCompiled t.nextId (if label = "" then compiled.formula else label) compiled ∧
        TakesIn compiled.physicalCount r n t t') := by
  have h := run.intact (fresh.intact holds quiet)
  have hqueued := (run.shaped fresh.shaped).queued
  have hrefused (hfull : t.config.maxDice < compiled.physicalCount) :
      (beginRoll announce compiled label).perform t = (.error (refusal
        (if label = "" then compiled.formula else label) compiled.physicalCount t.config.maxDice), t) := by
    rw [beginRoll, Attempt.perform_bind_of_ok (Attempt.perform_get t), if_pos hfull]
    rfl
  have hlaunched (hroom : compiled.physicalCount ≤ t.config.maxDice) :
      (beginRoll announce compiled label).perform t =
        (launch announce (if label = "" then compiled.formula else label) compiled).perform t := by
    rw [beginRoll, Attempt.perform_bind_of_ok (Attempt.perform_get t), if_neg (Int.not_lt.2 hroom)]
  have htaken (hroom : compiled.physicalCount ≤ t.config.maxDice) :=
    hlaunched hroom ▸ launch_takesIn _ hcompiled h hqueued hroom
  refine ⟨?_, fun hfull => ⟨_, hrefused hfull⟩, htaken⟩
  rcases lt_or_ge t.config.maxDice (compiled.physicalCount : Int) with hfull | hroom
  · rw [hrefused hfull, and_iff_right hfull, ← refusal_eq_capacity_iff
      (if label = "" then compiled.formula else label) _ t.config.maxDice]
    simp only [Except.error.injEq]
  · obtain ⟨r, n, t', hperform, -⟩ := htaken hroom
    refine iff_of_false ?_ fun h => absurd h.1 (not_lt.2 hroom)
    rintro ⟨reason, hreason⟩
    rw [hperform] at hreason
    cases hreason

/-- An empty tray for four dice and two records. -/
def narrow : Tray ScriptedWorld :=
  { vacant with config := { maxDice := 4, maxHistory := 2 } }

theorem fresh_narrow : Fresh narrow := ⟨rfl, rfl, rfl, rfl, rfl, rfl, rfl⟩

/-- A roll of two dice makes way for a third roll, and leaves the history as well. The die of the second roll
counts twice. -/
theorem admitted_after_percentile :
    ∃ t compiled r n t', performAll announce [.roll "2d6", .roll "d100"] narrow = some t ∧
      Formula.compile "d6" = .ok compiled ∧
      (beginRoll announce compiled "").perform t = (.ok r.record, t') ∧
      (t.active.length, t'.active.length, (canceledIn t'.journal).length) = (2, 2, 1) ∧
      TakesIn compiled.physicalCount r n t t' := by
  have hrun : ((performAll announce [.roll "2d6", .roll "d100"] narrow).bind fun t =>
      (Formula.compile "d6").toOption.map fun compiled =>
        (decide (compiled.physicalCount ≤ t.config.maxDice),
          t.active.length, ((beginRoll announce compiled "").perform t).2.active.length,
          (canceledIn ((beginRoll announce compiled "").perform t).2.journal).length)) =
      some (true, 2, 2, 1) := by
    decide +kernel
  obtain ⟨t, ht, hrun⟩ := Option.bind_eq_some_iff.1 hrun
  obtain ⟨compiled, hcompiled, hrun⟩ := Option.map_eq_some_iff.1 hrun
  rw [toOption_eq_some] at hcompiled
  obtain ⟨hroom, hlengths⟩ := Prod.mk.inj hrun
  obtain ⟨-, -, hadmitted⟩ := admitted_of_undisturbed (F := ScriptedWorld.footing) fresh_narrow
    (ScriptedWorld.bears_nil _) onlookers_vacant (undisturbed_of_performAll ht) hcompiled ""
  obtain ⟨r, n, t', hperform, _, htakes⟩ := hadmitted (of_decide_eq_true hroom)
  rw [hperform] at hlengths
  exact ⟨t, compiled, r, n, t', ht, hcompiled, hperform, hlengths, htakes⟩

end RollTray.Tray
