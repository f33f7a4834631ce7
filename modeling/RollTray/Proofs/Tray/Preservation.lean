import Mathlib.Data.List.Forall2
import Mathlib.Data.List.Pairwise
import RollTray.Proofs.Tray.Change

/-!
# Orderly trays stay orderly

Each change of a tray keeps it orderly (`Change.orderly`), so any number of them do
(`Trace.orderly`). Where sites are counted each has to keep the sites of active rolls accounted for: a
die that is set to be thrown takes its site from those that are owed, one that is thrown takes it
from those that wait.
-/

namespace RollTray.Tray

variable {ω : Type} {t : Tray ω}

/-! ## Lists side by side -/

theorem forall₂_exists_left {α β : Type} {R : α → β → Prop} {as : List α} {bs : List β}
    (h : List.Forall₂ R as bs) {b : β} (hb : b ∈ bs) : ∃ a ∈ as, R a b := by
  induction h with
  | nil => nomatch hb
  | cons hr _ ih =>
    rcases List.mem_cons.1 hb with rfl | hb
    · exact ⟨_, List.mem_cons_self .., hr⟩
    · obtain ⟨a, ha, h⟩ := ih hb
      exact ⟨a, List.mem_cons_of_mem _ ha, h⟩

theorem forall₂_exists_right {α β : Type} {R : α → β → Prop} {as : List α} {bs : List β}
    (h : List.Forall₂ R as bs) {a : α} (ha : a ∈ as) : ∃ b ∈ bs, R a b :=
  forall₂_exists_left h.flip ha

theorem forall₂_trans {α β γ : Type} {R : α → β → Prop} {R' : β → γ → Prop} {R'' : α → γ → Prop}
    (h : ∀ a b c, R a b → R' b c → R'' a c) {as : List α} {bs : List β} {cs : List γ}
    (first : List.Forall₂ R as bs) (second : List.Forall₂ R' bs cs) : List.Forall₂ R'' as cs := by
  induction first generalizing cs with
  | nil =>
    cases second
    exact .nil
  | cons hr _ ih =>
    cases second with
    | cons hr' second => exact .cons (h _ _ _ hr hr') (ih second)

/-! ## Dice and throws of a roll -/

/-- Dice of one roll among those that stay. -/
theorem filter_diceOf (t : Tray ω) (stays : Die → Bool) (id : Value) :
    (t.dice.filter stays).filter (fun d => d.roll.same id) = (t.diceOf id).filter stays :=
  List.filter_comm _ _ _

theorem throwsIn_perm {pending pending' : Array (Nat × Throw)} {throw : Throw} {order : Nat}
    (perm : pending.toList.Perm ((order, throw) :: pending'.toList)) (id : Value) :
    (throwsIn pending id).Perm
      ((if throw.roll.same id then [throw] else []) ++ throwsIn pending' id) := by
  refine ((perm.map Prod.snd).filter _).trans ?_
  rw [List.map_cons, List.filter_cons]
  split <;> exact List.Perm.refl _

/-- A die that waits, in an order of throws. -/
theorem mem_pending {pending pending' : Array (Nat × Throw)} {throw : Throw} {order : Nat}
    (perm : pending.toList.Perm ((order, throw) :: pending'.toList)) (throw' : Throw) :
    throw' ∈ pending.toList.map Prod.snd ↔
      throw' = throw ∨ throw' ∈ pending'.toList.map Prod.snd := by
  rw [(perm.map Prod.snd).mem_iff, List.map_cons, List.mem_cons]

/-- The rolls after one was added. -/
theorem mem_added {r r' : Roll} {history active : List Roll} :
    r' ∈ (r :: history) ++ (active ++ [r]) ↔ r' = r ∨ r' ∈ history ++ active := by
  simp only [List.mem_append, List.mem_cons, List.not_mem_nil, or_false]
  tauto

theorem mem_filter_serial {serial : Nat} {rolls : List Roll} {r : Roll} :
    r ∈ rolls.filter (fun r' => r'.serial != serial) ↔ r ∈ rolls ∧ r.serial ≠ serial := by
  simp

variable [World ω] {S : Setting ω} {owed : Owed}

namespace Orderly

theorem serial_lt (ho : Orderly S owed t) {r : Roll} (hr : r ∈ t.active) :
    r.serial < t.nextSerial :=
  (ho.issued r (List.mem_append_right _ hr)).1

theorem id_eq (ho : Orderly S owed t) {r : Roll} (hr : r ∈ t.history ++ t.active) :
    r.id = S.id r.serial :=
  (ho.issued r hr).2

/-- A roll that is not active has no dice. -/
theorem diceOf_eq_nil (ho : Orderly S owed t) {serial : Nat}
    (h : ∀ r ∈ t.active, r.serial ≠ serial) : t.diceOf (S.id serial) = [] := by
  refine List.filter_eq_nil_iff.2 fun d hd hsame => ?_
  obtain ⟨r, hr, hroll⟩ := ho.dice d hd
  rw [hroll, same_id, decide_eq_true_iff] at hsame
  exact h r hr hsame

end Orderly

/-- A roll that has not begun waits for no dice. -/
theorem Orderly.throwsOf_eq_nil (ho : Orderly S owed t) {serial : Nat}
    (h : t.nextSerial ≤ serial) : t.throwsOf (S.id serial) = [] := by
  refine List.filter_eq_nil_iff.2 fun throw hthrow hsame => ?_
  obtain ⟨k, hk, hroll⟩ := ho.pending throw hthrow
  rw [hroll, same_id, decide_eq_true_iff] at hsame
  omega

/-! ## Around the dice -/

theorem Orderly.around (ho : Orderly S owed t) (world : ω) (chance : Chance) (clock : Float)
    (formula : String) (nextThrow : Nat) (listeners : Event → List Listener) (journal : List Notice)
    (holds : S.Holds world (t.dice.map Die.handle)) (quiet : S.quiet listeners) :
    Orderly S owed { t with world, chance, clock, formula, nextThrow, listeners, journal } :=
  { ho with
    holds, quiet
    accounted := fun hcounted => { ho.accounted hcounted with } }

theorem Orderly.mark (ho : Orderly S owed t) (empty : S.Counted → t.active = []) :
    Orderly S owed { t with watermark := .int (t.nextId - 1) } := by
  refine { ho with
    watermark := .inr ⟨_, rfl⟩
    accounted := fun hcounted => { ho.accounted hcounted with watermark := fun n hn => ?_ } }
  cases hn
  refine ⟨by dsimp only; omega, fun r hr => ?_⟩
  rw [empty hcounted] at hr
  nomatch hr

/-! ## Rolls that come and go -/

theorem Orderly.trim (ho : Orderly S owed t) {history : List Roll} (h : history.Sublist t.history) :
    Orderly S owed { t with history } :=
  have hsub : history ++ t.active ⊆ t.history ++ t.active := (h.append_right _).subset
  { ho with
    issued := fun r hr => ho.issued r (hsub hr)
    sound := fun r hr => ho.sound r (hsub hr)
    history := ho.history.sublist h
    agree := fun r hr => ho.agree r (h.subset hr)
    accounted := fun hcounted =>
      { ho.accounted hcounted with
        resolved := fun r hr => (ho.accounted hcounted).resolved r (hsub hr) } }

theorem Accounted.begin (ho : Orderly S owed t) (hcounted : S.Counted) {r : Roll}
    (serial : r.serial = t.nextSerial) (unresolved : r.record.resolved = false) :
    Accounted S (Function.update owed r.serial r.record.sites)
      { t with nextId := t.nextId + 1, nextSerial := t.nextSerial + 1, active := t.active ++ [r],
               history := r :: t.history } := by
  have ha := ho.accounted hcounted
  have hnext := ho.nextId
  have hlt : ∀ r' ∈ t.history ++ t.active, r'.serial < r.serial := fun r' hr' =>
    serial ▸ (ho.issued r' hr').1
  have howed : ∀ k, k ≠ r.serial → Function.update owed r.serial r.record.sites k = owed k :=
    fun k hk => Function.update_of_ne hk ..
  refine { watermark := ?_, sites := ?_, resolved := ?_ }
  · intro n hn
    obtain ⟨hid, hactive⟩ := ha.watermark n hn
    refine ⟨by dsimp only; omega, fun r' hr' => ?_⟩
    rcases List.mem_append.1 hr' with hr' | hr'
    · exact hactive r' hr'
    · rw [List.mem_singleton.1 hr', serial, ← hnext]
      exact hid
  · intro r' hr'
    rcases List.mem_append.1 hr' with hr' | hr'
    · rw [howed _ (Nat.ne_of_lt (hlt r' (List.mem_append_right _ hr')))]
      exact ha.sites r' hr'
    · rw [List.mem_singleton.1 hr', Function.update_self]
      have hdice : t.diceOf (S.id r.serial) = [] := ho.diceOf_eq_nil fun r'' hr'' =>
        Nat.ne_of_lt (hlt r'' (List.mem_append_right _ hr''))
      have hthrows : t.throwsOf (S.id r.serial) = [] :=
        ho.throwsOf_eq_nil (Nat.le_of_eq serial.symm)
      show ((t.diceOf _).map _ ++ (t.throwsOf _).map _ ++ _).Perm _
      rw [hdice, hthrows]
      exact List.Perm.refl _
  · intro r' hr' hresolved
    rcases mem_added.1 hr' with rfl | hr'
    · rw [unresolved] at hresolved
      cases hresolved
    · rw [howed _ (Nat.ne_of_lt (hlt r' hr'))]
      exact ha.resolved r' hr' hresolved

theorem Orderly.begin (ho : Orderly S owed t) {r : Roll} (serial : r.serial = t.nextSerial)
    (id : r.record.id = .int t.nextId) (sound : r.record.Sound)
    (unresolved : r.record.resolved = false) :
    Orderly S (Function.update owed r.serial r.record.sites)
      { t with nextId := t.nextId + 1, nextSerial := t.nextSerial + 1, active := t.active ++ [r],
               history := r :: t.history } := by
  have hlt : ∀ r' ∈ t.history ++ t.active, r'.serial < r.serial := fun r' hr' =>
    serial ▸ (ho.issued r' hr').1
  have hnext := ho.nextId
  refine { ho with
    nextId := by dsimp only; omega
    issued := ?_, sound := ?_, history := ?_, active := ?_, agree := ?_, pending := ?_, dice := ?_
    unused := ?_
    accounted := fun hcounted => Accounted.begin ho hcounted serial unresolved }
  · intro r' hr'
    rcases mem_added.1 hr' with rfl | hr'
    · refine ⟨serial ▸ Nat.lt_succ_self _, ?_⟩
      rw [id, hnext, Setting.id, serial]
    · exact ⟨Nat.lt_succ_of_lt (ho.issued r' hr').1, (ho.issued r' hr').2⟩
  · intro r' hr'
    rcases mem_added.1 hr' with rfl | hr'
    · exact sound
    · exact ho.sound r' hr'
  · exact List.pairwise_cons.2 ⟨fun r' hr' => hlt r' (List.mem_append_left _ hr'), ho.history⟩
  · refine List.pairwise_append.2 ⟨ho.active, List.pairwise_singleton _ _, fun r' hr' r'' hr'' => ?_⟩
    rw [List.mem_singleton.1 hr'']
    exact hlt r' (List.mem_append_right _ hr')
  · intro r' hr' r'' hr'' heq
    rcases List.mem_cons.1 hr' with rfl | hr' <;>
      rcases List.mem_append.1 hr'' with hr'' | hr''
    · have := hlt r'' (List.mem_append_right _ hr'')
      omega
    · exact (List.mem_singleton.1 hr'').symm
    · exact ho.agree r' hr' r'' hr'' heq
    · have := hlt r' (List.mem_append_left _ hr')
      rw [List.mem_singleton.1 hr''] at heq
      omega
  · intro throw hthrow
    obtain ⟨k, hk, hroll⟩ := ho.pending throw hthrow
    exact ⟨k, Nat.lt_succ_of_lt hk, hroll⟩
  · intro d hd
    obtain ⟨r', hr', hroll⟩ := ho.dice d hd
    exact ⟨r', List.mem_append_left _ hr', hroll⟩
  · intro k hk
    dsimp only at hk
    rw [Function.update_of_ne (by omega)]
    exact ho.unused k (by omega)

/-- The other rolls keep their dice when one is canceled. -/
theorem Orderly.diceOf_canceled (ho : Orderly S owed t) {serial k : Nat} (hne : k ≠ serial) :
    (t.dice.filter fun d => !d.roll.same (S.id serial)).filter (fun d => d.roll.same (S.id k)) =
      t.diceOf (S.id k) := by
  rw [filter_diceOf]
  refine List.filter_eq_self.2 fun d hd => ?_
  obtain ⟨hd, hroll⟩ := List.mem_filter.1 hd
  obtain ⟨r, _, hd⟩ := ho.dice d hd
  rw [hd, same_id, decide_eq_true_iff] at hroll
  rw [hd, same_id, hroll]
  simp [hne]

omit [World ω] in
/-- A watermark that is not set counts as zero. -/
theorem eq_of_orZero {watermark : Value} (h : watermark = .null ∨ ∃ m, watermark = .int m) {m : Int}
    (hm : watermark.orZero = .int m) : m = 0 ∨ watermark = .int m := by
  rcases h with rfl | ⟨k, rfl⟩
  · exact .inl (Value.int.inj hm).symm
  · rw [Value.orZero_int] at hm
    exact .inr hm

/-- The watermark after a roll is canceled is below the rolls that stay. -/
theorem Accounted.watermark_canceled (ho : Orderly S owed t) (hcounted : S.Counted) {r : Roll}
    (mem : r ∈ t.active) {m : Int} (hm : t.watermark.orZero = .int m) :
    max (S.start + r.serial) m < t.nextId ∧
      ∀ r' ∈ t.active, r.serial < r'.serial → max (S.start + r.serial) m < S.start + r'.serial := by
  have hstart := hcounted.2
  have hid := ho.nextId
  have hr := ho.serial_lt mem
  rcases eq_of_orZero ho.watermark hm with rfl | hm
  · exact ⟨by omega, fun r' _ hlt => by omega⟩
  · obtain ⟨hlow, hactive⟩ := (ho.accounted hcounted).watermark m hm
    refine ⟨by omega, fun r' hr' hlt => ?_⟩
    have := hactive r' hr'
    omega

theorem Orderly.cancel (ho : Orderly S owed t) {r : Roll} (mem : r ∈ t.active) {watermark : Value}
    {world : ω}
    (mark : Lifts S t r watermark)
    (holds : S.Holds world
      ((t.dice.filter fun d => !d.roll.same (S.id r.serial)).map Die.handle)) :
    Orderly S owed { t with
      active := t.active.filter fun r' => r'.serial != r.serial, watermark, world
      dice := t.dice.filter fun d => !d.roll.same (S.id r.serial) } := by
  have hsub : t.history ++ t.active.filter (fun r' => r'.serial != r.serial) ⊆
      t.history ++ t.active := (List.filter_sublist.append_left _).subset
  refine { ho with
    issued := fun r' hr' => ho.issued r' (hsub hr')
    sound := fun r' hr' => ho.sound r' (hsub hr')
    active := ho.active.filter _
    agree := fun r' hr' r'' hr'' => ho.agree r' hr' r'' (mem_filter_serial.1 hr'').1
    watermark := ?_, dice := ?_, holds
    accounted := fun hcounted =>
      { ho.accounted hcounted with
        watermark := fun n hn => ?_, sites := ?_
        resolved := fun r' hr' => (ho.accounted hcounted).resolved r' (hsub hr') } }
  · rcases mark with ⟨rfl, _⟩ | ⟨m, _, rfl, _⟩
    · exact ho.watermark
    · exact .inr ⟨_, rfl⟩
  · intro d hd
    obtain ⟨hd, hroll⟩ := List.mem_filter.1 hd
    obtain ⟨r', hr', hd⟩ := ho.dice d hd
    refine ⟨r', mem_filter_serial.2 ⟨hr', fun heq => ?_⟩, hd⟩
    rw [hd, same_id, heq] at hroll
    simp at hroll
  · rcases mark with ⟨rfl, _⟩ | ⟨m, hm, rfl, hfirst⟩
    · obtain ⟨hlow, hactive⟩ := (ho.accounted hcounted).watermark n hn
      exact ⟨hlow, fun r' hr' => hactive r' (mem_filter_serial.1 hr').1⟩
    · obtain ⟨hlow, hactive⟩ := Accounted.watermark_canceled ho hcounted mem hm
      cases hn
      refine ⟨hlow, fun r' hr' => ?_⟩
      obtain ⟨hr', hne⟩ := mem_filter_serial.1 hr'
      exact hactive r' hr' (hfirst r' hr' hne)
  · intro r' hr'
    obtain ⟨hr', hne⟩ := mem_filter_serial.1 hr'
    show ((List.filter _ _).map Die.site ++ (t.throwsOf _).map _ ++ _).Perm _
    rw [ho.diceOf_canceled hne]
    exact (ho.accounted hcounted).sites r' hr'

theorem Orderly.remove (ho : Orderly S owed t) (taken : Die → Bool) {world : ω}
    (none : S.Exact → ∀ d ∈ t.dice, taken d = false)
    (holds : S.Holds world ((t.dice.filter fun d => !taken d).map Die.handle)) :
    Orderly S owed { t with world, dice := t.dice.filter fun d => !taken d } := by
  refine { ho with
    dice := fun d hd => ho.dice d (List.mem_filter.1 hd).1, holds
    accounted := fun hcounted => ?_ }
  have hall : t.dice.filter (fun d => !taken d) = t.dice :=
    List.filter_eq_self.2 fun d hd => by rw [none hcounted.1 d hd]; rfl
  rw [hall]
  exact { ho.accounted hcounted with }

/-! ## Dice that are added and thrown -/

/-- What is said of each die of a roll, on the tray and waiting. -/
def heldOf {β : Type} (ofDie : Die → β) (ofThrow : Throw → β) (t : Tray ω) (id : Value) : List β :=
  (t.diceOf id).map ofDie ++ (t.throwsOf id).map ofThrow

section Held

variable {β : Type} {ofDie : Die → β} {ofThrow : Throw → β}

/-- A die that is set to be thrown takes what is said of it from what is owed. -/
theorem heldOf_push {owing : Nat → List β} {throw : Throw} {order serial : Nat} {rest : List β}
    {pending : Array (Nat × Throw)} (roll : throw.roll = S.id serial)
    (owes : owing serial = ofThrow throw :: rest)
    (perm : pending.toList.Perm ((order, throw) :: t.pending.toList)) (k : Nat) :
    (heldOf ofDie ofThrow { t with pending } (S.id k) ++ Function.update owing serial rest k).Perm
      (t.heldOf ofDie ofThrow (S.id k) ++ owing k) := by
  have hthrows := (throwsIn_perm perm (S.id k)).map ofThrow
  show ((t.diceOf _).map _ ++ (throwsIn pending _).map _ ++ _).Perm _
  by_cases hserial : k = serial
  · subst hserial
    rw [roll, same_id, decide_eq_true rfl, if_pos rfl] at hthrows
    rw [Function.update_self, owes]
    refine ((hthrows.append_left _).append_right rest).trans ?_
    exact (List.perm_middle.append_right rest).trans List.perm_middle.symm
  · rw [roll, same_id, decide_eq_false (Ne.symm hserial)] at hthrows
    rw [Function.update_of_ne hserial]
    exact (hthrows.append_left _).append_right _

omit [World ω] in
/-- A die that is thrown takes what is said of it from those that wait. -/
theorem heldOf_throw {throw : Throw} {order : Nat} {pending : Array (Nat × Throw)} {d : Die}
    (perm : t.pending.toList.Perm ((order, throw) :: pending.toList)) (sameRoll : d.roll = throw.roll)
    (same : ofDie d = ofThrow throw) (id : Value) :
    (heldOf ofDie ofThrow { t with pending, dice := t.dice ++ [d] } id).Perm
      (t.heldOf ofDie ofThrow id) := by
  have hthrow := (throwsIn_perm perm id).map ofThrow
  show ((List.filter _ (t.dice ++ [d])).map ofDie ++ List.map _ _).Perm _
  rw [List.filter_append, List.map_append, List.append_assoc]
  refine List.Perm.append_left _ (List.Perm.trans ?_ hthrow.symm)
  rw [List.map_append, List.filter_cons, List.filter_nil, sameRoll]
  split
  · rw [List.map_singleton, List.map_singleton, same]
    exact List.Perm.refl _
  · exact List.Perm.refl _

end Held

/-- A die that is set to be thrown takes its site from those that are owed. -/
theorem sitesOf_push {throw : Throw} {order serial : Nat} {rest : List Site}
    {pending : Array (Nat × Throw)} (roll : throw.roll = S.id serial)
    (owes : owed serial = throw.site :: rest)
    (perm : pending.toList.Perm ((order, throw) :: t.pending.toList)) (k : Nat) :
    (sitesOf { t with pending } (S.id k) ++ Function.update owed serial rest k).Perm
      (t.sitesOf (S.id k) ++ owed k) :=
  heldOf_push roll owes perm k

theorem Accounted.push (ha : Accounted S owed t) {throw : Throw} {order serial : Nat}
    {rest : List Site} {pending : Array (Nat × Throw)} (roll : throw.roll = S.id serial)
    (owes : owed serial = throw.site :: rest)
    (perm : pending.toList.Perm ((order, throw) :: t.pending.toList)) :
    Accounted S (Function.update owed serial rest) { t with pending } := by
  refine { ha with sites := ?_, resolved := ?_ }
  · exact fun r hr => (sitesOf_push roll owes perm _).trans (ha.sites r hr)
  · intro r hr hresolved
    obtain ⟨hnone, howed, hanswers⟩ := ha.resolved r hr hresolved
    have hserial : r.serial ≠ serial := by
      rintro rfl
      rw [owes] at howed
      cases howed
    have hthrows := throwsIn_perm perm (S.id r.serial)
    rw [roll, same_id, decide_eq_false hserial.symm] at hthrows
    refine ⟨?_, (Function.update_of_ne hserial ..).trans howed, hanswers⟩
    exact (hthrows.trans (.of_eq hnone)).eq_nil

theorem Orderly.push (ho : Orderly S owed t) {throw : Throw} {order serial : Nat}
    {rest : List Site} {pending : Array (Nat × Throw)} (roll : throw.roll = S.id serial)
    (lt : serial < t.nextSerial) (owes : S.Counted → owed serial = throw.site :: rest)
    (perm : pending.toList.Perm ((order, throw) :: t.pending.toList)) :
    Orderly S (Function.update owed serial rest) { t with pending } := by
  refine { ho with
    pending := fun throw' h => ?_
    unused := fun k hk => ?_
    accounted := fun hcounted => (ho.accounted hcounted).push roll (owes hcounted) perm }
  · rcases (mem_pending perm throw').1 h with rfl | h
    · exact ⟨serial, lt, roll⟩
    · exact ho.pending throw' h
  · dsimp only at hk
    rw [Function.update_of_ne (by omega)]
    exact ho.unused k hk

/-- What becomes of the throws when one of them is taken. -/
theorem Accounted.take (ha : Accounted S owed t) {throw : Throw} {order : Nat}
    {pending : Array (Nat × Throw)}
    (perm : t.pending.toList.Perm ((order, throw) :: pending.toList)) {dice : List Die}
    (sites : ∀ r ∈ t.active, (sitesOf { t with pending, dice } (S.id r.serial)).Perm
      (t.sitesOf (S.id r.serial))) (world : ω) :
    Accounted S owed { t with pending, world, dice } := by
  refine { ha with sites := ?_, resolved := ?_ }
  · exact fun r hr => ((sites r hr).append_right _).trans (ha.sites r hr)
  · intro r hr hresolved
    obtain ⟨hnone, howed, hanswers⟩ := ha.resolved r hr hresolved
    have hthrow := throwsIn_perm perm (S.id r.serial)
    rw [show throwsIn t.pending _ = [] from hnone] at hthrow
    exact ⟨(List.append_eq_nil_iff.1 hthrow.nil_eq.symm).2, howed, hanswers⟩

omit [World ω] in
/-- A die that is thrown takes its site from those that wait. -/
theorem sitesOf_throw {throw : Throw} {order : Nat} {pending : Array (Nat × Throw)} {d : Die}
    (perm : t.pending.toList.Perm ((order, throw) :: pending.toList)) (sameRoll : d.roll = throw.roll)
    (sameSite : d.site = throw.site) (id : Value) :
    (sitesOf { t with pending, dice := t.dice ++ [d] } id).Perm (t.sitesOf id) :=
  heldOf_throw perm sameRoll sameSite id

theorem Orderly.throw (ho : Orderly S owed t) {throw : Throw} {order : Nat}
    {pending : Array (Nat × Throw)} {d : Die} {world : ω} {r : Roll} (active : r ∈ t.active)
    (roll : throw.roll = S.id r.serial)
    (perm : t.pending.toList.Perm ((order, throw) :: pending.toList))
    (sameRoll : d.roll = throw.roll) (sameSite : d.site = throw.site)
    (holds : S.Holds world ((t.dice ++ [d]).map Die.handle)) :
    Orderly S owed { t with pending, world, dice := t.dice ++ [d] } := by
  refine { ho with
    pending := fun throw' h => ho.pending throw' ((mem_pending perm throw').2 (.inr h))
    dice := ?_, holds
    accounted := fun hcounted => (ho.accounted hcounted).take perm
      (fun _ _ => sitesOf_throw perm sameRoll sameSite _) world }
  intro d' hd'
  rcases List.mem_append.1 hd' with hd' | hd'
  · exact ho.dice d' hd'
  · rw [List.mem_singleton.1 hd']
    exact ⟨r, active, sameRoll.trans roll⟩

theorem Orderly.skip (ho : Orderly S owed t) {throw : Throw} {order : Nat}
    {pending : Array (Nat × Throw)}
    (inactive : S.Counted → ∀ r ∈ t.active, throw.roll ≠ S.id r.serial)
    (perm : t.pending.toList.Perm ((order, throw) :: pending.toList)) :
    Orderly S owed { t with pending } := by
  refine { ho with
    pending := fun throw' h => ho.pending throw' ((mem_pending perm throw').2 (.inr h))
    accounted := fun hcounted => (ho.accounted hcounted).take perm (fun r hr => ?_) t.world }
  have hthrow := throwsIn_perm perm (S.id r.serial)
  obtain ⟨serial, _, hroll⟩ := ho.pending throw ((mem_pending perm throw).2 (.inl rfl))
  have hne : serial ≠ r.serial := fun heq => inactive hcounted r hr (by rw [hroll, heq])
  rw [hroll, same_id, decide_eq_false hne] at hthrow
  exact (hthrow.symm.map _).append_left _

/-! ## Dice that are looked at -/

theorem SameDie.filter {dice dice' : List Die} (same : List.Forall₂ SameDie dice dice') (id : Value) :
    List.Forall₂ SameDie (dice.filter fun d => d.roll.same id)
      (dice'.filter fun d => d.roll.same id) := by
  induction same with
  | nil => exact .nil
  | cons h _ ih =>
    rw [List.filter_cons, List.filter_cons, h.roll]
    split
    · exact .cons h ih
    · exact ih

theorem SameDie.map_eq {β : Type} {f : Die → β} (h : ∀ d d', SameDie d d' → f d' = f d)
    {dice dice' : List Die} (same : List.Forall₂ SameDie dice dice') :
    dice'.map f = dice.map f := by
  induction same with
  | nil => rfl
  | cons hd _ ih => rw [List.map_cons, List.map_cons, h _ _ hd, ih]

theorem Orderly.look (ho : Orderly S owed t) {dice : List Die} {world : ω}
    (same : List.Forall₂ SameDie t.dice dice) (holds : S.Holds world (t.dice.map Die.handle)) :
    Orderly S owed { t with dice, world } := by
  refine { ho with
    dice := ?_
    holds := (SameDie.map_eq (fun _ _ h => h.handle) same).symm ▸ holds
    accounted := fun hcounted => { ho.accounted hcounted with sites := fun r hr => ?_ } }
  · intro d' hd'
    obtain ⟨d, hd, hsame⟩ := forall₂_exists_left same hd'
    rw [hsame.roll]
    exact ho.dice d hd
  · have hsites := SameDie.map_eq (fun _ _ h => h.site) (SameDie.filter same (S.id r.serial))
    show (List.map _ (List.filter _ dice) ++ _ ++ _).Perm _
    rw [hsites]
    exact (ho.accounted hcounted).sites r hr

/-! ## Records that are written -/

omit [World ω] in
theorem eq_of_serial {rolls : List Roll} (h : rolls.Pairwise fun r r' => r.serial ≠ r'.serial)
    {r r' : Roll} (hr : r ∈ rolls) (hr' : r' ∈ rolls) (heq : r.serial = r'.serial) : r = r' := by
  by_contra hne
  have : Std.Symm fun r r' : Roll => r.serial ≠ r'.serial := ⟨fun _ _ => Ne.symm⟩
  exact h.forall hr hr' hne heq

theorem id_inj {a b : Nat} (h : S.id a = S.id b) : a = b := by
  have := Value.int.inj h
  omega

namespace Orderly

/-- Rolls of one serial number are one roll. -/
theorem eq_of_serial (ho : Orderly S owed t) {r r' : Roll} (hr : r ∈ t.history ++ t.active)
    (hr' : r' ∈ t.history ++ t.active) (heq : r.serial = r'.serial) : r = r' := by
  have hhistory := ho.history.imp (S := fun (r r' : Roll) => r.serial ≠ r'.serial) Nat.ne_of_gt
  have hactive := ho.active.imp (S := fun (r r' : Roll) => r.serial ≠ r'.serial) Nat.ne_of_lt
  rcases List.mem_append.1 hr with hr | hr <;> rcases List.mem_append.1 hr' with hr' | hr'
  · exact Tray.eq_of_serial hhistory hr hr' heq
  · exact ho.agree r hr r' hr' heq
  · exact (ho.agree r' hr' r hr heq.symm).symm
  · exact Tray.eq_of_serial hactive hr hr' heq

/-- Rolls of one id are one roll. -/
theorem eq_of_id (ho : Orderly S owed t) {r r' : Roll} (hr : r ∈ t.history ++ t.active)
    (hr' : r' ∈ t.history ++ t.active) (heq : r.id = r'.id) : r = r' := by
  rw [ho.id_eq hr, ho.id_eq hr'] at heq
  exact ho.eq_of_serial hr hr' (id_inj heq)

/-- A roll that has dice on the tray is active. -/
theorem active_of_diceOf (ho : Orderly S owed t) {r : Roll} (mem : r ∈ t.history)
    (h : t.diceOf (S.id r.serial) ≠ []) : r ∈ t.active := by
  by_contra hr
  refine h (ho.diceOf_eq_nil fun r' hr' heq => hr ?_)
  rw [ho.agree r mem r' hr' heq.symm]
  exact hr'

/-- A roll all of whose dice are on the tray is active and waits for none. -/
theorem active_of_all (ho : Orderly S owed t) {r : Roll} (mem : r ∈ t.history)
    (all : (t.diceOf (S.id r.serial)).length = r.record.sites.length) : r ∈ t.active := by
  refine ho.active_of_diceOf mem fun hnil => ?_
  rw [hnil] at all
  have hsound := ho.sound r (List.mem_append_left _ mem)
  exact hsound.sites_ne_nil (List.length_eq_zero_iff.1 all.symm)

theorem throwsOf_of_all (ho : Orderly S owed t) (hcounted : S.Counted) {r : Roll} (mem : r ∈ t.history)
    (all : (t.diceOf (S.id r.serial)).length = r.record.sites.length) :
    t.throwsOf (S.id r.serial) = [] ∧ owed r.serial = [] := by
  have hlength := ((ho.accounted hcounted).sites r (ho.active_of_all mem all)).length_eq
  simp only [sitesOf, List.length_append, List.length_map] at hlength
  exact ⟨List.length_eq_zero_iff.1 (by omega), List.length_eq_zero_iff.1 (by omega)⟩

/-- A record is written into its roll, and the other rolls stay as they are. -/
theorem put_cases (ho : Orderly S owed t) {r x : Roll} (hr : r ∈ t.history ++ t.active)
    (hx : x ∈ t.history ++ t.active) (record : Record) :
    x = r ∧ x.put r.serial record = { r with record } ∨
      x.serial ≠ r.serial ∧ x.put r.serial record = x := by
  by_cases hserial : x.serial = r.serial
  · obtain rfl := ho.eq_of_serial hx hr hserial
    exact .inl ⟨rfl, Roll.put_of_eq rfl record⟩
  · exact .inr ⟨hserial, Roll.put_of_ne hserial record⟩

/-- All rolls keep their sites if a record is written that has the groups of its roll. -/
theorem sites_put (ho : Orderly S owed t) {r x : Roll} (hr : r ∈ t.history ++ t.active)
    (hx : x ∈ t.history ++ t.active) {record : Record} (groups : record.groups = r.record.groups) :
    (x.put r.serial record).record.sites = x.record.sites := by
  rcases ho.put_cases hr hx record with ⟨rfl, hput⟩ | ⟨_, hput⟩ <;> rw [hput]
  exact sites_congr groups

end Orderly

theorem Accounted.write (ho : Orderly S owed t) (hcounted : S.Counted) {r : Roll}
    (hr : r ∈ t.history ++ t.active) {record : Record} (groups : record.groups = r.record.groups)
    (done : record.resolved = true → t.throwsOf (S.id r.serial) = [] ∧ owed r.serial = [] ∧
      List.Forall₂ Answers record.groups record.results) :
    Accounted S owed (t.write r.serial record) := by
  have ha := ho.accounted hcounted
  refine { watermark := fun n hn => ?_, sites := fun x hx => ?_, resolved := fun x hx hresolved => ?_ }
  · obtain ⟨hlow, hactive⟩ := ha.watermark n hn
    refine ⟨hlow, fun x hx => ?_⟩
    obtain ⟨y, hy, rfl⟩ := List.mem_map.1 hx
    rw [Roll.serial_put]
    exact hactive y hy
  · obtain ⟨y, hy, rfl⟩ := List.mem_map.1 hx
    rw [Roll.serial_put, ho.sites_put hr (List.mem_append_right _ hy) groups]
    exact ha.sites y hy
  · obtain ⟨y, hy, rfl⟩ := mem_write.1 hx
    rcases ho.put_cases hr hy record with ⟨rfl, hput⟩ | ⟨_, hput⟩ <;> rw [hput] at hresolved ⊢
    · exact done hresolved
    · exact ha.resolved y hy hresolved

theorem Orderly.write (ho : Orderly S owed t) {r : Roll} (mem : r ∈ t.history) {record : Record}
    (id : record.id = r.record.id) (groups : record.groups = r.record.groups)
    (done : S.Counted → record.resolved = true → t.throwsOf (S.id r.serial) = [] ∧
      owed r.serial = [] ∧ List.Forall₂ Answers record.groups record.results) :
    Orderly S owed (t.write r.serial record) := by
  have hr : r ∈ t.history ++ t.active := List.mem_append_left _ mem
  refine { ho with
    issued := fun x hx => ?_, sound := fun x hx => ?_, history := ?_, active := ?_
    agree := fun x' hx' y' hy' heq => ?_, dice := fun d hd => ?_
    accounted := fun hcounted => .write ho hcounted hr groups (done hcounted) }
  · obtain ⟨y, hy, rfl⟩ := mem_write.1 hx
    rcases ho.put_cases hr hy record with ⟨rfl, hput⟩ | ⟨_, hput⟩ <;> rw [hput]
    · exact ⟨(ho.issued y hr).1, id.trans (ho.issued y hr).2⟩
    · exact ho.issued y hy
  · obtain ⟨y, hy, rfl⟩ := mem_write.1 hx
    rcases ho.put_cases hr hy record with ⟨rfl, hput⟩ | ⟨_, hput⟩ <;> rw [hput]
    · exact (ho.sound y hr).congr groups
    · exact ho.sound y hy
  · refine List.pairwise_map.2 (ho.history.imp fun h => ?_)
    rwa [Roll.serial_put, Roll.serial_put]
  · refine List.pairwise_map.2 (ho.active.imp fun h => ?_)
    rwa [Roll.serial_put, Roll.serial_put]
  · obtain ⟨x, hx, rfl⟩ := List.mem_map.1 hx'
    obtain ⟨y, hy, rfl⟩ := List.mem_map.1 hy'
    rw [Roll.serial_put, Roll.serial_put] at heq
    rw [ho.agree x hx y hy heq]
  · obtain ⟨x, hx, hroll⟩ := ho.dice d hd
    exact ⟨x.put r.serial record, List.mem_map_of_mem hx, hroll.trans (by rw [Roll.serial_put])⟩

/-! ## All changes -/

theorem Change.orderly {kind : Kind} {t' : Tray ω} {owed' : Owed}
    (change : Change S kind t owed t' owed') (ho : Orderly S owed t) : Orderly S owed' t' := by
  cases change with
  | around world chance clock formula nextThrow listeners journal holds quiet =>
    exact ho.around world chance clock formula nextThrow listeners journal holds quiet
  | begin r serial id sound unresolved => exact ho.begin serial id sound unresolved
  | trim history sublist => exact ho.trim sublist
  | cancel r mem watermark world notices mark holds =>
    have hcanceled := ho.cancel mem mark holds
    exact hcanceled.around _ _ _ _ _ _ _ hcanceled.holds hcanceled.quiet
  | remove taken world none holds => exact ho.remove taken none holds
  | mark empty => exact ho.mark empty
  | push throw order serial rest pending roll lt owes perm => exact ho.push roll lt owes perm
  | throw throw order pending d world r active roll perm sameRoll sameSite moves holds =>
    exact ho.throw active roll perm sameRoll sameSite holds
  | skip throw order pending inactive perm => exact ho.skip inactive perm
  | look dice world same holds => exact ho.look same holds
  | settle r record notices mem unresolved all id groups resolved answers =>
    have hwritten := ho.write mem id groups fun hcounted _ =>
      have ⟨hnone, howed⟩ := ho.throwsOf_of_all hcounted mem all
      ⟨hnone, howed, answers hcounted⟩
    exact hwritten.around _ _ _ _ _ _ _ hwritten.holds hwritten.quiet
  | fail r record mem unresolved id groups still =>
    refine ho.write mem id groups fun _ hresolved => ?_
    rw [still] at hresolved
    cases hresolved

theorem Trace.orderly {t' : Tray ω} {owed' : Owed} (trace : Trace S t owed t' owed')
    (ho : Orderly S owed t) : Orderly S owed' t' := by
  induction trace with
  | refl => exact ho
  | step _ change _ ih => exact change.orderly ih

end RollTray.Tray
