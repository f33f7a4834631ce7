import Mathlib.Data.List.Find
import RollTray.Proofs.Keys
import RollTray.Proofs.Tray.Draining
import RollTray.Proofs.World.Separation

/-!
# Rolls that do not influence each other

Where each handle has a body of its own, what becomes of a roll when all dice are looked at is what becomes
of it when only its own dice are: its dice and its record are the same afterwards, and so are the bodies of
its dice, if bodies are taken out without a change of others (`independent_of_survey`). In a world whose
bodies lean on each other the bodies may differ (`differs_when_leaning`). `pollDice_beside` is about the
dice that are looked at, one after the other, and `finishAll_beside` about the results that are given. In
between, the rolls that had a die settle are sorted, and the roll is there once or not at all
(`filter_sorted`).
-/

namespace RollTray.Tray

variable {ω : Type} [World ω]

/-! ## Looking at the dice -/

namespace Sight

/-- A die of which this is seen. -/
def die (now : Float) (d : Die) : Sight → Die
  | same => d
  | settles face => settledOn face d
  | moves => inFlight now d

/-- What is done about a die of which this is seen. -/
def tend (p : Policy) (now : Float) (d : Die) : Sight → Attempt ω Unit
  | moves => calm p now (inFlight now d)
  | _ => return ()

/-- The roll of a die, if it has settled. -/
def news (d : Die) : Sight → List Value
  | settles _ => [d.roll]
  | _ => []

end Sight

variable (p : Policy) (isFinal : Value → Bool) (now : Float)

/-- The first die is looked at, and then the others. -/
theorem pollDice_cons_eq_ok {d : Die} {rest dice : List Die} {w w' : ω} {ids : List Value}
    (h : pollDice p isFinal now (d :: rest) w = (.ok ids, dice, w')) :
    ∃ sight w₁ later dice', look p isFinal w d = .ok sight ∧
      (sight.tend p now d).perform w = (.ok (), w₁) ∧
      pollDice p isFinal now rest w₁ = (.ok later, dice', w') ∧
      ids = sight.news d ++ later ∧ dice = sight.die now d :: dice' := by
  rw [pollDice] at h
  cases hlook : look p isFinal w d with
  | error fault =>
    rw [hlook] at h
    cases h
  | ok sight =>
    rw [hlook] at h
    cases sight with
    | same =>
      rcases hrest : pollDice p isFinal now rest w with ⟨answer, dice', w₁⟩
      rw [hrest] at h
      cases h
      exact ⟨.same, w, ids, dice', rfl, rfl, hrest, rfl, rfl⟩
    | settles face =>
      rcases hrest : pollDice p isFinal now rest w with ⟨fault | later, dice', w₁⟩ <;>
        rw [hrest] at h <;> cases h
      exact ⟨.settles face, w, later, dice', rfl, rfl, hrest, rfl, rfl⟩
    | moves =>
      rcases hcalm : (calm p now (inFlight now d)).perform w with ⟨fault | _, w₁⟩
      · simp only [hcalm] at h
        cases h
      · rcases hrest : pollDice p isFinal now rest w₁ with ⟨answer, dice', w₂⟩
        simp only [hcalm, hrest] at h
        cases h
        exact ⟨.moves, w₁, ids, dice', rfl, hcalm, hrest, rfl, rfl⟩

variable (V : World.Separation ω)

/-- What is seen of a die depends on its body. -/
theorem look_congr {d : Die} {w w' : ω} (h : V.body w d.handle = V.body w' d.handle) :
    look p isFinal w d = look p isFinal w' d := by
  unfold look Policy.atRest
  rw [V.isSettled h, V.motion h, V.face h]

/-- A die that moves is slowed down, and no other one. -/
theorem tend_local (d : Die) (sight : Sight) :
    Local V.body {d.handle} (sight.tend p now d : Attempt ω Unit) := by
  cases sight with
  | same => exact .pure _
  | settles face => exact .pure _
  | moves =>
    refine .bind (.lift _) fun since => .bind (.lift _) fun awakeFor => ?_
    unfold Policy.nudge
    split
    · exact V.sleep d.handle
    · split
      · exact .bind (.lift _) fun factor => V.damp d.handle factor
      · exact .pure _

/-- What becomes of the dice of a roll and of their bodies when all dice are looked at is what becomes of
them when only they are. -/
theorem pollDice_beside {r : Value} {handles : Set Nat} {dice dice' dice₀' : List Die}
    {w w' w₀ w₀' : ω} {ids ids₀ : List Value}
    (hown : ∀ d ∈ dice, d.handle ∈ handles ↔ d.roll.same r = true)
    (hagree : Agree V.body handles w w₀)
    (h : pollDice p isFinal now dice w = (.ok ids, dice', w'))
    (h₀ : pollDice p isFinal now (dice.filter fun d => d.roll.same r) w₀ = (.ok ids₀, dice₀', w₀')) :
    ids.filter (fun id => id.same r) = ids₀ ∧ dice'.filter (fun d => d.roll.same r) = dice₀' ∧
      Agree V.body handles w' w₀' := by
  induction dice generalizing w w₀ ids ids₀ dice' dice₀' with
  | nil =>
    cases h
    cases h₀
    exact ⟨rfl, rfl, hagree⟩
  | cons d rest ih =>
    obtain ⟨hfirst, hrest⟩ := List.forall_mem_cons.1 hown
    obtain ⟨sight, w₁, later, dice₁, hlook, htend, hpoll, rfl, rfl⟩ := pollDice_cons_eq_ok _ _ _ h
    have hlocal : Local V.body {d.handle} (sight.tend p now d : Attempt ω Unit) := tend_local ..
    have hroll : (sight.die now d).roll = d.roll := by cases sight <;> rfl
    have hnews : ∀ id ∈ sight.news d, id = d.roll := by cases sight <;> simp [Sight.news]
    rw [List.filter_append, List.filter_cons, hroll]
    by_cases hid : d.roll.same r = true
    · rw [List.filter_cons, if_pos hid] at h₀
      obtain ⟨sight₀, w₂, later₀, dice₂, hlook₀, htend₀, hpoll₀, rfl, rfl⟩ :=
        pollDice_cons_eq_ok _ _ _ h₀
      have hmem : d.handle ∈ handles := hfirst.2 hid
      rw [← look_congr p isFinal V (hagree _ hmem), hlook] at hlook₀
      cases hlook₀
      have hafter := (hlocal.mono (Set.singleton_subset_iff.2 hmem)).own hagree
      rw [htend, htend₀] at hafter
      obtain ⟨hids, hdice, hleft⟩ := ih hrest hafter hpoll hpoll₀
      have hall : (sight.news d).filter (fun id => id.same r) = sight.news d :=
        List.filter_eq_self.2 fun id hmem => by rw [hnews id hmem, hid]
      rw [if_pos hid, hall, hids, hdice]
      exact ⟨rfl, rfl, hleft⟩
    · rw [List.filter_cons, if_neg hid] at h₀
      have hnot : ∀ handle ∈ handles, handle ∉ ({d.handle} : Set Nat) := by
        rintro handle hmem rfl
        exact hid (hfirst.1 hmem)
      have hafter := hlocal.agree hnot hagree
      rw [htend] at hafter
      obtain ⟨hids, hdice, hleft⟩ := ih hrest hafter hpoll h₀
      have hnone : (sight.news d).filter (fun id => id.same r) = [] :=
        List.filter_eq_nil_iff.2 fun id hmem => by rw [hnews id hmem]; exact hid
      rw [if_neg hid, hnone, hids, hdice]
      exact ⟨rfl, rfl, hleft⟩

/-! ## The rolls that had a die settle -/

omit [World ω] in
/-- What is so of an id just if it is so of all equal ones may be asked before or after those that equal
an earlier one are left out. -/
theorem filter_distinct {q : Value → Bool} {ids : List Value}
    (h : ∀ a ∈ ids, ∀ b ∈ ids, a.same b = true → q a = q b) :
    (distinct ids).filter q = distinct (ids.filter q) := by
  induction ids with
  | nil => rfl
  | cons id rest ih =>
    have ih := ih fun a ha b hb => h a (List.mem_cons_of_mem _ ha) b (List.mem_cons_of_mem _ hb)
    rw [distinct, List.filter_cons, List.filter_cons, List.filter_filter]
    cases hid : q id with
    | true =>
      rw [if_pos rfl, if_pos rfl, distinct, ← ih, List.filter_filter]
      exact congrArg _ (List.filter_congr fun _ _ => Bool.and_comm ..)
    | false =>
      rw [if_neg Bool.false_ne_true, if_neg Bool.false_ne_true, ← ih]
      refine List.filter_congr fun other hother => ?_
      cases hq : q other with
      | false => rfl
      | true =>
        have hmem : other ∈ id :: rest := List.mem_cons_of_mem _ (mem_distinct hother)
        have hne : other.same id = false := Bool.eq_false_iff.2 fun hsame => by
          rw [h other hmem id (List.mem_cons_self ..) hsame, hid] at hq
          cases hq
        rw [hne]
        rfl

omit [World ω] in
/-- Of equal ids the first is left. -/
theorem distinct_of_same {ids : List Value} (h : ∀ a ∈ ids, ∀ b ∈ ids, a.same b = true) :
    distinct ids = ids.take 1 := by
  cases ids with
  | nil => rfl
  | cons id rest =>
    have hnone : (distinct rest).filter (fun other => !other.same id) = [] := by
      refine List.filter_eq_nil_iff.2 fun other hother => ?_
      rw [h other (List.mem_cons_of_mem _ (mem_distinct hother)) id (List.mem_cons_self ..)]
      exact Bool.false_ne_true
    rw [distinct, hnone]
    rfl

/-- Among the sorted ids of rolls that had a die settle, those that equal an id are the same ones as if no
others had been sorted. -/
theorem filter_sorted {ids sorted sorted₀ : List Value} {r : Value} (hkeys : ∀ id ∈ ids, id.isKey = true)
    (h : Order.sortBy Value.lt (distinct ids) = .ok sorted)
    (h₀ : Order.sortBy Value.lt (distinct (ids.filter fun id => id.same r)) = .ok sorted₀) :
    sorted.filter (fun id => id.same r) = sorted₀ := by
  have hsame : ∀ a ∈ ids.filter fun id => id.same r, ∀ b ∈ ids.filter fun id => id.same r,
      a.same b = true := by
    intro a ha b hb
    obtain ⟨ha, har⟩ := List.mem_filter.1 ha
    obtain ⟨hb, hbr⟩ := List.mem_filter.1 hb
    rwa [Value.same_congr (.inl (hkeys b hb)) hbr]
  have hcongr : ∀ a ∈ ids, ∀ b ∈ ids, a.same b = true → a.same r = b.same r := by
    intro a ha b hb hab
    rw [Value.same_comm (.inl (hkeys a ha)), Value.same_comm (.inl (hkeys b hb)),
      Value.same_congr (.inl (hkeys a ha)) hab]
  have hperm := (Order.sortBy_perm h).filter fun id => id.same r
  have hperm₀ := Order.sortBy_perm h₀
  rw [filter_distinct hcongr] at hperm
  rw [distinct_of_same hsame] at hperm hperm₀
  cases hids : ids.filter fun id => id.same r with
  | nil =>
    rw [hids] at hperm hperm₀
    rw [List.perm_nil.1 hperm, List.perm_nil.1 hperm₀]
  | cons id rest =>
    rw [hids] at hperm hperm₀
    rw [List.perm_singleton.1 hperm, List.perm_singleton.1 hperm₀]

/-! ## Results -/

variable {quiet : (Event → List Listener) → Prop} {notify : Notify ω} {t t' t₀ t₀' : Tray ω}
  {id r : Value} {handles : Set Nat}

/-- The record of a roll of which a die has settled: with the result that its dice show, if it is complete
and had none. -/
def judged (t : Tray ω) (id : Value) (record : Record) : Record :=
  if record.resolved then record
  else
    match t.isComplete record with
    | .ok true => (Dice.resolve record (t.diceOf id)).2
    | _ => record

omit [World ω] in
theorem id_judged (t : Tray ω) (id : Value) (record : Record) : (judged t id record).id = record.id := by
  unfold judged
  split
  · rfl
  · split
    · exact Dice.id_resolve ..
    · rfl

omit [World ω] in
theorem judged_congr {record : Record} (hid : t.diceOf id = t₀.diceOf id)
    (hrecord : t.diceOf record.id = t₀.diceOf record.id) : judged t id record = judged t₀ id record := by
  unfold judged isComplete
  rw [hid, hrecord]

/-- The bodies of the dice of a roll are taken out of the world, one after the other. -/
theorem forM_remove_eq (taken : Die → Bool) (dice : List Die) (t : Tray ω) :
    (dice.forM (m := Attempt (Tray ω)) fun d => do
        if taken d then withWorld (World.remove d.handle)).perform t =
      (withWorld ((dice.filter taken).forM fun d => World.remove d.handle)).perform t := by
  induction dice generalizing t with
  | nil => rfl
  | cons d rest ih =>
    rw [List.forM, List.filter_cons]
    cases taken d with
    | false => exact ih t
    | true =>
      rw [if_pos rfl, if_pos rfl, List.forM]
      rcases hremove : (World.remove d.handle).perform t.world with ⟨fault | _, world⟩
      · rw [Attempt.perform_bind_of_error (withWorld_perform hremove),
          withWorld_perform (Attempt.perform_bind_of_error hremove)]
      · rw [Attempt.perform_bind_of_ok (withWorld_perform hremove), ih, withWorld, withWorld,
          Attempt.perform_within, Attempt.perform_within, Attempt.perform_bind_of_ok hremove]

theorem removeDice_eq_ok (h : (removeDice id).perform t = (.ok (), t')) :
    ∃ world, ((t.diceOf id).forM fun d => World.remove d.handle).perform t.world = (.ok (), world) ∧
      t' = { t with world, dice := t.dice.filter fun d => !d.roll.same id } := by
  rw [removeDice, takeOff, Attempt.perform_bind_of_ok (Attempt.perform_get t)] at h
  obtain ⟨_, t₁, hremove, hfilter⟩ := Attempt.perform_bind_eq_ok.1 h
  rw [forM_remove_eq] at hremove
  rcases hworld : ((t.diceOf id).forM fun d => World.remove d.handle).perform t.world with ⟨answer, world⟩
  have hwith := withWorld_perform hworld
  rw [diceOf] at hwith
  rw [hwith] at hremove
  cases hremove
  cases hfilter
  exact ⟨world, rfl, rfl⟩

omit [World ω] in
/-- A roll whose record is written that it had stays as it is. -/
theorem map_put_self {history : List Roll} {a : Roll}
    (hserials : ∀ b ∈ history, b.serial = a.serial → b = a) :
    history.map (Roll.put a.serial a.record) = history := by
  refine (List.map_congr_left fun b hb => ?_).trans (List.map_id _)
  rw [Roll.put]
  split
  · next hserial =>
    rw [hserials b hb hserial]
    rfl
  · rfl

omit [World ω] in
/-- A roll is found again after another record of its id was written. -/
theorem find?_map_put {history : List Roll} {a : Roll} {record : Record}
    (hserials : ∀ b ∈ history, b.serial = a.serial → b = a) (hid : record.id = a.id) (r : Value) :
    Roll.find? r (history.map (Roll.put a.serial record)) =
      (Roll.find? r history).map (Roll.put a.serial record) := by
  rw [Roll.find?, Roll.find?, List.find?_map]
  refine congrArg _ (List.find?_congr fun b hb => ?_)
  rw [Function.comp_apply, Roll.id_put fun hserial => hserials b hb hserial ▸ hid]

/-- One can tell the dice of a roll from others: these handles are theirs, and rolls of one serial number
are one. Listeners only look on. -/
structure Discerns (quiet : (Event → List Listener) → Prop) (r : Value) (handles : Set Nat)
    (t : Tray ω) : Prop where
  quiet : quiet t.listeners
  keys : ∀ d ∈ t.dice, d.roll.isKey = true
  own : ∀ d ∈ t.dice, d.handle ∈ handles ↔ d.roll.same r = true
  serials : ∀ a ∈ t.history, ∀ b ∈ t.history, a.serial = b.serial → a = b

/-- The dice of a roll are taken off the tray. -/
structure Drops (id : Value) (t t' : Tray ω) : Prop where
  history : t'.history = t.history
  dice : t'.dice = t.dice.filter fun d => !d.roll.same id
  world : ((t.diceOf id).forM fun d => World.remove d.handle).perform t.world = (.ok (), t'.world)

/-- A roll that was found gets its result, if it is complete and had none. -/
structure Judges (id : Value) (a : Roll) (t t' : Tray ω) : Prop where
  found : t.find? id = some a
  history : t'.history = t.history.map (Roll.put a.serial (judged t id a.record))
  dice : t'.dice = t.dice
  world : t'.world = t.world

omit [World ω] in
theorem conclude_eq_ok (hn : Observes quiet notify) (hquiet : quiet t.listeners) {a : Roll} {done : Bool}
    (h : (conclude notify id a).perform t = (.ok done, t')) :
    quiet t'.listeners ∧ t'.dice = t.dice ∧ t'.world = t.world ∧
      t'.history = t.history.map (Roll.put a.serial (Dice.resolve a.record (t.diceOf id)).2) := by
  rw [conclude, Attempt.perform_bind_of_ok (Attempt.perform_get t),
    Attempt.perform_bind_of_ok (Attempt.perform_modify _ t)] at h
  obtain ⟨answer, t₁, hanswer, h⟩ := Attempt.perform_bind_eq_ok.1 h
  obtain ⟨_, rfl⟩ := Prod.mk.inj hanswer
  split at h
  · obtain ⟨listeners, journal, hlisteners, hnotify⟩ :=
      hn .resolved (Dice.resolve a.record (t.diceOf id)).2
        (t.write a.serial (Dice.resolve a.record (t.diceOf id)).2) hquiet
    rw [Attempt.perform_bind_of_ok hnotify] at h
    cases h
    exact ⟨hlisteners, rfl, rfl, rfl⟩
  · cases h
    exact ⟨hquiet, rfl, rfl, rfl⟩

/-- The dice of a roll that is not in history are dropped, and one that is there gets its result if it is
complete. -/
theorem finish_eq_ok (hn : Observes quiet notify) (ht : Discerns quiet r handles t) {done : Bool}
    (h : (finish notify id).perform t = (.ok done, t')) :
    quiet t'.listeners ∧ (t.find? id = none ∧ Drops id t t' ∨ ∃ a, Judges id a t t') := by
  rw [finish, Attempt.perform_bind_of_ok (Attempt.perform_get t)] at h
  split at h
  · next hfind =>
    obtain ⟨_, t₁, hremove, hreturn⟩ := Attempt.perform_bind_eq_ok.1 h
    obtain ⟨world, hworld, rfl⟩ := removeDice_eq_ok hremove
    cases hreturn
    exact ⟨ht.quiet, .inl ⟨hfind, rfl, rfl, hworld⟩⟩
  · next a hfind =>
    -- A roll whose record is not written has the one that it had.
    have hstays : judged t id a.record = a.record → Judges id a t t := by
      refine fun hsame => ⟨hfind, ?_, rfl, rfl⟩
      rw [hsame, map_put_self fun b hb => ht.serials b hb a (find?_id hfind).1]
    split at h
    · next hresolved =>
      cases h
      exact ⟨ht.quiet, .inr ⟨a, hstays (by rw [judged, if_pos hresolved])⟩⟩
    · next hresolved =>
      obtain ⟨complete, t₁, hlift, h⟩ := Attempt.perform_bind_eq_ok.1 h
      rw [Attempt.perform_lift] at hlift
      obtain ⟨hcomplete, rfl⟩ := Prod.mk.inj hlift
      cases complete with
      | false =>
        cases h
        exact ⟨ht.quiet, .inr ⟨a, hstays (by rw [judged, if_neg hresolved, hcomplete])⟩⟩
      | true =>
        obtain ⟨hquiet, hdice, hworld, hhistory⟩ := conclude_eq_ok hn ht.quiet h
        refine ⟨hquiet, .inr ⟨a, hfind, ?_, hdice, hworld⟩⟩
        rw [hhistory, judged, if_neg hresolved, hcomplete]

namespace Discerns

omit [World ω] in
/-- All dice are looked at. -/
theorem look (ht : Discerns quiet r handles t) {dice : List Die} (hsame : List.Forall₂ SameDie t.dice dice)
    (world : ω) : Discerns quiet r handles { t with dice, world } := by
  refine ⟨ht.quiet, fun d hd => ?_, fun d hd => ?_, ht.serials⟩
  all_goals obtain ⟨d₀, hd₀, hsame⟩ := forall₂_exists_left hsame hd
  · rw [hsame.roll]
    exact ht.keys d₀ hd₀
  · rw [hsame.roll, hsame.handle]
    exact ht.own d₀ hd₀

omit [World ω] in
/-- Only the dice of the roll are on the tray. -/
theorem alone (ht : Discerns quiet r handles t) :
    Discerns quiet r handles { t with dice := t.diceOf r } :=
  ⟨ht.quiet, fun d hd => ht.keys d (List.mem_filter.1 hd).1,
    fun d hd => ht.own d (List.mem_filter.1 hd).1, ht.serials⟩

theorem finish (hn : Observes quiet notify) (ht : Discerns quiet r handles t) {done : Bool}
    (h : (finish notify id).perform t = (.ok done, t')) : Discerns quiet r handles t' := by
  obtain ⟨hquiet, ⟨_, drops⟩ | ⟨a, judges⟩⟩ := finish_eq_ok hn ht h
  · have hsub : ∀ d ∈ t'.dice, d ∈ t.dice := fun d hd => (List.mem_filter.1 (drops.dice ▸ hd)).1
    exact ⟨hquiet, fun d hd => ht.keys d (hsub d hd), fun d hd => ht.own d (hsub d hd),
      drops.history ▸ ht.serials⟩
  · refine ⟨hquiet, judges.dice ▸ ht.keys, judges.dice ▸ ht.own, fun b hb c hc hbc => ?_⟩
    rw [judges.history] at hb hc
    obtain ⟨b₀, hb₀, rfl⟩ := List.mem_map.1 hb
    obtain ⟨c₀, hc₀, rfl⟩ := List.mem_map.1 hc
    rw [Roll.serial_put, Roll.serial_put] at hbc
    rw [ht.serials b₀ hb₀ c₀ hc₀ hbc]

end Discerns

omit [World ω] in
/-- A roll is found again after the record of a roll was judged. -/
theorem Judges.find? {a : Roll} (judges : Judges id a t t') (ht : Discerns quiet r handles t) :
    t'.find? r = (t.find? r).map (Roll.put a.serial (judged t id a.record)) := by
  rw [Tray.find?, judges.history]
  exact find?_map_put (fun b hb => ht.serials b hb a (find?_id judges.found).1) (id_judged ..) r

/-- What becomes of a roll in two trays is the same: its dice, its record and, if a body is taken out
without a change of others, the bodies of these handles. -/
structure Matches (V : World.Separation ω) (r : Value) (handles : Set Nat) (t t₀ : Tray ω) : Prop where
  dice : t.diceOf r = t₀.diceOf r
  found : t.find? r = t₀.find? r
  bodies : V.Removes → Agree V.body handles t.world t₀.world

theorem Matches.trans {V : World.Separation ω} {t'' : Tray ω} (first : Matches V r handles t t')
    (second : Matches V r handles t' t'') : Matches V r handles t t'' :=
  ⟨first.dice.trans second.dice, first.found.trans second.found, fun hremoves handle hmem =>
    (first.bodies hremoves handle hmem).trans (second.bodies hremoves handle hmem)⟩

variable {V}

/-! ### Other rolls -/

section Other

variable (ht : Discerns quiet r handles t) (hkey : id.isKey = true) (hother : id.same r = false)

include ht hkey hother

/-- The dice of another roll are dropped. -/
theorem Drops.other (drops : Drops id t t') : Matches V r handles t' t := by
  refine ⟨?_, by rw [Tray.find?, drops.history, Tray.find?], fun hremoves => ?_⟩
  · rw [diceOf, diceOf, drops.dice, List.filter_filter]
    refine List.filter_congr fun d hd => ?_
    cases hid : d.roll.same id with
    | false => exact Bool.and_true _
    | true => rw [Value.not_same_of_same hkey hid hother, Bool.false_and]
  · have hlocal : Local V.body {handle | ∃ d ∈ t.diceOf id, d.handle = handle}
        ((t.diceOf id).forM fun d => World.remove d.handle : Attempt ω Unit) :=
      .forM fun d hd => (hremoves d.handle).mono (Set.singleton_subset_iff.2 ⟨d, hd, rfl⟩)
    have hnot : ∀ handle ∈ handles, handle ∉ {handle | ∃ d ∈ t.diceOf id, d.handle = handle} := by
      rintro _ hmem ⟨d, hd, rfl⟩
      obtain ⟨hd, hid⟩ := List.mem_filter.1 hd
      rw [ht.own d hd, Value.not_same_of_same hkey hid hother] at hmem
      cases hmem
    have hagree : Agree V.body handles _ t.world := hlocal.agree hnot fun _ _ => rfl
    rwa [drops.world] at hagree

/-- Another roll gets its result. -/
theorem Judges.other {a : Roll} (judges : Judges id a t t') : Matches V r handles t' t := by
  refine ⟨by rw [diceOf, diceOf, judges.dice], ?_, fun _ _ _ => by rw [judges.world]⟩
  rw [judges.find? ht]
  cases hroll : t.find? r with
  | none => rfl
  | some b =>
    have hne : b.serial ≠ a.serial := by
      intro hserial
      obtain ⟨hb, hbr⟩ := find?_id hroll
      obtain ⟨ha, haid⟩ := find?_id judges.found
      rw [ht.serials b hb a ha hserial, Value.not_same_of_same hkey haid hother] at hbr
      cases hbr
    rw [Option.map_some, Roll.put_of_ne hne]

theorem finish_other (hn : Observes quiet notify) {done : Bool}
    (h : (finish notify id).perform t = (.ok done, t')) : Matches V r handles t' t := by
  obtain ⟨_, ⟨_, drops⟩ | ⟨a, judges⟩⟩ := finish_eq_ok hn ht h
  · exact drops.other ht hkey hother
  · exact judges.other ht hkey hother

end Other

/-! ### The roll itself -/

section Own

variable (hmatches : Matches V r handles t t₀) (ht : Discerns quiet r handles t)
  (hkey : id.isKey = true) (hsame : id.same r = true)

omit [World ω] in
theorem diceOf_congr {id r : Value} (h : id.isKey = true ∨ r.isKey = true) (hsame : id.same r = true)
    (t : Tray ω) : t.diceOf id = t.diceOf r :=
  List.filter_congr fun d _ => Value.same_congr h hsame d.roll

omit [World ω] in
theorem find?_congr {id r : Value} (h : id.isKey = true ∨ r.isKey = true) (hsame : id.same r = true)
    (t : Tray ω) : t.find? id = t.find? r :=
  List.find?_congr fun b _ => Value.same_congr h hsame b.id

include hmatches ht hkey hsame

/-- The dice of the roll are dropped in both trays. -/
theorem Drops.own (drops : Drops id t t') (drops₀ : Drops id t₀ t₀') : Matches V r handles t' t₀' := by
  have hleft : ∀ {s s' : Tray ω}, Drops id s s' → s'.diceOf r = [] := by
    intro s s' drops
    rw [diceOf, drops.dice]
    refine List.filter_eq_nil_iff.2 fun d hd hroll => ?_
    have hnot := (List.mem_filter.1 hd).2
    rw [Value.same_congr (.inl hkey) hsame, hroll] at hnot
    cases hnot
  refine ⟨by rw [hleft drops, hleft drops₀], ?_, fun hremoves => ?_⟩
  · rw [Tray.find?, Tray.find?, drops.history, drops₀.history]
    exact hmatches.found
  · have hlocal : Local V.body handles
        ((t.diceOf r).forM fun d => World.remove d.handle : Attempt ω Unit) := by
      refine .forM fun d hd => (hremoves d.handle).mono (Set.singleton_subset_iff.2 ?_)
      obtain ⟨hd, hid⟩ := List.mem_filter.1 hd
      exact (ht.own d hd).2 hid
    have hworld := drops.world
    have hworld₀ := drops₀.world
    rw [diceOf_congr (.inl hkey) hsame] at hworld hworld₀
    have hagree := hlocal.own (hmatches.bodies hremoves)
    rw [hworld, hmatches.dice, hworld₀] at hagree
    exact hagree

/-- The roll gets its result in both trays: this depends on its dice and its record. -/
theorem Judges.own (ht₀ : Discerns quiet r handles t₀) {a : Roll} (judges : Judges id a t t')
    (judges₀ : Judges id a t₀ t₀') : Matches V r handles t' t₀' := by
  have hdice : t.diceOf id = t₀.diceOf id := by
    rw [diceOf_congr (.inl hkey) hsame, diceOf_congr (.inl hkey) hsame, hmatches.dice]
  have hrecord : ∀ s : Tray ω, s.diceOf a.record.id = s.diceOf id :=
    diceOf_congr (.inr hkey) (find?_id judges.found).2
  have hjudged : judged t id a.record = judged t₀ id a.record :=
    judged_congr hdice (by rw [hrecord, hrecord, hdice])
  refine ⟨?_, ?_, fun hremoves => ?_⟩
  · rw [diceOf, diceOf, judges.dice, judges₀.dice]
    exact hmatches.dice
  · rw [judges.find? ht, judges₀.find? ht₀, hmatches.found, hjudged]
  · rw [judges.world, judges₀.world]
    exact hmatches.bodies hremoves

theorem finish_own (hn : Observes quiet notify) (ht₀ : Discerns quiet r handles t₀) {done done₀ : Bool}
    (h : (finish notify id).perform t = (.ok done, t'))
    (h₀ : (finish notify id).perform t₀ = (.ok done₀, t₀')) : Matches V r handles t' t₀' := by
  have hfind : t.find? id = t₀.find? id := by
    rw [find?_congr (.inl hkey) hsame, find?_congr (.inl hkey) hsame, hmatches.found]
  obtain ⟨_, ⟨hnone, drops⟩ | ⟨a, judges⟩⟩ := finish_eq_ok hn ht h <;>
    obtain ⟨_, ⟨hnone₀, drops₀⟩ | ⟨a₀, judges₀⟩⟩ := finish_eq_ok hn ht₀ h₀
  · exact drops.own hmatches ht hkey hsame drops₀
  · cases hnone.symm.trans (hfind.trans judges₀.found)
  · cases judges.found.symm.trans (hfind.trans hnone₀)
  · obtain rfl := Option.some.inj (judges.found.symm.trans (hfind.trans judges₀.found))
    exact judges.own hmatches ht hkey hsame ht₀ judges₀

end Own

theorem finishAll_cons_eq_ok {rest rolls : List Value}
    (h : (finishAll notify (id :: rest)).perform t = (.ok rolls, t')) :
    ∃ done t₁ later, (finish notify id).perform t = (.ok done, t₁) ∧
      (finishAll notify rest).perform t₁ = (.ok later, t') := by
  rw [finishAll, Attempt.perform_bind_of_ok (Attempt.perform_get t)] at h
  obtain ⟨done, t₁, hfirst, h⟩ := Attempt.perform_bind_eq_ok.1 h
  obtain ⟨later, t₂, hrest, h⟩ := Attempt.perform_bind_eq_ok.1 h
  cases h
  exact ⟨done, t₁, later, hfirst, hrest⟩

/-- What becomes of a roll when results are given is what becomes of it when only its own result is. -/
theorem finishAll_beside (hn : Observes quiet notify) {ids rolls rolls₀ : List Value}
    (hkeys : ∀ id ∈ ids, id.isKey = true) (hmatches : Matches V r handles t t₀)
    (ht : Discerns quiet r handles t) (ht₀ : Discerns quiet r handles t₀)
    (h : (finishAll notify ids).perform t = (.ok rolls, t'))
    (h₀ : (finishAll notify (ids.filter fun id => id.same r)).perform t₀ = (.ok rolls₀, t₀')) :
    Matches V r handles t' t₀' := by
  induction ids generalizing t t₀ rolls rolls₀ with
  | nil =>
    cases h
    cases h₀
    exact hmatches
  | cons id rest ih =>
    obtain ⟨hkey, hrest⟩ := List.forall_mem_cons.1 hkeys
    obtain ⟨done, t₁, later, hfirst, hlater⟩ := finishAll_cons_eq_ok h
    have ht₁ := ht.finish hn hfirst
    rw [List.filter_cons] at h₀
    split at h₀
    · next hsame =>
      obtain ⟨done₀, t₂, later₀, hfirst₀, hlater₀⟩ := finishAll_cons_eq_ok h₀
      have hown := finish_own hmatches ht hkey hsame hn ht₀ hfirst hfirst₀
      exact ih hrest hown ht₁ (ht₀.finish hn hfirst₀) hlater hlater₀
    · next hother =>
      have hstays : Matches V r handles t₁ t :=
        finish_other ht hkey (Bool.eq_false_iff.2 hother) hn hfirst
      exact ih hrest (hstays.trans hmatches) ht₁ ht₀ hlater h₀

/-! ## A tick -/

/-- The dice are looked at, and the rolls of those that have settled are sorted and get their results. -/
theorem survey_eq_ok {rolls : List Value} (h : (survey notify).perform t = (.ok rolls, t')) :
    ∃ ids dice world sorted,
      pollDice (Policy.ofConfig t.config) t.isFinal t.clock t.dice t.world = (.ok ids, dice, world) ∧
      Order.sortBy Value.lt (distinct ids) = .ok sorted ∧
      (finishAll notify sorted).perform { t with dice, world } = (.ok rolls, t') := by
  obtain ⟨ids, t₁, hpoll, h⟩ := Attempt.perform_bind_eq_ok.1 h
  obtain ⟨sorted, t₂, hlift, h⟩ := Attempt.perform_bind_eq_ok.1 h
  rw [Attempt.perform_lift] at hlift
  obtain ⟨hsort, rfl⟩ := Prod.mk.inj hlift
  rcases hlook : pollDice (Policy.ofConfig t.config) t.isFinal t.clock t.dice t.world with
    ⟨answer, dice, world⟩
  rw [poll, Attempt.perform_of, hlook] at hpoll
  obtain ⟨rfl, rfl⟩ := Prod.mk.inj hpoll
  exact ⟨ids, dice, world, sorted, rfl, hsort, h⟩

/-- When all dice are looked at and rolls get their results, what becomes of a roll is what becomes of it if
no dice but its own are on the tray, wherever both return: its dice, its record in history and, if a body is
taken out without a change of others, the bodies of its dice. The handles of the dice are apart, the ids of
their rolls may be keys, and listeners only look on. -/
theorem independent_of_survey (V : World.Separation ω) (apart : (t.dice.map Die.handle).Nodup)
    (keys : ∀ d ∈ t.dice, d.roll.isKey = true)
    (serials : ∀ a ∈ t.history, ∀ b ∈ t.history, a.serial = b.serial → a = b)
    (observes : Observes quiet notify) (listeners : quiet t.listeners) (r : Value)
    {rolls rolls₀ : List Value} (returns : (survey notify).perform t = (.ok rolls, t'))
    (returns₀ : (survey notify).perform { t with dice := t.diceOf r } = (.ok rolls₀, t₀')) :
    t'.diceOf r = t₀'.diceOf r ∧ t'.find? r = t₀'.find? r ∧
      (V.Removes → ∀ d ∈ t.diceOf r, V.body t'.world d.handle = V.body t₀'.world d.handle) := by
  obtain ⟨ids, dice, world, sorted, hlook, hsort, hfinish⟩ := survey_eq_ok returns
  obtain ⟨ids₀, dice₀, world₀, sorted₀, hlook₀, hsort₀, hfinish₀⟩ := survey_eq_ok returns₀
  let handles : Set Nat := {handle | ∃ d ∈ t.diceOf r, d.handle = handle}
  have hown : ∀ d ∈ t.dice, d.handle ∈ handles ↔ d.roll.same r = true := by
    refine fun d hd => ⟨?_, fun hid => ⟨d, List.mem_filter.2 ⟨hd, hid⟩, rfl⟩⟩
    rintro ⟨d', hd', hhandle⟩
    obtain ⟨hd', hid⟩ := List.mem_filter.1 hd'
    rwa [← List.inj_on_of_nodup_map apart hd' hd hhandle]
  have ht : Discerns quiet r handles t := ⟨listeners, keys, hown, serials⟩
  have hsame := pollDice_same (Policy.ofConfig t.config) t.isFinal t.clock t.dice t.world
  have hsame₀ := pollDice_same (Policy.ofConfig t.config) t.isFinal t.clock (t.diceOf r) t.world
  rw [hlook] at hsame
  rw [show pollDice (Policy.ofConfig t.config) t.isFinal t.clock (t.diceOf r) t.world = _ from hlook₀]
    at hsame₀
  obtain ⟨hids, hdice, hagree⟩ := pollDice_beside _ _ _ V hown (fun _ _ => rfl) hlook hlook₀
  have hkeys : ∀ id ∈ ids, id.isKey = true := by
    intro id hid
    obtain ⟨d, hd, rfl⟩ := pollDice_mem _ _ _ _ _ (congrArg Prod.fst hlook) id hid
    exact keys d hd
  subst hids
  have hmatches : Matches V r handles { t with dice, world } { t with dice := dice₀, world := world₀ } := by
    refine ⟨hdice.trans (List.filter_eq_self.2 fun d hd => ?_).symm, rfl, fun _ => hagree⟩
    rw [← hdice] at hd
    exact (List.mem_filter.1 hd).2
  rw [← filter_sorted hkeys hsort hsort₀] at hfinish₀
  have hsorted : ∀ id ∈ sorted, id.isKey = true := fun id hid =>
    hkeys id (mem_distinct ((Order.sortBy_perm hsort).mem_iff.1 hid))
  obtain ⟨hdice', hfound, hbodies⟩ := finishAll_beside observes hsorted hmatches (ht.look hsame world)
    (ht.alone.look hsame₀ world₀) hfinish hfinish₀
  exact ⟨hdice', hfound, fun hremoves d hd => hbodies hremoves _ ⟨d, hd, rfl⟩⟩

/-- Two rolls whose dice are on the tray, with a die of a roll that is not in history. That die and the die
of the first roll sleep, and the die of the second roll has been awake for three seconds. -/
def crowded : Tray ScriptedWorld :=
  { (performAll announce [.roll "d6", .roll "d4"] vacant).getD vacant with
    listeners := fun _ => []
    pending := #[]
    world := {
      bodies := [(0, { sleeper with face := .int 5 }), (1, sleeper), (2, { sleeper with asleep := false })]
      nextHandle := 3 }
    dice := [dieOf 0 0 "d6" 0, dieOf 1 7 "d8" 0, dieOf 2 1 "d4" (-3)] }
where
  /-- A body that sleeps. -/
  sleeper : ScriptedBody :=
    { face := .int 3, asleep := true, start := .still, velocity := Motion.vector [1, 0, 0],
      angularVelocity := Motion.vector [1, 1, 1] }
  /-- The only die of a roll. -/
  dieOf (handle : Nat) (roll : Int) (kind : String) (awakeSince : Float) : Die :=
    { handle, kind := .text kind, roll := .int roll, group := .int 0, logical := .int 0, tens := .bool false,
      awakeSince := .float awakeSince }

/-- The first roll gets its result, the die without a roll is dropped and the die of the second roll is
slowed down. -/
theorem independent_when_crowded :
    ∃ rolls t', (survey announce).perform crowded = (.ok rolls, t') ∧
      rolls.length = 1 ∧ t'.dice.length = 2 ∧ t'.world.damped.length = 1 ∧
      ∀ r ∈ [Value.int 0, Value.int 1], ∃ rolls₀ t₀',
        (survey announce).perform { crowded with dice := crowded.diceOf r } = (.ok rolls₀, t₀') ∧
        t'.diceOf r = t₀'.diceOf r ∧ t'.find? r = t₀'.find? r ∧
        ∀ d ∈ crowded.diceOf r, t'.world.bodyAt d.handle = t₀'.world.bodyAt d.handle := by
  have hsizes : (((survey announce).perform crowded).1.toOption.map List.length,
      ((survey announce).perform crowded).2.dice.length,
      ((survey announce).perform crowded).2.world.damped.length) = (some 1, 2, 1) := by
    decide +kernel
  have halone : ∀ r ∈ [Value.int 0, Value.int 1],
      ((survey announce).perform { crowded with dice := crowded.diceOf r }).1.isOk = true := by
    decide +kernel
  have hserials : (crowded.history.map Roll.serial).Nodup := by decide +kernel
  rcases hsurvey : (survey announce).perform crowded with ⟨fault | rolls, t'⟩ <;>
    simp only [hsurvey, Prod.mk.injEq] at hsizes
  · cases hsizes.1
  obtain ⟨hrolls, hdice, hdamped⟩ := hsizes
  refine ⟨rolls, t', rfl, Option.some.inj hrolls, hdice, hdamped, fun r hr => ?_⟩
  obtain ⟨rolls₀, hsurvey₀⟩ := Attempt.exists_of_isOk (halone r hr)
  obtain ⟨hsame, hfound, hbodies⟩ := independent_of_survey ScriptedWorld.separation
    (by decide +kernel) (by decide +kernel)
    (fun a ha b hb => List.inj_on_of_nodup_map hserials ha hb) observes_announce onlookers_vacant r
    hsurvey hsurvey₀
  exact ⟨rolls₀, _, hsurvey₀, hsame, hfound, hbodies ScriptedWorld.removes⟩

/-- The same tray in a world whose bodies lean on each other. -/
def leaning : Tray LeaningWorld :=
  { crowded with world := ⟨crowded.world⟩ }

/-- Slowing a body down and putting it to sleep are local there (`LeaningWorld.separation`), and still the
body of the first roll's die is not what it is without the other dice: it wakes up when the die without a
roll is dropped. -/
theorem differs_when_leaning :
    (leaning.dice.map Die.handle).Nodup ∧ (∀ d ∈ leaning.dice, d.roll.isKey = true) ∧
      (leaning.history.map Roll.serial).Nodup ∧ Onlookers leaning.listeners ∧
      ∃ rolls t' rolls₀ t₀', (survey announce).perform leaning = (.ok rolls, t') ∧
        (survey announce).perform { leaning with dice := leaning.diceOf (.int 0) } = (.ok rolls₀, t₀') ∧
        ∃ d ∈ leaning.diceOf (.int 0),
          LeaningWorld.separation.body t'.world d.handle ≠
            LeaningWorld.separation.body t₀'.world d.handle := by
  refine ⟨by decide +kernel, by decide +kernel, by decide +kernel, onlookers_vacant, ?_⟩
  have hall : ((survey announce).perform leaning).1.isOk = true ∧
      (World.isSettled ((survey announce).perform leaning).2.world 0).toOption = some false := by
    decide +kernel
  have halone :
      ((survey announce).perform { leaning with dice := leaning.diceOf (.int 0) }).1.isOk = true ∧
      (World.isSettled ((survey announce).perform
        { leaning with dice := leaning.diceOf (.int 0) }).2.world 0).toOption = some true := by
    decide +kernel
  obtain ⟨rolls, hsurvey⟩ := Attempt.exists_of_isOk hall.1
  obtain ⟨rolls₀, hsurvey₀⟩ := Attempt.exists_of_isOk halone.1
  refine ⟨rolls, _, rolls₀, _, hsurvey, hsurvey₀, crowded.dieOf 0 0 "d6" 0, ?_, fun hbody => ?_⟩
  · exact List.mem_filter.2 ⟨List.mem_cons_self .., by decide +kernel⟩
  · -- The die is awake in the one run and asleep in the other.
    have hawake := hall.2
    have hsettled := LeaningWorld.separation.isSettled hbody
    rw [show (crowded.dieOf 0 0 "d6" 0).handle = 0 from rfl] at hsettled
    rw [hsettled, halone.2] at hawake
    cases hawake

end RollTray.Tray
