import RollTray.Proofs.Heap
import RollTray.Proofs.Tray.Undisturbed
import RollTray.Proofs.Tray.Uses
import RollTray.Proofs.Tray.Waiting

/-!
# Throws that are due

Whatever is done with a tray, and whoever does it (`Leads`), the heap of those that wait is in order unless
there is a time that is no number (`Leads.heaped`): such a throw never leaves it. So a tick takes those that
are due one after the other, in the order of their times and of their numbers (`throwDue_drains`).
`drained_of_tick` says what a tick that returns does about them all: which dice it throws, in what order and
on what tray, and which dice wait afterwards.
-/

namespace RollTray

namespace Value

theorem le_of_num {a b : Value} {m n : Num} (ha : a.num? = some m) (hb : b.num? = some n) :
    a.le b = .ok (m.le n) := by
  rw [le, ha, hb]

/-- What does not come after a float is a number. -/
theorem exists_of_le_float {v : Value} {x : Float} (h : v.le (.float x) = .ok true) :
    ∃ n, v.num? = some n ∧ n.isNaN = false := by
  cases hv : v.num? with
  | some n =>
    rw [le_of_num hv rfl] at h
    exact ⟨n, rfl, (Num.isNaN_of_le (Except.ok.inj h)).1⟩
  | none => cases v <;> cases hv <;> cases h

end Value

namespace Throw

/-- Whether a die may be thrown at a time. -/
def isDue (clock : Float) (throw : Throw) : Bool :=
  match throw.due.le (.float clock) with
  | .ok due => due
  | .error _ => false

/-- The die that is thrown. -/
def die (throw : Throw) (clock : Float) (handle : Nat) : Die where
  handle
  kind := throw.kind
  roll := throw.roll
  group := throw.group
  logical := throw.logical
  tens := throw.tens
  awakeSince := .float clock

theorem Timed.le_eq {throw : Throw} (h : throw.Timed) (clock : Float) :
    throw.due.le (.float clock) = .ok (throw.isDue clock) := by
  obtain ⟨n, hn, _⟩ := h
  rw [isDue, Value.le_of_num hn rfl]

instance (throw : Throw) : Decidable throw.Timed :=
  decidable_of_iff ((throw.due.num?.any fun n => !n.isNaN) = true) (by simp [Timed, Option.any_eq_true])

theorem timed_of_le {throw : Throw} {clock : Float} (h : throw.due.le (.float clock) = .ok true) :
    throw.Timed :=
  Value.exists_of_le_float h

/-- What is due not later than something that is due is due. -/
theorem Timed.isDue_of_le {a b : Throw} (ha : a.Timed) (hb : b.Timed) (hle : a.time ≤ b.time)
    {clock : Float} (h : b.isDue clock = true) : a.isDue clock = true := by
  obtain ⟨m, hm, hmn⟩ := ha
  obtain ⟨n, hn, hnn⟩ := hb
  rw [isDue, Value.le_of_num hn rfl] at h
  rw [isDue, Value.le_of_num hm rfl]
  have hclock := (Num.isNaN_of_le h).2
  rw [time, time, hm, hn] at hle
  exact (Num.le_iff hmn hclock).2 (hle.trans ((Num.le_iff hnn hclock).1 h))

end Throw

namespace Tray

open Attempt (Keeps)

variable {ω : Type}

/-! ## The heap of those that wait -/

/-- Throws have numbers of their own, lower than the next one. -/
structure Apart (nextThrow : Nat) (items : List (Nat × Throw)) : Prop where
  number : ∀ item ∈ items, item.1 < nextThrow
  apart : items.Pairwise fun a b => a.1 ≠ b.1

namespace Apart

variable {nextThrow : Nat} {items items' : List (Nat × Throw)}

theorem cons (h : Apart nextThrow items) (throw : Throw) :
    Apart (nextThrow + 1) ((nextThrow, throw) :: items) where
  number := List.forall_mem_cons.2
    ⟨Nat.lt_succ_self _, fun item hitem => Nat.lt_succ_of_lt (h.number item hitem)⟩
  apart := List.pairwise_cons.2 ⟨fun item hitem => (h.number item hitem).ne', h.apart⟩

theorem tail {item : Nat × Throw} (h : Apart nextThrow (item :: items)) : Apart nextThrow items :=
  ⟨(List.forall_mem_cons.1 h.number).2, h.apart.tail⟩

theorem perm (h : Apart nextThrow items) (hperm : items'.Perm items) : Apart nextThrow items' where
  number item hitem := h.number item (hperm.mem_iff.1 hitem)
  apart := (hperm.pairwise_iff Ne.symm).2 h.apart

/-- Where all times are numbers, throws are compared by their ranks. -/
theorem ranked (h : Apart nextThrow items) (timed : ∀ item ∈ items, item.2.Timed) :
    items.Pairwise (Order.Ranked throwsBefore rank) :=
  h.apart.imp_of_mem fun ha hb hne => throwsBefore_ranked (timed _ ha) (timed _ hb) hne

end Apart

/-- Unless there are times that are no numbers, those that wait are in order. -/
def Heaped (t : Tray ω) : Prop :=
  (∀ item ∈ t.pending.toList, item.2.Timed) →
    Apart t.nextThrow t.pending.toList ∧ Heap.Ordered rank t.pending

namespace Heaped

variable {t t' : Tray ω}

theorem around (h : Heaped t) (hpending : t'.pending = t.pending)
    (hnext : t'.nextThrow = t.nextThrow) : Heaped t' := by
  rw [Heaped, hpending, hnext]
  exact h

theorem addThrow_pending (throw : Throw) (t : Tray ω) :
    ((addThrow throw).perform t).2.pending =
      ((Heap.push throwsBefore (t.nextThrow, throw)).perform t.pending).2 := by
  rw [addThrow, Attempt.perform_bind_of_ok (Attempt.perform_get t), Attempt.perform_bind,
    Attempt.perform_within]
  cases ((Heap.push throwsBefore (t.nextThrow, throw)).perform t.pending).1 with
  | error fault => rfl
  | ok _ => rfl

theorem addThrow (throw : Throw) : Keeps (Heaped (ω := ω)) (addThrow throw) := by
  intro t h
  have hpushed := addThrow_pending throw t
  obtain ⟨pending, hperm, hadd⟩ := addThrow_cases throw t
  have hleft : ((Tray.addThrow throw).perform t).2.pending = pending := by
    rcases hadd with hadd | ⟨_, hadd⟩ <;> rw [hadd]
  intro htimed
  rw [hleft] at htimed hpushed
  have htimed' : ∀ item ∈ (t.nextThrow, throw) :: t.pending.toList, item.2.Timed :=
    fun item hitem => htimed item (hperm.mem_iff.2 hitem)
  obtain ⟨hapart, hordered⟩ := h fun item hitem => htimed' item (List.mem_cons_of_mem _ hitem)
  have hranked := (hapart.cons throw).ranked htimed'
  rcases hadd with hadd | ⟨hclash, _⟩
  · rw [hadd]
    refine ⟨(hapart.cons throw).perm hperm, hpushed ▸ Heap.ordered_push ?_ hordered⟩
    rw [Array.toList_push]
    exact (List.perm_append_comm.pairwise_iff Order.Ranked.symm).2 hranked
  · exact absurd (hranked.imp Order.Ranked.comparable) hclash

/-- A throw that is due has a number for its time, so those that are left are in order as before. -/
theorem takeThrow (h : Heaped t) {order : Nat} {throw : Throw}
    (hfirst : t.pending[0]? = some (order, throw)) (htimed : throw.Timed) :
    Heaped (takeThrow.perform t).2 := by
  have hperm := pop_toList_perm hfirst
  intro hrest
  have hall : ∀ item ∈ t.pending.toList, item.2.Timed := by
    intro item hitem
    rcases List.mem_cons.1 (hperm.mem_iff.1 hitem) with rfl | hitem
    · exact htimed
    · exact hrest item hitem
  obtain ⟨hapart, hordered⟩ := h hall
  exact ⟨(hapart.perm hperm.symm).tail, Heap.ordered_pop (hapart.ranked hall) hordered⟩

variable [World ω]

theorem throwNext (h : Heaped t) {order : Nat} {throw : Throw}
    (hfirst : t.pending[0]? = some (order, throw)) (hdue : throw.due.le (.float t.clock) = .ok true) :
    Heaped ((throwNext throw).perform t).2 := by
  have hrelease : Keeps (Heaped (ω := ω)) (release throw) := by
    refine Keeps.bind (.within fun _ h => h.around rfl rfl) fun _ => ?_
    exact .bind (.within fun _ h => h.around rfl rfl) fun _ => .get fun _ h => h.around rfl rfl
  exact Keeps.bind_from (h.takeThrow hfirst (Throw.timed_of_le hdue)) (fun _ h => h)
    fun _ => keeps_throwDie hrelease

theorem takeOff (taken : Die → Bool) : Keeps (Heaped (ω := ω)) (takeOff taken) := by
  intro t h
  obtain ⟨world, dice, hperform⟩ := takeOff_perform_snd taken t
  rw [hperform]
  exact h.around rfl rfl

end Heaped

variable [World ω]

/-- Those that wait stay in order whatever is done with the tray. -/
theorem upkeep_heaped : Upkeep (Heaped (ω := ω)) :=
  .of_dice (fun h _ _ hpending hnext => h.around hpending hnext) Heaped.takeOff
    (fun throw _ => Heaped.addThrow throw) (fun h hfirst hdue => h.throwNext hfirst hdue) fun _ => .within fun _ h => h.around rfl rfl

theorem Heaped.deed {notify : Notify ω} (hn : ∀ event r, Keeps Heaped (notify event r)) (deed : Deed) :
    Keeps Heaped (deed.attempt notify) :=
  upkeep_heaped.deed hn (fun _ h => h.around rfl rfl) (fun _ h => h.around rfl rfl)
    (fun _ => .of_modify fun _ h => h.around rfl rfl) (keeps_placeDie fun _ _ h => h.around rfl rfl)
    Heaped.addThrow deed

/-- One tray leads to another one, whatever is done with it and by whom. Those who are told of events may
do the like in turn. -/
inductive Leads : Tray ω → Tray ω → Prop where
  | refl {t} : Leads t t
  /-- Something is done, whether it returns or not. -/
  | act {t t'} (leads : Leads t t') (deed : Deed) (notify : Notify ω)
      (reacts : ∀ event r s, Leads s ((notify event r).perform s).2) :
      Leads t ((deed.attempt notify).perform t').2
  /-- A throw is added. -/
  | add {t t'} (leads : Leads t t') (throw : Throw) : Leads t ((addThrow throw).perform t').2
  /-- Anything else is changed, but not those that wait. -/
  | outside {t t' t''} (leads : Leads t t') (pending : t''.pending = t'.pending)
      (nextThrow : t''.nextThrow = t'.nextThrow) : Leads t t''

variable {t t' : Tray ω}

theorem Leads.heaped (leads : Leads t t') (h : Heaped t) : Heaped t' := by
  induction leads with
  | refl => exact h
  | act _ deed notify _ ih ihreacts =>
    exact Heaped.deed (fun event r s hs => ihreacts event r s hs) deed _ (ih h)
  | add _ throw ih => exact Heaped.addThrow throw _ (ih h)
  | outside _ pending nextThrow ih => exact (ih h).around pending nextThrow

/-- What a listener does is what may be done with a tray. -/
theorem leads_react {notify : Notify ω} (hn : ∀ event r s, Leads s ((notify event r).perform s).2)
    (r : Record) (reaction : Reaction) : Keeps (Leads t) (react notify r reaction) := by
  intro s leads
  cases reaction with
  | none => exact leads
  | cancel => exact leads.act (.cancel r.id) notify hn
  | clearTray => exact leads.act (.operation .clearTray) notify hn
  | reroll => exact leads.act (.reroll r.id) notify hn
  | roll formula =>
    cases formula with
    | text formula => exact leads.act (.operation (.roll formula)) notify hn
    | _ => exact leads

theorem leads_tell {notify : Notify ω} (hn : ∀ event r s, Leads s ((notify event r).perform s).2)
    (r : Record) (told : List Listener) : Keeps (Leads t) (tell notify r told) := by
  induction told with
  | nil => exact .pure _
  | cons listener rest ih =>
    have hnote : Keeps (Leads t) (note (.told listener.tag r.id)) :=
      .of_modify fun _ leads => leads.outside rfl rfl
    exact hnote.bind fun _ => (leads_react hn r _).bind fun _ => ih.bind fun _ => .pure _

/-- Listeners are among those who may use the tray in turn. -/
theorem leads_announce (event : Event) (r : Record) (t : Tray ω) :
    Leads t ((announce event r).perform t).2 := by
  suffices hdepth : ∀ depth event r (t : Tray ω), Leads t ((announceWithin depth event r).perform t).2 from
    hdepth deepest event r t
  intro depth
  induction depth with
  | zero => exact fun _ _ _ => .outside .refl rfl rfl
  | succ depth ih =>
    intro event r t
    have hnote : Keeps (Leads t) (note (.happened event r.id r.result)) :=
      .of_modify fun _ leads => leads.outside rfl rfl
    refine hnote.bind (fun _ => .get fun s leads => ?_) t .refl
    refine Keeps.bind (leads_tell ih r _) (fun staying => ?_) s leads
    exact .of_modify fun _ leads => leads.outside rfl rfl

theorem leads_of_performAll {ops : List Operation} {t t' : Tray ω}
    (h : performAll announce ops t = some t') : Leads t t' := by
  suffices hops : ∀ s, Leads t s → performAll announce ops s = some t' → Leads t t' from hops t .refl h
  clear h
  induction ops with
  | nil =>
    intro s leads h
    cases h
    exact leads
  | cons op rest ih =>
    intro s leads h
    rw [performAll] at h
    split at h
    · next hperform =>
      have hstep := leads.act (.operation op) announce leads_announce
      rw [Deed.attempt, hperform] at hstep
      exact ih _ hstep h
    · cases h

theorem Leads.undisturbed {F : Footing ω} {t₀ : Tray ω} (leads : Leads t₀ t) (run : Undisturbed F t t') :
    Leads t₀ t' := by
  induction run with
  | refl => exact leads
  | act _ op ih => exact ih.act (.operation op) announce leads_announce
  | outside _ world chance listeners _ _ ih => exact ih.outside rfl rfl

/-! ## Dice that are thrown -/

/-- Whether a die is thrown when it is due: its roll is active and above the watermark. -/
def throws (t : Tray ω) (throw : Throw) : Bool :=
  match isPast t.watermark throw.roll with
  | .ok false => t.isActive throw.roll
  | _ => false

/-- The throws that dice are thrown for when time has gone on to some clock. -/
def outgoing (t : Tray ω) (clock : Float) (waiting : List Throw) : List Throw :=
  waiting.filter fun throw => throw.isDue clock && t.throws throw

theorem release_eq (throw : Throw) (t : Tray ω) :
    (release throw).perform t =
      match (Motion.drawThrow throw.index throw.total (.float 0)).perform t.chance with
      | (.error fault, chance) => (.error fault, { t with chance })
      | (.ok motion, chance) =>
        match (World.spawn throw.kind throw.tens (some motion)).perform t.world with
        | (.error fault, world) => (.error fault, { t with chance, world })
        | (.ok handle, world) =>
          (.ok (), { t with chance, world, dice := t.dice ++ [throw.die t.clock handle] }) := by
  rw [release, Attempt.perform_bind, withChance, Attempt.perform_within]
  rcases (Motion.drawThrow throw.index throw.total (.float 0)).perform t.chance with ⟨fault | motion, chance⟩
  · rfl
  · show (withWorld _ >>= _ : Attempt (Tray ω) Unit).perform { t with chance } = _
    rw [Attempt.perform_bind, withWorld, Attempt.perform_within]
    dsimp only
    rcases (World.spawn throw.kind throw.tens (some motion)).perform t.world with ⟨fault | handle, world⟩
    · rfl
    · rfl

/-- The dice that wait do not matter to a die that is thrown. -/
theorem release_beside {throw : Throw} {t t' : Tray ω} (h : (release throw).perform t = (.ok (), t'))
    (pending : Array (Nat × Throw)) :
    (release throw).perform { t with pending } = (.ok (), { t' with pending }) := by
  rw [release_eq] at h ⊢
  dsimp only
  split at h
  · cases h
  · split at h
    · cases h
    · cases h
      rfl

/-- What is left of a tray when a die was thrown onto it. -/
theorem exists_of_release {throw : Throw} {t t' : Tray ω}
    (h : (release throw).perform t = (.ok (), t')) :
    ∃ chance world handle,
      t' = { t with chance, world, dice := t.dice ++ [throw.die t.clock handle] } := by
  rw [release_eq] at h
  split at h
  · cases h
  · split at h
    · cases h
    · cases h
      exact ⟨_, _, _, rfl⟩

/-- Dice are thrown one after the other. -/
theorem exists_of_forM_release {throws : List Throw} {t t' : Tray ω}
    (h : (throws.forM release).perform t = (.ok (), t')) :
    ∃ chance world dice, t' = { t with chance, world, dice := t.dice ++ dice } ∧
      List.Forall₂ (fun throw d => d = throw.die t.clock d.handle) throws dice := by
  induction throws generalizing t with
  | nil =>
    cases h
    exact ⟨t'.chance, t'.world, [], by rw [List.append_nil], .nil⟩
  | cons throw rest ih =>
    obtain ⟨_, t₁, hfirst, h⟩ := Attempt.perform_bind_eq_ok.1 h
    obtain ⟨_, _, handle, rfl⟩ := exists_of_release hfirst
    obtain ⟨chance, world, dice, rfl, hdice⟩ := ih h
    refine ⟨chance, world, throw.die t.clock handle :: dice, ?_, .cons rfl hdice⟩
    rw [List.append_assoc]
    rfl

/-- A die that was taken from those that wait is thrown, or nothing happens. -/
theorem throwDie_eq_ok {throw : Throw} {t t' : Tray ω} (h : (throwDie throw).perform t = (.ok (), t')) :
    if t.throws throw then (release throw).perform t = (.ok (), t') else t' = t := by
  rw [throwDie_eq] at h
  rw [Tray.throws]
  cases hpast : isPast t.watermark throw.roll with
  | error fault =>
    rw [hpast] at h
    cases h
  | ok past =>
    rw [hpast] at h
    cases past with
    | true =>
      cases h
      exact (if_neg Bool.false_ne_true).symm ▸ rfl
    | false =>
      dsimp only at h ⊢
      split at h
      · next hactive =>
        rw [if_pos hactive]
        exact h
      · next hinactive =>
        cases h
        rw [if_neg hinactive]

/-- A die is taken from those that wait and thrown, if it is to be thrown. -/
theorem throwNext_eq_ok {throw : Throw} {t t' : Tray ω}
    (h : (throwNext throw).perform t = (.ok (), t')) :
    ∃ chance world dice,
      t' = { t with
        pending := ((Heap.pop throwsBefore).perform t.pending).2, chance, world, dice } ∧
      ∀ pending, (if t.throws throw then release throw else Pure.pure ()).perform { t with pending } =
        (.ok (), { t' with pending }) := by
  obtain ⟨_, t₁, htake, h⟩ := Attempt.perform_bind_eq_ok.1 h
  rw [takeThrow, Attempt.perform_within] at htake
  have htaken : { t with pending := ((Heap.pop throwsBefore).perform t.pending).2 } = t₁ :=
    congrArg Prod.snd htake
  subst htaken
  have hdie := throwDie_eq_ok h
  by_cases hthrows : t.throws throw
  · replace hdie := (if_pos hthrows).mp hdie
    obtain ⟨chance, world, handle, rfl⟩ := exists_of_release hdie
    refine ⟨chance, world, _, rfl, fun pending => ?_⟩
    rw [if_pos hthrows]
    exact release_beside hdie pending
  · replace hdie := (if_neg hthrows).mp hdie
    subst hdie
    refine ⟨t.chance, t.world, t.dice, rfl, fun pending => ?_⟩
    rw [if_neg hthrows]
    rfl

/-- Those that wait, in the order in which they are due: their times are numbers, no two throws have one
number, and the heap is in order. -/
structure Queue (items : List (Nat × Throw)) (t : Tray ω) : Prop where
  all : items.Perm t.pending.toList
  sorted : items.Pairwise fun a b => rank a < rank b
  apart : Apart t.nextThrow t.pending.toList
  ordered : Heap.Ordered rank t.pending
  timed : ∀ item ∈ t.pending.toList, item.2.Timed

namespace Queue

variable {items rest : List (Nat × Throw)} {first : Nat × Throw} {t : Tray ω}

omit [World ω] in
theorem timed_of_mem (h : Queue items t) {item : Nat × Throw} (hitem : item ∈ items) : item.2.Timed :=
  h.timed item (h.all.mem_iff.1 hitem)

omit [World ω] in
theorem eq_nil (h : Queue items t) (hnone : t.pending[0]? = none) : items = [] := by
  have hempty : t.pending.toList = [] := by simpa using hnone
  exact List.perm_nil.1 (hempty ▸ h.all)

omit [World ω] in
/-- The first one is at the top of the heap. -/
theorem exists_cons (h : Queue items t) (hfirst : t.pending[0]? = some first) : ∃ rest, items = first :: rest :=
  h.ordered.exists_cons hfirst h.all h.sorted

omit [World ω] in
/-- When the first one was taken, the others wait. -/
theorem tail (h : Queue (first :: rest) t) (hfirst : t.pending[0]? = some first) (chance : Chance) (world : ω)
    (dice : List Die) :
    Queue rest { t with pending := ((Heap.pop throwsBefore).perform t.pending).2, chance, world, dice } :=
  have hperm := pop_toList_perm hfirst
  { all := (h.all.trans hperm).cons_inv
    sorted := h.sorted.tail
    apart := (h.apart.perm hperm.symm).tail
    ordered := Heap.ordered_pop (h.apart.ranked h.timed) h.ordered
    timed := fun item hitem => h.timed item (hperm.mem_iff.2 (List.mem_cons_of_mem _ hitem)) }

omit [World ω] in
/-- If the first one is not due, none is. -/
theorem not_due (h : Queue (first :: rest) t) {clock : Float} (hdue : first.2.isDue clock = false) :
    ∀ item ∈ first :: rest, item.2.isDue clock = false := by
  intro item hitem
  rcases List.mem_cons.1 hitem with rfl | hrest
  · exact hdue
  · have hlt := (List.pairwise_cons.1 h.sorted).1 item hrest
    refine Bool.eq_false_iff.2 fun hlater => ?_
    have hfirst := h.timed_of_mem (List.mem_cons_self ..)
    rw [hfirst.isDue_of_le (h.timed_of_mem hitem) (Prod.Lex.monotone_fst _ _ hlt.le) hlater] at hdue
    cases hdue

end Queue

omit [World ω] in
theorem outgoing_eq_nil {items : List (Nat × Throw)} {clock : Float}
    (hnone : ∀ item ∈ items, item.2.isDue clock = false) (t : Tray ω) :
    t.outgoing clock (items.map Prod.snd) = [] := by
  refine List.filter_eq_nil_iff.2 fun throw hthrow => ?_
  obtain ⟨item, hitem, rfl⟩ := List.mem_map.1 hthrow
  rw [hnone item hitem]
  exact Bool.false_ne_true

/-- A die that is due is thrown before those that wait behind it, or not at all. -/
theorem forM_outgoing_cons {throw : Throw} {clock : Float} (hdue : throw.isDue clock = true)
    (waiting : List Throw) (t : Tray ω) :
    ((t.outgoing clock (throw :: waiting)).forM release : Attempt (Tray ω) Unit) =
      ((if t.throws throw then release throw else Pure.pure ()) >>= fun _ =>
        (t.outgoing clock waiting).forM release) := by
  rw [outgoing]
  split
  · next hthrows => rw [List.filter_cons_of_pos (by rw [hdue, hthrows]; rfl), List.forM, outgoing]
  · next hskips => rw [List.filter_cons_of_neg (by simp [hskips]), pure_bind, outgoing]

/-- The dice that are due are taken from those that wait, in their order, and thrown if they are to be
thrown. -/
theorem throwDue_drains {left : Nat} {items : List (Nat × Throw)} {t t' : Tray ω}
    (hleft : items.length ≤ left) (hqueue : Queue items t)
    (h : (throwDue left).perform t = (.ok (), t')) :
    t'.pending.toList.Perm (items.filter fun item => !item.2.isDue t.clock) ∧
      ((t.outgoing t.clock (items.map Prod.snd)).forM release).perform { t with pending := t'.pending } =
        (.ok (), t') := by
  induction left generalizing t items with
  | zero =>
    obtain rfl : items = [] := List.length_eq_zero_iff.1 (Nat.le_zero.1 hleft)
    cases h
    exact ⟨hqueue.all.symm, rfl⟩
  | succ left ih =>
    rw [throwDue, Attempt.perform_bind_of_ok (Attempt.perform_get t)] at h
    split at h
    · next hnone =>
      cases h
      obtain rfl := hqueue.eq_nil hnone
      exact ⟨hqueue.all.symm, rfl⟩
    · next order throw hfirst =>
      obtain ⟨rest, rfl⟩ := hqueue.exists_cons hfirst
      have htimed : throw.Timed := hqueue.timed_of_mem (List.mem_cons_self ..)
      rw [htimed.le_eq] at h
      cases hdue : throw.isDue t.clock with
      | false =>
        rw [hdue] at h
        cases h
        have hnone := hqueue.not_due hdue
        rw [outgoing_eq_nil hnone, List.filter_eq_self.2 fun item hitem => by rw [hnone item hitem]; rfl]
        exact ⟨hqueue.all.symm, rfl⟩
      | true =>
        rw [hdue] at h
        replace h : (throwNext throw >>= fun _ => throwDue left).perform t = (.ok (), t') := h
        obtain ⟨_, t₁, hnext, hlater⟩ := Attempt.perform_bind_eq_ok.1 h
        obtain ⟨chance, world, dice, rfl, hthrown⟩ := throwNext_eq_ok hnext
        obtain ⟨hleft, hforM⟩ := ih (Nat.le_of_succ_le_succ hleft) (hqueue.tail hfirst chance world dice) hlater
        refine ⟨by rwa [List.filter_cons_of_neg (by simp [hdue])], ?_⟩
        rw [List.map_cons, forM_outgoing_cons hdue, Attempt.perform_bind_of_ok (hthrown t'.pending)]
        exact hforM

/-! ## Ticks -/

/-- What a tick does about those that wait, who are given in their order, up to the time when the dice are
looked at. -/
structure Drained (dt : Num) (items : List (Nat × Throw)) (t t' : Tray ω) : Prop where
  /-- The clock goes on. -/
  clock : ∃ time, (Num.float t.clock).add dt = .ok time ∧ time.toFloat = .ok t'.clock
  /-- Those that are due later go on waiting, and no others. -/
  left : t'.pending.toList.Perm (items.filter fun item => !item.2.isDue t'.clock)
  /-- The dice are thrown, one after the other, and then the world moves. -/
  thrown :
    (do (t.outgoing t'.clock (items.map Prod.snd)).forM release; withWorld (World.step dt)).perform
      { t with clock := t'.clock, pending := t'.pending } = (.ok (), t')
  /-- Dice were thrown for these throws, in this order. All else is as it was, but for the world and the
  source of chance. -/
  dice : ∃ dice,
    List.Forall₂ (fun throw d => d = throw.die t'.clock d.handle)
      (t.outgoing t'.clock (items.map Prod.snd)) dice ∧
    t' = { t with
      clock := t'.clock, chance := t'.chance, world := t'.world, pending := t'.pending,
      dice := t.dice ++ dice }

theorem drained_of_proceed {dt : Num} {items : List (Nat × Throw)} {t t' : Tray ω}
    (hitems : items.Perm t.pending.toList) (hsorted : items.Pairwise fun a b => rank a < rank b)
    (hapart : Apart t.nextThrow t.pending.toList) (hordered : Heap.Ordered rank t.pending)
    (htimed : ∀ item ∈ t.pending.toList, item.2.Timed)
    (h : (proceed dt).perform t = (.ok (), t')) : Drained dt items t t' := by
  obtain ⟨_, _, hget, h⟩ := Attempt.perform_bind_eq_ok.1 h
  cases hget
  obtain ⟨time, _, hadd, h⟩ := Attempt.perform_bind_eq_ok.1 h
  obtain ⟨htime, rfl⟩ := Prod.mk.inj hadd
  obtain ⟨clock, _, hround, h⟩ := Attempt.perform_bind_eq_ok.1 h
  obtain ⟨hclock, rfl⟩ := Prod.mk.inj hround
  obtain ⟨_, _, hset, h⟩ := Attempt.perform_bind_eq_ok.1 h
  cases hset
  obtain ⟨_, _, hget, h⟩ := Attempt.perform_bind_eq_ok.1 h
  cases hget
  obtain ⟨_, t₁, hthrow, hstep⟩ := Attempt.perform_bind_eq_ok.1 h
  obtain ⟨hleft, hthrown⟩ := throwDue_drains (t := { t with clock }) (by simpa using hitems.length_eq.le)
    ⟨hitems, hsorted, hapart, hordered, htimed⟩ hthrow
  have hmoved : { t₁ with world := ((World.step dt).perform t₁.world).2 } = t' := congrArg Prod.snd hstep
  obtain ⟨chance, world, dice, ht₁, hdice⟩ := exists_of_forM_release hthrown
  rw [ht₁] at hmoved
  subst hmoved
  exact {
    clock := ⟨time, htime, hclock⟩
    left := hleft
    thrown := (Attempt.perform_bind_of_ok hthrown).trans hstep
    dice := ⟨dice, hdice, rfl⟩ }

/-- Where listeners only look on, results are given without a change of the clock or of those that wait. -/
theorem survey_keeps {quiet : (Event → List Listener) → Prop} {notify : Notify ω}
    (hn : Observes quiet notify) {t : Tray ω} (hquiet : quiet t.listeners) :
    ((survey notify).perform t).2.pending = t.pending ∧
      ((survey notify).perform t).2.clock = t.clock := by
  let Unmoved (s : Tray ω) : Prop := quiet s.listeners ∧ s.pending = t.pending ∧ s.clock = t.clock
  have hnotify : ∀ event r, Keeps Unmoved (notify event r) := by
    rintro event r s ⟨hs, hrest⟩
    obtain ⟨listeners, journal, hlisteners, hperform⟩ := hn event r s hs
    rw [hperform]
    exact ⟨hlisteners, hrest⟩
  have htake : ∀ id, Keeps Unmoved (removeDice id) := by
    intro id s hs
    obtain ⟨world, dice, hperform⟩ := takeOff_perform_snd (fun d => d.roll.same id) s
    rw [removeDice, hperform]
    exact hs
  have hpoll : Keeps Unmoved poll := fun _ hs => hs
  have hkeeps : Keeps Unmoved (survey notify) :=
    hpoll.bind fun _ => (Keeps.lift _).bind fun _ =>
      keeps_finishAll (P := fun _ => True) (fun _ _ _ => trivial) (fun hs _ => htake _ _ hs)
        (fun hs _ _ _ => hs) (fun event r _ => hnotify event r) _
  exact (hkeeps t ⟨hquiet, rfl, rfl⟩).2

/-- A tick takes all dice that are due from those that wait, which are no others, and throws those whose
rolls are active and above the watermark, in the order in which they are due and, at one time, in which
they were added. The dice are looked at when this is done. -/
theorem drained_of_tick {t₀ t t' : Tray ω} (new : t₀.pending = #[]) (leads : Leads t₀ t)
    (timed : ∀ item ∈ t.pending.toList, item.2.Timed) {quiet : (Event → List Listener) → Prop}
    {notify : Notify ω} (observes : Observes quiet notify) (listeners : quiet t.listeners) {dt : Num}
    {rolls : List Value} (returns : (tick notify dt).perform t = (.ok rolls, t')) :
    ∃ items t₁, t.waiting = .ok (items.map Prod.snd) ∧ items.Perm t.pending.toList ∧
      (items.Pairwise fun a b => rank a < rank b) ∧
      (proceed dt).perform t = (.ok (), t₁) ∧ Drained dt items t t₁ ∧
      (survey notify).perform t₁ = (.ok rolls, t') ∧ t'.clock = t₁.clock ∧ t'.pending = t₁.pending ∧
      t'.waiting = .ok ((items.filter fun item => !item.2.isDue t'.clock).map Prod.snd) ∧
      ∀ item ∈ t'.pending.toList, item.2.due.le (.float t'.clock) = .ok false := by
  have hempty : Heaped t₀ := by
    intro _
    rw [new]
    exact ⟨⟨List.forall_mem_nil _, .nil⟩, Heap.ordered_empty⟩
  obtain ⟨hapart, hordered⟩ := leads.heaped hempty timed
  obtain ⟨items, hwaiting, hperm, hsorted⟩ := exists_items hapart.apart timed
  rw [tick_eq] at returns
  obtain ⟨_, t₁, hproceed, hsurvey⟩ := Attempt.perform_bind_eq_ok.1 returns
  have hdrained : Drained dt items t t₁ :=
    drained_of_proceed hperm hsorted hapart hordered timed hproceed
  obtain ⟨dice, _, ht₁⟩ := hdrained.dice
  have hkeeps := survey_keeps observes (t := t₁) (by rw [ht₁]; exact listeners)
  rw [hsurvey] at hkeeps
  obtain ⟨hpending, hclock⟩ := hkeeps
  have hleft : t'.pending.toList.Perm (items.filter fun item => !item.2.isDue t'.clock) := by
    rw [hpending, hclock]
    exact hdrained.left
  have htimed : ∀ item ∈ items, item.2.Timed := fun item hitem => timed item (hperm.mem_iff.1 hitem)
  refine ⟨items, t₁, hwaiting, hperm, hsorted, hproceed, hdrained, hsurvey, hclock, hpending, ?_, ?_⟩
  · refine waiting_eq hleft (((hperm.pairwise_iff Ne.symm).2 hapart.apart).filter _)
      (fun item hitem => htimed item (List.mem_filter.1 hitem).1) (hsorted.filter _)
  · intro item hitem
    obtain ⟨hmem, hlater⟩ := List.mem_filter.1 (hleft.mem_iff.1 hitem)
    rw [(htimed item hmem).le_eq, Bool.eq_false_of_not_eq_true' hlater]

/-- A die is due in a second. Of two dice of a canceled roll and of two dice of an active one, one each is
due at once and the other one shortly after. That of the canceled roll is left out, and the other is
thrown. -/
theorem drained_after_canceling :
    ∃ t rolls t', performAll announce
          [.tick (.int 1), .roll "d20", .tick (.int (-1)), .roll "2d6", .cancel 1, .roll "2d8"] vacant =
        some t ∧
      (tick announce (.int 0)).perform t = (.ok rolls, t') ∧
      (t.pending.size, t.dice.length) = (5, 0) ∧ t'.pending.size = 3 ∧
      t'.dice.map (fun d => Value.ints? [d.roll]) = [some [2]] ∧
      ∃ items t₁, t.waiting = .ok (items.map Prod.snd) ∧ (proceed (.int 0)).perform t = (.ok (), t₁) ∧
        Drained (.int 0) items t t₁ ∧
        t'.waiting = .ok ((items.filter fun item => !item.2.isDue t'.clock).map Prod.snd) ∧
        ∀ item ∈ t'.pending.toList, item.2.due.le (.float t'.clock) = .ok false := by
  have hrun : ∃ t ∈ performAll announce
        [.tick (.int 1), .roll "d20", .tick (.int (-1)), .roll "2d6", .cancel 1, .roll "2d8"] vacant,
      ((tick announce (.int 0)).perform t).1.isOk = true ∧ (t.pending.size, t.dice.length) = (5, 0) ∧
        ((tick announce (.int 0)).perform t).2.pending.size = 3 ∧
        ((tick announce (.int 0)).perform t).2.dice.map (fun d => Value.ints? [d.roll]) = [some [2]] ∧
        ∀ item ∈ t.pending.toList, item.2.Timed := by
    decide +kernel
  obtain ⟨t, ht, hreturns, hsizes, hleft, hthrown, htimed⟩ := hrun
  obtain ⟨rolls, htick⟩ := Attempt.exists_of_isOk hreturns
  have run : Undisturbed ScriptedWorld.footing vacant t := undisturbed_of_performAll ht
  obtain ⟨_, ho⟩ :=
    (run.intact (fresh_vacant.intact (ScriptedWorld.bears_nil _) onlookers_vacant)).orderly
  obtain ⟨items, t₁, hwaiting, _, _, hproceed, hdrained, _, _, _, hlater, hnone⟩ :=
    drained_of_tick rfl (leads_of_performAll ht) htimed observes_announce ho.quiet htick
  exact ⟨t, rolls, _, ht, htick, hsizes, hleft, hthrown, items, t₁, hwaiting, hproceed, hdrained, hlater,
    hnone⟩

end Tray

end RollTray
