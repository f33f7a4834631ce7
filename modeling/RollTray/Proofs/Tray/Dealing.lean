import RollTray.Proofs.Dice.Ranges
import RollTray.Proofs.Tray.Evidence
import RollTray.Proofs.Tray.Genuine

/-!
# Results in range

In the simulated world with a fair source of chance, whatever comes of operations and whichever bodies are
knocked over in between (`Tossed`), every record that has results has as many in each group as the group
has dice, and each of them is between one and the number of faces of the group's kind
(`ranged_of_tossed`).

The invariant (`Dealt`) says of active rolls that their dice sit at seats of their own: a seat is a site
together with the kind of dice that belongs there. So the dice of a roll that is complete take all its
seats, each of them shows a face of its kind (`Bodied`), and they can be read (`shown_of_seats`).
-/

namespace RollTray

/-! ## Seats -/

/-- A physical die's site in its roll, with the kind of dice that belongs there. -/
abbrev Seat := Site × Value

def Die.seat (d : Die) : Seat := (d.site, d.kind)

def Throw.seat (throw : Throw) : Seat := (throw.site, throw.kind)

def Tray.Place.seat (p : Tray.Place) : Seat := (p.site, .text p.kind.name)

/-- The seats of a record's dice. -/
def Record.seats (r : Record) : List Seat :=
  r.groups.zipIdx.flatMap fun (g, index) => (g.sites index).map (·, g.kind)

theorem seats_congr {r r' : Record} (h : r.groups = r'.groups) : r.seats = r'.seats := by
  rw [Record.seats, Record.seats, h]

theorem kind_of_mem_placesOf {group : Nat} {term : Formula.DiceTerm} {p : Tray.Place}
    (h : p ∈ Tray.placesOf group term) : p.group = group ∧ p.kind = term.kind := by
  obtain ⟨_, _, h⟩ := List.mem_flatMap.1 h
  obtain ⟨_, _, rfl⟩ := List.mem_map.1 h
  exact ⟨rfl, rfl⟩

theorem seats_of_groups {r : Record} {terms : List Formula.DiceTerm}
    (h : r.groups = terms.map Group.ofTerm) : r.seats = (Tray.places terms).map Tray.Place.seat := by
  rw [Record.seats, Tray.places, h, List.zipIdx_map, List.flatMap_map, List.map_flatMap]
  refine congrArg (List.flatMap · _) (funext fun x => ?_)
  obtain ⟨term, index⟩ := x
  dsimp only [Prod.map, id]
  rw [sites_ofTerm, List.map_map]
  refine List.map_congr_left fun p hp => Prod.ext rfl ?_
  show Value.text term.kind.name = .text p.kind.name
  rw [(kind_of_mem_placesOf hp).2]

theorem sites_of_seats (r : Record) : r.seats.map Prod.fst = r.sites := by
  rw [Record.seats, Record.sites, List.map_flatMap]
  refine congrArg (List.flatMap · _) (funext fun x => ?_)
  obtain ⟨g, index⟩ := x
  rw [List.map_map]
  exact List.map_id _

/-! ## Dice at their seats -/

theorem DieKind.eq_of_name {kind kind' : DieKind} (h : kind.name = kind'.name) : kind = kind' :=
  Option.some.inj <|
    calc some kind = ofName? kind.name := (ofName?_name kind).symm
      _ = ofName? kind'.name := congrArg ofName? h
      _ = some kind' := ofName?_name kind'

/-- If settled dice sit at the seats of a formula's terms, they show faces of these. -/
theorem shown_of_seats {w : SimulatedWorld} {terms : List Formula.DiceTerm} {dice : List Die}
    (seats : (dice.map Die.seat).Perm ((Tray.places terms).map Tray.Place.seat))
    (genuine : ∀ d ∈ dice, ∃ kind tens, w.Genuine kind tens d)
    (settled : ∀ d ∈ dice, d.settled = true) : Dice.Shown terms dice where
  sites := by
    have hsites := seats.map Prod.fst
    rw [List.map_map, List.map_map] at hsites
    exact hsites
  faces d hd := by
    obtain ⟨p, hp, hseat⟩ := List.mem_map.1 (seats.mem_iff.1 (List.mem_map_of_mem hd))
    obtain ⟨⟨term, index⟩, hterm, hp⟩ := List.mem_flatMap.1 hp
    obtain ⟨rfl, hpkind⟩ := kind_of_mem_placesOf hp
    obtain ⟨hsite, hkind⟩ := Prod.mk.inj hseat
    obtain ⟨hgroup, _, _⟩ := Site.mk.inj hsite
    obtain ⟨kind, tens, hd'⟩ := genuine d hd
    obtain rfl : kind = term.kind := by
      refine DieKind.eq_of_name (Value.text.inj ?_)
      rw [← hd'.kind_eq, ← hkind, hpkind]
    refine ⟨_, term, hgroup.symm, List.mem_zipIdx_iff_getElem?.1 hterm, hd'.kind_eq, ?_⟩
    rw [hd'.tens_eq]
    exact hd'.value (settled d hd)

namespace Tray

open Attempt (Keeps)

/-- The seats of a roll's dice, on the tray and waiting. -/
def seatsOf {ω : Type} (t : Tray ω) (id : Value) : List Seat :=
  t.heldOf Die.seat Throw.seat id

theorem seats_of_forall₂ {dice dice' : List Die}
    (h : List.Forall₂ (fun d d' => d'.roll = d.roll ∧ d'.seat = d.seat) dice dice') (id : Value) :
    (dice'.filter fun d => d.roll.same id).map Die.seat =
      (dice.filter fun d => d.roll.same id).map Die.seat := by
  induction h with
  | nil => rfl
  | cons hsame _ ih =>
    obtain ⟨hroll, hseat⟩ := hsame
    rw [List.filter_cons, List.filter_cons, hroll]
    split
    · rw [List.map_cons, List.map_cons, hseat, ih]
    · exact ih

/-! ## Rolls with their dice -/

/-- In a simulated world with a fair source of chance, and with listeners that only look on: active rolls
have no more dice than seats, on the tray, waiting or owed, and results are in the range of their groups. -/
structure Dealt (start : Int) (owed : Nat → List Seat) (t : Tray SimulatedWorld) : Prop where
  orderly : ∃ owed', Orderly (undisturbed SimulatedWorld.footing start) owed' t
  bodied : Bodied t
  seats : ∀ r ∈ t.active,
    (t.seatsOf ((undisturbed SimulatedWorld.footing start).id r.serial) ++ owed r.serial).Subperm
      r.record.seats
  ranged : ∀ r ∈ t.history ++ t.active, r.record.results ≠ [] →
    List.Forall₂ Ranged r.record.groups r.record.results

variable {start : Int} {owed : Nat → List Seat} {t t' : Tray SimulatedWorld}

namespace Dealt

/-- Where there are no more rolls and no more dice. -/
theorem fewer (h : Dealt start owed t)
    (orderly : ∃ owed', Orderly (undisturbed SimulatedWorld.footing start) owed' t')
    (bodied : Bodied t') (history : t'.history ⊆ t.history) (active : t'.active ⊆ t.active)
    (seats : ∀ r ∈ t'.active,
      (t'.seatsOf ((undisturbed SimulatedWorld.footing start).id r.serial)).Subperm
        (t.seatsOf ((undisturbed SimulatedWorld.footing start).id r.serial))) :
    Dealt start owed t' where
  orderly := orderly
  bodied := bodied
  seats r hr := ((List.subperm_append_right _).2 (seats r hr)).trans (h.seats r (active hr))
  ranged r hr := h.ranged r <| (List.mem_append.1 hr).elim
    (fun hr => List.mem_append_left _ (history hr)) fun hr => List.mem_append_right _ (active hr)

theorem ids (h : Dealt start owed t) : ∀ r ∈ t.history ++ t.active, ∃ n, r.id = .int n :=
  have ⟨_, ho⟩ := h.orderly
  fun _ hr => ⟨_, ho.id_eq hr⟩

theorem around (h : Dealt start owed t) (world : SimulatedWorld) (chance : Chance) (clock : Float)
    (formula : String) (nextThrow : Nat) (listeners : Event → List Listener) (journal : List Notice)
    (bodied : Bodied { t with world }) (quiet : Onlookers t.listeners → Onlookers listeners) :
    Dealt start owed { t with world, chance, clock, formula, nextThrow, listeners, journal } :=
  have ⟨owed', ho⟩ := h.orderly
  { h with
    orderly := ⟨owed', ho.around _ _ _ _ _ _ _ (holds_undisturbed.2 trivial) (quiet ho.quiet)⟩
    bodied := bodied.around rfl rfl rfl }

/-- What is around the dice may change. -/
theorem beside (h : Dealt start owed t) (chance : Chance) (clock : Float) (formula : String)
    (nextThrow : Nat) : Dealt start owed { t with chance, clock, formula, nextThrow } :=
  h.around t.world chance clock formula nextThrow t.listeners t.journal h.bodied id

/-- Rolls leave the history. -/
theorem trim (h : Dealt start owed t) {history : List Roll} (hsublist : history.Sublist t.history) :
    Dealt start owed { t with history } :=
  have ⟨owed', ho⟩ := h.orderly
  h.fewer ⟨owed', ho.trim hsublist⟩ (h.bodied.around rfl rfl rfl) hsublist.subset
    (List.Subset.refl _) fun _ _ => .refl _

theorem depart (h : Dealt start owed t) {id : Value} (hid : ∃ n, id = .int n) {r : Roll}
    (hfind : Roll.find? id t.active = some r) : Dealt start owed ((depart id).perform t).2 := by
  have hbodied := Bodied.upkeep.conduct.depart h.bodied trivial hfind
  obtain ⟨n, rfl⟩ := hid
  obtain ⟨owed', ho⟩ := h.orderly
  obtain ⟨watermark, world, _, hperform, ho'⟩ := depart_of_inexact not_exact_undisturbed ho hfind
  rw [hperform] at hbodied ho' ⊢
  refine h.fewer ⟨owed', ho'⟩ hbodied (List.Subset.refl _) (List.filter_subset_self _) fun r' _ => ?_
  exact ((List.filter_sublist.filter _).map _ |>.append_right _).subperm

theorem takeOff (taken : Die → Bool) : Keeps (Dealt start owed) (takeOff taken) := by
  intro t h
  have hbodied := Bodied.takeOff taken t h.bodied
  obtain ⟨owed', ho⟩ := h.orderly
  obtain ⟨world, hperform, ho'⟩ := takeOff_of_inexact not_exact_undisturbed ho taken
  rw [hperform] at hbodied ho' ⊢
  refine h.fewer ⟨owed', ho'⟩ hbodied (List.Subset.refl _) (List.Subset.refl _) fun r _ => ?_
  exact ((List.filter_sublist.filter _).map _ |>.append_right _).subperm

theorem mark (h : Dealt start owed t) : Dealt start owed { t with watermark := .int (t.nextId - 1) } :=
  have ⟨owed', ho⟩ := h.orderly
  h.fewer ⟨owed', ho.mark fun hcounted => absurd hcounted.1 not_exact_undisturbed⟩
    (h.bodied.around rfl rfl rfl) (List.Subset.refl _) (List.Subset.refl _) fun _ _ => .refl _

theorem throwNext (h : Dealt start owed t) {order : Nat} {throw : Throw}
    (hfirst : t.pending[0]? = some (order, throw)) :
    Dealt start owed ((throwNext throw).perform t).2 := by
  have hbodied := h.bodied.throwNext hfirst
  obtain ⟨owed', ho⟩ := h.orderly
  have horderly : ∃ owed', Orderly (undisturbed SimulatedWorld.footing start) owed'
      ((Tray.throwNext throw).perform t).2 :=
    have ⟨owed₁, ho₁, _⟩ := (throwNext_does hfirst).orderly not_exact_undisturbed ho
    ⟨owed₁, ho₁⟩
  obtain ⟨pending, world, chance, hperm, hcases⟩ := throwNext_perform ho hfirst
  rcases hcases with ⟨answer, hperform, _⟩ | ⟨d, hperform, _, hroll, hsite, hkind, _⟩ <;>
    rw [hperform] at horderly hbodied ⊢
  · refine h.fewer horderly hbodied (List.Subset.refl _) (List.Subset.refl _) fun r _ => ?_
    refine (List.subperm_append_left _).2
      (List.Subperm.trans ?_ ((throwsIn_perm hperm _).symm.map _).subperm)
    exact ((List.sublist_append_right ..).map _).subperm
  · refine h.fewer horderly hbodied (List.Subset.refl _) (List.Subset.refl _) fun r _ => ?_
    exact (heldOf_throw hperm hroll (Prod.ext hsite hkind) _).subperm

/-- All dice of a roll that is complete show their faces. -/
theorem shown (h : Dealt start owed t) {r : Roll} (hr : r ∈ t.history)
    (hlength : (t.diceOf ((undisturbed SimulatedWorld.footing start).id r.serial)).length =
      r.record.sites.length)
    (hsettled : ∀ d ∈ t.diceOf ((undisturbed SimulatedWorld.footing start).id r.serial),
      d.settled = true) {terms : List Formula.DiceTerm}
    (hgroups : r.record.groups = terms.map Group.ofTerm) :
    Dice.Shown terms (t.diceOf ((undisturbed SimulatedWorld.footing start).id r.serial)) := by
  obtain ⟨owed', ho⟩ := h.orderly
  refine shown_of_seats ?_ (fun d hd => h.bodied.dice d (List.mem_filter.1 hd).1) hsettled
  rw [← seats_of_groups hgroups]
  have hfew := ((List.sublist_append_left ..).trans (List.sublist_append_left ..)).subperm.trans
    (h.seats r (ho.active_of_all hr hlength))
  refine hfew.perm_of_length_le ?_
  rw [List.length_map, hlength, ← sites_of_seats, List.length_map]

/-- The results of a roll that is complete are in the range of its groups. -/
theorem settle (h : Dealt start owed t) {id : Value} {r : Roll} (hfind : t.find? id = some r)
    (hresolved : r.record.resolved = false) (hcomplete : t.isComplete r.record = .ok true) :
    Dealt start owed (t.write r.serial (Dice.resolve r.record (t.diceOf id)).2) := by
  obtain ⟨owed', ho⟩ := h.orderly
  obtain ⟨hr, hsame⟩ := find?_id hfind
  have hmem := List.mem_append_left t.active hr
  rw [ho.diceOf_of_same ((ho.id_eq hmem) ▸ hsame)]
  obtain ⟨_, hall, hsettled⟩ := (ho.ready_iff hmem).1 ⟨hresolved, hcomplete⟩
  obtain ⟨terms, _, _, hterms⟩ := ho.sound r hmem
  have hranged := Dice.ranged_of_resolve (h.shown hr hall hsettled hterms) hterms (h.ranged r hmem)
  have hgroups := Dice.groups_resolve r.record
    (t.diceOf ((undisturbed SimulatedWorld.footing start).id r.serial))
  have hcases {x : Roll} (hx : x ∈ t.history ++ t.active) := ho.put_cases hmem hx
    (Dice.resolve r.record (t.diceOf ((undisturbed SimulatedWorld.footing start).id r.serial))).2
  refine ⟨⟨owed', ho.write_resolve not_exact_undisturbed hr _⟩, h.bodied.around rfl rfl rfl,
    fun x hx => ?_, fun x hx => ?_⟩
  · obtain ⟨y, hy, rfl⟩ := List.mem_map.1 hx
    rw [Roll.serial_put]
    rcases hcases (List.mem_append_right _ hy) with ⟨rfl, hput⟩ | ⟨_, hput⟩ <;> rw [hput]
    · rw [seats_congr hgroups]
      exact h.seats y hy
    · exact h.seats y hy
  · obtain ⟨y, hy, rfl⟩ := mem_write.1 hx
    rcases hcases hy with ⟨rfl, hput⟩ | ⟨_, hput⟩ <;> rw [hput]
    · exact hranged
    · exact h.ranged y hy

theorem poll : Keeps (Dealt start owed) poll := by
  intro t h
  have hbodied := Bodied.poll t h.bodied
  obtain ⟨owed', ho⟩ := h.orderly
  have hseats := pollDice_forall₂ (Policy.ofConfig t.config) t.isFinal t.clock
    (R := fun d d' => d'.roll = d.roll ∧ d'.seat = d.seat) (fun _ => ⟨rfl, rfl⟩)
    (fun _ _ _ _ => ⟨rfl, rfl⟩) (fun _ _ _ => ⟨rfl, rfl⟩) t.dice t.world
  refine h.fewer ⟨owed', (poll_change ho).orderly ho⟩ hbodied (List.Subset.refl _)
    (List.Subset.refl _) fun r _ => ?_
  refine List.Perm.subperm (.of_eq (congrArg (· ++ _) ?_))
  exact seats_of_forall₂ hseats _

theorem conduct : Conduct (fun id => ∃ n, id = .int n) (Dealt start owed) where
  known := ids
  around {t} chance clock formula h := h.beside chance clock formula t.nextThrow
  depart h hid hfind := h.depart hid hfind
  orphan h _ := takeOff _ _ h
  throwNext h hfirst _ := h.throwNext hfirst
  step dt t h := h.around _ t.chance t.clock t.formula t.nextThrow t.listeners t.journal
    (Bodied.upkeep.step dt t h.bodied) id
  settle h := h.settle
  takeOff := takeOff

theorem announce (event : Event) (r : Record) : Keeps (Dealt start owed) (announce event r) :=
  keeps_announce (fun h => have ⟨_, ho⟩ := h.orderly; ho.quiet)
    (fun _ _ h hquiet => h.around _ _ _ _ _ _ _ h.bodied fun _ => hquiet) event r

theorem prune : Keeps (Dealt start owed) (prune Tray.announce) :=
  conduct.prune fun event r _ => announce event r

/-! ### Rolls that begin -/

/-- A roll that begins is owed all its dice. -/
theorem begin (h : Dealt start owed t) {r : Roll} (serial : r.serial = t.nextSerial)
    (id : r.record.id = .int t.nextId) (sound : r.record.Sound)
    (unresolved : r.record.resolved = false) (empty : r.record.results = []) :
    Dealt start (Function.update owed r.serial r.record.seats) { t with
      nextId := t.nextId + 1, nextSerial := t.nextSerial + 1,
      active := t.active ++ [r], history := r :: t.history } := by
  obtain ⟨owed', ho⟩ := h.orderly
  have hlt : ∀ r' ∈ t.active, r'.serial ≠ r.serial := fun r' hr' =>
    serial ▸ Nat.ne_of_lt (ho.serial_lt hr')
  refine ⟨⟨_, ho.begin serial id sound unresolved⟩, h.bodied.around rfl rfl rfl, fun r' hr' => ?_,
    fun r' hr' hresults => ?_⟩
  · rcases List.mem_append.1 hr' with hr' | hr'
    · rw [Function.update_of_ne (hlt r' hr')]
      exact h.seats r' hr'
    · rw [List.mem_singleton.1 hr', Function.update_self]
      show ((t.diceOf _).map _ ++ (t.throwsOf _).map _ ++ _).Subperm _
      rw [ho.diceOf_eq_nil hlt, ho.throwsOf_eq_nil (Nat.le_of_eq serial.symm)]
      exact .refl _
  · rcases mem_added.1 hr' with rfl | hr'
    · exact absurd empty hresults
    · exact h.ranged r' hr' hresults

/-- A die that is owed is set to be thrown. -/
theorem push (h : Dealt start owed t) {throw : Throw} {order serial : Nat} {rest : List Seat}
    {pending : Array (Nat × Throw)} (sound : throw.Sound) (begun : serial < t.nextSerial)
    (roll : throw.roll = (undisturbed SimulatedWorld.footing start).id serial)
    (owes : owed serial = throw.seat :: rest)
    (perm : pending.toList.Perm ((order, throw) :: t.pending.toList)) :
    Dealt start (Function.update owed serial rest) { t with pending } := by
  obtain ⟨owed', ho⟩ := h.orderly
  have ho' : Orderly (undisturbed SimulatedWorld.footing start) (Function.update owed' serial [])
      { t with pending } :=
    ho.push roll begun (fun hcounted => absurd hcounted.1 not_exact_undisturbed) perm
  refine ⟨⟨_, ho'⟩, ⟨h.bodied.fair, h.bodied.known, fun item hitem => ?_, h.bodied.dice⟩, fun r hr => ?_,
    h.ranged⟩
  · rcases List.mem_cons.1 (perm.mem_iff.1 hitem) with rfl | hitem
    · exact sound
    · exact h.bodied.throws item hitem
  · exact (heldOf_push roll owes perm _).subperm.trans (h.seats r hr)

/-- Dice need not be owed any more. -/
theorem clear (h : Dealt start owed t) : Dealt start (fun _ => []) t :=
  { h with seats := fun r hr =>
      ((List.nil_sublist _).append_left _).subperm.trans (h.seats r hr) }

/-- The dice of a roll that begins are set to be thrown. -/
theorem schedule {serial : Nat} {places : List Place} (total index : Nat) (delay : Float)
    (h : Dealt start owed t) (begun : serial < t.nextSerial)
    (owes : owed serial = places.map Place.seat) :
    Dealt start (fun _ => []) ((schedule ((undisturbed SimulatedWorld.footing start).id serial) total
      index delay places).perform t).2 := by
  induction places generalizing t owed index delay with
  | nil => exact h.clear
  | cons place rest ih =>
    let Owing (s : Tray SimulatedWorld) : Prop :=
      Dealt start (Function.update owed serial (rest.map Place.seat)) s ∧ serial < s.nextSerial
    have hclear : ∀ s, Owing s → Dealt start (fun _ => []) s := fun _ hs => hs.1.clear
    have hadd : ∀ throw : Throw, throw.Sound →
        throw.roll = (undisturbed SimulatedWorld.footing start).id serial →
        throw.seat = place.seat → Owing ((addThrow throw).perform t).2 := by
      intro throw hsound hroll hseat
      rw [addThrow, Attempt.perform_bind_of_ok (Attempt.perform_get t)]
      have hpush : Owing (((Heap.push throwsBefore (t.nextThrow, throw)).within Tray.pending
          fun pending t => { t with pending }).perform t).2 :=
        ⟨h.push hsound begun hroll (hseat ▸ owes) (push_toList_perm ..), begun⟩
      exact Keeps.bind_from hpush (fun _ h => h) fun _ =>
        Keeps.of_modify fun s hs => ⟨hs.1.beside s.chance s.clock s.formula _, hs.2⟩
    rw [Tray.schedule, Attempt.perform_bind_of_ok (Attempt.perform_get t)]
    refine Keeps.bind_from (hadd _ ⟨⟨_, rfl⟩, ⟨_, rfl⟩, ⟨_, rfl⟩, ⟨_, rfl⟩, ⟨_, rfl⟩⟩ rfl rfl) hclear
      fun _ s hs => ?_
    have hchance : Keeps Owing (withChance Chance.draw) := .within fun s hs =>
      ⟨hs.1.beside _ s.clock s.formula s.nextThrow, hs.2⟩
    exact hchance.bind_of hs hclear fun _ s hs => ih _ _ hs.1 hs.2 (Function.update_self ..)

theorem launch {source : String} {compiled : Formula.Compiled} (formula : String)
    (hcompiled : Formula.compile source = .ok compiled) :
    Keeps (Dealt start fun _ => []) (launch Tray.announce formula compiled) :=
  keeps_launch (fun r => Dealt start (Function.update (fun _ => []) r.serial r.record.seats))
    orderly (conduct.makeRoom fun event r _ => announce event r)
    (fun {t _} h hserial hrecord => h.begin hserial (congrArg Record.id hrecord)
      (hrecord ▸ sound_ofCompiled hcompiled t.nextId formula) (congrArg Record.resolved hrecord)
      (congrArg Record.results hrecord))
    (fun _ => keeps_trimHistory (fun h => h.trim) prune) clear
    (fun hgroups h hissued => h.schedule _ _ _ hissued
      ((Function.update_self ..).trans (seats_of_groups hgroups)))
    (announce _)

/-! ### Operations -/

theorem offers : Offers Tray.announce (Dealt start fun _ => []) where
  chance _ := .within fun t h => h.beside _ t.clock t.formula t.nextThrow
  formula _ := .of_modify fun t h => h.beside t.chance t.clock _ t.nextThrow
  launch formula hcompiled _ h _ := launch formula hcompiled _ h
  cancel n := conduct.cancel (fun event r _ => announce event r) ⟨n, rfl⟩
  clearTray := conduct.clearTray (fun event r _ => announce event r) mark
  clearHistory := keeps_clearHistory (fun h => h.trim) prune
  prune := prune

theorem operation (op : Operation) :
    Keeps (Dealt start fun _ => []) (op.attempt Tray.announce) :=
  offers.operation op fun _ => conduct.tick (fun event r _ => announce event r) poll

end Dealt

/-! ## Runs -/

/-- The trays in the simulated world that are reached by operations, with any outcome, while bodies are
knocked over and put to sleep in between. Listeners only look on, and what the world draws is fair. -/
inductive Tossed : Tray SimulatedWorld → Prop where
  | start {t : Tray SimulatedWorld} (fresh : Fresh t) (fair : t.world.chance.Fair)
      (handles : ∀ handle ∈ World.handles t.world, handle < t.world.nextHandle)
      (quiet : Onlookers t.listeners) : Tossed t
  | act {t : Tray SimulatedWorld} (tossed : Tossed t) (op : Operation) : Tossed ((op.attempt announce).perform t).2
  | knock {t : Tray SimulatedWorld} (tossed : Tossed t) (handle : Nat) (velocity angularVelocity : List Value) :
      Tossed ((withWorld (SimulatedWorld.disturb handle velocity angularVelocity)).perform t).2
  | sleep {t : Tray SimulatedWorld} (tossed : Tossed t) (handle : Nat) :
      Tossed ((withWorld (World.sleep handle)).perform t).2
  /-- Sources of chance and listeners are exchanged. -/
  | around {t : Tray SimulatedWorld} (tossed : Tossed t) (chance fate : Chance) (listeners : Event → List Listener)
      (fair : fate.Fair) (quiet : Onlookers listeners) :
      Tossed { t with world := { t.world with chance := fate }, chance, listeners }

theorem Tossed.dealt (tossed : Tossed t) : ∃ start, Dealt start (fun _ => []) t := by
  induction tossed with
  | @start t fresh fair handles quiet =>
    have ho := fresh.orderly (S := undisturbed SimulatedWorld.footing t.nextId) rfl
      (holds_undisturbed.2 trivial) quiet
    refine ⟨_, ⟨_, ho⟩, ⟨fair, handles, ?_, ?_⟩, ?_, ?_⟩
    · rw [fresh.pending]
      exact fun _ h => nomatch h
    · rw [fresh.dice]
      exact fun _ h => nomatch h
    · rw [fresh.active]
      exact fun _ h => nomatch h
    · rw [fresh.history, fresh.active]
      exact fun _ h => nomatch h
  | act _ op ih =>
    obtain ⟨start, h⟩ := ih
    exact ⟨start, Dealt.operation op _ h⟩
  | knock _ handle velocity angularVelocity ih =>
    obtain ⟨start, h⟩ := ih
    exact ⟨start, h.around _ _ _ _ _ _ _ (Bodied.knock handle velocity angularVelocity _ h.bodied) id⟩
  | sleep _ handle ih =>
    obtain ⟨start, h⟩ := ih
    have hbodied := Bodied.keeps_sameGuises (fun _ => SimulatedWorld.sameGuises_sleep handle) _ h.bodied
    exact ⟨start, h.around _ _ _ _ _ _ _ hbodied id⟩
  | @around t _ chance fate listeners fair quiet ih =>
    obtain ⟨start, h⟩ := ih
    refine ⟨start, h.around { t.world with chance := fate } chance t.clock t.formula t.nextThrow listeners
      t.journal ?_ fun _ => quiet⟩
    exact ⟨fair, h.bodied.known, h.bodied.throws, fun d hd =>
      have ⟨kind, tens, genuine⟩ := h.bodied.dice d hd
      ⟨kind, tens, genuine.kind_eq, genuine.tens_eq, genuine.below, genuine.body, genuine.value⟩⟩

/-- Whatever is done with dice in the simulated world, a record with results has in each group one for
each of its dice, and each of them is between one and the number of faces of the group's kind. -/
theorem ranged_of_tossed (tossed : Tossed t) :
    ∀ r ∈ t.history ++ t.active, r.record.results ≠ [] →
      List.Forall₂ Ranged r.record.groups r.record.results :=
  have ⟨_, h⟩ := tossed.dealt
  h.ranged

/-- A source of chance that draws a low number and then a high one. -/
def lowHigh : Chance := { tape := #[0, 0.875] }

theorem fair_lowHigh : lowHigh.Fair := by
  have hlow : ∀ kind : DieKind,
      ((Chance.below kind.faces).perform { lowHigh with next := 0 }).1 = .ok 0 := by
    intro kind
    cases kind <;> decide +kernel
  have hhigh : ∀ kind : DieKind, ((Chance.below kind.faces).perform { lowHigh with next := 1 }).1 =
      .ok (kind.faces * 7 / 8 : Int) := by
    intro kind
    cases kind <;> decide +kernel
  have hbeyond : ∀ next, ∀ kind : DieKind,
      ((Chance.below kind.faces).perform { lowHigh with next := next + 2 }).1 =
        .ok (kind.faces / 2 : Int) := by
    intro next kind
    cases kind <;> rfl
  intro next kind n h
  have hpos : 0 < kind.faces := by cases kind <;> decide
  rcases next with _ | _ | next
  · cases (hlow kind).symm.trans h
    omega
  · cases (hhigh kind).symm.trans h
    omega
  · cases (hbeyond next kind).symm.trans h
    omega

/-- Five dice of three kinds are thrown into a world that moves no body which is awake, so the tick that
throws them fails. The first one is knocked over, and all of them are put to sleep. Then they are looked
at. -/
def slept : Tray SimulatedWorld :=
  let after (op : Operation) (t : Tray SimulatedWorld) := ((op.attempt announce).perform t).2
  let asleep (handle : Nat) (t : Tray SimulatedWorld) := ((withWorld (World.sleep handle)).perform t).2
  let knocked (t : Tray SimulatedWorld) := ((withWorld
    (SimulatedWorld.disturb 0 (Motion.vector [1, 0, 0]) SimulatedWorld.knockSpin)).perform t).2
  let thrown := after (.tick (.float 1)) (after (.roll "d100+2d10kh1-d6")
    { world := { damping := .int (10 ^ 400), chance := lowHigh } })
  after (.tick (.float 0)) (asleep 4 (asleep 3 (asleep 2 (asleep 1 (asleep 0 (knocked thrown))))))

/-- The roll has its results, a lowest and a highest one among them. -/
theorem ranged_after_knock : Tossed slept ∧ ∃ r ∈ slept.history,
    (r.record.results.map fun results => Value.ints? (results.map DieResult.value)) =
      [some [88], some [10, 8], some [1]] ∧
    List.Forall₂ Ranged r.record.groups r.record.results := by
  have thrown := ((Tossed.start (t := { world := { damping := .int (10 ^ 400), chance := lowHigh } })
    ⟨rfl, rfl, rfl, rfl, rfl, rfl, rfl⟩ fair_lowHigh (fun _ h => nomatch h) fun _ _ h => nomatch h).act
      (.roll "d100+2d10kh1-d6")).act (.tick (.float 1))
  have asleep := (((((thrown.knock 0 (Motion.vector [1, 0, 0]) SimulatedWorld.knockSpin).sleep 0).sleep
    1).sleep 2).sleep 3).sleep 4
  have tossed : Tossed slept := asleep.act (.tick (.float 0))
  have hresults : ∃ r ∈ slept.history,
      (r.record.results.map fun results => Value.ints? (results.map DieResult.value)) =
        [some [88], some [10, 8], some [1]] := by
    decide +kernel
  obtain ⟨r, hr, hvalues⟩ := hresults
  refine ⟨tossed, r, hr, hvalues, ranged_of_tossed tossed r (List.mem_append_left _ hr) fun hnone => ?_⟩
  rw [hnone] at hvalues
  cases hvalues

end Tray

end RollTray
