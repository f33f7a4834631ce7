import RollTray.Proofs.Number.Order
import RollTray.Proofs.Tray.Subsiding
import RollTray.Proofs.Tray.Undisturbed
import RollTray.Proofs.World.Footings

/-!
# Dice that show their results

While listeners only look on, the dice of an active roll that has its result go on showing it: they are
all on the tray, they have settled, and working the result out of them again gives what is written
(`shows_of_undisturbed`). Nothing takes them off the tray before the roll is canceled, and no die is
added to them, as their sites are all taken (`Backed`).
-/

namespace RollTray

/-- What an integer is equal to is equal to no other integer. -/
theorem Value.same_of_same_int {b : Int} {v : Value} (h : (Value.int b).same v = true) (a : Int) :
    (Value.int a).same v = (Value.int a).same (.int b) := by
  have hnum : ∀ n : Num, (Num.int b).same n = true → (Num.int a).same n = (Num.int a).same (.int b) := by
    intro n hn
    have hnan : n.isNaN = false := Bool.eq_false_iff.2 fun hnan => by
      rw [Num.same_of_isNaN hnan] at hn
      cases hn
    rw [Num.same_iff rfl hnan] at hn
    rw [Bool.eq_iff_iff, Num.same_iff rfl hnan, Num.same_iff rfl rfl, hn]
  cases v with
  | bool | int | float | notANumber => exact hnum _ h
  | null | text | list | object => cases h

namespace Dice

/-- What is in the place of the result does not matter to it. -/
theorem fill_again {r filled : Record} {amounts : List Formula.Amount}
    (h : Record.fill r amounts = .ok filled) (result breakdown : Value) :
    Record.fill { filled with result, breakdown } amounts = .ok filled := by
  unfold Record.fill at h ⊢
  split at h
  · next template htemplate =>
    have hsame : filled.template = .text template := by
      split at h <;> cases h <;> exact htemplate
    simp only [hsame]
    split at h <;> cases h <;> simp_all
  · cases h

/-- A roll that got its result from dice gets the same one from them again. -/
theorem resolve_again {r record : Record} {dice : List Die} (h : resolve r dice = (.ok true, record))
    (results : List (List DieResult)) (breakdown : Value) :
    resolve { record with results, result := .null, breakdown } dice = (.ok true, record) := by
  obtain ⟨values, found, amounts, hvalues, hsettle, hfill⟩ := exists_of_resolve h
  obtain ⟨_, hgroups, hresults, _⟩ := fill_spec hfill
  have hagain := fill_again hfill .null breakdown
  replace hgroups : record.groups = r.groups := hgroups
  obtain rfl : record.results = found := hresults
  rw [← hgroups] at hsettle
  rw [resolve, if_neg (by exact Bool.false_ne_true), hvalues, ok_bind]
  dsimp only
  rw [hsettle]
  dsimp only
  rw [hagain]

end Dice

/-- Dice that show the result of a record: they are all its dice, each at its site, they have settled,
and the result is worked out from them whatever is written in its place. -/
structure Shows (dice : List Die) (r : Record) : Prop where
  expected : r.expectedDice = .ok (.int dice.length)
  sites : (dice.map Die.site).Perm r.sites
  settled : ∀ d ∈ dice, d.settled = true
  again : ∀ results breakdown,
    Dice.resolve { r with results, result := .null, breakdown } dice = (.ok true, r)

namespace Tray

open Attempt (Keeps)

variable {ω : Type} [World ω]

/-! ## Rolls with their dice -/

/-- An active roll has no more dice than sites, on the tray, waiting or owed, and if it has its result
its dice show it. -/
structure Backed (F : Footing ω) (start : Int) (owed : Owed) (t : Tray ω) : Prop where
  orderly : ∃ owed', Orderly (undisturbed F start) owed' t
  sites : ∀ r ∈ t.active, (t.sitesOf ((undisturbed F start).id r.serial) ++ owed r.serial).Subperm
    r.record.sites
  shows : ∀ r ∈ t.history, r ∈ t.active → r.record.resolved = true →
    Shows (t.diceOf ((undisturbed F start).id r.serial)) r.record

variable {F : Footing ω} {start : Int} {owed : Owed} {t t' : Tray ω}

/-- The dice of a roll under any id that is equal to its own. -/
theorem Orderly.diceOf_of_same {S : Setting ω} (ho : Orderly S owed t) {serial : Nat} {id : Value}
    (h : (S.id serial).same id = true) : t.diceOf id = t.diceOf (S.id serial) := by
  refine List.filter_congr fun d hd => ?_
  obtain ⟨r, _, hroll⟩ := ho.dice d hd
  rw [hroll]
  exact Value.same_of_same_int h _

namespace Backed

/-- Where there are no more rolls and no more dice, and the rolls that have their results keep theirs. -/
theorem fewer (h : Backed F start owed t) (orderly : ∃ owed', Orderly (undisturbed F start) owed' t')
    (history : t'.history ⊆ t.history) (active : t'.active ⊆ t.active)
    (sites : ∀ r ∈ t'.active, (t'.sitesOf ((undisturbed F start).id r.serial)).Subperm
      (t.sitesOf ((undisturbed F start).id r.serial)))
    (dice : ∀ r ∈ t'.history, r ∈ t'.active → r.record.resolved = true →
      t'.diceOf ((undisturbed F start).id r.serial) = t.diceOf ((undisturbed F start).id r.serial)) :
    Backed F start owed t' where
  orderly := orderly
  sites r hr := ((List.subperm_append_right _).2 (sites r hr)).trans (h.sites r (active hr))
  shows r hhistory hr hresolved := by
    rw [dice r hhistory hr hresolved]
    exact h.shows r (history hhistory) (active hr) hresolved

/-- Where no roll is active there is nothing to say of dice. -/
theorem of_inactive (orderly : ∃ owed', Orderly (undisturbed F start) owed' t)
    (inactive : t.active = []) : Backed F start owed t where
  orderly := orderly
  sites _ hr := nomatch inactive ▸ hr
  shows _ _ hr := nomatch inactive ▸ hr

theorem ids (h : Backed F start owed t) : ∀ r ∈ t.history ++ t.active, ∃ n, r.id = .int n :=
  have ⟨_, ho⟩ := h.orderly
  fun _ hr => ⟨_, ho.id_eq hr⟩

theorem around (h : Backed F start owed t) (world : ω) (chance : Chance) (clock : Float)
    (formula : String) (nextThrow : Nat) (listeners : Event → List Listener) (journal : List Notice)
    (holds : F.holds t.world (t.dice.map Die.handle) → F.holds world (t.dice.map Die.handle))
    (quiet : Onlookers t.listeners → Onlookers listeners) :
    Backed F start owed
      { t with world, chance, clock, formula, nextThrow, listeners, journal } :=
  have ⟨owed', ho⟩ := h.orderly
  have hholds := holds_undisturbed.2 (holds (holds_undisturbed.1 ho.holds))
  { h with orderly := ⟨owed', ho.around _ _ _ _ _ _ _ hholds (quiet ho.quiet)⟩ }

/-- Rolls leave the history. -/
theorem trim (h : Backed F start owed t) {history : List Roll} (hsublist : history.Sublist t.history) :
    Backed F start owed { t with history } :=
  have ⟨owed', ho⟩ := h.orderly
  h.fewer ⟨owed', ho.trim hsublist⟩ (fun _ hr => hsublist.subset hr) (fun _ hr => hr)
    (fun _ _ => .refl _) fun _ _ _ _ => rfl

theorem depart (h : Backed F start owed t) {id : Value} (hid : ∃ n, id = .int n) {r : Roll}
    (hfind : Roll.find? id t.active = some r) : Backed F start owed ((depart id).perform t).2 := by
  obtain ⟨n, rfl⟩ := hid
  obtain ⟨owed', ho⟩ := h.orderly
  obtain ⟨watermark, world, _, hperform, ho'⟩ := depart_of_inexact not_exact_undisturbed ho hfind
  rw [hperform] at ho' ⊢
  refine h.fewer ⟨owed', ho'⟩ (fun _ hr => hr) (fun _ hr => (mem_filter_serial.1 hr).1)
    (fun r' hr' => ?_) fun r' _ hr' _ => ho.diceOf_canceled (mem_filter_serial.1 hr').2
  refine List.Perm.subperm (.of_eq ?_)
  show (List.filter _ _).map Die.site ++ _ = _
  rw [ho.diceOf_canceled (mem_filter_serial.1 hr').2]
  rfl

/-- Dice of a roll that is not in history are none of a roll that is in it. -/
theorem orphan (h : Backed F start owed t) {id : Value} (hnone : t.find? id = none) :
    Backed F start owed ((removeDice id).perform t).2 := by
  obtain ⟨owed', ho⟩ := h.orderly
  obtain ⟨world, hperform, ho'⟩ := takeOff_of_inexact not_exact_undisturbed ho fun d => d.roll.same id
  rw [removeDice]
  rw [hperform] at ho' ⊢
  refine h.fewer ⟨owed', ho'⟩ (fun _ hr => hr) (fun _ hr => hr) (fun r _ => ?_) fun r hhistory _ _ => ?_
  · refine (List.Sublist.append_right ?_ _).subperm
    exact (List.filter_sublist.filter _).map _
  · show List.filter _ (List.filter _ _) = _
    rw [filter_diceOf]
    refine List.filter_eq_self.2 fun d hd => ?_
    obtain ⟨hd, hroll⟩ := List.mem_filter.1 hd
    obtain ⟨r', _, hd⟩ := ho.dice d hd
    rw [hd, same_id, decide_eq_true_iff] at hroll
    have hne := List.find?_eq_none.1 hnone r hhistory
    rw [ho.id_eq (List.mem_append_left _ hhistory)] at hne
    rw [hd, hroll]
    simpa using hne

/-- A roll that has its result waits for no dice. -/
theorem throwsOf_eq_nil (h : Backed F start owed t) {r : Roll} (hhistory : r ∈ t.history)
    (hr : r ∈ t.active) (hresolved : r.record.resolved = true) :
    t.throwsOf ((undisturbed F start).id r.serial) = [] := by
  have hsites := (h.sites r hr).length_le
  have hdice := (h.shows r hhistory hr hresolved).sites.length_eq
  simp only [sitesOf, List.length_append, List.length_map] at hsites hdice
  exact List.length_eq_zero_iff.1 (by omega)

theorem throwNext (h : Backed F start owed t) {order : Nat} {throw : Throw}
    (hfirst : t.pending[0]? = some (order, throw)) :
    Backed F start owed ((throwNext throw).perform t).2 := by
  obtain ⟨owed', ho⟩ := h.orderly
  have horderly : ∃ owed', Orderly (undisturbed F start) owed' ((Tray.throwNext throw).perform t).2 :=
    have ⟨owed₁, ho₁, _⟩ := (throwNext_does hfirst).orderly not_exact_undisturbed ho
    ⟨owed₁, ho₁⟩
  obtain ⟨pending, world, chance, hperm, hcases⟩ := throwNext_perform ho hfirst
  have hthrows := throwsIn_perm hperm
  rcases hcases with ⟨answer, hperform, _⟩ | ⟨d, hperform, _, hroll, hsite, _⟩ <;>
    rw [hperform] at horderly ⊢
  · refine h.fewer horderly (fun _ hr => hr) (fun _ hr => hr) (fun r _ => ?_) fun _ _ _ _ => rfl
    refine (List.subperm_append_left _).2 (List.Subperm.trans ?_ ((hthrows _).symm.map _).subperm)
    exact ((List.sublist_append_right ..).map _).subperm
  · refine h.fewer horderly (fun _ hr => hr) (fun _ hr => hr)
      (fun r _ => (sitesOf_throw hperm hroll hsite _).subperm) fun r hhistory hr hresolved => ?_
    -- The die is none of a roll that has its result, as that waits for none.
    have hnone := hthrows ((undisturbed F start).id r.serial)
    rw [show throwsIn t.pending _ = [] from h.throwsOf_eq_nil hhistory hr hresolved] at hnone
    have hother : ¬throw.roll.same ((undisturbed F start).id r.serial) = true := fun hsame => by
      rw [if_pos hsame] at hnone
      cases hnone.nil_eq
    show (t.dice ++ [d]).filter _ = _
    rw [List.filter_append, List.filter_cons_of_neg (by rw [hroll]; exact hother), List.filter_nil,
      List.append_nil]
    rfl

/-- A roll that gets its result from its dice, which are all on the tray and have settled, shows them. -/
theorem shows_resolve (h : Backed F start owed t) {r : Roll} (hr : r ∈ t.active)
    (hresolved : r.record.resolved = false)
    (hall : (t.diceOf ((undisturbed F start).id r.serial)).length = r.record.sites.length)
    (hsettled : ∀ d ∈ t.diceOf ((undisturbed F start).id r.serial), d.settled = true)
    (hnow : (Dice.resolve r.record (t.diceOf ((undisturbed F start).id r.serial))).2.resolved = true) :
    Shows (t.diceOf ((undisturbed F start).id r.serial))
      (Dice.resolve r.record (t.diceOf ((undisturbed F start).id r.serial))).2 := by
  obtain ⟨_, ho⟩ := h.orderly
  have hgroups := Dice.groups_resolve r.record (t.diceOf ((undisturbed F start).id r.serial))
  have hsites := sites_congr hgroups
  have hsound := (ho.sound r (List.mem_append_right _ hr)).congr hgroups
  refine ⟨?_, ?_, hsettled, Dice.resolve_again (Dice.resolve_of_resolved hresolved hnow)⟩
  · rw [hsound.expectedDice, hsites, ← hall]
  · rw [hsites]
    have hfew := ((List.sublist_append_left ..).trans (List.sublist_append_left ..)).subperm.trans
      (h.sites r hr)
    exact hfew.perm_of_length_le (by rw [List.length_map, hall])

/-- A roll whose dice are all on the tray and have settled gets its result, and they show it. -/
theorem settle (h : Backed F start owed t) {id : Value} {r : Roll} (hfind : t.find? id = some r)
    (hresolved : r.record.resolved = false) (hcomplete : t.isComplete r.record = .ok true) :
    Backed F start owed (t.write r.serial (Dice.resolve r.record (t.diceOf id)).2) := by
  obtain ⟨owed', ho⟩ := h.orderly
  obtain ⟨hr, hsame⟩ := find?_id hfind
  have hmem := List.mem_append_left t.active hr
  rw [ho.diceOf_of_same (ho.id_eq hmem ▸ hsame)]
  obtain ⟨_, hall, hsettled⟩ := (ho.ready_iff hmem).1 ⟨hresolved, hcomplete⟩
  refine ⟨⟨owed', ho.write_resolve not_exact_undisturbed hr _⟩, fun x hx => ?_,
    fun x hhistory hx hnow => ?_⟩
  · obtain ⟨y, hy, rfl⟩ := List.mem_map.1 hx
    rw [Roll.serial_put, ho.sites_put hmem (List.mem_append_right _ hy) (Dice.groups_resolve ..)]
    exact h.sites y hy
  · obtain ⟨y, hy, rfl⟩ := List.mem_map.1 hhistory
    obtain ⟨y', hy', heq⟩ := List.mem_map.1 hx
    have hserial : y.serial = y'.serial := by
      rw [← Roll.serial_put r.serial _ y', heq, Roll.serial_put]
    obtain rfl := ho.agree y hy y' hy' hserial
    rw [Roll.serial_put]
    have hcases := ho.put_cases hmem (List.mem_append_left _ hy)
      (Dice.resolve r.record (t.diceOf ((undisturbed F start).id r.serial))).2
    rcases hcases with ⟨rfl, hput⟩ | ⟨_, hput⟩ <;> rw [hput] at hnow ⊢
    · exact h.shows_resolve hy' hresolved hall hsettled hnow
    · exact h.shows y hy hy' hnow

/-- All dice are looked at. Those of rolls that have their results lie still, as far as can be seen. -/
theorem poll : Keeps (Backed F start owed) poll := by
  intro t h
  obtain ⟨owed', ho⟩ := h.orderly
  have hsame := pollDice_same (Policy.ofConfig t.config) t.isFinal t.clock t.dice t.world
  refine h.fewer ⟨owed', (poll_change ho).orderly ho⟩ (fun _ hr => hr) (fun _ hr => hr) (fun r _ => ?_)
    fun r hhistory hr hresolved => ?_
  · refine List.Perm.subperm (.of_eq (congrArg (· ++ _) ?_))
    exact SameDie.map_eq (fun _ _ h => h.site) (SameDie.filter hsame _)
  · refine pollDice_kept _ _ _ _ fun d hd hid => ?_
    have hshows := h.shows r hhistory hr hresolved
    refine ⟨hshows.settled d (List.mem_filter.2 ⟨hd, hid⟩), ?_⟩
    obtain ⟨r', _, hroll⟩ := ho.dice d hd
    rw [hroll, same_id, decide_eq_true_iff] at hid
    rw [hroll, hid, isFinal, find?_of_mem ho hhistory]
    exact hresolved

theorem course : Course (fun id => ∃ n, id = .int n) (Backed F start owed) where
  known := ids
  around {t} chance clock formula h :=
    h.around t.world chance clock formula t.nextThrow t.listeners t.journal id id
  depart h hid hfind := h.depart hid hfind
  orphan h := h.orphan
  throwNext h hfirst _ := h.throwNext hfirst
  step dt t h := h.around _ t.chance t.clock t.formula t.nextThrow t.listeners t.journal (F.step dt) id
  settle h := h.settle

theorem announce (event : Event) (r : Record) : Keeps (Backed F start owed) (Tray.announce event r) :=
  keeps_announce (fun h => have ⟨_, ho⟩ := h.orderly; ho.quiet)
    (fun _ _ h hquiet => h.around _ _ _ _ _ _ _ id fun _ => hquiet) event r

/-! ### Rolls that are canceled -/

/-- A tray that was cleared has no active rolls. -/
theorem clearTray : Keeps (Backed F start owed) (clearTray Tray.announce) := by
  intro t h
  obtain ⟨owed', ho⟩ := h.orderly
  obtain ⟨owed₁, ho₁, _⟩ :=
    (clearTray_tidy (t := t) heeds_undisturbed).orderly not_exact_undisturbed ho
  refine of_inactive ⟨owed₁, ho₁⟩ ?_
  obtain ⟨t₁, hperform, _, hall⟩ := cancelAll_observed not_exact_undisturbed observes_announce ho
    fun r hr => h.ids r (List.mem_append_right _ hr)
  rw [Tray.clearTray, Attempt.perform_bind_of_ok (Attempt.perform_get t),
    Attempt.perform_bind_of_ok hperform, Attempt.perform_bind_of_ok (Attempt.perform_modify _ t₁)]
  obtain ⟨world, dice, hoff⟩ := takeOff_perform_snd (fun _ => true)
    (if 0 < t₁.nextId then { t₁ with watermark := .int (t₁.nextId - 1) } else t₁)
  rw [removeAllDice, hoff]
  split <;> exact hall.active_eq_nil

/-- No dice are left of rolls that are not in history once the active ones among them are canceled. -/
theorem prune : Keeps (Backed F start owed) (prune Tray.announce) := by
  intro t h
  obtain ⟨owed', ho⟩ := h.orderly
  have hids : ∀ r ∈ t.active.filter (fun r => !r.id.among (t.history.map Roll.id)), ∃ n, r.id = .int n :=
    fun r hr => h.ids r (List.mem_append_right _ (List.mem_filter.1 hr).1)
  have hcanceled := course.cancelAll (fun event r _ => announce event r) hids t h
  obtain ⟨t₁, hperform, ho₁, hall⟩ :=
    cancelAll_observed not_exact_undisturbed observes_announce ho hids
  rw [hperform] at hcanceled
  rw [Tray.prune, Attempt.perform_bind_of_ok (Attempt.perform_get t),
    Attempt.perform_bind_of_ok hperform, Attempt.perform_bind_of_ok (Attempt.perform_get t₁)]
  dsimp only
  rw [← hall.1, orphans_eq_nil ho₁ (hall.listed ho)]
  exact hcanceled

/-! ### Rolls that begin -/

/-- A roll that begins is owed all its dice. -/
theorem begin (h : Backed F start owed t) {r : Roll} (serial : r.serial = t.nextSerial)
    (id : r.record.id = .int t.nextId) (sound : r.record.Sound)
    (unresolved : r.record.resolved = false) :
    Backed F start (Function.update owed r.serial r.record.sites) { t with
      nextId := t.nextId + 1, nextSerial := t.nextSerial + 1,
      active := t.active ++ [r], history := r :: t.history } := by
  obtain ⟨owed', ho⟩ := h.orderly
  have hlt : ∀ r' ∈ t.active, r'.serial ≠ r.serial := fun r' hr' =>
    serial ▸ Nat.ne_of_lt (ho.serial_lt hr')
  refine ⟨⟨_, ho.begin serial id sound unresolved⟩, fun r' hr' => ?_, fun r' hhistory hr' hresolved => ?_⟩
  · rcases List.mem_append.1 hr' with hr' | hr'
    · rw [Function.update_of_ne (hlt r' hr')]
      exact h.sites r' hr'
    · rw [List.mem_singleton.1 hr', Function.update_self]
      show ((t.diceOf _).map _ ++ (t.throwsOf _).map _ ++ _).Subperm _
      rw [ho.diceOf_eq_nil hlt, ho.throwsOf_eq_nil (Nat.le_of_eq serial.symm)]
      exact .refl _
  · rcases List.mem_append.1 hr' with hr' | hr'
    · rcases List.mem_cons.1 hhistory with rfl | hhistory
      · rw [unresolved] at hresolved
        cases hresolved
      · exact h.shows r' hhistory hr' hresolved
    · rw [List.mem_singleton.1 hr', unresolved] at hresolved
      cases hresolved

/-- A die that is owed is set to be thrown. -/
theorem push (h : Backed F start owed t) {throw : Throw} {order serial : Nat} {rest : List Site}
    {pending : Array (Nat × Throw)} (begun : serial < t.nextSerial)
    (roll : throw.roll = (undisturbed F start).id serial) (owes : owed serial = throw.site :: rest)
    (perm : pending.toList.Perm ((order, throw) :: t.pending.toList)) :
    Backed F start (Function.update owed serial rest) { t with pending } := by
  obtain ⟨owed', ho⟩ := h.orderly
  have ho' : Orderly (undisturbed F start) (Function.update owed' serial []) { t with pending } :=
    ho.push roll begun (fun hcounted => absurd hcounted.1 not_exact_undisturbed) perm
  refine ⟨⟨_, ho'⟩, fun r hr => ?_, h.shows⟩
  exact (sitesOf_push roll owes perm _).subperm.trans (h.sites r hr)

/-- Dice need not be owed any more. -/
theorem clear (h : Backed F start owed t) : Backed F start (fun _ => []) t :=
  { h with sites := fun r hr =>
      ((List.nil_sublist _).append_left _).subperm.trans (h.sites r hr) }

/-- The dice of a roll that begins are set to be thrown. -/
theorem schedule {serial : Nat} {places : List Place} (total index : Nat) (delay : Float)
    (h : Backed F start owed t) (begun : serial < t.nextSerial)
    (owes : owed serial = places.map Place.site) :
    Backed F start (fun _ => [])
      ((schedule ((undisturbed F start).id serial) total index delay places).perform t).2 := by
  induction places generalizing t owed index delay with
  | nil => exact h.clear
  | cons place rest ih =>
    let Owing (s : Tray ω) : Prop :=
      Backed F start (Function.update owed serial (rest.map Place.site)) s ∧ serial < s.nextSerial
    have haround : ∀ s, Owing s → ∀ chance nextThrow, Owing { s with chance, nextThrow } :=
      fun s hs chance nextThrow => ⟨hs.1.around _ _ _ _ _ _ _ id id, hs.2⟩
    have hclear : ∀ s, Owing s → Backed F start (fun _ => []) s := fun _ hs => hs.1.clear
    have hadd : ∀ throw : Throw, throw.roll = (undisturbed F start).id serial →
        throw.site = place.site → Owing ((addThrow throw).perform t).2 := by
      intro throw hroll hsite
      rw [addThrow, Attempt.perform_bind_of_ok (Attempt.perform_get t)]
      have hpush : Owing (((Heap.push throwsBefore (t.nextThrow, throw)).within Tray.pending
          fun pending t => { t with pending }).perform t).2 :=
        ⟨h.push begun hroll (hsite ▸ owes) (push_toList_perm ..), begun⟩
      exact Keeps.bind_from hpush (fun _ h => h) fun _ => Keeps.of_modify fun s hs => haround s hs _ _
    rw [Tray.schedule, Attempt.perform_bind_of_ok (Attempt.perform_get t)]
    refine Keeps.bind_from (hadd _ rfl rfl) hclear fun _ s hs => ?_
    have hchance : Keeps Owing (withChance Chance.draw) := .within fun s hs => haround s hs _ _
    exact hchance.bind_of hs hclear fun _ s hs => ih _ _ hs.1 hs.2 (Function.update_self ..)

/-! ### Operations -/

theorem launch {source : String} {compiled : Formula.Compiled} (formula : String)
    (hcompiled : Formula.compile source = .ok compiled) :
    Keeps (Backed F start fun _ => []) (launch Tray.announce formula compiled) :=
  keeps_launch (fun r => Backed F start (Function.update (fun _ => []) r.serial r.record.sites))
    orderly (course.makeRoom fun event r _ => announce event r)
    (fun {t _} h hserial hrecord => h.begin hserial (congrArg Record.id hrecord)
      (hrecord ▸ sound_ofCompiled hcompiled t.nextId formula) (congrArg Record.resolved hrecord))
    (fun _ => keeps_trimHistory (fun h => h.trim) prune) clear
    (fun hgroups h hissued => h.schedule _ _ _ hissued
      ((Function.update_self ..).trans (sites_of_groups hgroups)))
    (announce _)

theorem offers : Offers Tray.announce (Backed F start fun _ => []) where
  chance _ := .within fun _ h => h.around _ _ _ _ _ _ _ id id
  formula _ := .of_modify fun _ h => h.around _ _ _ _ _ _ _ id id
  launch formula hcompiled _ h _ := launch formula hcompiled _ h
  cancel n := course.cancel (fun event r _ => announce event r) ⟨n, rfl⟩
  clearTray := clearTray
  clearHistory := keeps_clearHistory (fun h => h.trim) prune
  prune := prune

theorem operation (op : Operation) :
    Keeps (Backed F start fun _ => []) (op.attempt Tray.announce) :=
  offers.operation op fun _ => course.tick (fun event r _ => announce event r) poll

theorem of_undisturbed (run : Undisturbed F t t') (h : Backed F start (fun _ => []) t) :
    Backed F start (fun _ => []) t' := by
  induction run with
  | refl => exact h
  | act _ op ih => exact operation op _ ih
  | outside _ world chance listeners holds quiet ih => exact ih.around _ _ _ _ _ _ _ holds fun _ => quiet

end Backed

/-- While listeners only look on, whatever comes of operations and whatever is done to the bodies, the
dice of active rolls that have their results show them. -/
theorem shows_of_undisturbed {t₀ : Tray ω} (fresh : Fresh t₀) (holds : F.holds t₀.world [])
    (quiet : Onlookers t₀.listeners) (run : Undisturbed F t₀ t) :
    ∀ r ∈ t.active, r.record.resolved = true → Shows (t.diceOf r.id) r.record := by
  have hintact := fresh.intact holds quiet
  have hbacked : Backed F t₀.nextId (fun _ => []) t := .of_undisturbed run (.of_inactive hintact.orderly
    fresh.active)
  obtain ⟨owed, ho⟩ := hbacked.orderly
  intro r hr hresolved
  rw [ho.id_eq (List.mem_append_right _ hr)]
  exact hbacked.shows r ((run.intact hintact).listed r hr) hr hresolved

/-- A die is thrown and laid down for its roll to get a result, and then it is knocked over. -/
def jolted : Tray ScriptedWorld :=
  let after (op : Operation) (t : Tray ScriptedWorld) := ((op.attempt announce).perform t).2
  after (.tick (.int 1)) (byHand (ScriptedWorld.knock 0 (.int 2))
    (after (.tick (.int 1)) (byHand (ScriptedWorld.settle 0 (some (.int 5)))
      (after (.tick (.int 9)) (after (.roll "d6") vacant)))))

/-- The die was knocked over after its roll had got its result, which is still what the die shows. -/
theorem shows_jolted : Undisturbed ScriptedWorld.footing vacant jolted ∧
    (∃ r ∈ jolted.active, r.record.resolved = true ∧ r.record.result.toInt.toOption = some 5 ∧
      (jolted.diceOf r.id).length = 1) ∧
    ∀ r ∈ jolted.active, r.record.resolved = true → Shows (jolted.diceOf r.id) r.record := by
  have hintact := fresh_vacant.intact (F := ScriptedWorld.footing) (ScriptedWorld.bears_nil _)
    onlookers_vacant
  have hthrown : Undisturbed ScriptedWorld.footing vacant _ := (Undisturbed.refl.act (.roll "d6")).act
    (.tick (.int 9))
  have hlaid := hthrown.byHand hintact (ScriptedWorld.settle 0 (some (.int 5))) fun h =>
    h.rework 0 fun body => { body with face := .int 5, asleep := true }
  have hknocked := (hlaid.act (.tick (.int 1))).byHand hintact (ScriptedWorld.knock 0 (.int 2)) fun h =>
    h.rework 0 fun body => { body with face := .int 2, asleep := false }
  have run : Undisturbed ScriptedWorld.footing vacant jolted := hknocked.act (.tick (.int 1))
  refine ⟨run, ?_, shows_of_undisturbed fresh_vacant (ScriptedWorld.bears_nil _) onlookers_vacant run⟩
  decide +kernel

end Tray

end RollTray
