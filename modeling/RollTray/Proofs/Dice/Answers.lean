import RollTray.Proofs.Sorting
import RollTray.Proofs.Tray.Sites

/-!
# Results of resolved rolls

If the dice of a roll stand at its sites, each once, then every group's results are the values of its
logical dice, one for each and each read from its own physical dice (`reads_of_resolve`): the dice are
put together by logical die (`byLogicalDie_together`), each logical die adds one value to its group
(`valuesOf_of_fold`), and keep rules lose none (`applyKeep_perm`). So a group has as many results as
dice (`answers_of_resolve`).
-/

namespace RollTray

/-- Which logical die a physical die belongs to. -/
def Die.place (d : Die) : Value × Value :=
  (d.group, d.logical)

/-- A group and a die in it. -/
def IsPlace (place : Value × Value) : Prop :=
  ∃ group logical : Nat, place = (.int group, .int logical)

/-- Two integers, whether or not there is a place of these numbers. -/
def IsNumbered (place : Value × Value) : Prop :=
  ∃ group logical : Int, place = (.int group, .int logical)

theorem IsPlace.numbered {place : Value × Value} (h : IsPlace place) : IsNumbered place := by
  obtain ⟨group, logical, rfl⟩ := h
  exact ⟨group, logical, rfl⟩

namespace Order

variable {κ α : Type} {same : κ → κ → Bool} {key : κ} {entries : List (κ × List α)}

/-- An item under a key that there is changes no keys; another key is put at the end. -/
theorem keys_pushUnder (h : ∀ k ∈ entries.map Prod.fst, same k key = true ↔ k = key) (x : α) :
    key ∈ entries.map Prod.fst ∧
        (pushUnder same key x entries).map Prod.fst = entries.map Prod.fst ∨
      key ∉ entries.map Prod.fst ∧
        (pushUnder same key x entries).map Prod.fst = entries.map Prod.fst ++ [key] := by
  induction entries with
  | nil => exact .inr ⟨nofun, rfl⟩
  | cons entry rest ih =>
    obtain ⟨k, xs⟩ := entry
    have hk := h k (List.mem_cons_self ..)
    rw [pushUnder]
    by_cases hsame : same k key
    · rw [if_pos hsame]
      exact .inl ⟨hk.1 hsame ▸ List.mem_cons_self .., rfl⟩
    · rw [if_neg hsame, List.map_cons, List.map_cons]
      have hne : key ≠ k := fun heq => hsame (hk.2 heq.symm)
      rcases ih fun k hk => h k (List.mem_cons_of_mem _ hk) with ⟨hmem, hkeys⟩ | ⟨hmem, hkeys⟩
      · exact .inl ⟨List.mem_cons_of_mem _ hmem, congrArg (k :: ·) hkeys⟩
      · refine .inr ⟨?_, congrArg (k :: ·) hkeys⟩
        simp only [List.mem_cons, hne, hmem, or_self, not_false_eq_true]

/-- Under an item's key it is the last one; nothing changes under other keys. -/
theorem items_pushUnder (hnodup : (entries.map Prod.fst).Nodup)
    (h : ∀ k ∈ entries.map Prod.fst, same k key = true ↔ k = key) (x : α) :
    ∀ entry ∈ pushUnder same key x entries,
      entry ∈ entries ∧ entry.1 ≠ key ∨ (∃ xs, (key, xs) ∈ entries ∧ entry = (key, xs ++ [x])) ∨
        key ∉ entries.map Prod.fst ∧ entry = (key, [x]) := by
  induction entries with
  | nil => exact fun entry hentry => .inr (.inr ⟨nofun, List.mem_singleton.1 hentry⟩)
  | cons first rest ih =>
    obtain ⟨k, xs⟩ := first
    have hk := h k (List.mem_cons_self ..)
    obtain ⟨hnotin, hnodup⟩ := List.nodup_cons.1 hnodup
    rw [pushUnder]
    intro entry hentry
    by_cases hsame : same k key
    · obtain rfl := hk.1 hsame
      rw [if_pos hsame] at hentry
      rcases List.mem_cons.1 hentry with rfl | hentry
      · exact .inr (.inl ⟨xs, List.mem_cons_self .., rfl⟩)
      · refine .inl ⟨List.mem_cons_of_mem _ hentry, fun heq => hnotin ?_⟩
        exact List.mem_map.2 ⟨entry, hentry, heq⟩
    · have hne : key ≠ k := fun heq => hsame (hk.2 heq.symm)
      rw [if_neg hsame] at hentry
      rcases List.mem_cons.1 hentry with rfl | hentry
      · exact .inl ⟨List.mem_cons_self .., hne.symm⟩
      · rcases ih hnodup (fun k hk => h k (List.mem_cons_of_mem _ hk)) entry hentry with
          ⟨hmem, hkey⟩ | ⟨xs, hmem, heq⟩ | ⟨hmem, heq⟩
        · exact .inl ⟨List.mem_cons_of_mem _ hmem, hkey⟩
        · exact .inr (.inl ⟨xs, List.mem_cons_of_mem _ hmem, heq⟩)
        · refine .inr (.inr ⟨?_, heq⟩)
          simp only [List.map_cons, List.mem_cons, hne, hmem, or_self, not_false_eq_true]

end Order

namespace Dice

theorem samePlace_iff {a b : Value × Value} (ha : IsNumbered a) (hb : IsNumbered b) :
    samePlace a b = true ↔ a = b := by
  obtain ⟨i, j, rfl⟩ := ha
  obtain ⟨k, l, rfl⟩ := hb
  simp [samePlace, Value.sameKey_int]

/-! ## The dice of each logical die -/

/-- Dice put together by logical die. -/
structure Together (dice : List Die) (found : List ((Value × Value) × List Die)) : Prop where
  nodup : (found.map Prod.fst).Nodup
  mem : ∀ place, place ∈ found.map Prod.fst ↔ place ∈ dice.map Die.place
  dice : ∀ entry ∈ found, entry.2 = dice.filter fun d => samePlace d.place entry.1

/-- One more die. -/
theorem Together.push {dice : List Die} {found : List ((Value × Value) × List Die)}
    (h : Together dice found) (hplaces : ∀ d ∈ dice, IsNumbered d.place) {d : Die}
    (hplace : IsNumbered d.place) :
    Together (dice ++ [d]) (Order.pushUnder samePlace d.place d found) := by
  have hint : ∀ k ∈ found.map Prod.fst, IsNumbered k := by
    intro k hk
    obtain ⟨d', hd', rfl⟩ := List.mem_map.1 ((h.mem k).1 hk)
    exact hplaces d' hd'
  have hsame : ∀ k ∈ found.map Prod.fst, samePlace k d.place = true ↔ k = d.place :=
    fun k hk => samePlace_iff (hint k hk) hplace
  have hself : [d].filter (fun d' => samePlace d'.place d.place) = [d] :=
    List.filter_cons_of_pos (p := fun d' : Die => samePlace d'.place d.place)
      ((samePlace_iff hplace hplace).2 rfl)
  have hkeys := Order.keys_pushUnder hsame d
  refine ⟨?_, fun place => ?_, fun entry hentry => ?_⟩
  · rcases hkeys with ⟨_, hkeys⟩ | ⟨hmem, hkeys⟩
    · rw [hkeys]
      exact h.nodup
    · rw [hkeys]
      exact h.nodup.append (List.nodup_singleton _) (by simpa using hmem)
  · rw [List.map_append, List.mem_append, ← h.mem, List.map_singleton, List.mem_singleton]
    rcases hkeys with ⟨hmem, hkeys⟩ | ⟨_, hkeys⟩
    · rw [hkeys]
      exact ⟨.inl, fun h => h.elim id fun heq => heq ▸ hmem⟩
    · rw [hkeys, List.mem_append, List.mem_singleton]
  · rw [List.filter_append]
    rcases Order.items_pushUnder h.nodup hsame d entry hentry with
      ⟨hmem, hne⟩ | ⟨xs, hmem, rfl⟩ | ⟨hnotin, rfl⟩
    · have hother : samePlace d.place entry.1 = false := Bool.eq_false_iff.2 fun heq =>
        hne ((samePlace_iff hplace (hint _ (List.mem_map_of_mem hmem))).1 heq).symm
      rw [List.filter_cons_of_neg (by rw [hother]; exact Bool.false_ne_true), List.filter_nil,
        List.append_nil]
      exact h.dice entry hmem
    · rw [hself]
      exact congrArg (· ++ [d]) (h.dice _ hmem)
    · rw [hself, List.filter_eq_nil_iff.2, List.nil_append]
      intro d' hd' heq
      refine hnotin ((h.mem _).2 ?_)
      rw [← (samePlace_iff (hplaces d' hd') hplace).1 heq]
      exact List.mem_map_of_mem hd'

theorem byLogicalDie_together {dice : List Die} (hplaces : ∀ d ∈ dice, IsNumbered d.place)
    {found : List ((Value × Value) × List Die)} (h : byLogicalDie dice = .ok found) :
    Together dice found := by
  suffices hfold : ∀ before start, (∀ d ∈ before, IsNumbered d.place) → Together before start →
      dice.foldlM (fun found d => do
        let group ← d.group.asKey
        let logical ← d.logical.asKey
        return Order.pushUnder samePlace (group, logical) d found) start = Except.ok (ε := Fault) found →
      Together (before ++ dice) found from
    hfold [] [] (fun _ h => nomatch h) ⟨.nil, fun _ => by simp, fun _ h => nomatch h⟩ h
  clear h
  induction dice with
  | nil =>
    intro before start _ hstart h
    cases h
    rwa [List.append_nil]
  | cons d dice ih =>
    intro before start hbefore hstart h
    have hplace := hplaces d (List.mem_cons_self ..)
    obtain ⟨next, hnext, h⟩ := bind_eq_ok.1 h
    have hpush : next = Order.pushUnder samePlace d.place d start := by
      obtain ⟨i, j, hij⟩ := hplace
      obtain ⟨hgroup, hlogical⟩ := Prod.mk.inj hij
      dsimp only at hnext
      rw [hgroup, hlogical] at hnext
      rw [hij]
      exact (Except.ok.inj hnext).symm
    have hbefore' : ∀ d' ∈ before ++ [d], IsNumbered d'.place := by
      intro d' hd'
      rcases List.mem_append.1 hd' with hd' | hd'
      · exact hbefore d' hd'
      · rw [List.mem_singleton.1 hd']
        exact hplace
    have htogether := ih (fun d hd => hplaces d (List.mem_cons_of_mem _ hd)) (before ++ [d]) next
      hbefore' (hpush ▸ hstart.push hbefore hplace) h
    rwa [List.append_assoc] at htogether

/-! ## One value for each logical die -/

/-- A group's results are the values of its logical dice, one for each, and each of them is read from
the physical dice at its place. -/
def Reads (dice : List Die) (index : Nat) (g : Group) (results : List DieResult) : Prop :=
  ∃ value : Nat → Value,
    (∀ logical : Nat, logical < g.size →
      logicalValue (dice.filter fun d => samePlace d.place (.int index, .int logical)) =
        .ok (value logical)) ∧
      (results.map DieResult.value).Perm ((List.range g.size).map value)

theorem valuesOf_cons (index n : Nat) (values : List Value) (rest : List (Value × List Value)) :
    valuesOf index ((.int n, values) :: rest) =
      if n = index then values else valuesOf index rest := by
  rw [valuesOf, List.find?_cons, Value.same_int]
  by_cases heq : n = index
  · rw [if_pos heq, heq, decide_eq_true rfl]
  · rw [if_neg heq, decide_eq_false (by omega), valuesOf]

/-- A value adds to its group. -/
theorem valuesOf_pushUnder {results : List (Value × List Value)}
    (hints : ∀ result ∈ results, ∃ n : Nat, result.1 = .int n) (index group : Nat) (v : Value) :
    valuesOf index (Order.pushUnder Value.sameKey (.int group) v results) =
      valuesOf index results ++ if group = index then [v] else [] := by
  induction results with
  | nil =>
    rw [Order.pushUnder, valuesOf_cons]
    split <;> rfl
  | cons result rest ih =>
    obtain ⟨_, values⟩ := result
    obtain ⟨n, rfl⟩ := hints _ (List.mem_cons_self ..)
    have ih := ih fun result h => hints result (List.mem_cons_of_mem _ h)
    rw [Order.pushUnder, Value.sameKey_int, valuesOf_cons]
    by_cases hgroup : n = group
    · rw [if_pos (by simp [hgroup]), valuesOf_cons, hgroup]
      split
      · rfl
      · exact (List.append_nil _).symm
    · rw [if_neg (by simp; omega), valuesOf_cons]
      split
      · rw [if_neg (by omega), List.append_nil]
      · exact ih

theorem exists_int_of_pushUnder {results : List (Value × List Value)}
    (hints : ∀ result ∈ results, ∃ n : Nat, result.1 = .int n) (group : Nat) (v : Value) :
    ∀ result ∈ Order.pushUnder Value.sameKey (.int group) v results, ∃ n : Nat, result.1 = .int n := by
  have hsame : ∀ k ∈ results.map Prod.fst,
      Value.sameKey k (.int group) = true ↔ k = .int group := by
    intro k hk
    obtain ⟨other, hother, rfl⟩ := List.mem_map.1 hk
    obtain ⟨n, hn⟩ := hints other hother
    rw [hn, Value.sameKey_int, decide_eq_true_iff]
    simp
  have hold : ∀ k ∈ results.map Prod.fst, ∃ n : Nat, k = .int n := by
    intro k hk
    obtain ⟨other, hother, rfl⟩ := List.mem_map.1 hk
    exact hints other hother
  intro result hresult
  have hmem := List.mem_map_of_mem (f := Prod.fst) hresult
  rcases Order.keys_pushUnder hsame v with ⟨_, hkeys⟩ | ⟨_, hkeys⟩
  · rw [hkeys] at hmem
    exact hold _ hmem
  · rw [hkeys] at hmem
    rcases List.mem_append.1 hmem with hmem | hmem
    · exact hold _ hmem
    · exact ⟨group, List.mem_singleton.1 hmem⟩

/-- The values of a group are those of its logical dice. -/
theorem valuesOf_of_fold {sorted : List ((Value × Value) × List Die)}
    {start results : List (Value × List Value)}
    (hplaces : ∀ entry ∈ sorted, IsPlace entry.1)
    (hints : ∀ result ∈ start, ∃ n : Nat, result.1 = .int n)
    (h : sorted.foldlM (fun results (place, dice) => do
      return Order.pushUnder Value.sameKey place.1 (← logicalValue dice) results) start =
        Except.ok (ε := Fault) results) (index : Nat) :
    ∃ values, valuesOf index results = valuesOf index start ++ values ∧
      List.Forall₂ (fun entry v => logicalValue entry.2 = .ok v)
        (sorted.filter fun entry => entry.1.1.same (.int index)) values := by
  induction sorted generalizing start with
  | nil =>
    cases h
    exact ⟨[], (List.append_nil _).symm, .nil⟩
  | cons entry sorted ih =>
    obtain ⟨next, hnext, h⟩ := bind_eq_ok.1 h
    obtain ⟨v, hv, hnext⟩ := bind_eq_ok.1 hnext
    cases hnext
    obtain ⟨group, logical, hplace⟩ := hplaces entry (List.mem_cons_self ..)
    have hgroup : entry.1.1 = .int group := congrArg Prod.fst hplace
    rw [hgroup] at h
    obtain ⟨values, heq, hvalues⟩ := ih (fun entry he => hplaces entry (List.mem_cons_of_mem _ he))
      (exists_int_of_pushUnder hints group v) h
    rw [valuesOf_pushUnder hints, List.append_assoc] at heq
    rw [List.filter_cons, hgroup, Value.same_int]
    by_cases hindex : group = index
    · rw [if_pos hindex] at heq
      rw [if_pos (by simp [hindex])]
      exact ⟨v :: values, heq, .cons hv hvalues⟩
    · rw [if_neg hindex] at heq
      rw [if_neg (by simp; omega)]
      exact ⟨values, heq, hvalues⟩

theorem sortValues_perm {largestFirst : Bool} {values sorted : List Value}
    (h : sortValues largestFirst values = .ok sorted) : sorted.Perm values := by
  unfold sortValues at h
  split at h
  · obtain ⟨reversed, hsort, h⟩ := bind_eq_ok.1 h
    cases h
    exact (List.reverse_perm _).trans ((Order.sortBy_perm hsort).trans (List.reverse_perm _))
  · exact Order.sortBy_perm h

theorem value_markKept (kept : Nat) (values : List Value) :
    (markKept kept values).map DieResult.value = values := by
  rw [markKept, List.map_append, List.map_map, List.map_map]
  show (values.take kept).map id ++ (values.drop kept).map id = values
  rw [List.map_id, List.map_id, List.take_append_drop]

/-- Keep rules mark dice and lose none. -/
theorem applyKeep_perm {g : Group} {values : List Value} {results : List DieResult}
    (h : applyKeep g values = .ok results) : (results.map DieResult.value).Perm values := by
  unfold applyKeep at h
  dsimp only at h
  split at h
  · obtain ⟨sorted, hsort, h⟩ := bind_eq_ok.1 h
    obtain ⟨keep, _, h⟩ := bind_eq_ok.1 h
    cases h
    rw [value_markKept]
    exact sortValues_perm hsort
  · cases h
    rw [value_markKept]

theorem results_of_settleGroups {values : List (Value × List Value)} {groups : List Group}
    {index : Nat} {results : List (List DieResult)} {amounts : List Formula.Amount}
    (h : settleGroups values index groups = .ok (results, amounts)) :
    results.length = groups.length ∧ ∀ (k : Nat) (first : List DieResult), results[k]? = some first →
      (first.map DieResult.value).Perm (valuesOf (index + k) values) := by
  induction groups generalizing index results amounts with
  | nil =>
    cases h
    exact ⟨rfl, fun k first hk => nomatch hk⟩
  | cons g groups ih =>
    obtain ⟨first, hkeep, h⟩ := bind_eq_ok.1 h
    obtain ⟨amount, _, h⟩ := bind_eq_ok.1 h
    obtain ⟨⟨later, others⟩, hrest, h⟩ := bind_eq_ok.1 h
    cases h
    obtain ⟨hlength, hlater⟩ := ih hrest
    refine ⟨congrArg (· + 1) hlength, fun k first' hk => ?_⟩
    cases k with
    | zero =>
      cases hk
      exact applyKeep_perm hkeep
    | succ k =>
      have hvalues := hlater k first' hk
      rwa [Nat.add_right_comm, Nat.add_assoc] at hvalues

/-! ## Dice at their sites -/

/-- The logical dice of a group among those of a record. -/
theorem places_of_group {r : Record} {places : List (Value × Value)} (hnodup : places.Nodup)
    (hplaces : ∀ place, place ∈ places ↔ ∃ site ∈ r.sites, (site.group, site.logical) = place)
    {k : Nat} {g : Group} (hg : r.groups[k]? = some g) :
    (places.filter fun place => place.1.same (.int k)).Perm
      ((List.range g.size).map fun (logical : Nat) => ((Value.int k, Value.int logical))) := by
  refine (List.perm_ext_iff_of_nodup (hnodup.filter _) ?_).2 fun place => ?_
  · refine List.nodup_range.map fun a b h => ?_
    exact Int.ofNat.inj (Value.int.inj (Prod.mk.inj h).2)
  · rw [List.mem_filter, hplaces, List.mem_map]
    constructor
    · rintro ⟨⟨site, hsite, rfl⟩, hgroup⟩
      obtain ⟨index, g', hg', hsite⟩ := mem_sites.1 hsite
      obtain ⟨logical, hlt, hlogical⟩ := exists_logical_of_mem hsite
      rw [mem_groupSites hsite, Value.same_int, decide_eq_true_iff] at hgroup
      obtain rfl : index = k := by omega
      cases hg.symm.trans hg'
      refine ⟨logical, List.mem_range.2 hlt, ?_⟩
      rw [mem_groupSites hsite, hlogical]
    · rintro ⟨logical, hlt, rfl⟩
      obtain ⟨site, hsite, hlogical⟩ := exists_mem_of_logical k (List.mem_range.1 hlt)
      refine ⟨⟨site, mem_sites.2 ⟨k, g, hg, hsite⟩, ?_⟩, ?_⟩
      · rw [mem_groupSites hsite, hlogical]
      · rw [Value.same_int, decide_eq_true rfl]

theorem size_of_sound {r : Record} (hsound : r.Sound) {g : Group} (hg : g ∈ r.groups) :
    g.count = .int g.size := by
  obtain ⟨terms, _, _, hgroups⟩ := hsound
  rw [hgroups] at hg
  obtain ⟨term, _, rfl⟩ := List.mem_map.1 hg
  rfl

/-- The value of the logical die at a place. -/
def valueAt (dice : List Die) (place : Value × Value) : Value :=
  (logicalValue (dice.filter fun d => samePlace d.place place)).toOption.getD .null

/-- Values that are read from the dice at some places. -/
theorem eq_valueAt {dice : List Die} {entries : List ((Value × Value) × List Die)}
    (hdice : ∀ entry ∈ entries, entry.2 = dice.filter fun d => samePlace d.place entry.1)
    {values : List Value}
    (h : List.Forall₂ (fun entry v => logicalValue entry.2 = .ok v) entries values) :
    values = (entries.map Prod.fst).map (valueAt dice) ∧ ∀ place ∈ entries.map Prod.fst,
      logicalValue (dice.filter fun d => samePlace d.place place) = .ok (valueAt dice place) := by
  induction h with
  | nil => exact ⟨rfl, fun _ h => nomatch h⟩
  | @cons entry v entries values hv _ ih =>
    obtain ⟨hvalues, hread⟩ := ih fun entry he => hdice entry (List.mem_cons_of_mem _ he)
    rw [hdice entry (List.mem_cons_self ..)] at hv
    have hvalue : valueAt dice entry.1 = v := by rw [valueAt, hv]; rfl
    refine ⟨?_, fun place hplace => ?_⟩
    · rw [List.map_cons, List.map_cons, hvalue, ← hvalues]
    · rcases List.mem_cons.1 hplace with rfl | hplace
      · rw [hvalue]
        exact hv
      · exact hread place hplace

section

variable {r : Record} {dice : List Die} (hsites : (dice.map Die.site).Perm r.sites)

include hsites

theorem isPlace_of_sites {d : Die} (hd : d ∈ dice) : IsPlace d.place := by
  obtain ⟨index, g, _, hsite⟩ := mem_sites.1 (hsites.mem_iff.1 (List.mem_map_of_mem hd))
  obtain ⟨logical, _, hlogical⟩ := exists_logical_of_mem hsite
  exact ⟨index, logical, Prod.ext (mem_groupSites hsite) hlogical⟩

/-- The dice stand at the places of the sites. -/
theorem exists_place_iff (place : Value × Value) :
    (∃ d ∈ dice, d.place = place) ↔ ∃ site ∈ r.sites, (site.group, site.logical) = place := by
  constructor
  · rintro ⟨d, hd, rfl⟩
    exact ⟨d.site, hsites.mem_iff.1 (List.mem_map_of_mem hd), rfl⟩
  · rintro ⟨site, hsite, rfl⟩
    obtain ⟨d, hd, rfl⟩ := List.mem_map.1 (hsites.mem_iff.2 hsite)
    exact ⟨d, hd, rfl⟩

end

/-- If the dice of a roll stand at its sites, a group has one value for each of its logical dice. -/
theorem valuesOf_of_sites {r : Record} {dice : List Die}
    (hsites : (dice.map Die.site).Perm r.sites) {values : List (Value × List Value)}
    (h : logicalResults dice = .ok values) {k : Nat} {g : Group} (hg : r.groups[k]? = some g) :
    ∃ value : Nat → Value,
      (∀ logical : Nat, logical < g.size →
        logicalValue (dice.filter fun d => samePlace d.place (.int k, .int logical)) =
          .ok (value logical)) ∧
        (valuesOf k values).Perm ((List.range g.size).map value) := by
  have hplaces : ∀ d ∈ dice, IsPlace d.place := fun _ => isPlace_of_sites hsites
  obtain ⟨found, hfound, h⟩ := bind_eq_ok.1 h
  obtain ⟨sorted, hsort, h⟩ := bind_eq_ok.1 h
  have hfound := byLogicalDie_together (fun d hd => (hplaces d hd).numbered) hfound
  have hperm := Order.sortBy_perm hsort
  have hkeys := hperm.map Prod.fst
  have hsortedPlaces : ∀ entry ∈ sorted, IsPlace entry.1 := by
    intro entry hentry
    obtain ⟨d, hd, heq⟩ := List.mem_map.1
      ((hfound.mem _).1 (hkeys.mem_iff.1 (List.mem_map_of_mem hentry)))
    exact heq ▸ hplaces d hd
  obtain ⟨read, hvalues, hentries⟩ := valuesOf_of_fold hsortedPlaces (by simp) h k
  obtain ⟨rfl, hread⟩ := eq_valueAt (fun entry hentry =>
    hfound.dice entry (hperm.mem_iff.1 (List.mem_filter.1 hentry).1)) hentries
  have hgroup := places_of_group (hkeys.nodup_iff.2 hfound.nodup) (fun place => ?_) hg
  · have hfilter : (sorted.filter fun entry => entry.1.1.same (.int k)).map Prod.fst =
        (sorted.map Prod.fst).filter fun place => place.1.same (.int k) := by
      rw [List.filter_map]
      rfl
    rw [hfilter] at hvalues hread
    refine ⟨fun logical => valueAt dice (.int k, .int logical), fun logical hlt => ?_, ?_⟩
    · refine hread _ (hgroup.mem_iff.2 ?_)
      exact List.mem_map.2 ⟨logical, List.mem_range.2 hlt, rfl⟩
    · rw [hvalues]
      refine (hgroup.map (valueAt dice)).trans ?_
      rw [List.map_map]
      exact List.Perm.refl _
  · rw [hkeys.mem_iff, hfound.mem, List.mem_map]
    exact exists_place_iff hsites place

/-! ## Resolved records -/

theorem fill_spec {r filled : Record} {amounts : List Formula.Amount}
    (h : Record.fill r amounts = .ok filled) :
    filled.id = r.id ∧ filled.groups = r.groups ∧ filled.results = r.results ∧
      filled.resolved = true := by
  unfold Record.fill at h
  split at h
  · split at h
    · cases h
      refine ⟨rfl, rfl, rfl, ?_⟩
      rename_i amount _
      unfold RollTray.Record.resolved
      cases amount.value <;> rfl
    · cases h
      exact ⟨rfl, rfl, rfl, rfl⟩
    · cases h
  · cases h

/-- A roll that has no result yet gets one, or it gets none and keeps what it was thrown for. -/
theorem resolve_cases {r : Record} (dice : List Die) (h : r.resolved = false) :
    ∃ record, record.id = r.id ∧ record.groups = r.groups ∧
      (resolve r dice = (.ok true, record) ∧ record.resolved = true ∨
        ∃ fault, resolve r dice = (.error fault, record) ∧ record.resolved = false) := by
  rw [resolve, if_neg (by rw [h]; exact Bool.false_ne_true)]
  split
  · exact ⟨r, rfl, rfl, .inr ⟨_, rfl, h⟩⟩
  · dsimp only
    split
    · rename_i filled hfill
      obtain ⟨hid, hgroups, _, hresolved⟩ := fill_spec hfill
      exact ⟨filled, hid, hgroups, .inl ⟨rfl, hresolved⟩⟩
    · refine ⟨_, ?_, ?_, .inr ⟨_, rfl, ?_⟩⟩
      · rfl
      · rfl
      · exact h

/-- Only results are written into a record. -/
theorem exists_resolve (r : Record) (dice : List Die) : ∃ results result breakdown,
    (resolve r dice).2 = { r with results, result, breakdown } := by
  rw [resolve]
  split
  · exact ⟨_, _, _, rfl⟩
  · split
    · exact ⟨_, _, _, rfl⟩
    · dsimp only
      split
      · next hfill =>
        unfold Record.fill at hfill
        split at hfill
        · split at hfill
          · cases hfill
            exact ⟨_, _, _, rfl⟩
          · cases hfill
            exact ⟨_, _, _, rfl⟩
          · cases hfill
        · cases hfill
      · exact ⟨_, _, _, rfl⟩

theorem id_resolve (r : Record) (dice : List Die) : (resolve r dice).2.id = r.id := by
  obtain ⟨_, _, _, hresolve⟩ := exists_resolve r dice
  rw [hresolve]

theorem groups_resolve (r : Record) (dice : List Die) : (resolve r dice).2.groups = r.groups := by
  obtain ⟨_, _, _, hresolve⟩ := exists_resolve r dice
  rw [hresolve]

/-- A roll that had no result and has one now got it from these dice. -/
theorem resolve_of_resolved {r : Record} {dice : List Die} (h : r.resolved = false)
    (hnow : (resolve r dice).2.resolved = true) :
    resolve r dice = (.ok true, (resolve r dice).2) := by
  obtain ⟨record, _, _, ⟨hresolve, _⟩ | ⟨_, hresolve, hstill⟩⟩ := resolve_cases dice h
  · rw [hresolve]
  · rw [hresolve, hstill] at hnow
    cases hnow

/-- The groups of a roll that gets its result are settled and its template is evaluated. -/
theorem exists_of_resolve {r record : Record} {dice : List Die} (h : resolve r dice = (.ok true, record)) :
    ∃ values results amounts, logicalResults dice = .ok values ∧
      settleGroups values 0 r.groups = .ok (results, amounts) ∧
      Record.fill { r with results } amounts = .ok record := by
  unfold resolve at h
  split at h
  · cases h
  · split at h
    · cases h
    · rename_i results amounts hsettle
      obtain ⟨values, hvalues, hsettle⟩ := bind_eq_ok.1 hsettle
      dsimp only at h
      split at h
      · rename_i filled hfill
        cases h
        exact ⟨values, results, amounts, hvalues, hsettle, hfill⟩
      · cases h

/-- A roll whose dice stand at its sites has in each group one result for each of its logical dice,
read from the dice of it. -/
theorem reads_of_resolve {r record : Record} {dice : List Die}
    (hsites : (dice.map Die.site).Perm r.sites) (h : resolve r dice = (.ok true, record)) :
    record.results.length = record.groups.length ∧
      ∀ (k : Nat) (g : Group) (results : List DieResult), record.groups[k]? = some g →
        record.results[k]? = some results → Reads dice k g results := by
  obtain ⟨values, results, amounts, hvalues, hsettle, hfill⟩ := exists_of_resolve h
  obtain ⟨_, hgroups, hresults, _⟩ := fill_spec hfill
  rw [hgroups, hresults]
  obtain ⟨hlength, hperm⟩ := results_of_settleGroups hsettle
  refine ⟨hlength, fun k g first hg hfirst => ?_⟩
  obtain ⟨value, hread, hvalue⟩ := valuesOf_of_sites hsites hvalues hg
  have hfirst := hperm k first hfirst
  rw [Nat.zero_add] at hfirst
  exact ⟨value, hread, hfirst.trans hvalue⟩

/-- So it has as many results in each group as that has dice. -/
theorem answers_of_resolve {r record : Record} {dice : List Die} (hsound : record.Sound)
    (hsites : (dice.map Die.site).Perm r.sites) (h : resolve r dice = (.ok true, record)) :
    List.Forall₂ Answers record.groups record.results := by
  obtain ⟨hlength, hreads⟩ := reads_of_resolve hsites h
  refine List.forall₂_iff_get.2 ⟨hlength.symm, fun k hk hk' => ?_⟩
  obtain ⟨value, _, hperm⟩ := hreads k (record.groups.get ⟨k, hk⟩) (record.results.get ⟨k, hk'⟩)
    (by simp) (by simp)
  rw [Answers, size_of_sound hsound (List.get_mem ..)]
  have hsize := hperm.length_eq
  rw [List.length_map, List.length_map, List.length_range] at hsize
  rw [hsize]

end Dice

end RollTray
