import RollTray.Proofs.Dice.Faces

/-!
# How high dice read

A logical die of a kind reads a number from one to the kind's number of faces if each of its physical dice
shows one of its faces (`exists_logicalValue_ranged`): a d10 that shows 0 reads 10, and the two halves of a
d100 read 1 to 100 together, if both are there. So the results of dice that all show their faces are as
many in each group as the group has dice, and each of them is in the range of its kind
(`ranged_of_resolve`).
-/

namespace RollTray

/-- A group's results are as many as its dice, and each is one that dice of its kind have. -/
def Ranged (g : Group) (results : List DieResult) : Prop :=
  ∃ kind : DieKind, g.kind = .text kind.name ∧ g.count = .int results.length ∧
    ∀ r ∈ results, ∃ n : Int, r.value = .int n ∧ 1 ≤ n ∧ n ≤ kind.faces

namespace Dice

/-! ## One logical die -/

theorem exists_halfValue {dice : List Die} {kind : DieKind} {tens : Bool}
    (hfaces : ∀ d ∈ dice, ∃ n ∈ kind.shownFaces d.tens.truthy, d.value = .int n)
    (hhalf : ∃ d ∈ dice, d.tens.truthy = tens) :
    ∃ n ∈ kind.shownFaces tens, halfValue tens dice = .int n := by
  unfold halfValue
  split
  · next d hd =>
    obtain ⟨n, hn, hvalue⟩ := hfaces d (List.mem_of_find?_eq_some hd)
    have htens : d.tens.truthy = tens := by simpa using List.find?_some hd
    exact ⟨n, htens ▸ hn, hvalue⟩
  · next hnone =>
    obtain ⟨d, hd, htens⟩ := hhalf
    exact absurd htens (by simpa using List.find?_eq_none.1 hnone d hd)

/-- The two halves of a d100 read one to a hundred. -/
theorem percentile_ranged : ∀ m ∈ DieKind.d100.shownFaces true, ∀ n ∈ DieKind.d100.shownFaces false,
    ∃ k : Int, percentile (.int m) (.int n) = .ok (.int k) ∧ 1 ≤ k ∧ k ≤ 100 := by
  have hfaces : ∀ m ∈ DieKind.d100.shownFaces true, ∀ n ∈ DieKind.d100.shownFaces false,
      0 ≤ m ∧ 0 ≤ n ∧ m + n ≤ 100 := by decide
  intro m hm n hn
  obtain ⟨hlow, hlow', hhigh⟩ := hfaces m hm n hn
  unfold percentile
  rw [Value.same_int, Value.same_int]
  split
  · exact ⟨100, rfl, by decide⟩
  · next hzero =>
    rw [Bool.and_eq_true, decide_eq_true_iff, decide_eq_true_iff] at hzero
    exact ⟨m + n, rfl, by omega, hhigh⟩

/-- A face of a kind other than d100, where a zero counts as ten. -/
theorem faces_ranged {kind : DieKind} (hkind : kind ≠ .d100) (tens : Bool) :
    ∀ n ∈ kind.shownFaces tens, n = 0 ∧ kind = .d10 ∨ 1 ≤ n ∧ n ≤ kind.faces := by
  cases kind
  case d100 => contradiction
  all_goals cases tens <;> decide

/-- A logical die reads a number of its range, if all its halves are there. -/
theorem exists_logicalValue_ranged {kind : DieKind} {dice : List Die}
    (hkind : ∀ d ∈ dice, d.kind = .text kind.name)
    (hfaces : ∀ d ∈ dice, ∃ n ∈ kind.shownFaces d.tens.truthy, d.value = .int n)
    (hhalves : ∀ tens ∈ kind.halves, ∃ d ∈ dice, d.tens.truthy = tens) :
    ∃ n : Int, logicalValue dice = .ok (.int n) ∧ 1 ≤ n ∧ n ≤ kind.faces := by
  cases dice with
  | nil =>
    have hhalf : ∃ tens, tens ∈ kind.halves := by cases kind <;> exact ⟨false, by decide⟩
    obtain ⟨tens, htens⟩ := hhalf
    obtain ⟨d, hd, _⟩ := hhalves tens htens
    nomatch hd
  | cons first rest =>
    have hname : ∀ other : DieKind,
        first.kind.same (.text other.name) = decide (kind = other) := fun other => by
      rw [hkind first (List.mem_cons_self ..), same_name]
    rw [logicalValue, show "d100" = DieKind.d100.name from rfl, show "d10" = DieKind.d10.name from rfl,
      hname, hname]
    by_cases hhundred : kind = .d100
    · subst hhundred
      obtain ⟨m, hm, htens⟩ := exists_halfValue hfaces (hhalves true (by decide))
      obtain ⟨n, hn, hunits⟩ := exists_halfValue hfaces (hhalves false (by decide))
      rw [htens, hunits, Value.orZero_int, Value.orZero_int]
      exact percentile_ranged m hm n hn
    · obtain ⟨n, hn, hvalue⟩ := hfaces first (List.mem_cons_self ..)
      rw [hvalue, Value.orZero_int, if_neg (by simpa using hhundred)]
      dsimp only
      rw [Value.same_int]
      rcases faces_ranged hhundred _ n hn with ⟨rfl, rfl⟩ | ⟨hlow, hhigh⟩
      · exact ⟨10, rfl, by decide⟩
      · refine ⟨n, ?_, hlow, hhigh⟩
        rw [if_neg (by simp; omega)]

/-! ## All groups -/

variable {terms : List Formula.DiceTerm} {dice : List Die} {r : Record}

/-- Each logical die of a term reads a number of the term's range. -/
theorem Shown.logicalValue_ranged (h : Shown terms dice) {k : Nat} {term : Formula.DiceTerm}
    (hterm : terms[k]? = some term) {logical : Nat} (hlogical : logical < term.count)
    (hplaces : ∀ d ∈ dice, IsPlace d.place) :
    ∃ n : Int, logicalValue (dice.filter fun d => samePlace d.place (.int k, .int logical)) =
      .ok (.int n) ∧ 1 ≤ n ∧ n ≤ term.kind.faces := by
  have hmine : ∀ d ∈ dice.filter (fun d => samePlace d.place (.int k, .int logical)),
      d.kind = .text term.kind.name ∧ ∃ n ∈ term.kind.shownFaces d.tens.truthy, d.value = .int n := by
    intro d hd
    obtain ⟨hd, hplace⟩ := List.mem_filter.1 hd
    have hgroup := congrArg Prod.fst ((samePlace_iff (hplaces d hd).numbered ⟨k, logical, rfl⟩).1 hplace)
    obtain ⟨index, term', hindex, hterm', hkind, hface⟩ := h.faces d hd
    obtain rfl : index = k := Int.ofNat.inj (Value.int.inj (hindex.symm.trans hgroup))
    cases hterm.symm.trans hterm'
    exact ⟨hkind, hface⟩
  refine exists_logicalValue_ranged (fun d hd => (hmine d hd).1) (fun d hd => (hmine d hd).2) ?_
  intro tens htens
  let place : Tray.Place := { kind := term.kind, group := k, logical, tens }
  have hplace : place ∈ Tray.places terms :=
    List.mem_flatMap.2 ⟨(term, k), List.mem_zipIdx_iff_getElem?.2 hterm, List.mem_flatMap.2
      ⟨logical, List.mem_range.2 hlogical, List.mem_map.2 ⟨tens, htens, rfl⟩⟩⟩
  obtain ⟨d, hd, hsite⟩ := List.mem_map.1 (h.sites.mem_iff.2 (List.mem_map_of_mem hplace))
  obtain ⟨hgroup, hlogical, htens⟩ := Site.mk.inj hsite
  refine ⟨d, List.mem_filter.2 ⟨hd, ?_⟩, congrArg Value.truthy htens⟩
  exact (samePlace_iff (hplaces d hd).numbered ⟨k, logical, rfl⟩).2 (Prod.ext hgroup hlogical)

/-- Dice that show their faces give results in the range of their groups. -/
theorem Shown.ranged (h : Shown terms dice) (hgroups : r.groups = terms.map Group.ofTerm)
    {results : List (List DieResult)} {amounts : List Formula.Amount}
    (hsettled : settled r dice = .ok (results, amounts)) : List.Forall₂ Ranged r.groups results := by
  have hsites := h.sites_perm hgroups
  have hplaces : ∀ d ∈ dice, IsPlace d.place := fun _ => isPlace_of_sites hsites
  obtain ⟨values, hvalues, hsettle⟩ := bind_eq_ok.1 hsettled
  obtain ⟨hlength, hresults⟩ := results_of_settleGroups hsettle
  refine List.forall₂_iff_get.2 ⟨hlength.symm, fun k hk hk' => ?_⟩
  have hlt : k < terms.length := by rwa [hgroups, List.length_map] at hk
  have hterm : terms[k]? = some terms[k] := List.getElem?_eq_getElem hlt
  have hg : r.groups[k]? = some (Group.ofTerm terms[k]) := by
    rw [hgroups, List.getElem?_map, hterm]
    rfl
  have hget : r.groups.get ⟨k, hk⟩ = Group.ofTerm terms[k] :=
    Option.some.inj ((List.getElem?_eq_getElem hk).symm.trans hg)
  obtain ⟨value, hread, hperm⟩ := valuesOf_of_sites hsites hvalues hg
  have hmine := hresults k _ (List.getElem?_eq_getElem hk')
  rw [Nat.zero_add] at hmine
  have hall := hmine.trans hperm
  have hsize : (Group.ofTerm terms[k]).size = terms[k].count := by simp [Group.size, Group.ofTerm]
  rw [hget]
  refine ⟨terms[k].kind, rfl, ?_, fun result hresult => ?_⟩
  · have hcount := hall.length_eq
    rw [List.length_map, List.length_map, List.length_range, hsize] at hcount
    show Value.int _ = Value.int _
    rw [← hcount]
    rfl
  · obtain ⟨logical, hlogical, hvalue⟩ := List.mem_map.1
      (hall.mem_iff.1 (List.mem_map_of_mem (f := DieResult.value) hresult))
    have hlogical := List.mem_range.1 hlogical
    obtain ⟨n, hn, hrange⟩ := h.logicalValue_ranged hterm (hsize ▸ hlogical) hplaces
    have hfound := hread logical hlogical
    rw [hn] at hfound
    exact ⟨n, hvalue.symm.trans (Except.ok.inj hfound).symm, hrange⟩

/-- Whatever comes of resolving a record, its results are in the range of its groups, if they were. -/
theorem ranged_of_resolve (h : Shown terms dice) (hgroups : r.groups = terms.map Group.ofTerm)
    (hranged : r.results ≠ [] → List.Forall₂ Ranged r.groups r.results) :
    (resolve r dice).2.results ≠ [] →
      List.Forall₂ Ranged (resolve r dice).2.groups (resolve r dice).2.results := by
  unfold resolve
  split
  · exact hranged
  · split
    · exact hranged
    · next results amounts hsettle =>
      intro _
      have hresults := h.ranged hgroups hsettle
      dsimp only
      split
      · next filled hfill =>
        obtain ⟨_, hgroups, hfilled, _⟩ := fill_spec hfill
        rw [hgroups, hfilled]
        exact hresults
      · exact hresults

end Dice

end RollTray
