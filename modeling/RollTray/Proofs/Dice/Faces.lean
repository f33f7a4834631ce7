import RollTray.Proofs.Dice.Answers
import RollTray.Proofs.Formula.Amounts
import RollTray.Proofs.Formula.Template
import RollTray.Proofs.Number.Floats

/-!
# Dice that show their faces

If all dice of a formula lie on the tray and each shows one of its faces (`Shown`), they are read
without fail: every group has its results and its amount (`exists_settled`). The values of logical
dice are small numbers, so they can be sorted, added up, averaged and written, and what a group's
amount is explained by does not begin as an error does (`isExplained_of_settled`).
-/

namespace RollTray

/-- The numbers on the faces of the physical die of a kind, or of one half of a d100. -/
def DieKind.shownFaces : DieKind → Bool → List Int
  | d100, true => (List.range 10).map fun n => 10 * (n : Int)
  | d100, false => (List.range 10).map fun n => (n : Int)
  | d10, _ => (List.range 10).map fun n => (n : Int)
  | kind, _ => (List.range kind.faces).map fun n => (n : Int) + 1

theorem same_name (kind other : DieKind) :
    (Value.text kind.name).same (.text other.name) = decide (kind = other) := by
  cases kind <;> cases other <;> simp [Value.same, DieKind.name]

theorem shownFaces_bounds (kind : DieKind) (tens : Bool) :
    ∀ n ∈ kind.shownFaces tens, 0 ≤ n ∧ n ≤ 100 := by
  cases kind <;> cases tens <;> decide

namespace Dice

/-- The dice that some terms ask for, each of them showing one of its faces. -/
structure Shown (terms : List Formula.DiceTerm) (dice : List Die) : Prop where
  sites : (dice.map Die.site).Perm ((Tray.places terms).map Tray.Place.site)
  faces : ∀ d ∈ dice, ∃ (index : Nat) (term : Formula.DiceTerm),
    d.group = .int index ∧ terms[index]? = some term ∧ d.kind = .text term.kind.name ∧
      ∃ n ∈ term.kind.shownFaces d.tens.truthy, d.value = .int n

/-- The results and amounts of a record's groups. -/
def settled (r : Record) (dice : List Die) :
    Except Fault (List (List DieResult) × List Formula.Amount) := do
  settleGroups (← logicalResults dice) 0 r.groups

/-! ## Small numbers -/

/-- An integer from zero to a bound. -/
def IsUpTo (bound : Int) (v : Value) : Prop :=
  ∃ n : Int, v = .int n ∧ 0 ≤ n ∧ n ≤ bound

theorem isUpTo_orZero {v : Value} (h : IsUpTo 100 v ∨ v = .null) : IsUpTo 100 v.orZero := by
  rcases h with ⟨n, rfl, hn⟩ | rfl
  · exact ⟨n, Value.orZero_int n, hn⟩
  · exact ⟨0, rfl, by decide⟩

theorem isUpTo_halfValue {dice : List Die} (h : ∀ d ∈ dice, IsUpTo 100 d.value) (tens : Bool) :
    IsUpTo 100 (halfValue tens dice) ∨ halfValue tens dice = .null := by
  unfold halfValue
  split
  · rename_i d hd
    exact .inl (h d (List.mem_of_find?_eq_some hd))
  · exact .inr rfl

theorem exists_percentile {tens units : Value} (ht : IsUpTo 100 tens) (hu : IsUpTo 100 units) :
    ∃ v, percentile tens units = .ok v ∧ IsUpTo 200 v := by
  obtain ⟨m, rfl, hm⟩ := ht
  obtain ⟨n, rfl, hn⟩ := hu
  unfold percentile
  split
  · exact ⟨_, rfl, 100, rfl, by decide⟩
  · exact ⟨.int (m + n), rfl, m + n, rfl, by omega, by omega⟩

/-- A logical die that has physical ones reads a small number. -/
theorem exists_logicalValue {dice : List Die} (hne : dice ≠ [])
    (h : ∀ d ∈ dice, IsUpTo 100 d.value) :
    ∃ v, logicalValue dice = .ok v ∧ IsUpTo 200 v := by
  cases dice with
  | nil => exact absurd rfl hne
  | cons first rest =>
    rw [logicalValue]
    split
    · exact exists_percentile (isUpTo_orZero (isUpTo_halfValue h true))
        (isUpTo_orZero (isUpTo_halfValue h false))
    · obtain ⟨n, hvalue, hn⟩ := isUpTo_orZero (.inl (h first (List.mem_cons_self ..)))
      refine ⟨_, rfl, ?_⟩
      split
      · exact ⟨10, rfl, by decide⟩
      · exact ⟨n, hvalue, by omega, by omega⟩

/-! ## Reading all dice -/

theorem exists_byLogicalDie {dice : List Die} (h : ∀ d ∈ dice, IsNumbered d.place) :
    ∃ found, byLogicalDie dice = .ok found := by
  suffices hfold : ∀ start, ∃ found, dice.foldlM (fun found d => do
      let group ← d.group.asKey
      let logical ← d.logical.asKey
      return Order.pushUnder samePlace (group, logical) d found) start =
        Except.ok (ε := Fault) found from hfold []
  induction dice with
  | nil => exact fun start => ⟨start, rfl⟩
  | cons d dice ih =>
    intro start
    obtain ⟨i, j, hplace⟩ := h d (List.mem_cons_self ..)
    obtain ⟨hgroup, hlogical⟩ := Prod.mk.inj hplace
    rw [List.foldlM_cons, hgroup, hlogical]
    exact ih (fun d hd => h d (List.mem_cons_of_mem _ hd)) _

theorem exists_pairBefore {a b : Value × Value} (ha : IsPlace a) (hb : IsPlace b) :
    ∃ c, Order.pairBefore a b = .ok c := by
  obtain ⟨i, j, rfl⟩ := ha
  obtain ⟨k, l, rfl⟩ := hb
  unfold Order.pairBefore
  dsimp only
  split
  · exact ⟨_, Value.lt_int ..⟩
  split
  · exact ⟨_, Value.lt_int ..⟩
  · exact ⟨_, rfl⟩

theorem exists_foldlM_results {sorted : List ((Value × Value) × List Die)}
    (h : ∀ entry ∈ sorted, ∃ v, logicalValue entry.2 = .ok v)
    (start : List (Value × List Value)) : ∃ results, sorted.foldlM (fun results (place, dice) => do
      return Order.pushUnder Value.sameKey place.1 (← logicalValue dice) results) start =
        Except.ok (ε := Fault) results := by
  induction sorted generalizing start with
  | nil => exact ⟨start, rfl⟩
  | cons entry sorted ih =>
    obtain ⟨v, hv⟩ := h entry (List.mem_cons_self ..)
    rw [List.foldlM_cons]
    dsimp only
    rw [hv]
    exact ih (fun entry he => h entry (List.mem_cons_of_mem _ he)) _

/-- Dice with small faces can be read. -/
theorem exists_logicalResults {dice : List Die} (hplaces : ∀ d ∈ dice, IsPlace d.place)
    (hfaces : ∀ d ∈ dice, IsUpTo 100 d.value) : ∃ values, logicalResults dice = .ok values := by
  have hnumbered : ∀ d ∈ dice, IsNumbered d.place := fun d hd => (hplaces d hd).numbered
  obtain ⟨found, hfound⟩ := exists_byLogicalDie hnumbered
  have htogether := byLogicalDie_together hnumbered hfound
  have hentry : ∀ entry ∈ found, ∃ d ∈ dice, d.place = entry.1 := fun entry he =>
    List.mem_map.1 ((htogether.mem _).1 (List.mem_map_of_mem he))
  have hplace : ∀ entry ∈ found, IsPlace entry.1 := by
    intro entry he
    obtain ⟨d, hd, heq⟩ := hentry entry he
    exact heq ▸ hplaces d hd
  obtain ⟨sorted, hsort⟩ : ∃ sorted,
      Order.sortBy (fun a b => Order.pairBefore a.1 b.1) found = .ok sorted :=
    Order.exists_sortBy_eq <| List.pairwise_of_forall_mem_list fun a ha b hb =>
      ⟨exists_pairBefore (hplace a ha) (hplace b hb), exists_pairBefore (hplace b hb) (hplace a ha)⟩
  have hread : ∀ entry ∈ sorted, ∃ v, logicalValue entry.2 = .ok v := by
    intro entry he
    have hmem := (Order.sortBy_perm hsort).mem_iff.1 he
    obtain ⟨d, hd, heq⟩ := hentry entry hmem
    have hmine : d ∈ dice.filter fun d => samePlace d.place entry.1 :=
      List.mem_filter.2 ⟨hd, (samePlace_iff (hnumbered d hd) (hplace entry hmem).numbered).2 heq⟩
    rw [htogether.dice entry hmem]
    obtain ⟨v, hv, -⟩ := exists_logicalValue (List.ne_nil_of_mem hmine)
      fun d hd => hfaces d (List.mem_filter.1 hd).1
    exact ⟨v, hv⟩
  obtain ⟨results, hresults⟩ := exists_foldlM_results hread []
  refine ⟨results, ?_⟩
  rw [logicalResults, hfound]
  simp only [bind, Except.bind, hsort]
  exact hresults

/-! ## Results and amounts of a group -/

theorem pow10_le_pow10 {m n : Nat} (h : m ≤ n) : pow10 m ≤ pow10 n :=
  Nat.pow_le_pow_right (by decide) h

/-- Small values are written by their digits. -/
theorem exists_shown {v : Value} (h : IsUpTo 200 v) :
    ∃ s, v.shown = .ok s ∧ ∃ c, s.toList.head? = some c ∧ Text.isDigit c = true := by
  obtain ⟨n, rfl, hlow, hhigh⟩ := h
  have hwrite : n.natAbs < pow10 integerDigitLimit :=
    calc n.natAbs < pow10 3 := (by omega : n.natAbs < 10 ^ 3)
      _ ≤ pow10 integerDigitLimit := pow10_le_pow10 (by decide)
  refine ⟨toString n.natAbs, ?_, ?_⟩
  · rw [Value.shown_int, Num.writeInt, if_pos hwrite, Text.decimalOfInt, if_neg (by omega)]
  · rw [Nat.toString_eq_ofList_toDigits, String.toList_ofList]
    obtain ⟨c, cs, hcs⟩ := List.exists_cons_of_ne_nil (Nat.toDigits_ne_nil (n := n.natAbs) (b := 10))
    refine ⟨c, by rw [hcs]; rfl, isDigit_of_mem_toDigits (n := n.natAbs) ?_⟩
    rw [hcs]
    exact List.mem_cons_self ..

theorem num_of_isUpTo {bound : Int} {v : Value} (h : IsUpTo bound v) :
    ∃ n : Int, v.num = .ok (.int n) ∧ 0 ≤ n ∧ n ≤ bound := by
  obtain ⟨n, rfl, hn⟩ := h
  exact ⟨n, rfl, hn⟩

/-- A sum of small values is an integer, and bounded by their number. -/
theorem exists_sumValues {values : List Value} (h : ∀ v ∈ values, IsUpTo 200 v) :
    ∃ n : Int, sumValues values = .ok (.int n) ∧ 0 ≤ n ∧ n ≤ 200 * values.length := by
  suffices hfold : ∀ start : Int, ∃ n : Int, values.foldlM (fun sum v => do
      sum.add (← v.num) : Num → Value → Except Fault Num) (.int start) = .ok (.int n) ∧
        start ≤ n ∧ n ≤ start + 200 * values.length by
    obtain ⟨n, hn, hlow, hhigh⟩ := hfold 0
    exact ⟨n, hn, hlow, by omega⟩
  induction values with
  | nil => exact fun start => ⟨start, rfl, le_rfl, by simp⟩
  | cons v values ih =>
    intro start
    obtain ⟨k, hk, hlow, hhigh⟩ := num_of_isUpTo (h v (List.mem_cons_self ..))
    obtain ⟨n, hn, hle, hge⟩ := ih (fun v hv => h v (List.mem_cons_of_mem _ hv)) (start + k)
    refine ⟨n, ?_, by omega, by rw [List.length_cons]; push_cast; omega⟩
    rw [List.foldlM_cons, hk]
    exact hn

theorem exists_mapM {α β : Type} {f : α → Except Fault β} {P : β → Prop} {items : List α}
    (h : ∀ a ∈ items, ∃ b, f a = .ok b ∧ P b) :
    ∃ bs, items.mapM f = .ok bs ∧ bs.length = items.length ∧ ∀ b ∈ bs, P b := by
  induction items with
  | nil => exact ⟨[], rfl, rfl, List.forall_mem_nil _⟩
  | cons a items ih =>
    obtain ⟨b, hb, hP⟩ := h a (List.mem_cons_self ..)
    obtain ⟨bs, hbs, hlength, hPs⟩ := ih fun a ha => h a (List.mem_cons_of_mem _ ha)
    refine ⟨b :: bs, ?_, congrArg (· + 1) hlength, List.forall_mem_cons.2 ⟨hP, hPs⟩⟩
    rw [List.mapM_cons, hb, hbs]
    rfl

/-- A text that does not begin as the breakdown of an error does. -/
def IsExplanation (s : String) : Prop :=
  s.toList.head? ≠ some 'E'

/-- An amount is explained by such a text, and so are those it stands for, each by itself. -/
def IsExplained (a : Formula.Amount) : Prop :=
  IsExplanation a.breakdown ∧
    ∀ items, a.expanded = some items → ∀ b ∈ items, IsExplanation b.breakdown ∧ b.expanded = none

theorem isExplanation_of_isDigit {s : String} {c : Char} (h : s.toList.head? = some c)
    (hc : Text.isDigit c = true) : IsExplanation s := by
  rw [IsExplanation, h, Ne, Option.some.injEq]
  rintro rfl
  exact absurd hc (by decide)

theorem isExplained_of_single {a : Formula.Amount} (h : IsExplanation a.breakdown)
    (hsingle : a.expanded = none) : IsExplained a :=
  ⟨h, fun _ hitems => nomatch hsingle.symm.trans hitems⟩

theorem exists_memberAmount {r : DieResult} (h : IsUpTo 200 r.value) :
    ∃ a, memberAmount r = .ok a ∧ IsExplanation a.breakdown ∧ a.expanded = none := by
  obtain ⟨n, hn, -⟩ := num_of_isUpTo h
  obtain ⟨s, hs, c, hc, hdigit⟩ := exists_shown h
  refine ⟨{ value := .int n, breakdown := s }, ?_, isExplanation_of_isDigit hc hdigit, rfl⟩
  rw [memberAmount, hn, hs]
  rfl

theorem exists_resultText {r : DieResult} (h : IsUpTo 200 r.value) :
    ∃ s, resultText r = .ok s ∧ IsExplanation s := by
  obtain ⟨s, hs, c, hc, hdigit⟩ := exists_shown h
  rw [resultText, hs]
  simp only [bind, Except.bind]
  split
  · exact ⟨s, rfl, isExplanation_of_isDigit hc hdigit⟩
  · refine ⟨_, rfl, ?_⟩
    simp [IsExplanation, Formula.struck, String.toList_append]

theorem isExplanation_sumText {texts : List String} (h : ∀ s ∈ texts, IsExplanation s) :
    IsExplanation (sumText texts) := by
  unfold sumText
  split
  · rename_i part
    exact h part (List.mem_singleton_self part)
  · simp [IsExplanation, String.toList_append]

theorem isExplanation_call (f : Formula.Function) (arguments : List String) :
    IsExplanation (f.call arguments) := by
  cases f <;> simp [IsExplanation, Formula.Function.call, Formula.Function.name,
    String.toList_append]

/-- A mean of small values is no large number. -/
theorem exists_div {sum : Int} {count : Nat} (hcount : count ≠ 0) (hlow : 0 ≤ sum)
    (hhigh : sum ≤ 200 * count) : ∃ mean, (Num.int sum).div (.int count) = .ok mean := by
  have hinf : (nearest ((sum < 0) != ((count : Int) < 0)) sum.natAbs (count : Int).natAbs).isInf =
      false := by
    refine isInf_nearest (by omega) ?_
    have hle : sum.natAbs ≤ 200 * (count : Int).natAbs := by omega
    have hpow : 200 * (count : Int).natAbs < 2 ^ 200 * (count : Int).natAbs :=
      Nat.mul_lt_mul_of_pos_right (by decide) (by omega)
    omega
  rw [Num.div, if_neg (by omega)]
  dsimp only
  rw [hinf]
  exact ⟨_, rfl⟩

/-- A group with small results has an amount. -/
theorem exists_groupAmount {g : Group} {results : List DieResult}
    (h : ∀ r ∈ results, IsUpTo 200 r.value) :
    ∃ a, groupAmount g results = .ok a ∧ IsExplained a := by
  have hvalues : ∀ {rs : List DieResult}, (∀ r ∈ rs, IsUpTo 200 r.value) →
      ∀ v ∈ rs.map DieResult.value, IsUpTo 200 v := by
    intro rs h v hv
    obtain ⟨r, hr, rfl⟩ := List.mem_map.1 hv
    exact h r hr
  have hkept : ∀ r ∈ results.filter fun r => r.kept.truthy, IsUpTo 200 r.value :=
    fun r hr => h r (List.mem_filter.1 hr).1
  unfold groupAmount
  split
  · obtain ⟨texts, htexts, -⟩ := exists_mapM fun r hr => exists_shown (h r hr)
    obtain ⟨sum, hsum, hlow, hhigh⟩ := exists_sumValues (hvalues h)
    obtain ⟨members, hmembers, -, hexplained⟩ := exists_mapM fun r hr => exists_memberAmount (h r hr)
    rw [htexts, ok_bind, hsum, ok_bind]
    dsimp only
    rw [hmembers]
    split
    · exact ⟨_, rfl, isExplanation_call .avg texts, fun _ hitems => Option.some.inj hitems ▸ hexplained⟩
    · rename_i hne
      rw [List.length_map] at hhigh
      obtain ⟨mean, hmean⟩ := exists_div (by simpa using hne) hlow hhigh
      rw [hmean]
      exact ⟨_, rfl, isExplanation_call .avg texts, fun _ hitems => Option.some.inj hitems ▸ hexplained⟩
  · obtain ⟨texts, htexts, -, htext⟩ := exists_mapM fun r hr => exists_resultText (h r hr)
    obtain ⟨sum, hsum, -⟩ := exists_sumValues (hvalues hkept)
    obtain ⟨members, hmembers, -, hexplained⟩ :=
      exists_mapM fun r hr => exists_memberAmount (hkept r hr)
    rw [htexts, ok_bind]
    dsimp only
    rw [hsum, ok_bind, hmembers]
    split
    · exact ⟨_, rfl, isExplanation_sumText htext, fun _ hitems =>
        Option.some.inj hitems ▸ hexplained⟩
    · exact ⟨_, rfl, isExplained_of_single (isExplanation_sumText htext) rfl⟩

/-! ## All groups -/

theorem exists_sortValues (largestFirst : Bool) {values : List Value}
    (h : ∀ v ∈ values, IsUpTo 200 v) : ∃ sorted, sortValues largestFirst values = .ok sorted := by
  have hlt : ∀ {vs : List Value}, (∀ v ∈ vs, IsUpTo 200 v) →
      vs.Pairwise (Order.Comparable Value.lt) := by
    refine fun h => List.pairwise_of_forall_mem_list fun a ha b hb => ?_
    obtain ⟨m, rfl, -⟩ := h a ha
    obtain ⟨n, rfl, -⟩ := h b hb
    exact ⟨⟨_, Value.lt_int ..⟩, _, Value.lt_int ..⟩
  unfold sortValues
  split
  · obtain ⟨sorted, hsort⟩ := Order.exists_sortBy_eq
      (hlt fun v hv => h v (List.mem_reverse.1 hv))
    rw [hsort]
    exact ⟨_, rfl⟩
  · exact Order.exists_sortBy_eq (hlt h)

theorem exists_applyKeep (term : Formula.DiceTerm) {values : List Value}
    (h : ∀ v ∈ values, IsUpTo 200 v) :
    ∃ results, applyKeep (Group.ofTerm term) values = .ok results := by
  have hnumber : ∃ n, keepNumber (Group.ofTerm term).keepCount = .ok n := by
    rcases hkeep : term.keep with _ | (n | n | _) <;>
      exact ⟨_, by rw [Group.ofTerm, hkeep]; rfl⟩
  obtain ⟨n, hn⟩ := hnumber
  unfold applyKeep
  dsimp only
  split
  · obtain ⟨sorted, hsort⟩ := exists_sortValues ((Group.ofTerm term).keep.same (.text "kh")) h
    rw [hsort, hn]
    exact ⟨_, rfl⟩
  · exact ⟨_, rfl⟩

/-- Groups with small values have results and amounts. -/
theorem exists_settleGroups {values : List (Value × List Value)} (terms : List Formula.DiceTerm)
    (index : Nat) (h : ∀ k < terms.length, ∀ v ∈ valuesOf (index + k) values, IsUpTo 200 v) :
    ∃ results amounts, settleGroups values index (terms.map Group.ofTerm) = .ok (results, amounts) ∧
      amounts.length = terms.length ∧ ∀ a ∈ amounts, IsExplained a := by
  induction terms generalizing index with
  | nil => exact ⟨[], [], rfl, rfl, List.forall_mem_nil _⟩
  | cons term terms ih =>
    have hvalues := h 0 (Nat.succ_pos _)
    obtain ⟨results, hresults⟩ := exists_applyKeep term hvalues
    have hsmall : ∀ r ∈ results, IsUpTo 200 r.value := fun r hr =>
      hvalues _ ((applyKeep_perm hresults).mem_iff.1 (List.mem_map_of_mem hr))
    obtain ⟨amount, hamount, hexplained⟩ := exists_groupAmount (g := Group.ofTerm term) hsmall
    obtain ⟨later, amounts, hlater, hlength, hothers⟩ := ih (index + 1) fun k hk => by
      rw [Nat.add_right_comm, Nat.add_assoc]
      exact h (k + 1) (Nat.succ_lt_succ hk)
    refine ⟨results :: later, amount :: amounts, ?_, congrArg (· + 1) hlength,
      List.forall_mem_cons.2 ⟨hexplained, hothers⟩⟩
    rw [List.map_cons, settleGroups]
    rw [show index + 0 = index from rfl] at hresults
    rw [hresults, ok_bind, hamount, ok_bind, hlater]
    rfl

/-- The dice of a formula stand at the sites of the record that is made of it. -/
theorem Shown.sites_perm {r : Record} {terms : List Formula.DiceTerm} {dice : List Die}
    (h : Shown terms dice) (hgroups : r.groups = terms.map Group.ofTerm) :
    (dice.map Die.site).Perm r.sites := by
  rw [sites_of_groups hgroups]
  exact h.sites

/-- A record whose dice all show their faces has results and amounts in every group. -/
theorem exists_settled {r : Record} {terms : List Formula.DiceTerm}
    (hgroups : r.groups = terms.map Group.ofTerm) {dice : List Die} (h : Shown terms dice) :
    ∃ results amounts, settled r dice = .ok (results, amounts) ∧ amounts.length = terms.length ∧
      ∀ a ∈ amounts, IsExplained a := by
  have hsites := h.sites_perm hgroups
  have hfaces : ∀ d ∈ dice, IsUpTo 100 d.value := by
    intro d hd
    obtain ⟨index, term, -, -, -, n, hn, hvalue⟩ := h.faces d hd
    exact ⟨n, hvalue, shownFaces_bounds _ _ n hn⟩
  have hplaces : ∀ d ∈ dice, IsPlace d.place := fun _ => isPlace_of_sites hsites
  obtain ⟨values, hvalues⟩ := exists_logicalResults hplaces hfaces
  have hsmall : ∀ k < terms.length, ∀ v ∈ valuesOf (0 + k) values, IsUpTo 200 v := by
    intro k hk v hv
    have hg : r.groups[k]? = some (Group.ofTerm terms[k]) := by
      rw [hgroups, List.getElem?_map, List.getElem?_eq_getElem hk]
      rfl
    obtain ⟨value, hread, hperm⟩ := valuesOf_of_sites hsites hvalues hg
    rw [Nat.zero_add] at hv
    obtain ⟨logical, hlogical, rfl⟩ := List.mem_map.1 (hperm.mem_iff.1 hv)
    have hread := hread logical (List.mem_range.1 hlogical)
    have hne : dice.filter (fun d => samePlace d.place (.int k, .int logical)) ≠ [] := by
      intro hnil
      rw [hnil] at hread
      cases hread
    obtain ⟨w, hw, hupTo⟩ := exists_logicalValue hne fun d hd => hfaces d (List.mem_filter.1 hd).1
    rw [hread] at hw
    cases hw
    exact hupTo
  obtain ⟨results, amounts, hsettle, hlength, hexplained⟩ := exists_settleGroups terms 0 hsmall
  refine ⟨results, amounts, ?_, hlength, hexplained⟩
  rw [settled, hvalues, hgroups]
  exact hsettle

end Dice

end RollTray
