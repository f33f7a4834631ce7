import RollTray.Tray.Ticking
import Mathlib.Data.List.Nodup

/-!
# The places of dice

A physical die has its site in its roll: its group, the logical die that it belongs to and, for a
d100, its half. The groups of a record name the sites that its dice take (`Record.sites`), each of
them once (`nodup_sites`), and these are the sites for which dice are thrown
(`sites_ofCompiled`).
-/

namespace RollTray

/-- Where a physical die belongs in its roll. -/
structure Site where
  group : Value
  logical : Value
  tens : Value

def Die.site (d : Die) : Site where
  group := d.group
  logical := d.logical
  tens := d.tens

def Throw.site (t : Throw) : Site where
  group := t.group
  logical := t.logical
  tens := t.tens

/-- How many logical dice a group has. -/
def Group.size (g : Group) : Nat :=
  match g.count with
  | .int n => n.toNat
  | _ => 0

/-- The sites of a group: for each logical die one, or two if it is a d100. -/
def Group.sites (index : Nat) (g : Group) : List Site :=
  (List.range g.size).flatMap fun (logical : Nat) =>
    (if g.kind.same (.text "d100") then [true, false] else [false]).map fun tens =>
      { group := .int index, logical := .int logical, tens := .bool tens }

def Record.sites (r : Record) : List Site :=
  r.groups.zipIdx.flatMap fun (g, index) => g.sites index

theorem sites_congr {r r' : Record} (h : r.groups = r'.groups) : r.sites = r'.sites := by
  rw [Record.sites, Record.sites, h]

/-- Groups as a formula's compilation makes them: there are some, and each has dice. -/
def Record.Sound (r : Record) : Prop :=
  ∃ terms : List Formula.DiceTerm, terms ≠ [] ∧ (∀ term ∈ terms, 1 ≤ term.count) ∧
    r.groups = terms.map Group.ofTerm

theorem Record.Sound.congr {r r' : Record} (h : r.Sound) (groups : r'.groups = r.groups) : r'.Sound :=
  have ⟨terms, hne, hcount, hterms⟩ := h
  ⟨terms, hne, hcount, groups.trans hterms⟩

/-- A group's results are as many as its dice. -/
def Answers (g : Group) (results : List DieResult) : Prop :=
  g.count = .int results.length

/-! ## Integers among values -/

theorem Value.orZero_int (n : Int) : (Value.int n).orZero = .int n := by
  unfold Value.orZero Value.truthy
  dsimp only
  split
  · rfl
  · rename_i hzero
    rw [bne_iff_ne, ne_eq, Classical.not_not] at hzero
    rw [hzero]

theorem Value.same_int (a b : Int) : (Value.int a).same (.int b) = decide (a = b) := by
  rw [Bool.eq_iff_iff, decide_eq_true_iff]
  simp [Value.same, Value.num?, Num.same, Num.compare?]

theorem Num.lt_int (a b : Int) : (Num.int a).lt (.int b) = decide (a < b) := by
  rw [Bool.eq_iff_iff, decide_eq_true_iff]
  simp [Num.lt, Num.compare?, Int.compare_eq_lt]

theorem Value.lt_int (a b : Int) : (Value.int a).lt (.int b) = .ok (decide (a < b)) := by
  simp [Value.lt, Value.num?, Num.lt_int]

theorem Value.le_int (a b : Int) : (Value.int a).le (.int b) = .ok (decide (a ≤ b)) := by
  have h : (Num.int a).le (.int b) = decide (a ≤ b) := by
    rw [Bool.eq_iff_iff, decide_eq_true_iff, Num.le, Num.compare?]
    rcases hcmp : compare a b <;> simp_all [Int.compare_eq_lt, Int.compare_eq_gt, Int.le_of_lt]
  simp [Value.le, Value.num?, h]

theorem Value.sameKey_int (a b : Int) : (Value.int a).sameKey (.int b) = decide (a = b) := by
  rw [Value.sameKey, Value.same_int]
  simp [Value.bothUndefined]

/-! ## Sites of terms -/

def Tray.Place.site (p : Tray.Place) : Site where
  group := .int p.group
  logical := .int p.logical
  tens := .bool p.tens

theorem isHundred_ofTerm (term : Formula.DiceTerm) :
    (Group.ofTerm term).kind.same (.text "d100") = decide (term.kind = .d100) := by
  cases h : term.kind <;> simp [Group.ofTerm, h, DieKind.name, Value.same]

theorem sites_ofTerm (index : Nat) (term : Formula.DiceTerm) :
    (Group.ofTerm term).sites index = (Tray.placesOf index term).map Tray.Place.site := by
  have hsize : (Group.ofTerm term).size = term.count := by simp [Group.size, Group.ofTerm]
  rw [Group.sites, Tray.placesOf, hsize, isHundred_ofTerm, List.map_flatMap]
  refine congrArg (List.flatMap · _) (funext fun logical => ?_)
  rw [List.map_map]
  cases term.kind <;> rfl

theorem sites_of_groups {r : Record} {terms : List Formula.DiceTerm}
    (h : r.groups = terms.map Group.ofTerm) :
    r.sites = (Tray.places terms).map Tray.Place.site := by
  rw [Record.sites, Tray.places, h, List.zipIdx_map, List.flatMap_map, List.map_flatMap]
  exact congrArg (List.flatMap · _) (funext fun (term, index) => sites_ofTerm index term)

/-! ## Each site once -/

theorem mem_groupSites {index : Nat} {g : Group} {site : Site} (h : site ∈ g.sites index) :
    site.group = .int index := by
  obtain ⟨_, _, h⟩ := List.mem_flatMap.1 h
  obtain ⟨_, _, rfl⟩ := List.mem_map.1 h
  rfl

theorem exists_logical_of_mem {index : Nat} {g : Group} {site : Site} (h : site ∈ g.sites index) :
    ∃ logical < g.size, site.logical = .int logical := by
  obtain ⟨logical, hlt, h⟩ := List.mem_flatMap.1 h
  obtain ⟨_, _, rfl⟩ := List.mem_map.1 h
  exact ⟨logical, List.mem_range.1 hlt, rfl⟩

theorem exists_mem_of_logical (index : Nat) {g : Group} {logical : Nat} (h : logical < g.size) :
    ∃ site ∈ g.sites index, site.logical = .int logical := by
  refine ⟨{ group := .int index, logical := .int logical, tens := .bool false }, ?_, rfl⟩
  refine List.mem_flatMap.2 ⟨logical, List.mem_range.2 h, List.mem_map.2 ⟨false, ?_, rfl⟩⟩
  split <;> simp

theorem mem_sites {r : Record} {site : Site} :
    site ∈ r.sites ↔ ∃ (index : Nat) (g : Group), r.groups[index]? = some g ∧ site ∈ g.sites index := by
  rw [Record.sites, List.mem_flatMap]
  constructor
  · rintro ⟨⟨g, index⟩, hmem, hsite⟩
    exact ⟨index, g, List.mem_zipIdx_iff_getElem?.1 hmem, hsite⟩
  · rintro ⟨index, g, hg, hsite⟩
    exact ⟨(g, index), List.mem_zipIdx_iff_getElem?.2 hg, hsite⟩

theorem nodup_groupSites (index : Nat) (g : Group) : (g.sites index).Nodup := by
  refine List.nodup_flatMap.2 ⟨fun logical _ => ?_, ?_⟩
  · refine List.Nodup.map (fun a b h => ?_) (by split <;> decide)
    exact Value.bool.inj (Site.mk.inj h).2.2
  · refine List.nodup_range.pairwise_of_forall_ne fun a _ b _ hab site ha hb => hab ?_
    obtain ⟨_, _, rfl⟩ := List.mem_map.1 ha
    obtain ⟨_, _, h⟩ := List.mem_map.1 hb
    exact Int.ofNat.inj (Value.int.inj (Site.mk.inj h).2.1).symm

/-- The sites of a record's dice are apart. -/
theorem nodup_sites (r : Record) : r.sites.Nodup := by
  refine List.nodup_flatMap.2 ⟨fun (g, index) _ => nodup_groupSites index g, ?_⟩
  have hnodup : (r.groups.zipIdx.map Prod.snd).Nodup := by
    rw [List.zipIdx_map_snd]
    exact List.nodup_range'
  refine (List.pairwise_map.1 hnodup).imp fun {a b} hab site ha hb => hab ?_
  have h := (mem_groupSites ha).symm.trans (mem_groupSites hb)
  exact Int.ofNat.inj (Value.int.inj h)

/-! ## How many they are -/

theorem physicalCount_ofTerm (term : Formula.DiceTerm) :
    (Group.ofTerm term).physicalCount = .ok (.int term.physicalCount) := by
  have h := isHundred_ofTerm term
  cases hk : term.kind <;>
    simp_all [Group.physicalCount, Group.ofTerm, Formula.DiceTerm.physicalCount, DieKind.halves,
      Value.num, Value.num?, Num.mul, bind, Except.bind, pure, Except.pure]

theorem length_placesOf (index : Nat) (term : Formula.DiceTerm) :
    (Tray.placesOf index term).length = term.physicalCount := by
  simp [Tray.placesOf, Formula.DiceTerm.physicalCount]

theorem foldlM_physicalCount (terms : List Formula.DiceTerm) (n : Nat) (k : Nat) :
    (terms.map Group.ofTerm).foldlM
        (fun (sum : Num) g => do sum.add (← g.physicalCount) : Num → Group → Except Fault Num)
        (.int n) =
      .ok (.int ((n + ((terms.zipIdx k).flatMap fun (term, index) =>
        Tray.placesOf index term).length : Nat) : Int)) := by
  induction terms generalizing n k with
  | nil => simp [pure, Except.pure]
  | cons term terms ih =>
    have hadd : Num.add (.int n) (.int term.physicalCount) =
        .ok (.int ((n + term.physicalCount : Nat) : Int)) := by simp [Num.add]
    rw [List.map_cons, List.foldlM_cons, physicalCount_ofTerm]
    show (Num.add (.int n) (.int term.physicalCount) >>= _) = _
    rw [hadd]
    refine (ih (n + term.physicalCount) (k + 1)).trans ?_
    rw [List.zipIdx_cons, List.flatMap_cons, List.length_append, length_placesOf, Nat.add_assoc]

/-- A record expects as many dice as it has sites. -/
theorem Record.Sound.expectedDice {r : Record} (h : r.Sound) :
    r.expectedDice = .ok (.int r.sites.length) := by
  obtain ⟨terms, _, _, hgroups⟩ := h
  rw [Record.expectedDice, hgroups, sites_of_groups hgroups, List.length_map, Tray.places]
  refine (foldlM_physicalCount terms 0 0).trans ?_
  rw [Nat.zero_add]

theorem foldl_physicalCount (terms : List Formula.DiceTerm) (n : Nat) (k : Nat) :
    terms.foldl (fun sum term => sum + term.physicalCount) n =
      n + ((terms.zipIdx k).flatMap fun (term, index) => Tray.placesOf index term).length := by
  induction terms generalizing n k with
  | nil => simp
  | cons term terms ih =>
    rw [List.foldl_cons, ih _ (k + 1), List.zipIdx_cons, List.flatMap_cons, List.length_append,
      length_placesOf, Nat.add_assoc]

/-- A formula has as many physical dice as there are places for them. -/
theorem length_places (compiled : Formula.Compiled) :
    (Tray.places compiled.terms).length = compiled.physicalCount := by
  rw [Formula.Compiled.physicalCount, foldl_physicalCount, Nat.zero_add, Tray.places]

/-- A record has a site. -/
theorem Record.Sound.sites_ne_nil {r : Record} (h : r.Sound) : r.sites ≠ [] := by
  obtain ⟨terms, hne, hcount, hgroups⟩ := h
  cases terms with
  | nil => contradiction
  | cons term terms =>
    rw [sites_of_groups hgroups, ← List.length_pos_iff, List.length_map, Tray.places,
      List.zipIdx_cons, List.flatMap_cons, List.length_append, length_placesOf]
    have hterm := hcount term (by simp)
    have hhalves : 0 < term.kind.halves.length := by cases term.kind <;> decide
    have hpos := Nat.mul_pos hterm hhalves
    rw [Formula.DiceTerm.physicalCount]
    omega

/-! ## Compiled formulas -/

/-- A term that is read has dice. -/
theorem count_of_read {written : Formula.WrittenTerm} {term : Formula.DiceTerm}
    (h : written.read = .ok (some term)) : 1 ≤ term.count := by
  obtain ⟨sides, _, h⟩ := bind_eq_ok.1 h
  split at h
  · cases h
  · obtain ⟨count, _, h⟩ := bind_eq_ok.1 h
    dsimp only at h
    split at h
    · cases h
    · obtain ⟨keep, _, h⟩ := bind_eq_ok.1 h
      cases h
      show 1 ≤ count
      omega

theorem count_of_readPieces {pieces : List Formula.Piece} {parts : List Formula.Part}
    (h : Formula.readPieces pieces = .ok parts) {term : Formula.DiceTerm}
    (hterm : .place term ∈ parts) : 1 ≤ term.count := by
  induction pieces generalizing parts with
  | nil =>
    cases h
    nomatch hterm
  | cons piece pieces ih =>
    obtain ⟨first, hfirst, h⟩ := bind_eq_ok.1 h
    obtain ⟨rest, hrest, h⟩ := bind_eq_ok.1 h
    cases h
    rcases List.mem_append.1 hterm with hterm | hterm
    · cases piece with
      | plain c =>
        cases hfirst
        simp at hterm
      | term written =>
        obtain ⟨dice, hread, hfirst⟩ := bind_eq_ok.1 hfirst
        cases dice with
        | none =>
          cases hfirst
          simp at hterm
        | some dice =>
          cases hfirst
          obtain rfl : term = dice := by simpa using hterm
          exact count_of_read hread
    · exact ih hrest hterm

/-- A formula that compiles has dice terms, and each of them has dice. -/
theorem terms_of_compile {formula : String} {compiled : Formula.Compiled}
    (h : Formula.compile formula = .ok compiled) :
    compiled.terms ≠ [] ∧ ∀ term ∈ compiled.terms, 1 ≤ term.count := by
  obtain ⟨parts, hparts, h⟩ := bind_eq_ok.1 h
  dsimp only at h
  split at h
  · cases h
  · rename_i hne
    split at h
    · cases h
    · split at h
      · cases h
        refine ⟨by simpa using hne, fun term hterm => ?_⟩
        obtain ⟨part, hpart, hsome⟩ := List.mem_filterMap.1 hterm
        cases part with
        | plain c => cases hsome
        | place dice =>
          cases hsome
          exact count_of_readPieces hparts hpart
      · cases h
      · cases h

/-- A compiled formula tells what it was compiled from. -/
theorem formula_of_compile {formula : String} {compiled : Formula.Compiled}
    (h : Formula.compile formula = .ok compiled) : compiled.formula = formula := by
  obtain ⟨parts, -, h⟩ := bind_eq_ok.1 h
  dsimp only at h
  split at h
  · cases h
  · split at h
    · cases h
    · split at h
      · cases h
        rfl
      · cases h
      · cases h

/-- The record of a compiled formula is sound. -/
theorem sound_ofCompiled {formula : String} {compiled : Formula.Compiled}
    (h : Formula.compile formula = .ok compiled) (id : Int) (label : String) :
    (Record.ofCompiled id label compiled).Sound :=
  have ⟨hne, hcount⟩ := terms_of_compile h
  ⟨compiled.terms, hne, hcount, rfl⟩

end RollTray
