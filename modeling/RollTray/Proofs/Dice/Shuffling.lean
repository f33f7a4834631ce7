import Mathlib.Data.List.Permutation
import Mathlib.Data.Prod.Lex
import RollTray.Proofs.Dice.Faces

/-!
# The order of dice does not matter

Dice come in the order in which they were thrown, or settled. `logicalResults` puts them together by
logical die and goes through the logical dice by their numbers (`exists_logicalResults_eq`), so the order
could only matter within one logical die, and it does not if that is one die, or both halves of a d100
(`logicalValue_perm`). So a record resolves to the same, whatever the order (`resolve_of_perm`).
-/

namespace RollTray.Dice

/-- Whether a die is a half of a d100. -/
def isHalf (d : Die) : Bool :=
  d.kind.same (.text "d100")

/-- The physical dice of one logical die: one that is no half of a d100, or the two halves of one. -/
def IsOneDie (dice : List Die) : Prop :=
  (∃ d, dice = [d] ∧ isHalf d = false) ∨
    ∃ tens units, dice.Perm [tens, units] ∧ isHalf tens = true ∧ isHalf units = true ∧
      tens.tens.truthy = true ∧ units.tens.truthy = false

/-- Every logical die is there once, and whole. -/
structure Whole (dice : List Die) : Prop where
  numbered : ∀ d ∈ dice, IsNumbered d.place
  whole : ∀ d ∈ dice, IsOneDie (dice.filter fun d' => samePlace d'.place d.place)

variable {dice dice' : List Die}

/-! ## One logical die -/

theorem logicalValue_halves {tens units : Die} (hdice : dice.Perm [tens, units])
    (hhalf : isHalf tens = true) (hhalf' : isHalf units = true) (htens : tens.tens.truthy = true)
    (hunits : units.tens.truthy = false) :
    logicalValue dice = percentile tens.value.orZero units.value.orZero := by
  unfold isHalf at hhalf hhalf'
  rcases List.perm_pair.1 hdice with rfl | rfl
  · simp [logicalValue, halfValue, hhalf, htens, hunits]
  · simp [logicalValue, halfValue, hhalf', htens, hunits]

/-- The halves of a d100 read the same in either order. -/
theorem logicalValue_perm (h : IsOneDie dice) (hdice : dice'.Perm dice) :
    logicalValue dice' = logicalValue dice := by
  rcases h with ⟨d, rfl, -⟩ | ⟨tens, units, hpair, hhalf, hhalf', htens, hunits⟩
  · rw [List.perm_singleton.1 hdice]
  · rw [logicalValue_halves (hdice.trans hpair) hhalf hhalf' htens hunits,
      logicalValue_halves hpair hhalf hhalf' htens hunits]

/-! ## Places in ascending order -/

/-- The numbers of a place. -/
def numbers : Value × Value → Int ×ₗ Int
  | (.int group, .int logical) => toLex (group, logical)
  | _ => toLex (0, 0)

theorem numbers_inj {a b : Value × Value} (ha : IsNumbered a) (hb : IsNumbered b)
    (h : numbers a = numbers b) : a = b := by
  obtain ⟨i, j, rfl⟩ := ha
  obtain ⟨k, l, rfl⟩ := hb
  simpa [numbers] using h

/-- Places are compared by their numbers, the group first. -/
theorem pairBefore_eq {a b : Value × Value} (ha : IsNumbered a) (hb : IsNumbered b) :
    Order.pairBefore a b = .ok (decide (numbers a < numbers b)) := by
  obtain ⟨i, j, rfl⟩ := ha
  obtain ⟨k, l, rfl⟩ := hb
  have hlt : numbers (.int i, .int j) < numbers (.int k, .int l) ↔ i < k ∨ i = k ∧ j < l :=
    Prod.Lex.toLex_lt_toLex
  have hdecide : decide (numbers (.int i, .int j) < numbers (.int k, .int l)) =
      decide (i < k ∨ i = k ∧ j < l) := decide_eq_decide.2 hlt
  rw [Order.pairBefore, Value.sameKey_int, Value.sameKey_int, Value.lt_int, Value.lt_int, hdecide]
  by_cases hgroup : i = k
  · by_cases hlogical : j = l
    · simp [hgroup, hlogical]
    · simp [hgroup, hlogical]
  · simp [hgroup]

theorem ranked_of_numbered {entries : List ((Value × Value) × List Die)}
    (h : ∀ entry ∈ entries, IsNumbered entry.1) :
    entries.Pairwise (Order.Ranked (fun a b => Order.pairBefore a.1 b.1) fun entry => numbers entry.1) :=
  List.pairwise_of_forall_mem_list fun a ha b hb =>
    ⟨pairBefore_eq (h a ha) (h b hb), pairBefore_eq (h b hb) (h a ha)⟩

/-- The places of some dice, each once and in ascending order. -/
structure Places (dice : List Die) (places : List (Value × Value)) : Prop where
  nodup : places.Nodup
  mem : ∀ place, place ∈ places ↔ place ∈ dice.map Die.place
  ascending : places.Pairwise fun a b => numbers a ≤ numbers b

/-- Dice in any order have the same places. -/
theorem Places.eq_of_perm {places places' : List (Value × Value)}
    (hnumbered : ∀ d ∈ dice, IsNumbered d.place) (h : Places dice places) (h' : Places dice' places')
    (hdice : dice'.Perm dice) : places' = places := by
  have hmem : ∀ place, place ∈ places' ↔ place ∈ places := fun place =>
    (h'.mem place).trans ((hdice.map Die.place).mem_iff.trans (h.mem place).symm)
  have hplace : ∀ place ∈ places, IsNumbered place := by
    intro place hmem
    obtain ⟨d, hd, rfl⟩ := List.mem_map.1 ((h.mem place).1 hmem)
    exact hnumbered d hd
  exact List.Perm.eq_of_pairwise
    (fun a b ha hb hab hba =>
      numbers_inj (hplace a ((hmem a).1 ha)) (hplace b hb) (le_antisymm hab hba))
    h'.ascending h.ascending ((List.perm_ext_iff_of_nodup h'.nodup h.nodup).2 hmem)

/-! ## All logical dice -/

/-- The values that are read from dice, place by place. -/
def readPlaces (dice : List Die) (places : List (Value × Value)) :
    Except Fault (List (Value × List Value)) :=
  (places.map fun place => (place.1, logicalValue (dice.filter fun d => samePlace d.place place))).foldlM
    (fun results (group, value) => do return Order.pushUnder Value.sameKey group (← value) results) []

/-- Dice are read at their places in ascending order. -/
theorem exists_logicalResults_eq (h : ∀ d ∈ dice, IsNumbered d.place) :
    ∃ places, Places dice places ∧ logicalResults dice = readPlaces dice places := by
  obtain ⟨found, hfound⟩ := exists_byLogicalDie h
  have htogether := byLogicalDie_together h hfound
  have hnumbered : ∀ entry ∈ found, IsNumbered entry.1 := by
    intro entry he
    obtain ⟨d, hd, heq⟩ := List.mem_map.1 ((htogether.mem _).1 (List.mem_map_of_mem he))
    exact heq ▸ h d hd
  have hrank := ranked_of_numbered hnumbered
  obtain ⟨sorted, hsort⟩ := Order.exists_sortBy_eq (hrank.imp Order.Ranked.comparable)
  have hperm := Order.sortBy_perm hsort
  have hkeys := hperm.map Prod.fst
  refine ⟨sorted.map Prod.fst, ⟨hkeys.nodup_iff.2 htogether.nodup, fun place => ?_, ?_⟩, ?_⟩
  · rw [hkeys.mem_iff, htogether.mem]
  · exact List.pairwise_map.2 (Order.sortBy_ascending _ hrank hsort)
  · have hvalues : ((sorted.map Prod.fst).map fun place =>
        (place.1, logicalValue (dice.filter fun d => samePlace d.place place))) =
          sorted.map fun entry => (entry.1.1, logicalValue entry.2) := by
      rw [List.map_map]
      refine List.map_congr_left fun entry he => ?_
      rw [htogether.dice entry (hperm.mem_iff.1 he)]
      rfl
    rw [logicalResults, hfound, ok_bind, hsort, ok_bind, readPlaces, hvalues, List.foldlM_map]

/-- The dice of a roll are read the same in whichever order they come. -/
theorem logicalResults_of_perm (h : Whole dice) (hdice : dice'.Perm dice) :
    logicalResults dice' = logicalResults dice := by
  obtain ⟨places, hplaces, hread⟩ := exists_logicalResults_eq h.numbered
  obtain ⟨places', hplaces', hread'⟩ := exists_logicalResults_eq fun d hd =>
    h.numbered d (hdice.mem_iff.1 hd)
  rw [hread, hread', hplaces.eq_of_perm h.numbered hplaces' hdice, readPlaces, readPlaces]
  refine congrArg (List.foldlM _ _) (List.map_congr_left fun place hplace => ?_)
  obtain ⟨d, hd, rfl⟩ := List.mem_map.1 ((hplaces.mem place).1 hplace)
  exact congrArg (Prod.mk _) (logicalValue_perm (h.whole d hd) (hdice.filter _))

/-- A record resolves to the same results, value and breakdown, or fails in the same way, in whichever
order its dice come. -/
theorem resolve_of_perm (r : Record) (h : Whole dice) (hdice : dice'.Perm dice) :
    resolve r dice' = resolve r dice := by
  rw [resolve, resolve, logicalResults_of_perm h hdice]

/-- The dice of `1d100 + 1d6`, in the order in which they were thrown. -/
def percentileAndSix : List Die :=
  [{ handle := 0, kind := .text "d100", roll := .int 0, group := .int 0, logical := .int 0,
     tens := .bool true, settled := true, value := .int 70 },
   { handle := 1, kind := .text "d100", roll := .int 0, group := .int 0, logical := .int 0,
     tens := .bool false, settled := true, value := .int 3 },
   { handle := 2, kind := .text "d6", roll := .int 0, group := .int 1, logical := .int 0,
     tens := .bool false, settled := true, value := .int 4 }]

theorem whole_percentileAndSix : Whole percentileAndSix := by
  refine ⟨?_, ?_⟩
  · simp [percentileAndSix, IsNumbered, Die.place]
  · simp only [percentileAndSix, List.forall_mem_cons, List.filter, Die.place, samePlace,
      Value.sameKey_int]
    refine ⟨.inr ⟨_, _, .refl _, ?_⟩, .inr ⟨_, _, .refl _, ?_⟩, .inl ⟨_, rfl, ?_⟩, by simp⟩ <;>
      simp [isHalf, Value.same, Value.truthy]

/-- The record of `1d100 + 1d6` before its dice have settled. -/
def percentileRoll : Record where
  id := .int 0
  formula := .text "1d100 + 1d6"
  template := .text "__G0__ + __G1__"
  groups := [⟨.text "d100", .int 1, .null, .null⟩, ⟨.text "d6", .int 1, .null, .null⟩]

/-- A roll of `1d100 + 1d6` resolves to the same with its dice the other way around. -/
theorem resolve_reversed : Whole percentileAndSix ∧
    percentileAndSix.reverse.Perm percentileAndSix ∧
    resolve percentileRoll percentileAndSix.reverse = resolve percentileRoll percentileAndSix :=
  ⟨whole_percentileAndSix, List.reverse_perm _,
    resolve_of_perm percentileRoll whole_percentileAndSix (List.reverse_perm _)⟩

end RollTray.Dice
