import RollTray.Proofs.Formula.Acceptance
import RollTray.Proofs.Formula.Simulation
import RollTray.Proofs.Number.Order

/-!
# Amounts are meanings

What an expression evaluates to is what the grammar says that it means: an amount without its list
of operands is a meaning (`Amount.meaning`), and the amount of a derivation has the derivation's
meaning (`Expr.means`). With the simulation of derivations by the machine, `evaluateTokens` has a
result for exactly the tokens that derive from the grammar and have a meaning
(`evaluateTokens_iff_meaning`).
-/

namespace RollTray.Formula

/-- What an amount means where nothing is spliced. -/
def Amount.meaning (a : Amount) : Meaning where
  value := a.value
  text := a.breakdown

/-! ## Operators and functions -/

theorem compute_toOption (dry : Bool) (op : Operator) (a b : Num) :
    (op.compute dry a b).toOption = Meaning.compute? dry a op b := by
  cases op with
  | add => rfl
  | sub => rfl
  | mul => rfl
  | div =>
    unfold Operator.compute Meaning.compute?
    dsimp only
    split
    · cases dry <;> rfl
    · rfl

theorem apply_meaning (dry : Bool) (op : Operator) (a b : Amount) :
    ((op.apply dry a b).toOption.map Amount.meaning) = a.meaning.combine? dry op b.meaning := by
  rw [Meaning.combine?, Operator.apply, Amount.meaning, Amount.meaning, ← compute_toOption]
  cases op.compute dry a.value b.value with
  | error fault => rfl
  | ok value => rfl

/-- Struck through are all arguments but the first one that holds the value. -/
theorem strikeOthers_eq {v : Num} {arguments : List Amount} {i : Nat}
    (h : arguments.findIdx? (fun a => a.value.same v) = some i) :
    strikeOthers v arguments = Meaning.strikeAllBut i (arguments.map Amount.meaning) := by
  induction arguments generalizing i with
  | nil => cases h
  | cons a arguments ih =>
    rw [List.findIdx?_cons] at h
    rw [strikeOthers, Meaning.strikeAllBut, List.map_cons, List.mapIdx_cons]
    split at h
    · rename_i hv
      cases h
      rw [if_pos hv]
      refine congrArg₂ _ rfl (List.ext_getElem (by simp) fun j _ _ => ?_)
      simp [Amount.meaning, struck]
    · rename_i hv
      obtain ⟨j, hj, rfl⟩ := Option.map_eq_some_iff.1 h
      rw [if_neg hv, ih hj]
      simp [Amount.meaning, struck, Meaning.strikeAllBut]

/-- A choice by comparison is the choice of a value that is the first among those as good. -/
theorem choose?_eq {better : Num → Num → Bool} {f : Function} {arguments : List Amount} {v : Num}
    (hfind : (arguments.map Amount.value).find? (fun x => x.same v) = some v)
    (hbest : ∀ x ∈ arguments.map Amount.value,
      ((arguments.map Amount.value).all fun y => !better y x) = x.same v) :
    Meaning.choose? better f (arguments.map Amount.meaning) =
      some ⟨v, f.call (strikeOthers v arguments)⟩ := by
  obtain ⟨hv, i, hi, hvi, hlt⟩ := List.find?_eq_some_iff_getElem.1 hfind
  rw [List.length_map] at hi
  rw [List.getElem_map] at hvi
  have hall : ∀ (j : Nat) (hj : j < arguments.length),
      ((arguments.map Amount.meaning).all fun b => !better b.value (arguments[j]).value) =
        (arguments[j]).value.same v := by
    intro j hj
    rw [← hbest _ (List.mem_map_of_mem (List.getElem_mem hj)), List.all_map, List.all_map]
    rfl
  have hstrike : arguments.findIdx? (fun a => a.value.same v) = some i := by
    refine List.findIdx?_eq_some_iff_getElem.2 ⟨hi, by rwa [hvi], fun j hj => ?_⟩
    simpa using hlt j hj
  have hchosen : (arguments.map Amount.meaning).findIdx? (fun a =>
      (arguments.map Amount.meaning).all fun b => !better b.value a.value) = some i := by
    rw [List.findIdx?_eq_some_iff_getElem] at hstrike ⊢
    obtain ⟨_, hpos, hneg⟩ := hstrike
    refine ⟨by rwa [List.length_map], ?_, fun j hj => ?_⟩
    · rw [List.getElem_map]
      exact (hall i hi).trans hpos
    · rw [List.getElem_map]
      exact fun h => hneg j hj ((hall j (by omega)).symm.trans h)
  have hget : (arguments.map Amount.meaning)[i]? = some (arguments[i]).meaning := by
    rw [List.getElem?_map, List.getElem?_eq_getElem hi]
    rfl
  rw [Meaning.choose?, hchosen, strikeOthers_eq hstrike]
  simp only [bind, Option.bind, hget]
  rw [← hvi]
  rfl

theorem select_meaning {f : Function} {pick : Num → List Num → Num} {better : Num → Num → Bool}
    (hpick : ∀ {n : Num} {ns : List Num}, (∀ x ∈ n :: ns, x.isNaN = false) →
      (n :: ns).find? (fun x => x.same (pick n ns)) = some (pick n ns) ∧
        ∀ x ∈ n :: ns, ((n :: ns).all fun y => !better y x) = x.same (pick n ns))
    {arguments : List Amount} (h : ∀ a ∈ arguments, a.value.isNaN = false) :
    ((f.select pick arguments).mapError Fault.evaluation).toOption.map Amount.meaning =
      Meaning.choose? better f (arguments.map Amount.meaning) := by
  cases arguments with
  | nil => rfl
  | cons a rest =>
    have hnums : ∀ x ∈ a.value :: rest.map Amount.value, x.isNaN = false := by simpa using h
    obtain ⟨hfind, hbest⟩ := hpick hnums
    rw [← List.map_cons] at hfind hbest
    rw [choose?_eq hfind hbest]
    rfl

theorem mean_toOption (values : List Num) :
    (Function.mean values).toOption = Meaning.meanValue? values := by
  unfold Function.mean Meaning.meanValue?
  split
  · rfl
  · cases Num.sum values with
    | error fault => rfl
    | ok sum => rfl

theorem mean_meaning (arguments : List Amount) :
    (Function.avg.apply arguments).toOption.map Amount.meaning =
      Meaning.mean? .avg (arguments.map Amount.meaning) := by
  have hvalues : (arguments.map Amount.meaning).map Meaning.value = arguments.map Amount.value := by
    simp [Amount.meaning]
  have htexts : (arguments.map Amount.meaning).map Meaning.text = arguments.map Amount.breakdown := by
    simp [Amount.meaning]
  rw [Meaning.mean?, Function.apply, hvalues, htexts, ← mean_toOption]
  cases Function.mean (arguments.map Amount.value) with
  | error fault => rfl
  | ok value => rfl

/-- What a function makes of arguments that compare is the meaning of the call. -/
theorem function_meaning {f : Function} {arguments : List Amount}
    (h : f.Compares (arguments.map Amount.meaning)) :
    (f.apply arguments).toOption.map Amount.meaning =
      Meaning.call? f (arguments.map Amount.meaning) := by
  cases f with
  | avg => exact mean_meaning arguments
  | max => exact select_meaning Num.find?_same_maximum (by simpa [Function.Compares, Amount.meaning] using h)
  | min => exact select_meaning Num.find?_same_minimum (by simpa [Function.Compares, Amount.meaning] using h)

/-! ## Derivations -/

/-- An outcome has the meaning that is wanted, under a condition without which it is a failure. -/
def Means {α μ : Type} (meaning : α → μ) (x : Except Fault α) (wanted : Option μ)
    (condition : Prop) : Prop :=
  ∀ r, x.toOption.map meaning = some r ↔ wanted = some r ∧ condition

section

variable {α β μ ν : Type} {meaning : α → μ} {meaning' : β → ν} {p q : Prop}

theorem means_of_eq {x : Except Fault α} {wanted : Option μ} (h : x.toOption.map meaning = wanted) :
    Means meaning x wanted True := by
  intro r
  rw [h, and_true]

/-- What is done with an outcome is done with its meaning. -/
theorem Means.bind {x : Except Fault α} {f : α → Except Fault β} {wanted : Option μ}
    {g : μ → Option ν} (hx : Means meaning x wanted p)
    (hf : ∀ a, wanted = some (meaning a) → Means meaning' (f a) (g (meaning a)) q) :
    Means meaning' (x >>= f) (wanted >>= g) (p ∧ q) := by
  intro r
  cases x with
  | error fault =>
    refine ⟨nofun, fun ⟨hg, hp, _⟩ => ?_⟩
    obtain ⟨m, hm, _⟩ := Option.bind_eq_some_iff.1 hg
    exact nomatch (hx m).2 ⟨hm, hp⟩
  | ok a =>
    obtain ⟨hm, hp⟩ := (hx (meaning a)).1 rfl
    refine (hf a hm r).trans ?_
    rw [hm]
    exact ⟨fun ⟨hg, hq⟩ => ⟨hg, hp, hq⟩, fun ⟨hg, _, hq⟩ => ⟨hg, hq⟩⟩

theorem Means.congr {x : Except Fault α} {wanted : Option μ} (h : Means meaning x wanted p)
    (hpq : p ↔ q) : Means meaning x wanted q :=
  fun r => (h r).trans (and_congr_right fun _ => hpq)

end

section

variable {context : Context} {place? : String → Option Meaning} {readable : String → Prop}

/-- Every place among the tokens has an index that can be read. -/
def Readable (readable : String → Prop) (tokens : List Token) : Prop :=
  ∀ index, .place index ∈ tokens → readable index

theorem readable_append (ts ts' : List Token) : Readable readable (ts ++ ts') ↔
    Readable readable ts ∧ Readable readable ts' := by
  simp only [Readable, List.mem_append, or_imp, forall_and]

/-- A token that is no place needs no index. -/
theorem readable_cons {t : Token} (h : ∀ index, t ≠ .place index) (ts : List Token) :
    Readable readable (t :: ts) ↔ Readable readable ts := by
  refine forall_congr' fun index => ?_
  rw [List.mem_cons, or_iff_right (h index).symm]

theorem means_chain {op : Operator} {a b : Except Fault Amount} {m m' : Option Meaning}
    {left right : List Token} (ha : Means Amount.meaning a m (Readable readable left))
    (hb : Means Amount.meaning b m' (Readable readable right)) :
    Means Amount.meaning
      (do
        let a ← a
        let b ← b
        op.apply context.dry a b)
      (do
        let a ← m
        let b ← m'
        a.combine? context.dry op b)
      (Readable readable (left ++ .operator op :: right)) := by
  refine (ha.bind fun x _ => hb.bind fun y _ => means_of_eq (apply_meaning _ op x y)).congr ?_
  rw [readable_append, readable_cons (by simp), and_true]

theorem readable_closing (tokens : List Token) :
    Readable readable (tokens ++ [.closing]) ↔ Readable readable tokens := by
  rw [readable_append]
  exact and_iff_left (by simp [Readable])

theorem readable_cons_arguments (e : Expr) (rest : List Expr) :
    Readable readable (argumentTokens (e :: rest)) ↔
      Readable readable e.tokens ∧ Readable readable (argumentTokens rest) := by
  cases rest with
  | nil => exact (and_iff_left (by simp [Readable, argumentTokens])).symm
  | cons e' rest => rw [argumentTokens, readable_append, readable_cons (by simp)]

/-- The amounts of places mean what they should. -/
def PlacesMean (context : Context) (place? : String → Option Meaning) (readable : String → Prop) :
    Prop :=
  ∀ index, Means Amount.meaning (context.place index) (place? index) (readable index)

mutual

/-- Amounts of derivations have their meanings if the amounts of places have theirs. -/
theorem Expr.means (hplace : PlacesMean context place? readable) :
    ∀ e : Expr, e.Comparable context.dry place? → Means Amount.meaning (e.amount context)
      (e.meaning? context.dry place?) (Readable readable e.tokens)
  | .term t, h => Term.means hplace t h
  | .chain left _ _ right, ⟨hl, hr⟩ =>
    means_chain (Expr.means hplace left hl) (Term.means hplace right hr)

theorem Term.means (hplace : PlacesMean context place? readable) :
    ∀ t : Term, t.Comparable context.dry place? → Means Amount.meaning (t.amount context)
      (t.meaning? context.dry place?) (Readable readable t.tokens)
  | .factor f, h => Factor.means hplace f h
  | .chain left _ _ right, ⟨hl, hr⟩ =>
    means_chain (Term.means hplace left hl) (Factor.means hplace right hr)

theorem Factor.means (hplace : PlacesMean context place? readable) :
    ∀ f : Factor, f.Comparable context.dry place? → Means Amount.meaning (f.amount context)
      (f.meaning? context.dry place?) (Readable readable f.tokens)
  | .number digits, _ => (means_of_eq rfl).congr (by simp [Readable, Factor.tokens])
  | .place index, _ => (hplace index).congr (by simp [Readable, Factor.tokens])
  | .group inner, h => by
    refine ((Expr.means hplace inner h).bind fun a _ => means_of_eq rfl).congr ?_
    rw [and_true, Factor.tokens, List.cons_append, readable_cons (by simp), readable_closing]
  | .call f arguments, ⟨hargs, hcompares⟩ => by
    refine ((arguments_mean hplace arguments hargs).bind fun as has =>
      means_of_eq (function_meaning (hcompares _ has))).congr ?_
    rw [and_true, Factor.tokens, List.cons_append, List.cons_append, readable_cons (by simp),
      readable_cons (by simp), readable_closing]

theorem arguments_mean (hplace : PlacesMean context place? readable) :
    ∀ arguments : List Expr, argumentsComparable context.dry place? arguments →
      Means (List.map Amount.meaning) (argumentAmounts context arguments)
        (argumentMeanings? context.dry place? arguments) (Readable readable (argumentTokens arguments))
  | [], _ => (means_of_eq rfl).congr (by simp [Readable, argumentTokens])
  | e :: rest, ⟨he, hrest⟩ => by
    refine ((Expr.means hplace e he).bind fun a _ =>
      (arguments_mean hplace rest hrest).bind fun as _ => means_of_eq rfl).congr ?_
    rw [and_true, readable_cons_arguments]

end

end

/-- In either mode a place has its amount, provided that its index is short enough to be read. -/
theorem placesMean_forMode (dry : Bool) (amount? : Nat → Option Amount) :
    PlacesMean (.forMode dry amount?) (Meaning.place? dry amount?)
      (fun index => (readInt index).isSome) := by
  intro index r
  cases hread : readInt index with
  | none =>
    refine iff_of_false ?_ fun h => ?_
    · simp [Context.place, hread, Except.toOption]
    · simp [hread] at h
  | some n =>
    have hisSome : (readInt index).isSome := by rw [hread]; rfl
    refine Iff.trans ?_ (and_iff_left hisSome).symm
    rw [Meaning.place?, writtenInt_of_readInt hread]
    cases dry with
    | true =>
      simp [Context.forMode, Context.place, Context.dryRun, hread, Except.toOption]
      rfl
    | false =>
      cases hamount : amount? n.toNat <;>
        simp [Context.forMode, Context.place, hread, hamount, Except.toOption, Amount.meaning]

theorem dry_forMode (dry : Bool) (amount? : Nat → Option Amount) :
    (Context.forMode dry amount?).dry = dry := by
  cases dry <;> rfl

/-- Tokens without splices have a result only if there are none, which gives zero, or if they derive
from the grammar; and then the result is the meaning of the derivation. The one exception is a place
whose index has too many digits: it makes the evaluation fail, even if the place has a meaning. -/
theorem evaluateTokens_refines_grammar (dry : Bool) (amount? : Nat → Option Amount)
    (tokens : List Token) (hs : Token.splice ∉ tokens) :
    ((∃ a, evaluateTokens (.forMode dry amount?) tokens = .ok a) →
      tokens = [] ∨ ∃ e : Expr, e.tokens = tokens) ∧
    (tokens = [] → evaluateTokens (.forMode dry amount?) tokens = .ok .zero) ∧
    ∀ e : Expr, e.tokens = tokens → e.Comparable dry (Meaning.place? dry amount?) →
      ∀ value text,
        (∃ a, evaluateTokens (.forMode dry amount?) tokens = .ok a ∧ a.value = value ∧
          a.breakdown = text) ↔
        e.meaning? dry (Meaning.place? dry amount?) = some ⟨value, text⟩ ∧
          ∀ index, .place index ∈ tokens → (readInt index).isSome := by
  refine ⟨fun ⟨a, ha⟩ => exists_tokens_of_evaluateTokens hs ha, ?_, ?_⟩
  · rintro rfl
    rfl
  · rintro e rfl hc value text
    rw [evaluateTokens_tokens]
    have hdry := dry_forMode dry amount?
    have hm := e.means (placesMean_forMode dry amount?) (by rwa [hdry]) ⟨value, text⟩
    rw [hdry] at hm
    refine Iff.trans ?_ hm
    rw [Option.map_eq_some_iff]
    refine exists_congr fun a => ?_
    rw [toOption_eq_some, Amount.meaning, Meaning.mk.injEq]

/-- The derivation of `max(1, 2 * __G0__)`. -/
def largerOfTwo : Expr :=
  .term (.factor (.call .max [.term (.factor (.number "1")),
    .term (.chain (.factor (.number "2")) .mul rfl (.place "0"))]))

/-- The larger of two arguments, of which the other one is struck through. -/
theorem evaluateTokens_largerOfTwo : Token.splice ∉ largerOfTwo.tokens ∧
    ∃ a, evaluateTokens (.forMode false fun _ => some { value := .int 4, breakdown := "4" })
      largerOfTwo.tokens = .ok a ∧ a.value = .int 8 ∧
        a.breakdown = "max(<del>1</del>, 2 * 4)" := by
  have hs : Token.splice ∉ largerOfTwo.tokens := by decide
  have hargs : argumentMeanings? false
      (Meaning.place? false fun _ => some { value := .int 4, breakdown := "4" })
      [.term (.factor (.number "1")), .term (.chain (.factor (.number "2")) .mul rfl (.place "0"))] =
        some [⟨.int 1, "1"⟩, ⟨.int 8, "2 * 4"⟩] := by decide +kernel
  have hc : largerOfTwo.Comparable false
      (Meaning.place? false fun _ => some { value := .int 4, breakdown := "4" }) := by
    refine ⟨⟨trivial, ⟨trivial, trivial⟩, trivial⟩, fun as has => .inr ?_⟩
    cases hargs.symm.trans has
    decide
  refine ⟨hs, ((evaluateTokens_refines_grammar _ _ _ hs).2.2 largerOfTwo rfl hc _ _).2 ⟨?_, ?_⟩⟩
  · decide +kernel
  · intro index h
    have hindex : index = "0" := by simpa [largerOfTwo, Expr.tokens, Term.tokens, Factor.tokens,
      argumentTokens] using h
    rw [hindex]
    decide +kernel

end RollTray.Formula
