import RollTray.Proofs.Formula.Auditing
import RollTray.Proofs.Formula.Reference
import RollTray.Proofs.Formula.Template
import RollTray.Proofs.Number.Tenths

/-!
# Integer arithmetic in expressions

An expression of integer literals, places of integers, parentheses, `+`, `-` and `*` has a value in
exact arithmetic (`Expr.exact`). Its evaluation reads each literal as the float nearest to it,
computes exactly from there on, as long as no literal is beyond the floats (`Expr.computes`), and
rounds the result to tenths by way of floats. So its value is the exact one up to a size, and not
always beyond (`evaluate_integral`).
-/

namespace RollTray

open Float.Model (UnpackedFloat)

/-! ## Numbers that are lost -/

namespace Num

/-- A float that is infinite or no number. -/
def IsLost (n : Num) : Prop :=
  ∃ x, n = float x ∧ x.isFinite = false

theorem isFinite_pack {u : UnpackedFloat} (h : u.isFinite = false) :
    (Float.Model.pack u).unpack.isFinite = false := by
  cases u with
  | notANumber => rfl
  | infinity s => cases s <;> rfl
  | zero s => cases h
  | finite s m e hm => cases h

/-- A sum, difference or product is infinite or no number if an operand is. -/
theorem isFinite_add {x y : Float} (h : x.isFinite = false ∨ y.isFinite = false) :
    (x + y).isFinite = false := by
  refine isFinite_pack ?_
  change x.toModel.unpack.isFinite = false ∨ y.toModel.unpack.isFinite = false at h
  generalize x.toModel.unpack = u at h ⊢
  generalize y.toModel.unpack = v at h ⊢
  fun_cases UnpackedFloat.add _ u v <;> simp_all [UnpackedFloat.isFinite]

theorem isFinite_sub {x y : Float} (h : x.isFinite = false ∨ y.isFinite = false) :
    (x - y).isFinite = false := by
  refine isFinite_pack ?_
  change x.toModel.unpack.isFinite = false ∨ y.toModel.unpack.isFinite = false at h
  generalize x.toModel.unpack = u at h ⊢
  generalize y.toModel.unpack = v at h ⊢
  fun_cases UnpackedFloat.sub _ u v <;> simp_all [UnpackedFloat.isFinite]

theorem isFinite_mul {x y : Float} (h : x.isFinite = false ∨ y.isFinite = false) :
    (x * y).isFinite = false := by
  refine isFinite_pack ?_
  change x.toModel.unpack.isFinite = false ∨ y.toModel.unpack.isFinite = false at h
  generalize x.toModel.unpack = u at h ⊢
  generalize y.toModel.unpack = v at h ⊢
  fun_cases UnpackedFloat.mul _ u v <;> simp_all [UnpackedFloat.isFinite]

theorem isLost_viaFloat {f : Float → Float → Float}
    (hf : ∀ x y : Float, x.isFinite = false ∨ y.isFinite = false → (f x y).isFinite = false)
    {a b r : Num} (h : a.IsLost ∨ b.IsLost) (hr : viaFloat f a b = .ok r) : r.IsLost := by
  obtain ⟨x, y, hx, hy, rfl⟩ := exists_of_viaFloat hr
  refine ⟨_, rfl, hf x y ?_⟩
  rcases h with ⟨x', rfl, hlost⟩ | ⟨y', rfl, hlost⟩
  · cases hx
    exact .inl hlost
  · cases hy
    exact .inr hlost

theorem tidy_of_isInf {x : Float} (h : x.isInf = true) : (float x).tidy = float x := by
  have hform := of_eq_formOf x
  change x.toModel.unpack.isInf = true at h
  generalize x.toModel.unpack = u at h hform
  have hwhole : (FloatForm.of x).isWhole = false := by
    rw [hform]
    cases u with
    | infinity s => rfl
    | notANumber => cases h
    | zero s => cases h
    | finite s m e hm => cases h
  simp only [tidy, hwhole, Bool.false_eq_true, if_false]

theorem isFinite_of_isInf {x : Float} (h : x.isInf = true) : x.isFinite = false := by
  change x.toModel.unpack.isInf = true at h
  show x.toModel.unpack.isFinite = false
  generalize x.toModel.unpack = u at h ⊢
  cases u with
  | infinity s => rfl
  | notANumber => cases h
  | zero s => cases h
  | finite s m e hm => cases h

/-- What is lost is not rounded. -/
theorem IsLost.roundTenths {n : Num} (h : n.IsLost) : n.roundTenths = .ok n := by
  obtain ⟨x, rfl, hlost⟩ := h
  have hspecial : (x.isNaN || x.isInf) = true := by
    change x.toModel.unpack.isFinite = false at hlost
    show (x.toModel.unpack.isNaN || x.toModel.unpack.isInf) = true
    generalize x.toModel.unpack = u at hlost ⊢
    cases u <;> simp_all [UnpackedFloat.isFinite, UnpackedFloat.isNaN, UnpackedFloat.isInf]
  show (if (x.isNaN || x.isInf) = true then _ else _) = _
  rw [if_pos hspecial]
  rfl

theorem IsLost.ne_int {n : Num} (h : n.IsLost) (v : Int) : n ≠ int v := by
  obtain ⟨x, rfl, -⟩ := h
  nofun

end Num

namespace Formula

theorem isLost_compute {dry : Bool} {op : Operator} (hop : op ≠ .div) {a b r : Num}
    (h : a.IsLost ∨ b.IsLost) (hr : op.compute dry a b = .ok r) : r.IsLost := by
  have hints : ¬∃ m n, a = .int m ∧ b = .int n := by
    rintro ⟨m, n, rfl, rfl⟩
    exact h.elim (·.ne_int m rfl) (·.ne_int n rfl)
  cases op with
  | div => exact absurd rfl hop
  | add =>
    refine Num.isLost_viaFloat (f := (· + ·)) (fun _ _ => Num.isFinite_add) h ?_
    rw [← hr]
    cases a <;> cases b <;> first | rfl | exact absurd ⟨_, _, rfl, rfl⟩ hints
  | sub =>
    refine Num.isLost_viaFloat (f := (· - ·)) (fun _ _ => Num.isFinite_sub) h ?_
    rw [← hr]
    cases a <;> cases b <;> first | rfl | exact absurd ⟨_, _, rfl, rfl⟩ hints
  | mul =>
    refine Num.isLost_viaFloat (f := (· * ·)) (fun _ _ => Num.isFinite_mul) h ?_
    rw [← hr]
    cases a <;> cases b <;> first | rfl | exact absurd ⟨_, _, rfl, rfl⟩ hints

/-! ## Literals -/

theorem toLowerAscii_of_isDigit {c : Char} (h : Text.isDigit c = true) :
    Text.toLowerAscii c = c := by
  obtain ⟨-, hhigh⟩ := toNat_of_isDigit h
  refine if_neg fun hcapital => ?_
  have hlow := (Text.toNat_of_isCapital hcapital).1
  omega

theorem readDecimal_of_digits {cs : List Char} (hne : cs ≠ [])
    (h : ∀ c ∈ cs, Text.isDigit c = true) :
    readDecimal false cs = some (nearestDecimal false (Text.natOfDigits cs) 0) := by
  have hwhole : (cs.map (·.toNat - 48)).isEmpty = false := by simpa using hne
  rw [readDecimal, takeDigits_of_forall h]
  simp only [hwhole, List.append_nil, ofDigits, List.foldl_map]
  rfl

theorem pow10_le_of_lt_length {k n : Nat} (hk : 0 < k) (h : k < (Nat.toDigits 10 n).length) :
    pow10 k ≤ n := by
  have hlen : ¬(Nat.toDigits 10 n).length ≤ k := Nat.not_le.2 h
  rw [Nat.length_toDigits_le_iff (by decide) hk, not_lt] at hlen
  exact hlen

/-- A number of more than four hundred digits is beyond the floats, as is what is read for it. -/
theorem nearestDecimal_whole (n : Nat) : ∃ n', nearestDecimal false n 0 = nearest false n' 1 ∧
    (n' = n ∨ floatLimit ≤ n' ∧ floatLimit ≤ n) := by
  rw [nearestDecimal]
  split
  · next hzero =>
    have hn : n = 0 := by simp at hzero; omega
    exact ⟨0, rfl, .inl hn.symm⟩
  · split
    · next hlong =>
      have hlimit : floatLimit ≤ pow10 400 := by decide +kernel
      have hlarge : pow10 400 ≤ n := pow10_le_of_lt_length (by decide) (by omega)
      exact ⟨pow10 400, rfl, .inr ⟨hlimit, hlimit.trans hlarge⟩⟩
    · exact ⟨n * pow10 0, rfl, .inl (Nat.mul_one n)⟩

theorem readFloat_of_digits {digits : String} (hne : digits ≠ "")
    (hdigits : ∀ c ∈ digits.toList, Text.isDigit c = true) :
    readFloat digits = some (nearestDecimal false (Text.natOfDigits digits.toList) 0) := by
  have hlower : digits.toList.map Text.toLowerAscii = digits.toList :=
    (List.map_congr_left fun c hc => toLowerAscii_of_isDigit (hdigits c hc)).trans (List.map_id _)
  have hword : ∀ letter rest, Text.isDigit letter = false →
      String.ofList digits.toList ≠ String.ofList (letter :: rest) := by
    intro letter rest hletter heq
    have hmem : letter ∈ digits.toList := by
      rw [String.ofList_injective heq]
      exact List.mem_cons_self ..
    rw [hdigits letter hmem] at hletter
    cases hletter
  have hinf : String.ofList digits.toList ≠ "inf" := hword 'i' ['n', 'f'] rfl
  have hinfinity : String.ofList digits.toList ≠ "infinity" :=
    hword 'i' ['n', 'f', 'i', 'n', 'i', 't', 'y'] rfl
  have hnan : String.ofList digits.toList ≠ "nan" := hword 'n' ['a', 'n'] rfl
  rw [readFloat, trimMargins_of_forall hdigits, takeSign_of_forall hdigits]
  simp only [hlower, hinf, hinfinity, hnan, decide_false, Bool.or_self, Bool.false_eq_true,
    if_false]
  exact readDecimal_of_digits (by simpa using hne) hdigits

/-- What a literal is read as. -/
theorem numberAmount_value {digits : String} (hne : digits ≠ "")
    (hdigits : ∀ c ∈ digits.toList, Text.isDigit c = true) :
    (Text.natOfDigits digits.toList < floatLimit ∧
        (numberAmount digits).value = .int (nearestWhole (Text.natOfDigits digits.toList))) ∨
      (¬Text.natOfDigits digits.toList < floatLimit ∧ (numberAmount digits).value.IsLost) := by
  generalize hread : Text.natOfDigits digits.toList = n
  obtain ⟨n', hn', hor⟩ := nearestDecimal_whole n
  have hvalue : (numberAmount digits).value = (Num.float (nearestInt n')).tidy := by
    rw [numberAmount, readFloat_of_digits hne hdigits, hread, hn', nearestInt, Int.natAbs_natCast,
      decide_eq_false (by omega)]
    rfl
  rw [hvalue]
  by_cases hlt : n < floatLimit
  · obtain rfl := hor.resolve_right fun h => Nat.not_le.2 hlt h.2
    have hholds := holds_nearestInt (n := (n' : Int)) hlt
    rw [decide_eq_false (by omega), Int.natAbs_natCast] at hholds
    exact .inl ⟨hlt, (Num.tidy_eq_int_iff hholds Nat.one_pos).2 ⟨_, (Nat.mul_one _).symm, rfl⟩⟩
  · have hlarge : floatLimit ≤ n' := hor.elim (fun h => h ▸ Nat.not_lt.1 hlt) And.left
    have hinf : (nearestInt n').isInf = true := (isInf_nearestInt_iff n').2 hlarge
    exact .inr ⟨hlt, _, Num.tidy_of_isInf hinf, Num.isFinite_of_isInf hinf⟩

/-! ## Derivations -/

/-- An operation of exact arithmetic; a quotient has no part in it. -/
def Operator.exact : Operator → Int → Int → Int
  | add, a, b => a + b
  | sub, a, b => a - b
  | mul, a, b => a * b
  | div, a, _ => a

mutual

/-- Built from integer literals, places, parentheses, `+`, `-` and `*`. -/
def Expr.Integral : Expr → Prop
  | .term t => t.Integral
  | .chain left _ _ right => left.Integral ∧ right.Integral

def Term.Integral : Term → Prop
  | .factor f => f.Integral
  | .chain left op _ right => left.Integral ∧ op = .mul ∧ right.Integral

def Factor.Integral : Factor → Prop
  | .number digits => digits ≠ "" ∧ ∀ c ∈ digits.toList, Text.isDigit c = true
  | .place _ => True
  | .group inner => inner.Integral
  | .call _ _ => False

end

mutual

/-- The numbers that are written in a derivation. -/
def Expr.literals : Expr → List Nat
  | .term t => t.literals
  | .chain left _ _ right => left.literals ++ right.literals

def Term.literals : Term → List Nat
  | .factor f => f.literals
  | .chain left _ _ right => left.literals ++ right.literals

def Factor.literals : Factor → List Nat
  | .number digits => [Text.natOfDigits digits.toList]
  | .place _ => []
  | .group inner => inner.literals
  | .call _ _ => []

end

section

variable (literal : Nat → Nat) (place : String → Int)

mutual

/-- The value in exact arithmetic, with what each literal and each place stands for. -/
def Expr.exact : Expr → Int
  | .term t => t.exact
  | .chain left op _ right => op.exact left.exact right.exact

def Term.exact : Term → Int
  | .factor f => f.exact
  | .chain left op _ right => op.exact left.exact right.exact

def Factor.exact : Factor → Int
  | .number digits => literal (Text.natOfDigits digits.toList)
  | .place index => place index
  | .group inner => inner.exact
  | .call _ _ => 0

end

end

/-! ## Splices -/

theorem tagSplicesAfter_cons {token : Token} (h : token ≠ .operator .mul) (previous : Option Token)
    (rest : List Token) : tagSplicesAfter previous (token :: rest) =
      token :: tagSplicesAfter (some token) rest := by
  rw [tagSplicesAfter, if_neg (by simp [h])]

/-- After an operand a star is an operator. -/
theorem tagSplicesAfter_operator {last : Token} (hlast : last.endsOperand = true) (op : Operator)
    (rest : List Token) : tagSplicesAfter (some last) (.operator op :: rest) =
      .operator op :: tagSplicesAfter (some (.operator op)) rest := by
  have hinvites : last.invitesSplice = false := by
    cases h : last.invitesSplice with
    | false => rfl
    | true => exact absurd hlast (by simp [endsOperand_of_invitesSplice h])
  rw [tagSplicesAfter, if_neg (by simp [hinvites])]

/-- None of these tokens is tagged as a splice, and the last of them ends an operand. -/
def Untagged (tokens : List Token) : Prop :=
  ∀ previous rest, ∃ last, Token.endsOperand last = true ∧
    tagSplicesAfter previous (tokens ++ rest) = tokens ++ tagSplicesAfter (some last) rest

theorem untagged_singleton {token : Token} (h : token.endsOperand = true) : Untagged [token] := by
  intro previous rest
  refine ⟨token, h, tagSplicesAfter_cons ?_ previous rest⟩
  rintro rfl
  cases h

theorem Untagged.chain {left right : List Token} (hleft : Untagged left) (hright : Untagged right)
    (op : Operator) : Untagged (left ++ .operator op :: right) := by
  intro previous rest
  obtain ⟨last, hlast, htag⟩ := hleft previous (.operator op :: (right ++ rest))
  obtain ⟨last', hlast', htag'⟩ := hright (some (.operator op)) rest
  refine ⟨last', hlast', ?_⟩
  rw [List.append_assoc, List.cons_append, htag, tagSplicesAfter_operator hlast, htag',
    List.append_assoc, List.cons_append]

/-- Tokens that are closed by a parenthesis and of which none is tagged. -/
def UntaggedInside (tokens : List Token) : Prop :=
  ∀ previous rest, tagSplicesAfter previous (tokens ++ .closing :: rest) =
    tokens ++ .closing :: tagSplicesAfter (some .closing) rest

theorem Untagged.inside {tokens : List Token} (h : Untagged tokens) : UntaggedInside tokens := by
  intro previous rest
  obtain ⟨last, -, htag⟩ := h previous (.closing :: rest)
  rw [htag, tagSplicesAfter_cons (by simp)]

theorem UntaggedInside.group {tokens : List Token} (h : UntaggedInside tokens) :
    Untagged (.opening :: tokens ++ [.closing]) := by
  intro previous rest
  refine ⟨.closing, rfl, ?_⟩
  rw [List.append_assoc, List.cons_append, tagSplicesAfter_cons (by simp), List.singleton_append, h]
  simp

mutual

/-- Every star of a derivation is an operator. -/
theorem Expr.untagged : ∀ e : Expr, Untagged e.tokens
  | .term t => t.untagged
  | .chain left op _ right => left.untagged.chain right.untagged op

theorem Term.untagged : ∀ t : Term, Untagged t.tokens
  | .factor f => f.untagged
  | .chain left op _ right => left.untagged.chain right.untagged op

theorem Factor.untagged : ∀ f : Factor, Untagged f.tokens
  | .number _ => untagged_singleton rfl
  | .place _ => untagged_singleton rfl
  | .group inner => inner.untagged.inside.group
  | .call f arguments => by
    intro previous rest
    obtain ⟨last, hlast, htag⟩ := (arguments_untagged arguments).group (some (.name f.name)) rest
    refine ⟨last, hlast, ?_⟩
    rw [Factor.tokens, List.cons_append, List.cons_append, tagSplicesAfter_cons (by simp), htag]
    rfl

theorem arguments_untagged : ∀ arguments : List Expr, UntaggedInside (argumentTokens arguments)
  | [] => fun previous rest => tagSplicesAfter_cons (by simp) previous rest
  | [e] => e.untagged.inside
  | e :: e' :: arguments => by
    intro previous rest
    obtain ⟨last, -, htag⟩ :=
      e.untagged previous (.comma :: (argumentTokens (e' :: arguments) ++ .closing :: rest))
    rw [argumentTokens, List.append_assoc, List.cons_append, htag, tagSplicesAfter_cons (by simp),
      arguments_untagged (e' :: arguments), List.append_assoc, List.cons_append]

end

theorem Expr.tagSplices_tokens (e : Expr) : tagSplices e.tokens = e.tokens := by
  obtain ⟨last, -, htag⟩ := e.untagged none []
  rwa [List.append_nil, tagSplicesAfter, List.append_nil] at htag

/-! ## Exact computations -/

/-- What is computed is an integer if the literals fit. If they do not, it is lost, or a number was
too large for a float. -/
inductive Computes (fits : Prop) (v : Int) : Except Fault Amount → Prop
  | exact {a : Amount} (hfits : fits) (h : a.value = .int v) : Computes fits v (.ok a)
  | lost {a : Amount} (hfits : ¬fits) (h : a.value.IsLost) : Computes fits v (.ok a)
  | overflow (hfits : ¬fits) : Computes fits v (.error .overflow)

theorem onlyOverflows_compute {op : Operator} (hop : op ≠ .div) (dry : Bool) (a b : Num) :
    OnlyOverflows (op.compute dry a b) := by
  cases op with
  | add => exact Num.onlyOverflows_add a b
  | sub => exact Num.onlyOverflows_sub a b
  | mul => exact Num.onlyOverflows_mul a b
  | div => exact absurd rfl hop

theorem computes_of_isLost {op : Operator} (hop : op ≠ .div) {fits : Prop} (hfits : ¬fits) (v : Int)
    (dry : Bool) {a b : Amount} (h : a.value.IsLost ∨ b.value.IsLost) :
    Computes fits v (op.apply dry a b) := by
  rw [Operator.apply]
  cases hr : op.compute dry a.value b.value with
  | error fault =>
    obtain rfl := onlyOverflows_compute hop dry a.value b.value fault hr
    exact .overflow hfits
  | ok r => exact .lost hfits (isLost_compute hop h hr)

theorem apply_int {op : Operator} (hop : op ≠ .div) (dry : Bool) {a b : Amount} {v w : Int}
    (ha : a.value = .int v) (hb : b.value = .int w) : ∃ r, op.apply dry a b = .ok r ∧
      r.value = .int (op.exact v w) := by
  rw [Operator.apply, ha, hb]
  cases op with
  | add => exact ⟨_, rfl, rfl⟩
  | sub => exact ⟨_, rfl, rfl⟩
  | mul => exact ⟨_, rfl, rfl⟩
  | div => exact absurd rfl hop

theorem Computes.chain {op : Operator} (hop : op ≠ .div) (dry : Bool) {fits fits' both : Prop}
    (hboth : both ↔ fits ∧ fits') {v w : Int} {x y : Except Fault Amount} (hx : Computes fits v x)
    (hy : Computes fits' w y) : Computes both (op.exact v w) (do
      let a ← x
      let b ← y
      op.apply dry a b) := by
  cases hx with
  | overflow hnot => exact .overflow fun h => hnot (hboth.1 h).1
  | lost hnot ha =>
    have hnot : ¬both := fun h => hnot (hboth.1 h).1
    cases hy with
    | overflow _ => exact .overflow hnot
    | exact _ _ => exact computes_of_isLost hop hnot _ dry (.inl ha)
    | lost _ _ => exact computes_of_isLost hop hnot _ dry (.inl ha)
  | exact hfits ha =>
    cases hy with
    | overflow hnot => exact .overflow fun h => hnot (hboth.1 h).2
    | lost hnot hb => exact computes_of_isLost hop (fun h => hnot (hboth.1 h).2) _ dry (.inr hb)
    | exact hfits' hb =>
      obtain ⟨r, hr, hvalue⟩ := apply_int hop dry ha hb
      show Computes both _ (op.apply dry _ _)
      rw [hr]
      exact .exact (hboth.2 ⟨hfits, hfits'⟩) hvalue

/-- The literals are read as floats that are not infinite. -/
def Fit (literals : List Nat) : Prop :=
  ∀ n ∈ literals, n < floatLimit

section

variable {context : Context} {place : String → Int}

/-- The amount of this place is its integer. -/
def IsAt (context : Context) (place : String → Int) (index : String) : Prop :=
  ∃ a, context.place index = .ok a ∧ a.value = .int (place index)

mutual

theorem Expr.computes : ∀ e : Expr, e.Integral → Readable (IsAt context place) e.tokens →
    Computes (Fit e.literals) (e.exact nearestWhole place) (e.amount context)
  | .term t, h, hplace => Term.computes t h hplace
  | .chain left op additive right, h, hplace => by
    rw [Expr.tokens, readable_append, readable_cons (by simp)] at hplace
    have hop : op ≠ .div := by
      rintro rfl
      cases additive
    exact (Expr.computes left h.1 hplace.1).chain hop context.dry List.forall_mem_append
      (Term.computes right h.2 hplace.2)

theorem Term.computes : ∀ t : Term, t.Integral → Readable (IsAt context place) t.tokens →
    Computes (Fit t.literals) (t.exact nearestWhole place) (t.amount context)
  | .factor f, h, hplace => Factor.computes f h hplace
  | .chain left op _ right, h, hplace => by
    rw [Term.tokens, readable_append, readable_cons (by simp)] at hplace
    have hop : op ≠ .div := by
      rw [h.2.1]
      nofun
    exact (Term.computes left h.1 hplace.1).chain hop context.dry List.forall_mem_append
      (Factor.computes right h.2.2 hplace.2)

theorem Factor.computes : ∀ f : Factor, f.Integral → Readable (IsAt context place) f.tokens →
    Computes (Fit f.literals) (f.exact nearestWhole place) (f.amount context)
  | .number digits, h, _ => by
    have hfits : Fit [Text.natOfDigits digits.toList] ↔
        Text.natOfDigits digits.toList < floatLimit := List.forall_mem_singleton
    rcases numberAmount_value h.1 h.2 with ⟨hlt, hvalue⟩ | ⟨hlarge, hlost⟩
    · exact .exact (hfits.2 hlt) hvalue
    · exact .lost (fun h => hlarge (hfits.1 h)) hlost
  | .place index, _, hplace => by
    obtain ⟨a, ha, hvalue⟩ := hplace index (List.mem_singleton_self _)
    show Computes _ _ (context.place index)
    rw [ha]
    exact .exact (List.forall_mem_nil _) hvalue
  | .group inner, h, hplace => by
    rw [Factor.tokens, List.cons_append, readable_cons (by simp), readable_closing] at hplace
    have hinner := Expr.computes inner h hplace
    show Computes (Fit inner.literals) (inner.exact nearestWhole place) (inner.amount context >>= _)
    generalize inner.amount context = x at hinner ⊢
    cases hinner with
    | exact hfits hvalue => exact .exact hfits hvalue
    | lost hfits hlost => exact .lost hfits hlost
    | overflow hfits => exact .overflow hfits
  | .call _ _, h, _ => h.elim

end

end

/-! ## Exact results -/

mutual

theorem Expr.exact_congr {literal literal' : Nat → Nat} {place : String → Int} : ∀ e : Expr,
    (∀ n ∈ e.literals, literal n = literal' n) → e.exact literal place = e.exact literal' place
  | .term t, h => Term.exact_congr t h
  | .chain left op _ right, h => by
    obtain ⟨hleft, hright⟩ := List.forall_mem_append.1 h
    exact congrArg₂ op.exact (Expr.exact_congr left hleft) (Term.exact_congr right hright)

theorem Term.exact_congr {literal literal' : Nat → Nat} {place : String → Int} : ∀ t : Term,
    (∀ n ∈ t.literals, literal n = literal' n) → t.exact literal place = t.exact literal' place
  | .factor f, h => Factor.exact_congr f h
  | .chain left op _ right, h => by
    obtain ⟨hleft, hright⟩ := List.forall_mem_append.1 h
    exact congrArg₂ op.exact (Term.exact_congr left hleft) (Factor.exact_congr right hright)

theorem Factor.exact_congr {literal literal' : Nat → Nat} {place : String → Int} : ∀ f : Factor,
    (∀ n ∈ f.literals, literal n = literal' n) → f.exact literal place = f.exact literal' place
  | .number _, h => congrArg Nat.cast (h _ (List.mem_singleton_self _))
  | .place _, _ => rfl
  | .group inner, h => Expr.exact_congr inner h
  | .call _ _, _ => rfl

end

theorem evaluate_of_tokens {context : Context} {text : String} {e : Expr}
    (h : tokenize text = .ok e.tokens) : evaluate context text = (do
      let amount ← e.amount context
      let value ← amount.value.roundTenths
      return { value, breakdown := amount.breakdown }) := by
  rw [evaluate, h]
  show (evaluateTokens context (tagSplices e.tokens) >>= _) = _
  rw [e.tagSplices_tokens, evaluateTokens_tokens]

section

variable {context : Context} {text : String} {e : Expr} {v : Int}

theorem evaluate_of_int {a : Amount} (htokens : tokenize text = .ok e.tokens)
    (ha : e.amount context = .ok a) (hv : a.value = .int v) : evaluate context text = (do
      let value ← (Num.int v).roundTenths
      return { value, breakdown := a.breakdown }) := by
  rw [evaluate_of_tokens htokens, ha, ← hv]
  rfl

theorem evaluate_of_isLost {a : Amount} (htokens : tokenize text = .ok e.tokens)
    (ha : e.amount context = .ok a) (hlost : a.value.IsLost) :
    evaluate context text = .ok { value := a.value, breakdown := a.breakdown } := by
  rw [evaluate_of_tokens htokens, ha, ok_bind, hlost.roundTenths]
  rfl

/-- Rounding is all that may fail or err if the literals fit. -/
theorem evaluate_of_fit {place : String → Int} (htokens : tokenize text = .ok e.tokens)
    (he : e.Integral) (hplace : Readable (IsAt context place) e.tokens) (hfits : Fit e.literals) :
    (∀ w, (∃ a, evaluate context text = .ok a ∧ a.value = .int w) ↔
        Num.RoundsTo (e.exact nearestWhole place) w) ∧
      ∀ fault, evaluate context text = .error fault ↔
        fault = .overflow ∧ floatLimit ≤ 10 * (e.exact nearestWhole place).natAbs := by
  have hcomputes := e.computes he hplace
  generalize hx : e.amount context = x at hcomputes
  cases hcomputes with
  | lost hnot _ => exact absurd hfits hnot
  | overflow hnot => exact absurd hfits hnot
  | @exact a _ hv =>
    rw [evaluate_of_int htokens hx hv]
    refine ⟨fun w => ?_, fun fault => ?_⟩
    · rw [← Num.roundTenths_eq_int_iff]
      constructor
      · rintro ⟨b, hb, hw⟩
        obtain ⟨value, hvalue, hb⟩ := bind_eq_ok.1 hb
        rw [hvalue, ← hw, ← pure_eq_ok.1 hb]
      · intro hvalue
        rw [hvalue]
        exact ⟨_, rfl, rfl⟩
    · rw [← Num.roundTenths_eq_error_iff]
      cases (Num.int (e.exact nearestWhole place)).roundTenths with
      | error fault' =>
        show (Except.error fault' : Except Fault Amount) = .error fault ↔ _
        rw [Except.error.injEq, Except.error.injEq]
      | ok value => exact iff_of_false nofun nofun

/-- What does not fit gives no integer. -/
theorem evaluate_of_not_fit {place : String → Int} (htokens : tokenize text = .ok e.tokens)
    (he : e.Integral) (hplace : Readable (IsAt context place) e.tokens) (hnot : ¬Fit e.literals) :
    (∀ a, evaluate context text = .ok a → a.value.IsLost) ∧
      ∀ fault, evaluate context text = .error fault → fault = .overflow := by
  have hcomputes := e.computes he hplace
  generalize hx : e.amount context = x at hcomputes
  cases hcomputes with
  | exact hfits _ => exact absurd hfits hnot
  | overflow _ =>
    rw [evaluate_of_tokens htokens, hx]
    exact ⟨nofun, fun fault h => (Except.error.inj h).symm⟩
  | lost _ hlost =>
    rw [evaluate_of_isLost htokens hx hlost]
    refine ⟨?_, nofun⟩
    rintro _ ⟨⟩
    exact hlost

end

/-- The value of an expression of integers is the exact one just if the literals are read as finite
floats and the value with these literals is rounded to it. An evaluation can only fail with an
overflow, and if the literals are finite, it does so just if ten times the value is beyond the
floats. If the literals are floats themselves, then a value is exact up to the size given. -/
theorem evaluate_integral {context : Context} {text : String} {e : Expr} {place : String → Int}
    (htokens : tokenize text = .ok e.tokens) (he : e.Integral)
    (hplace : Readable (IsAt context place) e.tokens) :
    ((∃ a, evaluate context text = .ok a ∧ a.value = .int (e.exact id place)) ↔
        Fit e.literals ∧ Num.RoundsTo (e.exact nearestWhole place) (e.exact id place)) ∧
      (∀ fault, evaluate context text = .error fault → fault = .overflow) ∧
      (Fit e.literals → (evaluate context text = .error .overflow ↔
        floatLimit ≤ 10 * (e.exact nearestWhole place).natAbs)) ∧
      (¬Fit e.literals → ∀ a, evaluate context text = .ok a → a.value.IsLost) ∧
      (Fit e.literals → (∀ n ∈ e.literals, nearestWhole n = n) →
        (e.exact id place).natAbs ≤ 1801439850948198 →
        ∃ a, evaluate context text = .ok a ∧ a.value = .int (e.exact id place)) := by
  by_cases hfits : Fit e.literals
  · obtain ⟨hvalue, hfault⟩ := evaluate_of_fit htokens he hplace hfits
    refine ⟨(hvalue _).trans (and_iff_right hfits).symm, fun fault h => ((hfault fault).1 h).1,
      fun _ => (hfault _).trans (and_iff_right rfl), fun hnot => absurd hfits hnot,
      fun _ hwhole hsmall => ?_⟩
    have hsame : e.exact nearestWhole place = e.exact id place := e.exact_congr hwhole
    rw [hvalue, hsame]
    exact Num.roundsTo_self_of_le hsmall
  · obtain ⟨hvalue, hfault⟩ := evaluate_of_not_fit htokens he hplace hfits
    refine ⟨iff_of_false ?_ fun h => hfits h.1, hfault, fun h => absurd h hfits, fun _ => hvalue,
      fun h => absurd h hfits⟩
    rintro ⟨a, ha, hv⟩
    exact (hvalue a ha).ne_int _ hv

theorem precedence_mul : Operator.mul.precedence = 2 := rfl

theorem precedence_add : Operator.add.precedence = 1 := rfl

/-- The derivation of `2 * (3 + __G0__)`. -/
def twiceSum : Expr :=
  .term (.chain (.factor (.number "2")) .mul precedence_mul
    (.group (.chain (.term (.factor (.number "3"))) .add precedence_add (.factor (.place "0")))))

/-- Every place has the amount four. -/
def allFours : Context where
  amount? _ := some { value := .int 4, breakdown := "4" }
  dry := false

theorem evaluate_twiceSum : tokenize "2 * (3 + __G0__)" = .ok twiceSum.tokens ∧ twiceSum.Integral ∧
    Readable (IsAt allFours fun _ => 4) twiceSum.tokens ∧
    ∃ a, evaluate allFours "2 * (3 + __G0__)" = .ok a ∧ a.value = .int 14 := by
  have htokens : tokenize "2 * (3 + __G0__)" = .ok twiceSum.tokens :=
    toOption_eq_some.1 (by decide +kernel)
  have he : twiceSum.Integral :=
    ⟨⟨by decide, List.all_eq_true.1 (by decide +kernel)⟩, rfl,
      ⟨by decide, List.all_eq_true.1 (by decide +kernel)⟩, trivial⟩
  have hplace : Readable (IsAt allFours fun _ => 4) twiceSum.tokens := by
    intro index h
    have hindex : index = "0" := by
      simpa [twiceSum, Expr.tokens, Term.tokens, Factor.tokens] using h
    have hfour : (allFours.place "0").toOption.map Amount.value = some (.int 4) := by
      decide +kernel
    obtain ⟨a, ha, hvalue⟩ := Option.map_eq_some_iff.1 hfour
    rw [hindex]
    exact ⟨a, toOption_eq_some.1 ha, hvalue⟩
  have hsmall : ∀ n ∈ twiceSum.literals, n < 2 ^ 54 - 1 := by decide +kernel
  have hwhole : ∀ n ∈ twiceSum.literals, nearestWhole n = n := by decide +kernel
  obtain ⟨-, -, -, -, hexact⟩ := evaluate_integral htokens he hplace
  exact ⟨htokens, he, hplace,
    hexact (fun n hn => Nat.lt_of_lt_of_le (hsmall n hn) le_floatLimit) hwhole (by decide +kernel)⟩

end Formula

end RollTray
