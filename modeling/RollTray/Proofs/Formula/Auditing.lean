import RollTray.Proofs.Dice.KeepRules
import RollTray.Proofs.Formula.Lexemes
import RollTray.Proofs.Formula.Simulation
import RollTray.Proofs.Formula.Acceptance
import RollTray.Text.Strike

/-!
# Auditing a breakdown

The breakdown of an expression is an expression, if nothing in it is spliced and nothing chosen by `max` or
`min`: with a zero for every die that is struck through (`zeroStruck`) it has the same value without any dice
group, and explains itself (`evaluate_zeroStruck`).

`Restates` says so of an amount and the tokens that its text reads as. It holds of numbers and of dice groups
(`exists_restates_groupAmount`), operators, parentheses and means keep it, and so it holds of every derivation
(`Expr.exists_restates`).
-/

namespace RollTray

/-! ## Zero for what is struck through -/

namespace Text.Strike

/-- The text with a zero in place of all that is struck through. -/
def zeroed (cs : List Char) : List Char :=
  match cs with
  | [] => []
  | c :: tail =>
    match hpair : pair? (c :: tail) with
    | some (_, rest) =>
      have := length_rest_of_pair? hpair
      '0' :: zeroed rest
    | none => c :: zeroed tail
termination_by cs.length
decreasing_by all_goals (simp only [List.length_cons] at *; omega)

/-- A text with zeros for what it strikes through. -/
def zeroStruck (s : String) : String :=
  String.ofList (zeroed s.toList)

/-- The text comes to another one, whatever stands after it. -/
def Zeroes (cs cs' : List Char) : Prop :=
  ∀ rest, zeroed (cs ++ rest) = cs' ++ zeroed rest

theorem zeroed_cons {c : Char} (hc : c ≠ '<') (cs : List Char) : zeroed (c :: cs) = c :: zeroed cs := by
  have hpair : pair? (c :: cs) = none := by
    have hopen : openTag.isPrefixOf (c :: cs) = false := by
      show (('<' == c) && _) = false
      rw [beq_eq_false_iff_ne.2 hc.symm, Bool.false_and]
    rw [pair?, hopen]
    rfl
  rw [zeroed]
  split
  · next heq => cases hpair.symm.trans heq
  · rfl

theorem zeroes_plain {cs : List Char} (h : '<' ∉ cs) : Zeroes cs cs := by
  intro rest
  induction cs with
  | nil => rfl
  | cons c cs ih =>
    obtain ⟨hc, hcs⟩ := List.ne_and_not_mem_of_not_mem_cons h
    rw [List.cons_append, zeroed_cons (Ne.symm hc), ih hcs, List.cons_append]

theorem inside?_append {content : List Char} (h : '<' ∉ content) (hline : '\n' ∉ content)
    (rest : List Char) : inside? (content ++ (closeTag ++ rest)) = some (content, rest) := by
  induction content with
  | nil => rfl
  | cons c content ih =>
    obtain ⟨hc, hcontent⟩ := List.ne_and_not_mem_of_not_mem_cons h
    obtain ⟨hend, hcontent'⟩ := List.ne_and_not_mem_of_not_mem_cons hline
    have htag : ∀ word : List Char,
        ('<' :: word).isPrefixOf (c :: (content ++ (closeTag ++ rest))) = false := fun word => by
      show (('<' == c) && _) = false
      rw [beq_eq_false_iff_ne.2 hc, Bool.false_and]
    have hopen : openTag.isPrefixOf (c :: (content ++ (closeTag ++ rest))) = false := htag _
    have hclose : closeTag.isPrefixOf (c :: (content ++ (closeTag ++ rest))) = false := htag _
    rw [List.cons_append, inside?, hclose, hopen, ih hcontent hcontent']
    simp [Ne.symm hend]

theorem zeroes_struck {content : List Char} (h : '<' ∉ content) (hline : '\n' ∉ content) :
    Zeroes (openTag ++ (content ++ closeTag)) ['0'] := by
  intro rest
  have hpair : pair? (openTag ++ (content ++ closeTag) ++ rest) = some (content, rest) := by
    rw [pair?, List.append_assoc, List.append_assoc,
      if_pos (List.isPrefixOf_iff_prefix.2 (List.prefix_append ..)), List.drop_left,
      inside?_append h hline]
  show zeroed ('<' :: _) = _
  rw [zeroed]
  split
  · next heq =>
    cases hpair.symm.trans heq
    rfl
  · next heq => cases hpair.symm.trans heq

theorem Zeroes.append {front back front' back' : List Char} (h : Zeroes front front')
    (h' : Zeroes back back') : Zeroes (front ++ back) (front' ++ back') := by
  intro rest
  rw [List.append_assoc, h, h', List.append_assoc]

theorem Zeroes.eq {cs cs' : List Char} (h : Zeroes cs cs') : zeroed cs = cs' := by
  have hnil := h []
  rwa [List.append_nil, zeroed, List.append_nil] at hnil

end Text.Strike

open Text.Strike

namespace Formula

/-- The context without any dice group. -/
def Context.bare : Context where
  amount? _ := none
  dry := false

/-! ## Texts that come to their amount again -/

theorem ReadsAs.symbol {c : Char} {token : Token} {cs : List Char} {tokens : List Token}
    (hc : symbol? c = some token) (tail : ReadsAs cs tokens) : ReadsAs (c :: cs) (token :: tokens) :=
  .lexeme (lexeme?_eq_some.2 ⟨[c], _, .symbol hc, fun _ _ => rfl, rfl⟩) tail

/-- A symbol is joined by nothing. -/
theorem not_joins_of_symbol {c d : Char} {token : Token} (hd : symbol? d = some token) : ¬Joins c d := by
  have hapart : isNumeric d = false ∧ Text.isLetter d = false := by
    unfold symbol? at hd
    split at hd <;> first | exact ⟨rfl, rfl⟩ | cases hd
  rintro (⟨-, h⟩ | ⟨-, h⟩)
  · cases hapart.1.symm.trans h
  · cases hapart.2.symm.trans h

/-- A symbol cuts a text in two. -/
theorem ReadsAs.append_symbol {c : Char} {token : Token} {front back : List Char}
    {tokens tokens' : List Token} (hfront : ReadsAs front tokens) (hc : symbol? c = some token)
    (hback : ReadsAs back tokens') : ReadsAs (front ++ c :: back) (tokens ++ token :: tokens') := by
  refine hfront.append (.symbol hc hback) fun b _ d hd => ?_
  cases hd
  exact not_joins_of_symbol hc

/-- No lexeme holds the beginning of a tag. -/
theorem IsLexeme.tag_notMem {taken : List Char} {token : Token} {more : Char → Bool}
    (h : IsLexeme taken token more) : '<' ∉ taken := by
  have hdigit : ∀ {cs : List Char}, (∀ c ∈ cs, Text.isDigit c = true) → '<' ∉ cs :=
    notMem_of_forall (by decide)
  cases h with
  | whole _ hdigits => exact hdigit hdigits
  | decimal _ hdigits hplaces => simp [hdigit hdigits, hdigit hplaces]
  | name _ hletters => exact notMem_of_forall (p := Text.isLetter) (by decide) hletters
  | place hg _ hindex => rcases hg with rfl | rfl <;> simp [hdigit hindex]
  | symbol h =>
    rw [List.mem_singleton]
    rintro rfl
    cases h

/-- The text that explains an amount reads as these tokens once what is struck through is zero, and what
they come to is the amount's value, explained by the text that was read. -/
def Restates (a : Amount) (tokens : List Token) (again : Except Fault Amount) : Prop :=
  ∃ text, Zeroes a.breakdown.toList text ∧ ReadsAs text tokens ∧
    again = .ok { value := a.value, breakdown := String.ofList text }

section

variable {a b : Amount} {tokens tokens' : List Token} {again again' : Except Fault Amount}

/-- A number explains itself. -/
theorem restates_number {digits : String} {more : Char → Bool}
    (h : IsLexeme digits.toList (.number digits) more) :
    Restates (numberAmount digits) [.number digits] (.ok (numberAmount digits)) := by
  refine ⟨digits.toList, zeroes_plain h.tag_notMem,
    .lexeme (lexeme?_eq_some.2 ⟨_, more, h, by simp, (List.append_nil _).symm⟩) .nil, ?_⟩
  rw [String.ofList_toList]
  rfl

theorem Restates.chain {op : Operator} {v : Num} (ha : Restates a tokens again)
    (hb : Restates b tokens' again') (hv : op.compute false a.value b.value = .ok v) :
    Restates { value := v, breakdown := a.breakdown ++ " " ++ op.symbol ++ " " ++ b.breakdown }
      (tokens ++ .operator op :: tokens') (do
        let a ← again
        let b ← again'
        op.apply false a b) := by
  obtain ⟨front, hfront, hreads, rfl⟩ := ha
  obtain ⟨back, hback, hreads', rfl⟩ := hb
  obtain ⟨c, hc, hsymbol⟩ : ∃ c, op.symbol.toList = [c] ∧ symbol? c = some (.operator op) := by
    cases op <;> exact ⟨_, rfl, rfl⟩
  have hplain : '<' ∉ [' ', c, ' '] := by
    cases op <;> cases hc <;> decide
  refine ⟨front ++ (' ' :: c :: ' ' :: back), ?_, ?_, ?_⟩
  · have hzeroes := hfront.append ((zeroes_plain hplain).append hback)
    simpa [String.toList_append, hc] using hzeroes
  · refine hreads.append (.space rfl (.symbol hsymbol (.space rfl hreads'))) fun d _ e he => ?_
    cases he
    exact not_joins_of_isSpace (.inr rfl)
  · rw [ok_bind, ok_bind, Operator.apply, hv, ok_bind]
    simp [pure, Except.pure, String.ext_iff, String.toList_append, hc]

theorem Restates.group (h : Restates a tokens again) :
    Restates { a with breakdown := "(" ++ a.breakdown ++ ")" } (.opening :: tokens ++ [.closing]) (do
      let a ← again
      return { a with breakdown := "(" ++ a.breakdown ++ ")" }) := by
  obtain ⟨text, hzeroes, hreads, rfl⟩ := h
  refine ⟨'(' :: (text ++ [')']), ?_, ?_, ?_⟩
  · have hall := (zeroes_plain (by decide : '<' ∉ ['('])).append
      (hzeroes.append (zeroes_plain (by decide : '<' ∉ [')'])))
    simpa [String.toList_append] using hall
  · exact .symbol rfl (hreads.append_symbol rfl .nil)
  · simp [pure, Except.pure, bind, Except.bind, String.ext_iff, String.toList_append]

/-- The arguments of a call and the text between its parentheses. -/
theorem restates_arguments {as : List Amount} {arguments : List Expr}
    (h : List.Forall₂ (fun a e => Restates a (Expr.tokens e) (e.amount .bare)) as arguments) :
    ∃ text as', Zeroes (", ".intercalate (as.map Amount.breakdown)).toList text ∧
      ReadsAs text (argumentTokens arguments) ∧ argumentAmounts .bare arguments = .ok as' ∧
      as'.map Amount.value = as.map Amount.value ∧
      ", ".intercalate (as'.map Amount.breakdown) = String.ofList text := by
  induction h with
  | nil => exact ⟨[], [], fun _ => rfl, .nil, rfl, rfl, rfl⟩
  | @cons a e as arguments ha h ih =>
    obtain ⟨text, hzeroes, hreads, ha⟩ := ha
    obtain ⟨texts, as', hall, hreads', has, hvalues, htexts⟩ := ih
    have hamounts : argumentAmounts .bare (e :: arguments) =
        .ok ({ value := a.value, breakdown := String.ofList text } :: as') := by
      rw [argumentAmounts, ha, has]
      rfl
    cases h with
    | nil =>
      cases has
      refine ⟨text, _, ?_, hreads, hamounts, rfl, ?_⟩
      · rwa [List.map_singleton, String.intercalate_singleton]
      · rw [List.map_singleton, String.intercalate_singleton]
    | @cons b e' bs rest hb h =>
      obtain ⟨b', bs', rfl⟩ : ∃ b' bs', as' = b' :: bs' :=
        List.exists_cons_of_ne_nil fun hnil => by rw [hnil] at hvalues; cases hvalues
      refine ⟨text ++ (',' :: ' ' :: texts), _, ?_, ?_, hamounts, ?_, ?_⟩
      · have hzeroes' := hzeroes.append ((zeroes_plain (by decide : '<' ∉ [',', ' '])).append hall)
        simpa [String.intercalate_cons_cons, String.toList_append] using hzeroes'
      · exact hreads.append_symbol rfl (.space rfl hreads')
      · rw [List.map_cons, hvalues]
        rfl
      · rw [List.map_cons, List.map_cons, String.intercalate_cons_cons, ← List.map_cons, htexts]
        simp [String.ext_iff, String.toList_append]

theorem restates_mean {as : List Amount} {arguments : List Expr}
    (h : List.Forall₂ (fun a e => Restates a (Expr.tokens e) (e.amount .bare)) as arguments)
    (hb : Function.avg.apply as = .ok b) :
    Restates b (Factor.call .avg arguments).tokens ((Factor.call .avg arguments).amount .bare) := by
  obtain ⟨text, as', hzeroes, hreads, has, hvalues, htexts⟩ := restates_arguments h
  obtain ⟨v, hv, hb⟩ := bind_eq_ok.1 hb
  cases hb
  refine ⟨['a', 'v', 'g', '('] ++ (text ++ [')']), ?_, ?_, ?_⟩
  · have hall := (zeroes_plain (by decide : '<' ∉ ['a', 'v', 'g', '('])).append
      (hzeroes.append (zeroes_plain (by decide : '<' ∉ [')'])))
    simpa [Function.call, Function.name, String.toList_append] using hall
  · have hletters : ∀ c ∈ ['a', 'v', 'g'], Text.isLetter c = true := by simp [Text.isLetter]
    have hname : IsLexeme ['a', 'v', 'g'] (.name "avg") Text.isLetter := by
      have hlower : String.ofList (['a', 'v', 'g'].map Text.toLowerAscii) = "avg" := by decide
      exact hlower ▸ .name (List.cons_ne_nil _ _) hletters
    refine .lexeme (lexeme?_eq_some.2 ⟨['a', 'v', 'g'], _, hname, fun c hc => ?_, rfl⟩)
      (.symbol rfl (hreads.append_symbol rfl .nil))
    cases hc
    rfl
  · rw [Factor.amount, has, ok_bind, Function.apply, hvalues, hv, ok_bind, Function.call, htexts]
    simp [pure, Except.pure, String.ext_iff, String.toList_append, Function.name]

end

/-! ## Dice groups -/

end Formula

/-- Dice of a group without a keep rule, or with one that keeps the highest or lowest of them: at least one,
and each reads a number of its faces. -/
structure Dice.Rolled (g : Group) (results : List DieResult) : Prop where
  some : results ≠ []
  rule : g.keep = .null ∨ g.keep = .text "kh" ∨ g.keep = .text "kl"
  faces : ∀ r ∈ results, ∃ n : Int, r.value = .int n ∧ 1 ≤ n ∧ n ≤ 100

namespace Dice

open Formula

/-- What a die counts for: its number if it is kept, and nothing if not. -/
def counted (r : DieResult) : Int :=
  if r.kept.truthy then rank r.value else 0

theorem groupAmount_eq_ok {g : Group} {results : List DieResult} {a : Amount}
    (hrule : g.keep.same (.text "ka") = false) (h : groupAmount g results = .ok a) :
    ∃ texts, results.mapM resultText = .ok texts ∧ a.breakdown = sumText texts ∧
      sumValues ((results.filter fun r => r.kept.truthy).map DieResult.value) = .ok a.value := by
  rw [groupAmount, hrule] at h
  obtain ⟨texts, htexts, h⟩ := bind_eq_ok.1 h
  obtain ⟨total, htotal, h⟩ := bind_eq_ok.1 h
  refine ⟨texts, htexts, ?_⟩
  dsimp only at h
  split at h
  · obtain ⟨expanded, -, h⟩ := bind_eq_ok.1 h
    cases h
    exact ⟨rfl, htotal⟩
  · cases h
    exact ⟨rfl, htotal⟩

theorem sum_counted (results : List DieResult) :
    ((results.filter fun r => r.kept.truthy).map counted).sum = (results.map counted).sum := by
  induction results with
  | nil => rfl
  | cons r results ih =>
    rw [List.filter_cons, List.map_cons, List.sum_cons]
    split
    · rw [List.map_cons, List.sum_cons, ih]
    · next hdropped => rw [ih, counted, if_neg hdropped, zero_add]

/-- What is kept adds up to what all dice count for. -/
theorem sumValues_kept {results : List DieResult} (h : ∀ r ∈ results, ∃ n : Int, r.value = .int n) :
    sumValues ((results.filter fun r => r.kept.truthy).map DieResult.value) =
      .ok (.int (results.map counted).sum) := by
  have hkept : (results.filter fun r => r.kept.truthy).map DieResult.value =
      ((results.filter fun r => r.kept.truthy).map counted).map .int := by
    rw [List.map_map]
    refine List.map_congr_left fun r hr => ?_
    obtain ⟨hr, hkept⟩ := List.mem_filter.1 hr
    obtain ⟨n, hn⟩ := h r hr
    rw [Function.comp_apply, counted, if_pos hkept, hn, rank]
  rw [hkept, sumValues_int, sum_counted]

theorem numberAmount_toString : ∀ n : Fin 101, (numberAmount (toString n.val)).value = .int n.val := by
  decide +kernel

theorem isLexeme_toString (n : Nat) :
    IsLexeme (toString n).toList (.number (toString n)) isNumeric := by
  rw [Nat.toString_eq_ofList_toDigits, String.toList_ofList]
  exact .whole Nat.toDigits_ne_nil fun _ => isDigit_of_mem_toDigits

/-- The digits of a small number come to the number. -/
theorem restates_toString {n : Nat} (hn : n ≤ 100) :
    Restates { value := .int n, breakdown := toString n } [.number (toString n)]
      (.ok (numberAmount (toString n))) := by
  have hvalue : (numberAmount (toString n)).value = .int n :=
    numberAmount_toString ⟨n, Nat.lt_succ_of_le hn⟩
  rw [← hvalue]
  exact restates_number (isLexeme_toString n)

/-- A die of a sum is a number, which is zero if the die does not count. -/
theorem exists_restates_result {r : DieResult} {n : Int} (hr : r.value = .int n) (hlow : 1 ≤ n)
    (hhigh : n ≤ 100) : ∃ text digits, resultText r = .ok text ∧
      Restates { value := .int (counted r), breakdown := text } [.number digits]
        (.ok (numberAmount digits)) := by
  obtain ⟨m, rfl⟩ := Int.eq_ofNat_of_zero_le (Int.le_trans Int.one_nonneg hlow)
  have hshown : r.value.shown = .ok (toString m) := by
    have hshort : (m : Int).natAbs < pow10 integerDigitLimit :=
      calc (m : Int).natAbs < pow10 3 := (by omega : (m : Int).natAbs < 10 ^ 3)
        _ ≤ pow10 integerDigitLimit := pow10_le_pow10 (by decide)
    rw [hr, Value.shown_int, Num.writeInt, if_pos hshort, Text.decimalOfInt, if_neg (by omega)]
    rfl
  rw [resultText, hshown, ok_bind]
  by_cases hkept : r.kept.truthy = true
  · refine ⟨toString m, toString m, by rw [if_pos hkept]; rfl, ?_⟩
    rw [counted, if_pos hkept, hr, rank]
    exact restates_toString (by omega)
  · refine ⟨struck (toString m), "0", by rw [if_neg hkept]; rfl, ['0'], ?_, ?_, ?_⟩
    · have hdigits : ∀ c ∈ (toString m).toList, Text.isDigit c = true := by
        rw [Nat.toString_eq_ofList_toDigits, String.toList_ofList]
        exact fun _ => isDigit_of_mem_toDigits
      have hzeroes := zeroes_struck (notMem_of_forall (by decide) hdigits)
        (notMem_of_forall (by decide) hdigits)
      simpa [struck, openTag, closeTag, String.toList_append] using hzeroes
    · exact .lexeme (by decide) .nil
    · rw [counted, if_neg hkept]
      exact congrArg (fun v => (Except.ok { value := v, breakdown := "0" } : Except Fault Amount))
        (numberAmount_toString 0)

/-- Dice of a sum after what stands before them. -/
theorem exists_restates_sum {results : List DieResult} {texts : List String}
    (hfaces : ∀ r ∈ results, ∃ n : Int, r.value = .int n ∧ 1 ≤ n ∧ n ≤ 100)
    (htexts : results.mapM resultText = .ok texts) {front : String} {sum : Int} {e : Expr}
    (he : Restates { value := .int sum, breakdown := front } e.tokens (e.amount .bare)) :
    ∃ e' : Expr, Restates
      { value := .int (sum + (results.map counted).sum)
        breakdown := " + ".intercalate (front :: texts) } e'.tokens (e'.amount .bare) := by
  induction results generalizing texts front sum e with
  | nil =>
    rw [List.mapM_nil] at htexts
    cases htexts
    refine ⟨e, ?_⟩
    rwa [String.intercalate_singleton, List.map_nil, List.sum_nil, add_zero]
  | cons r results ih =>
    rw [List.mapM_cons] at htexts
    obtain ⟨text, htext, htexts⟩ := bind_eq_ok.1 htexts
    obtain ⟨texts, hrest, htexts⟩ := bind_eq_ok.1 htexts
    cases htexts
    obtain ⟨n, hr, hlow, hhigh⟩ := hfaces r (List.mem_cons_self ..)
    obtain ⟨text', digits, htext', hdigits⟩ := exists_restates_result hr hlow hhigh
    cases htext.symm.trans htext'
    have hsymbol : front ++ " + " = front ++ " " ++ Operator.add.symbol ++ " " := by
      rw [String.append_assoc, String.append_assoc]
      rfl
    have hadd : Operator.add.compute false (.int sum) (.int (counted r)) =
        .ok (.int (sum + counted r)) := rfl
    have hchain := he.chain hdigits hadd
    rw [← hsymbol] at hchain
    obtain ⟨e', he'⟩ := ih (fun r hr => hfaces r (List.mem_cons_of_mem _ hr)) hrest
      (e := .chain e .add rfl (.factor (.number digits))) hchain
    refine ⟨e', ?_⟩
    rw [List.map_cons, List.sum_cons, ← add_assoc, String.intercalate_cons_cons,
      ← String.intercalate_cons_append]
    exact he'

/-- What explains the amount of a group is an operand that comes to the amount. -/
theorem exists_restates_groupAmount {g : Group} {results : List DieResult} (h : Rolled g results)
    {a : Amount} (ha : groupAmount g results = .ok a) :
    ∃ f : Factor, Restates a f.tokens (f.amount .bare) := by
  have hrule : g.keep.same (.text "ka") = false := by
    rcases h.rule with hrule | hrule | hrule <;> rw [hrule] <;> simp [Value.same, Value.num?]
  obtain ⟨texts, htexts, hbreakdown, hvalue⟩ := groupAmount_eq_ok hrule ha
  rw [sumValues_kept fun r hr => (h.faces r hr).imp fun _ => And.left, Except.ok.injEq] at hvalue
  show ∃ f : Factor, Restates { value := a.value, breakdown := a.breakdown } f.tokens (f.amount .bare)
  rw [hbreakdown, ← hvalue]
  obtain ⟨r, results, rfl⟩ := List.exists_cons_of_ne_nil h.some
  obtain ⟨n, hr, hlow, hhigh⟩ := h.faces r (List.mem_cons_self ..)
  obtain ⟨text, digits, htext, hdigits⟩ := exists_restates_result hr hlow hhigh
  rw [List.mapM_cons, htext, ok_bind] at htexts
  obtain ⟨rest, hrest, htexts⟩ := bind_eq_ok.1 htexts
  cases htexts
  rw [List.map_cons, List.sum_cons]
  cases results with
  | nil =>
    cases hrest
    refine ⟨.number digits, ?_⟩
    rw [List.map_nil, List.sum_nil, add_zero]
    exact hdigits
  | cons r' results =>
    obtain ⟨e, he⟩ := exists_restates_sum (fun r hr => h.faces r (List.mem_cons_of_mem _ hr)) hrest
      (e := .term (.factor (.number digits))) hdigits
    obtain ⟨text', rest', rfl⟩ : ∃ text' rest', rest = text' :: rest' := by
      rw [List.mapM_cons] at hrest
      obtain ⟨text', -, hrest⟩ := bind_eq_ok.1 hrest
      obtain ⟨rest', -, hrest⟩ := bind_eq_ok.1 hrest
      exact ⟨text', rest', (Except.ok.inj hrest).symm⟩
    exact ⟨.group e, he.group⟩

end Dice

namespace Formula

/-! ## Derivations -/

/-- A token of an expression that explains itself: no choice, and digits only as they are written. -/
structure Token.Plain (token : Token) : Prop where
  digits : ∀ digits, token = .number digits → ∃ more, IsLexeme digits.toList (.number digits) more
  max : token ≠ .name Function.max.name
  min : token ≠ .name Function.min.name

section

variable {context : Context}

/-- What a place holds can be read again. -/
def Context.Restated (context : Context) : Prop :=
  ∀ index a, context.place index = .ok a → ∃ f : Factor, Restates a f.tokens (f.amount .bare)

mutual

/-- The text that explains a derivation's amount derives from the grammar again, and comes to the same
value. -/
theorem Expr.exists_restates (hplace : context.Restated) (hdry : context.dry = false) :
    ∀ (e : Expr) (a : Amount), (∀ token ∈ e.tokens, token.Plain) → e.amount context = .ok a →
      ∃ e' : Expr, Restates a e'.tokens (e'.amount .bare)
  | .term t, a, h, ha => by
    obtain ⟨t', ht'⟩ := Term.exists_restates hplace hdry t a h ha
    exact ⟨.term t', ht'⟩
  | .chain left op additive right, a, h, ha => by
    obtain ⟨hl, hr⟩ := List.forall_mem_append.1 h
    obtain ⟨b, hb, ha⟩ := bind_eq_ok.1 ha
    obtain ⟨c, hc, ha⟩ := bind_eq_ok.1 ha
    obtain ⟨v, hv, ha⟩ := bind_eq_ok.1 ha
    cases ha
    obtain ⟨left', hleft⟩ := Expr.exists_restates hplace hdry left b hl hb
    obtain ⟨right', hright⟩ := Term.exists_restates hplace hdry right c
      (List.forall_mem_cons.1 hr).2 hc
    rw [hdry] at hv
    exact ⟨.chain left' op additive right', hleft.chain hright hv⟩

theorem Term.exists_restates (hplace : context.Restated) (hdry : context.dry = false) :
    ∀ (t : Term) (a : Amount), (∀ token ∈ t.tokens, token.Plain) → t.amount context = .ok a →
      ∃ t' : Term, Restates a t'.tokens (t'.amount .bare)
  | .factor f, a, h, ha => by
    obtain ⟨f', hf'⟩ := Factor.exists_restates hplace hdry f a h ha
    exact ⟨.factor f', hf'⟩
  | .chain left op multiplicative right, a, h, ha => by
    obtain ⟨hl, hr⟩ := List.forall_mem_append.1 h
    obtain ⟨b, hb, ha⟩ := bind_eq_ok.1 ha
    obtain ⟨c, hc, ha⟩ := bind_eq_ok.1 ha
    obtain ⟨v, hv, ha⟩ := bind_eq_ok.1 ha
    cases ha
    obtain ⟨left', hleft⟩ := Term.exists_restates hplace hdry left b hl hb
    obtain ⟨right', hright⟩ := Factor.exists_restates hplace hdry right c
      (List.forall_mem_cons.1 hr).2 hc
    rw [hdry] at hv
    exact ⟨.chain left' op multiplicative right', hleft.chain hright hv⟩

theorem Factor.exists_restates (hplace : context.Restated) (hdry : context.dry = false) :
    ∀ (f : Factor) (a : Amount), (∀ token ∈ f.tokens, token.Plain) → f.amount context = .ok a →
      ∃ f' : Factor, Restates a f'.tokens (f'.amount .bare)
  | .number digits, a, h, ha => by
    cases ha
    obtain ⟨more, hlex⟩ := (h _ (List.mem_singleton_self _)).digits digits rfl
    exact ⟨.number digits, restates_number hlex⟩
  | .place index, a, _, ha => hplace index a ha
  | .group inner, a, h, ha => by
    obtain ⟨b, hb, ha⟩ := bind_eq_ok.1 ha
    cases ha
    have hinner : ∀ token ∈ inner.tokens, token.Plain := fun token ht =>
      h token (List.mem_cons_of_mem _ (List.mem_append_left _ ht))
    obtain ⟨inner', hinner⟩ := Expr.exists_restates hplace hdry inner b hinner hb
    exact ⟨.group inner', hinner.group⟩
  | .call f arguments, a, h, ha => by
    obtain ⟨as, has, ha⟩ := bind_eq_ok.1 ha
    have hname := h (.name f.name) (List.mem_cons_self ..)
    obtain rfl : f = .avg := by
      cases f with
      | max => exact absurd rfl hname.max
      | min => exact absurd rfl hname.min
      | avg => rfl
    have hargs : ∀ token ∈ argumentTokens arguments, token.Plain := fun token ht =>
      h token (List.mem_cons_of_mem _ (List.mem_cons_of_mem _ (List.mem_append_left _ ht)))
    obtain ⟨arguments', harguments⟩ := arguments_exist_restates hplace hdry arguments as hargs has
    exact ⟨.call .avg arguments', restates_mean harguments ha⟩

theorem arguments_exist_restates (hplace : context.Restated) (hdry : context.dry = false) :
    ∀ (arguments : List Expr) (as : List Amount), (∀ token ∈ argumentTokens arguments, token.Plain) →
      argumentAmounts context arguments = .ok as → ∃ arguments' : List Expr,
        List.Forall₂ (fun a e => Restates a (Expr.tokens e) (e.amount .bare)) as arguments'
  | [], as, _, has => by
    cases has
    exact ⟨[], .nil⟩
  | e :: rest, as, h, has => by
    obtain ⟨a, ha, has⟩ := bind_eq_ok.1 has
    obtain ⟨bs, hbs, has⟩ := bind_eq_ok.1 has
    cases has
    have hparts : (∀ token ∈ e.tokens, token.Plain) ∧ ∀ token ∈ argumentTokens rest, token.Plain := by
      cases rest with
      | nil => exact ⟨h, List.forall_mem_nil _⟩
      | cons e' rest =>
        obtain ⟨he, hrest⟩ := List.forall_mem_append.1 h
        exact ⟨he, (List.forall_mem_cons.1 hrest).2⟩
    obtain ⟨e', he'⟩ := Expr.exists_restates hplace hdry e a hparts.1 ha
    obtain ⟨rest', hrest'⟩ := arguments_exist_restates hplace hdry rest bs hparts.2 hbs
    exact ⟨e' :: rest', .cons he' hrest'⟩

end

end

/-! ## Whole expressions -/

theorem endsOperand_of_invitesSplice {token : Token} (h : token.invitesSplice = true) :
    token.endsOperand = false := by
  cases token <;> first | rfl | cases h

/-- A star is no splice where a machine reads it as an operator. -/
theorem tagSplicesAfter_of_run {context : Context} {m m' : Machine} {tokens : List Token}
    (h : m.run context tokens = .ok m') : tagSplicesAfter m.previous tokens = tokens := by
  induction tokens generalizing m with
  | nil => rfl
  | cons token tokens ih =>
    obtain ⟨m₁, hstep, h⟩ := bind_eq_ok.1 h
    obtain ⟨-, hfollows, m₂, -, rfl⟩ := exists_read_of_step hstep
    have htag : ¬(token = .operator .mul ∧ m.previous.all Token.invitesSplice = true) := by
      rintro ⟨rfl, hinvites⟩
      rcases hfollows rfl with hended | ⟨hclosing, -⟩
      · cases hlast : m.previous with
        | none =>
          rw [hlast] at hended
          cases hended
        | some last =>
          rw [hlast, Option.any_some] at hended
          rw [hlast, Option.all_some] at hinvites
          rw [endsOperand_of_invitesSplice hinvites] at hended
          cases hended
      · cases hclosing
    rw [tagSplicesAfter, if_neg (by simpa using htag)]
    exact congrArg (token :: ·) (ih h)

theorem isSpace_of_readsAs {cs : List Char} {tokens : List Token} (h : ReadsAs cs tokens) :
    ∀ c ∈ cs, Text.isBlank c = true → Text.isSpace c = true := by
  induction h with
  | nil => exact List.forall_mem_nil _
  | space hc _ ih => exact List.forall_mem_cons.2 ⟨fun _ => hc, ih⟩
  | lexeme h _ ih =>
    obtain ⟨taken, more, hlex, -, rfl⟩ := lexeme?_eq_some.1 h
    refine List.forall_mem_append.2 ⟨fun c hc hblank => ?_, ih⟩
    rw [hlex.isBlank_eq c hc] at hblank
    cases hblank

theorem exists_isLexeme_of_readsAs {cs : List Char} {tokens : List Token} (h : ReadsAs cs tokens) :
    ∀ token ∈ tokens, ∃ taken more, IsLexeme taken token more := by
  induction h with
  | nil => exact List.forall_mem_nil _
  | space _ _ ih => exact ih
  | lexeme hlex _ ih =>
    obtain ⟨taken, more, hlex, -, -⟩ := lexeme?_eq_some.1 hlex
    exact List.forall_mem_cons.2 ⟨⟨taken, more, hlex⟩, ih⟩

/-- A number is written by its digits. -/
theorem IsLexeme.eq_digits {taken : List Char} {token : Token} {more : Char → Bool}
    (h : IsLexeme taken token more) {digits : String} (hdigits : token = .number digits) :
    taken = digits.toList := by
  cases h with
  | whole _ _ =>
    cases hdigits
    exact String.toList_ofList.symm
  | decimal _ _ _ =>
    cases hdigits
    exact String.toList_ofList.symm
  | name _ _ => cases hdigits
  | place _ _ _ => cases hdigits
  | symbol h =>
    subst hdigits
    unfold symbol? at h
    split at h <;> cases h

/-- The text that restates an amount evaluates to the amount's value and to itself. -/
theorem Restates.evaluate {a : Amount} {e : Expr} (h : Restates a e.tokens (e.amount .bare)) {v : Num}
    (hv : a.value.roundTenths = .ok v) : Formula.evaluate .bare (zeroStruck a.breakdown) =
      .ok { value := v, breakdown := zeroStruck a.breakdown } := by
  obtain ⟨text, hzeroes, hreads, hagain⟩ := h
  have htokens := (tokenize_eq_ok (isSpace_of_readsAs hreads)).2 hreads
  rw [← evaluateTokens_tokens] at hagain
  obtain ⟨m, hrun, -⟩ := bind_eq_ok.1 hagain
  have htag : tagSplices e.tokens = e.tokens := tagSplicesAfter_of_run hrun
  rw [zeroStruck, hzeroes.eq, Formula.evaluate, htokens]
  show (evaluateTokens .bare (tagSplices e.tokens) >>= _) = _
  rw [htag, hagain, ok_bind, hv]
  rfl

/-- An expression in which nothing is spliced and nothing chosen. -/
def IsPlain (expression : String) : Prop :=
  ∀ tokens, tokenize expression = .ok tokens → .splice ∉ tagSplices tokens ∧
    .name Function.max.name ∉ tokens ∧ .name Function.min.name ∉ tokens

/-- The breakdown of a plain expression audits its value: with zero for every die that is struck through,
it is an expression without dice groups that has the same value and explains itself. -/
theorem evaluate_zeroStruck {amount? : Nat → Option Amount}
    (hgroups : ∀ index a, amount? index = some a → ∃ g results, Dice.Rolled g results ∧
      Dice.groupAmount g results = .ok a)
    {expression : String} (hplain : IsPlain expression) {amount : Amount}
    (h : evaluate { amount?, dry := false } expression = .ok amount) :
    evaluate .bare (zeroStruck amount.breakdown) =
      .ok { value := amount.value, breakdown := zeroStruck amount.breakdown } := by
  obtain ⟨tokens, htokens, h⟩ := bind_eq_ok.1 h
  rw [mapError_eq_ok] at htokens
  obtain ⟨a, ha, h⟩ := bind_eq_ok.1 h
  obtain ⟨v, hv, h⟩ := bind_eq_ok.1 h
  cases h
  obtain ⟨hsplice, hmax, hmin⟩ := hplain tokens htokens
  have hread : ∀ token ∈ tagSplices tokens, token.Plain := by
    intro token htoken
    have hmem : token ∈ tokens := mem_of_mem_tagSplices (fun heq => hsplice (heq ▸ htoken)) htoken
    refine ⟨?_, fun heq => hmax (heq ▸ hmem), fun heq => hmin (heq ▸ hmem)⟩
    rintro digits rfl
    obtain ⟨taken, more, hlex⟩ := exists_isLexeme_of_readsAs (readsAs_of_scan htokens) _ hmem
    exact ⟨more, hlex.eq_digits rfl ▸ hlex⟩
  have hplace : Context.Restated { amount?, dry := false } := by
    intro index b hb
    rw [Context.place] at hb
    split at hb
    · cases hb
    · next n _ =>
      split at hb
      · next b' hb' =>
        cases hb
        obtain ⟨g, results, hrolled, hamount⟩ := hgroups _ _ hb'
        exact Dice.exists_restates_groupAmount hrolled hamount
      · cases hb
  rcases exists_tokens_of_evaluateTokens hsplice ha with hnil | ⟨e, he⟩
  · rw [hnil] at ha
    cases ha
    have hzero : Restates .zero [.number "0"] (.ok (numberAmount "0")) :=
      Dice.restates_toString (Nat.zero_le 100)
    exact Restates.evaluate (e := .term (.factor (.number "0"))) hzero hv
  · rw [← he] at hread ha
    rw [evaluateTokens_tokens] at ha
    obtain ⟨e', he'⟩ := Expr.exists_restates hplace rfl e a hread ha
    exact he'.evaluate hv

/-- Two dice, of which the higher one is kept. -/
def higherOfTwo : Group × List DieResult :=
  ({ kind := .text "d6", count := .int 2, keep := .text "kh", keepCount := .int 1 },
    [{ value := .int 5, kept := .bool true }, { value := .int 3, kept := .bool false }])

/-- Their amount, as the only one. -/
def higherOfTwo? (index : Nat) : Option Amount :=
  if index = 0 then (Dice.groupAmount higherOfTwo.1 higherOfTwo.2).toOption else none

theorem evaluate_zeroStruck_higherOfTwo : IsPlain "2 * __G0__" ∧ ∃ amount,
    evaluate { amount? := higherOfTwo?, dry := false } "2 * __G0__" = .ok amount ∧
      amount.breakdown = "2 * (5 + <del>3</del>)" ∧
      evaluate .bare "2 * (5 + 0)" = .ok { value := .int 10, breakdown := "2 * (5 + 0)" } := by
  have hplain : IsPlain "2 * __G0__" := by
    have htokens : tokenize "2 * __G0__" = .ok [.number "2", .operator .mul, .place "0"] :=
      toOption_eq_some.1 (by decide +kernel)
    intro tokens h
    cases htokens.symm.trans h
    decide
  have hrolled : Dice.Rolled higherOfTwo.1 higherOfTwo.2 := by
    refine ⟨nofun, .inr (.inl rfl), List.forall_mem_cons.2 ⟨⟨5, rfl, by decide⟩, ?_⟩⟩
    exact List.forall_mem_singleton.2 ⟨3, rfl, by decide⟩
  have hgroups : ∀ index a, higherOfTwo? index = some a → ∃ g results, Dice.Rolled g results ∧
      Dice.groupAmount g results = .ok a := by
    intro index a ha
    rw [higherOfTwo?] at ha
    split at ha
    · exact ⟨_, _, hrolled, toOption_eq_some.1 ha⟩
    · cases ha
  have hvalue : (evaluate { amount? := higherOfTwo?, dry := false } "2 * __G0__").toOption.map
      (fun a => (a.value, a.breakdown, zeroStruck a.breakdown)) =
        some (.int 10, "2 * (5 + <del>3</del>)", "2 * (5 + 0)") := by decide +kernel
  obtain ⟨amount, hamount, heq⟩ := Option.map_eq_some_iff.1 hvalue
  obtain ⟨hten, heq⟩ := Prod.mk.inj heq
  obtain ⟨hbreakdown, hzero⟩ := Prod.mk.inj heq
  rw [toOption_eq_some] at hamount
  have haudit := evaluate_zeroStruck hgroups hplain hamount
  rw [hzero, hten] at haudit
  exact ⟨hplain, amount, hamount, hbreakdown, haudit⟩

end Formula

end RollTray
