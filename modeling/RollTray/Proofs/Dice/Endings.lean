import RollTray.Proofs.Dice.Faces
import RollTray.Proofs.Formula.DryRun

/-!
# How rolls end

What becomes of a roll of a compiled formula once all its dice show a face. Its groups always have
amounts (`exists_settled`), so all depends on the evaluation of the template, which has passed a dry
run. The roll has a result unless a number is too large for a float (`resolves_or_overflows`), and it
ends with the breakdown `Error` only if a divisor is zero or the template scatters an operand
(`divided_of_error`).
-/

namespace RollTray.Dice

open Formula (Amount Context Kept Compiled compile evaluate tokenize tagSplices Scatters Follows)

/-- An open record of a compiled formula. -/
structure IsOpenRoll (compiled : Compiled) (r : Record) : Prop where
  groups : r.groups = compiled.terms.map Group.ofTerm
  template : r.template = .text compiled.template
  pending : r.resolved = false

/-! ## Explanations of amounts -/

theorem isExplanation_append {s t : String} (hs : IsExplanation s) (ht : IsExplanation t) :
    IsExplanation (s ++ t) := by
  rw [IsExplanation, String.toList_append, List.head?_append]
  cases h : s.toList.head? with
  | none => exact ht
  | some c =>
    rw [IsExplanation, h] at hs
    exact hs

/-- Evaluation keeps explanations. -/
theorem kept_isExplained {amounts : List Amount} (h : ∀ a ∈ amounts, IsExplained a) :
    Kept (contextOf amounts) IsExplained where
  zero := isExplained_of_single (by simp [IsExplanation, Amount.zero]) rfl
  place index a ha := by
    unfold Context.place at ha
    split at ha
    · cases ha
    · split at ha
      · rename_i hamount
        cases ha
        exact h _ (List.mem_of_getElem? hamount)
      · cases ha
  operands a ha b hb := by
    rw [Amount.operands] at hb
    split at hb
    · rename_i items hitems
      obtain ⟨hexplanation, hsingle⟩ := ha.2 items hitems b hb
      exact isExplained_of_single hexplanation hsingle
    · rw [List.mem_singleton.1 hb]
      exact ha
  enclose a ha := by
    refine ⟨?_, ha.2⟩
    simp [IsExplanation, String.toList_append]
  apply op a b r ha hb hr := by
    obtain ⟨value, -, hr⟩ := bind_eq_ok.1 hr
    cases hr
    have hsymbol : IsExplanation op.symbol := by cases op <;> simp [IsExplanation, Formula.Operator.symbol]
    have hblank : IsExplanation " " := by simp [IsExplanation]
    have hleft := isExplanation_append (isExplanation_append ha.1 hblank) hsymbol
    exact isExplained_of_single (isExplanation_append (isExplanation_append hleft hblank) hb.1) rfl
  call f arguments r _ hr := by
    obtain ⟨value, texts, rfl, -⟩ := Formula.exists_of_call hr
    exact isExplained_of_single (isExplanation_call _ _) rfl

/-- What a template comes to is never explained by the word for an error. -/
theorem breakdown_ne_error {amounts : List Amount} (h : ∀ a ∈ amounts, IsExplained a)
    {template : String} {amount : Amount}
    (heval : evaluate (contextOf amounts) template = .ok amount) : amount.breakdown ≠ "Error" := by
  obtain ⟨tokens, htokens, heval⟩ := bind_eq_ok.1 heval
  obtain ⟨inner, hinner, heval⟩ := bind_eq_ok.1 heval
  obtain ⟨value, -, heval⟩ := bind_eq_ok.1 heval
  cases heval
  have hexplained := (kept_isExplained h).evaluateTokens (fun digits hd => ?_) hinner
  · rintro herror
    have hhead := hexplained.1
    rw [IsExplanation, herror] at hhead
    exact hhead (by decide)
  · obtain ⟨c, hc, hdigit⟩ := Formula.isDigit_of_number (mapError_eq_ok.1 htokens)
      (Formula.mem_of_mem_tagSplices (by rintro ⟨⟩) hd)
    exact isExplained_of_single (isExplanation_of_isDigit hc hdigit) rfl

/-! ## Evaluating the template -/

/-- Every place of a template has its group's amount. -/
theorem covers_contextOf {formula : String} {compiled : Compiled}
    (hcompile : compile formula = .ok compiled) {amounts : List Amount}
    (hlength : amounts.length = compiled.terms.length) {tokens : List Formula.Token}
    (htokens : tokenize compiled.template = .ok tokens) :
    (contextOf amounts).Covers (tagSplices tokens) := by
  intro index hindex n hn
  obtain ⟨k, hk, rfl⟩ := Formula.exists_index_of_place hcompile htokens hindex
  rw [eq_of_readInt_toDigits hn]
  exact ⟨amounts[k], List.getElem?_eq_getElem (hlength ▸ hk)⟩

/-- A compiled template fails only as its dry run lets it. -/
theorem follows_template {formula : String} {compiled : Compiled}
    (hcompile : compile formula = .ok compiled) {amounts : List Amount}
    (hlength : amounts.length = compiled.terms.length) :
    Follows (fun _ => True) (¬Scatters (contextOf amounts) compiled.template)
      (evaluate (contextOf amounts) compiled.template) := by
  obtain ⟨parts, -, -, -, -, amount, hdry⟩ := Formula.exists_parts_of_compile hcompile
  exact Formula.follows_evaluate (fun tokens => covers_contextOf hcompile hlength) hdry

/-! ## Resolving -/

/-- A record whose groups have amounts is filled with what its template comes to. -/
theorem resolve_of_settled {compiled : Compiled} {r : Record} (hr : IsOpenRoll compiled r)
    {dice : List Die} {results : List (List DieResult)} {amounts : List Amount}
    (h : settled r dice = .ok (results, amounts)) :
    resolve r dice = match evaluate (contextOf amounts) compiled.template with
      | .ok amount => (.ok true, { r with
          results, result := .ofNum amount.value, breakdown := .text amount.breakdown })
      | .error (.evaluation _) =>
        (.ok true, { r with results, result := .int 0, breakdown := .text "Error" })
      | .error fault => (.error fault, { r with results }) := by
  unfold settled at h
  rw [resolve, if_neg (by rw [hr.pending]; exact Bool.false_ne_true), h]
  dsimp only
  rw [Record.fill, hr.template]
  dsimp only
  rcases evaluate (contextOf amounts) compiled.template with fault | amount
  · cases fault <;> rfl
  · rfl

/-- If a roll whose dice show their faces ends with the breakdown `Error`, then its template divides
by zero or, the one other way to fail, it scatters an operand and so has a wrong number of them. -/
theorem divided_of_error {formula : String} {compiled : Compiled}
    (hcompile : compile formula = .ok compiled) {r : Record} (hr : IsOpenRoll compiled r)
    {dice : List Die} (hdice : Shown compiled.terms dice) {record : Record}
    (h : resolve r dice = (.ok true, record)) (herror : record.breakdown = .text "Error") :
    ∃ results amounts reason, settled r dice = .ok (results, amounts) ∧
      evaluate (contextOf amounts) compiled.template = .error (.evaluation reason) ∧
      (reason = .divisionByZero ∨
        reason.miscounts = true ∧ Scatters (contextOf amounts) compiled.template) := by
  obtain ⟨results, amounts, hsettled, hlength, hexplained⟩ := exists_settled hr.groups hdice
  have hfollows := follows_template hcompile hlength
  rw [resolve_of_settled hr hsettled] at h
  generalize heval : evaluate (contextOf amounts) compiled.template = outcome at h hfollows
  cases hfollows with
  | ok _ =>
    cases h
    exact absurd (Value.text.inj herror) (breakdown_ne_error hexplained heval)
  | overflow => cases h
  | division => exact ⟨results, amounts, _, hsettled, heval, .inl rfl⟩
  | miscount hscatters hmiscounts =>
    exact ⟨results, amounts, _, hsettled, heval, .inr ⟨hmiscounts, Classical.not_not.1 hscatters⟩⟩

/-- A settled die of the first group of a roll. -/
def firstGroupDie (kind : DieKind) (logical face : Nat) : Die where
  handle := logical
  kind := .text kind.name
  roll := .int 0
  group := .int 0
  logical := .int logical
  tens := .bool false
  settled := true
  value := .int face

theorem eq_text_of_same {v : Value} {s : String} (h : v.same (.text s) = true) : v = .text s := by
  cases v <;> simp_all [Value.same, Value.num?]

/-- The mean of two dice, spliced where one operand is expected, leaves one over. -/
theorem divided_of_splicedMean : ∃ compiled record, compile "*2d6ka" = .ok compiled ∧
    Shown compiled.terms [firstGroupDie .d6 0 2, firstGroupDie .d6 1 4] ∧
    resolve (.ofCompiled 0 "*2d6ka" compiled) [firstGroupDie .d6 0 2, firstGroupDie .d6 1 4] =
      (.ok true, record) ∧ record.breakdown = .text "Error" ∧
    ∃ results amounts reason, settled (.ofCompiled 0 "*2d6ka" compiled)
        [firstGroupDie .d6 0 2, firstGroupDie .d6 1 4] = .ok (results, amounts) ∧
      evaluate (contextOf amounts) compiled.template = .error (.evaluation reason) ∧
      (reason = .divisionByZero ∨
        reason.miscounts = true ∧ Scatters (contextOf amounts) compiled.template) := by
  let compiled : Compiled := ⟨[⟨.d6, 2, some .average⟩], "*__G0__", "*2d6ka"⟩
  let dice := [firstGroupDie .d6 0 2, firstGroupDie .d6 1 4]
  have hcompile : compile "*2d6ka" = .ok compiled :=
    toOption_eq_some.1 (by decide +kernel)
  have hdice : Shown compiled.terms dice := by
    refine ⟨.refl _, fun d hd => ⟨0, ⟨.d6, 2, some .average⟩, ?_⟩⟩
    rcases List.mem_cons.1 hd with rfl | hd
    · exact ⟨rfl, rfl, rfl, 2, by decide, rfl⟩
    · obtain rfl := List.mem_singleton.1 hd
      exact ⟨rfl, rfl, rfl, 4, by decide, rfl⟩
  have hresolve : (resolve (.ofCompiled 0 "*2d6ka" compiled) dice).1.toOption = some true := by
    decide +kernel
  have herror : (resolve (.ofCompiled 0 "*2d6ka" compiled) dice).2.breakdown.same
      (.text "Error") = true := by decide +kernel
  generalize heq : resolve (.ofCompiled 0 "*2d6ka" compiled) dice = outcome at hresolve herror
  obtain ⟨_, record⟩ := outcome
  obtain rfl := toOption_eq_some.1 hresolve
  exact ⟨compiled, record, hcompile, hdice, heq, eq_text_of_same herror,
    divided_of_error hcompile ⟨rfl, rfl, rfl⟩ hdice heq (eq_text_of_same herror)⟩

/-- A roll whose dice show their faces ends with a result and a breakdown, unless its template
overflows; then resolving it fails with this and nothing else. -/
theorem resolves_or_overflows {formula : String} {compiled : Compiled}
    (hcompile : compile formula = .ok compiled) {r : Record} (hr : IsOpenRoll compiled r)
    {dice : List Die} (hdice : Shown compiled.terms dice) :
    ∃ results amounts, settled r dice = .ok (results, amounts) ∧
      (evaluate (contextOf amounts) compiled.template = .error .overflow ∧
          resolve r dice = (.error .overflow, { r with results }) ∨
        evaluate (contextOf amounts) compiled.template ≠ .error .overflow ∧
          ∃ record, resolve r dice = (.ok true, record) ∧ record.results = results ∧
            record.result.isNull = false ∧ record.breakdown.isNull = false) := by
  obtain ⟨results, amounts, hsettled, hlength, -⟩ := exists_settled hr.groups hdice
  refine ⟨results, amounts, hsettled, ?_⟩
  have hfollows := follows_template hcompile hlength
  rw [resolve_of_settled hr hsettled]
  generalize evaluate (contextOf amounts) compiled.template = outcome at hfollows ⊢
  cases hfollows with
  | @ok amount _ =>
    refine .inr ⟨nofun, _, rfl, rfl, ?_, rfl⟩
    cases amount.value <;> rfl
  | overflow => exact .inl ⟨rfl, rfl⟩
  | division => exact .inr ⟨nofun, _, rfl, rfl, rfl, rfl⟩
  | miscount _ _ => exact .inr ⟨nofun, _, rfl, rfl, rfl, rfl⟩

/-- A twenty-sided die and one has a result. -/
theorem resolves_of_twenty : ∃ compiled, compile "1d20+1" = .ok compiled ∧
    Shown compiled.terms [firstGroupDie .d20 0 17] ∧
    ∃ results amounts, settled (.ofCompiled 0 "1d20+1" compiled) [firstGroupDie .d20 0 17] =
        .ok (results, amounts) ∧
      (evaluate (contextOf amounts) compiled.template = .error .overflow ∧
          resolve (.ofCompiled 0 "1d20+1" compiled) [firstGroupDie .d20 0 17] =
            (.error .overflow, { Record.ofCompiled 0 "1d20+1" compiled with results }) ∨
        evaluate (contextOf amounts) compiled.template ≠ .error .overflow ∧
          ∃ record, resolve (.ofCompiled 0 "1d20+1" compiled) [firstGroupDie .d20 0 17] =
              (.ok true, record) ∧ record.results = results ∧
            record.result.isNull = false ∧ record.breakdown.isNull = false) := by
  let compiled : Compiled := ⟨[⟨.d20, 1, none⟩], "__G0__+1", "1d20+1"⟩
  have hcompile : compile "1d20+1" = .ok compiled := toOption_eq_some.1 (by decide +kernel)
  have hdice : Shown compiled.terms [firstGroupDie .d20 0 17] := by
    refine ⟨.refl _, fun d hd => ⟨0, ⟨.d20, 1, none⟩, ?_⟩⟩
    obtain rfl := List.mem_singleton.1 hd
    exact ⟨rfl, rfl, rfl, 17, by decide, rfl⟩
  exact ⟨compiled, hcompile, hdice, resolves_or_overflows hcompile ⟨rfl, rfl, rfl⟩ hdice⟩

end RollTray.Dice
