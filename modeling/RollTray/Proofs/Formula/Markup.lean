import RollTray.Proofs.Formula.Amounts
import RollTray.Proofs.Formula.Auditing
import RollTray.Proofs.Text.Nesting
import RollTray.Render

/-!
# Breakdowns as Markdown

Where the texts of all dice groups are proper, with their tags nested properly on a single line, so is the
breakdown of every expression (`proper_of_evaluate`), and its Markdown has `~~` for each tag, however deep tags
are nested (`markdown_of_proper`). The texts of the groups of a roll are proper (`Dice.proper_groupAmount`).
-/

namespace RollTray.Formula

open Text.Strike (Proper Apart Untagged apart_cons openTag closeTag marked pass)

/-- The text of an amount is proper, and so are those of all that it stands for when it is spliced. -/
inductive Amount.IsProper : Amount → Prop where
  | intro {a : Amount} (text : Proper a.breakdown.toList)
      (items : ∀ items, a.expanded = some items → ∀ item ∈ items, IsProper item) : IsProper a

namespace Amount.IsProper

theorem text {a : Amount} (h : a.IsProper) : Proper a.breakdown.toList := by
  cases h
  assumption

theorem operands {a : Amount} (h : a.IsProper) : ∀ b ∈ a.operands, b.IsProper := by
  intro b hb
  rw [Amount.operands] at hb
  split at hb
  · next items hitems =>
    cases h with
    | intro _ hall => exact hall items hitems b hb
  · rw [List.mem_singleton.1 hb]
    exact h

/-- An amount that stands for itself. -/
theorem single {value : Num} {breakdown : String} (h : Proper breakdown.toList) :
    IsProper { value, breakdown } :=
  .intro h nofun

end Amount.IsProper

/-! ## Texts -/

theorem proper_struck {s : String} (h : Proper s.toList) : Proper (struck s).toList := by
  simpa [struck, String.toList_append, openTag, closeTag] using h.struck

theorem proper_intercalate {separator : String} {c : Char} {cs : List Char} {texts : List String}
    (hseparator : separator.toList = c :: cs) (hapart : ¬Text.Strike.Continues c)
    (htag : '<' ∉ separator.toList) (hline : '\n' ∉ separator.toList)
    (h : ∀ s ∈ texts, Proper s.toList) : Proper (separator.intercalate texts).toList := by
  induction texts with
  | nil => exact .plain nofun nofun
  | cons s texts ih =>
    obtain ⟨hs, htexts⟩ := List.forall_mem_cons.1 h
    cases texts with
    | nil => rwa [String.intercalate_singleton]
    | cons s' texts =>
      rw [String.intercalate_cons_cons, String.toList_append, String.toList_append, List.append_assoc]
      exact hs.join (ih htexts) htag hline (hseparator ▸ apart_cons hapart _)

theorem proper_parenthesized {s : String} (h : Proper s.toList) : Proper ("(" ++ s ++ ")").toList := by
  have hinner : Proper (['('] ++ (s.toList ++ ([')'] ++ []))) :=
    .after (by decide) (by decide) (h.join (.plain nofun nofun) (by decide) (by decide)
      (apart_cons (by decide) _))
  simpa [String.toList_append] using hinner

theorem proper_call (f : Function) {texts : List String} (h : ∀ s ∈ texts, Proper s.toList) :
    Proper (f.call texts).toList := by
  have hword : '<' ∉ f.name.toList ∧ '\n' ∉ f.name.toList := by cases f <;> decide
  have harguments : Proper ("(" ++ ", ".intercalate texts ++ ")").toList :=
    proper_parenthesized (proper_intercalate (c := ',') rfl (by decide) (by decide) (by decide) h)
  simpa [Function.call, String.toList_append] using harguments.after hword.1 hword.2

theorem proper_sumText {texts : List String} (h : ∀ s ∈ texts, Proper s.toList) :
    Proper (Dice.sumText texts).toList := by
  unfold Dice.sumText
  split
  · exact h _ (List.mem_singleton_self _)
  · exact proper_parenthesized
      (proper_intercalate (c := ' ') rfl (by decide) (by decide) (by decide) h)

theorem proper_strikeOthers {value : Num} {arguments : List Amount}
    (h : ∀ a ∈ arguments, Proper a.breakdown.toList) :
    ∀ s ∈ strikeOthers value arguments, Proper s.toList := by
  induction arguments with
  | nil => nofun
  | cons a rest ih =>
    obtain ⟨ha, hrest⟩ := List.forall_mem_cons.1 h
    rw [strikeOthers]
    split
    · refine List.forall_mem_cons.2 ⟨ha, List.forall_mem_map.2 fun b hb => ?_⟩
      exact proper_struck (hrest b hb)
    · exact List.forall_mem_cons.2 ⟨proper_struck ha, ih hrest⟩

theorem proper_apply {f : Function} {arguments : List Amount} {r : Amount}
    (h : ∀ a ∈ arguments, Proper a.breakdown.toList) (hr : f.apply arguments = .ok r) : r.IsProper := by
  obtain ⟨value, texts, rfl, rfl | rfl⟩ := exists_of_call hr
  · exact .single (proper_call f (List.forall_mem_map.2 h))
  · exact .single (proper_call f (proper_strikeOthers h))

theorem proper_operation {op : Operator} {a b : Amount} (ha : Proper a.breakdown.toList)
    (hb : Proper b.breakdown.toList) :
    Proper (a.breakdown ++ " " ++ op.symbol ++ " " ++ b.breakdown).toList := by
  have hsymbol : '<' ∉ op.symbol.toList ∧ '\n' ∉ op.symbol.toList := by cases op <;> decide
  have hword : '<' ∉ ' ' :: (op.symbol.toList ++ [' ']) ∧ '\n' ∉ ' ' :: (op.symbol.toList ++ [' ']) := by
    simp [hsymbol]
  simpa [String.toList_append] using ha.join hb hword.1 hword.2 (apart_cons (by decide) _)

/-- Proper texts are kept by all that an evaluation does. -/
theorem kept_proper {context : Context}
    (hplaces : ∀ index a, context.amount? index = some a → a.IsProper) :
    Kept context Amount.IsProper where
  zero := .single (.plain (by decide) (by decide))
  place index a h := by
    unfold Context.place at h
    split at h
    · cases h
    · split at h
      · next hplace =>
        cases h
        exact hplaces _ _ hplace
      · split at h
        · cases h
          exact .single (.plain (by decide) (by decide))
        · cases h
  operands a h := h.operands
  enclose a h := by
    have htext := proper_parenthesized h.text
    cases h with
    | intro _ hitems => exact .intro htext hitems
  apply op a b r ha hb h := by
    obtain ⟨value, -, h⟩ := bind_eq_ok.1 h
    cases h
    exact .single (proper_operation ha.text hb.text)
  call f arguments r h hr := proper_apply (fun a ha => (h a ha).text) hr

/-- The breakdown of an expression is proper if the texts of the dice groups are. -/
theorem proper_of_evaluate {context : Context}
    (hplaces : ∀ index a, context.amount? index = some a → a.IsProper) {expression : String}
    {amount : Amount} (h : evaluate context expression = .ok amount) :
    Proper amount.breakdown.toList := by
  obtain ⟨tokens, htokens, h⟩ := bind_eq_ok.1 h
  rw [mapError_eq_ok] at htokens
  obtain ⟨a, ha, h⟩ := bind_eq_ok.1 h
  obtain ⟨value, -, h⟩ := bind_eq_ok.1 h
  cases h
  refine ((kept_proper hplaces).evaluateTokens (fun digits hdigits => ?_) ha).text
  have hmem : Token.number digits ∈ tokens := mem_of_mem_tagSplices nofun hdigits
  obtain ⟨taken, more, hlex⟩ := exists_isLexeme_of_readsAs (readsAs_of_scan htokens) _ hmem
  rw [hlex.eq_digits rfl] at hlex
  refine .single (.plain hlex.tag_notMem fun hline => ?_)
  nomatch hlex.isBlank_eq _ hline

end RollTray.Formula

namespace RollTray

open Formula
open Text.Strike (Proper Untagged marked pass)

/-! ## Texts of dice groups -/

namespace Dice

theorem forall_of_mapM {α β : Type} {f : α → Except Fault β} {P : β → Prop} {items : List α}
    (h : ∀ x ∈ items, ∀ y, f x = .ok y → P y) {results : List β} (hmap : items.mapM f = .ok results) :
    ∀ y ∈ results, P y := by
  induction items generalizing results with
  | nil =>
    cases hmap
    nofun
  | cons x items ih =>
    obtain ⟨hx, hitems⟩ := List.forall_mem_cons.1 h
    rw [List.mapM_cons] at hmap
    obtain ⟨y, hy, hmap⟩ := bind_eq_ok.1 hmap
    obtain ⟨ys, hys, hmap⟩ := bind_eq_ok.1 hmap
    cases hmap
    exact List.forall_mem_cons.2 ⟨hx y hy, ih hitems hys⟩

theorem proper_shown {n : Int} {text : String} (h : (Value.int n).shown = .ok text) :
    Proper text.toList := by
  rw [Value.shown_int, Num.writeInt] at h
  split at h
  · cases h
    have hdigits : ∀ m : Nat, ∀ c ∈ (toString m).toList, Text.isDigit c = true := by
      intro m c hc
      rw [Nat.toString_eq_ofList_toDigits, String.toList_ofList] at hc
      exact isDigit_of_mem_toDigits hc
    have hplain : ∀ m : Nat, Proper (toString m).toList := fun m =>
      .plain (notMem_of_forall (by decide) (hdigits m)) (notMem_of_forall (by decide) (hdigits m))
    unfold Text.decimalOfInt
    split
    · rw [String.toList_append]
      exact (hplain _).after (by decide) (by decide)
    · exact hplain _
  · cases h

section

variable {r : DieResult} {n : Int} (hr : r.value = .int n)

include hr

theorem proper_memberAmount {a : Amount} (h : memberAmount r = .ok a) : a.IsProper := by
  obtain ⟨value, -, h⟩ := bind_eq_ok.1 h
  obtain ⟨text, htext, h⟩ := bind_eq_ok.1 h
  cases h
  exact .single (proper_shown (hr ▸ htext))

theorem proper_resultText {text : String} (h : resultText r = .ok text) : Proper text.toList := by
  obtain ⟨shown, hshown, h⟩ := bind_eq_ok.1 h
  cases h
  have hproper := proper_shown (hr ▸ hshown)
  split
  · exact hproper
  · exact proper_struck hproper

end

/-- The texts of a group whose dice read integers are proper. -/
theorem proper_groupAmount {g : Group} {results : List DieResult}
    (hfaces : ∀ r ∈ results, ∃ n : Int, r.value = .int n) {a : Amount}
    (h : groupAmount g results = .ok a) : a.IsProper := by
  have hshown : ∀ r ∈ results, ∀ text, r.value.shown = .ok text → Proper text.toList := by
    intro r hr text htext
    obtain ⟨n, hn⟩ := hfaces r hr
    exact proper_shown (hn ▸ htext)
  have hresult : ∀ r ∈ results, ∀ text, resultText r = .ok text → Proper text.toList := fun r hr _ =>
    have ⟨_, hn⟩ := hfaces r hr
    proper_resultText hn
  have hspread : ∀ {kept : List DieResult} {value : Num} {breakdown : String},
      (∀ r ∈ kept, r ∈ results) → Proper breakdown.toList →
      (do let expanded ← some <$> kept.mapM memberAmount
          return { value, breakdown, expanded } : Except Fault Amount) = .ok a → a.IsProper := by
    intro kept value breakdown hkept hproper hmap
    rw [map_eq_pure_bind, bind_assoc] at hmap
    obtain ⟨items, hitems, hmap⟩ := bind_eq_ok.1 hmap
    cases hmap
    refine .intro hproper fun _ heq => ?_
    cases heq
    refine forall_of_mapM (fun r hr b => ?_) hitems
    obtain ⟨n, hn⟩ := hfaces r (hkept r hr)
    exact proper_memberAmount hn
  unfold groupAmount at h
  split at h
  · obtain ⟨texts, htexts, h⟩ := bind_eq_ok.1 h
    have hproper := proper_call .avg (forall_of_mapM hshown htexts)
    obtain ⟨sum, -, h⟩ := bind_eq_ok.1 h
    dsimp only at h
    split at h
    · exact hspread (fun _ => id) hproper h
    · obtain ⟨mean, -, h⟩ := bind_eq_ok.1 h
      exact hspread (fun _ => id) hproper h
  · obtain ⟨texts, htexts, h⟩ := bind_eq_ok.1 h
    have hproper := proper_sumText (forall_of_mapM hresult htexts)
    obtain ⟨total, -, h⟩ := bind_eq_ok.1 h
    dsimp only at h
    split at h
    · exact hspread (fun _ hr => (List.mem_filter.1 hr).1) hproper h
    · cases h
      exact .single hproper

end Dice

/-! ## Markdown -/

/-- Where the texts of dice groups are proper, so is the breakdown of each expression that has a value. The
Markdown of a proper text is reached by passes that come to an end. It is the text with `~~` for each tag and
everything else as it was, so no tag is left in it, however deep tags were nested. -/
theorem markdown_of_proper :
    (∀ context : Context, (∀ index a, context.amount? index = some a → a.IsProper) →
      ∀ expression amount, evaluate context expression = .ok amount → Proper amount.breakdown.toList) ∧
    ∀ s : String, Proper s.toList →
      Style.markdown.breakdown (.text s) = .ok (String.ofList (marked s.toList)) ∧
        (∃ passes, pass^[passes] s.toList = marked s.toList ∧ pass (marked s.toList) = marked s.toList) ∧
          Untagged (marked s.toList) := by
  refine ⟨fun context hplaces expression amount h => proper_of_evaluate hplaces h, fun s h => ?_⟩
  have hall := Text.Strike.replaceAll_eq_marked h
  refine ⟨?_, hall ▸ Text.Strike.exists_passes s.toList, Text.Strike.untagged_marked s.toList⟩
  rw [Style.breakdown, Text.Strike.toMarkdown, hall]

/-- A struck-through dice group of which a die is struck through. -/
theorem markdown_of_higherOfTwo : ∃ amount,
    evaluate { amount? := higherOfTwo?, dry := false } "max(7, max(2, __G0__))" = .ok amount ∧
      amount.breakdown = "max(7, <del>max(<del>2</del>, (5 + <del>3</del>))</del>)" ∧
      Proper amount.breakdown.toList ∧ Style.markdown.breakdown (.text amount.breakdown) =
        .ok "max(7, ~~max(~~2~~, (5 + ~~3~~))~~)" := by
  have hplaces : ∀ index a, higherOfTwo? index = some a → a.IsProper := by
    intro index a ha
    rw [higherOfTwo?] at ha
    split at ha
    · refine Dice.proper_groupAmount ?_ (toOption_eq_some.1 ha)
      exact List.forall_mem_cons.2 ⟨⟨5, rfl⟩, List.forall_mem_singleton.2 ⟨3, rfl⟩⟩
    · cases ha
  have hvalue : (evaluate { amount? := higherOfTwo?, dry := false } "max(7, max(2, __G0__))").toOption.map
      (fun a => (a.breakdown, String.ofList (marked a.breakdown.toList))) =
        some ("max(7, <del>max(<del>2</del>, (5 + <del>3</del>))</del>)",
          "max(7, ~~max(~~2~~, (5 + ~~3~~))~~)") := by decide +kernel
  obtain ⟨amount, hamount, heq⟩ := Option.map_eq_some_iff.1 hvalue
  obtain ⟨hbreakdown, hmarked⟩ := Prod.mk.inj heq
  rw [toOption_eq_some] at hamount
  have hproper := markdown_of_proper.1 { amount? := higherOfTwo?, dry := false } hplaces _ _ hamount
  refine ⟨amount, hamount, hbreakdown, hproper, ?_⟩
  rw [(markdown_of_proper.2 _ hproper).1, hmarked]

end RollTray
