import RollTray.Proofs.Formula.DryRun
import RollTray.Proofs.Formula.Places

/-!
# What compiling fails with

A formula that is not compiled is refused with a reason, unless one of its numbers is too long to be
read or its dry run reaches a number that is too large (`compiles_or_refuses_iff`). So a die with too
many digits of sides is no unknown die (`compile_manySides`).

Evaluating fails with an error of the expression, with a number that is too large or with the index of
a place that cannot be read, and with nothing else (`disturbs_of_evaluate`): a parenthesis that is
closed has been opened before, and that of a call has its function below it (`Nested`).
-/

namespace RollTray

/-- An outcome is as wanted, or fails with one of these faults. -/
inductive Ends {α : Type} (faults : Fault → Prop) (wanted : α → Prop) : Except Fault α → Prop where
  | ok {a : α} (h : wanted a) : Ends faults wanted (.ok a)
  | error {fault : Fault} (h : faults fault) : Ends faults wanted (.error fault)

namespace Ends

variable {α β : Type} {faults faults' : Fault → Prop} {wanted wanted' : α → Prop}
  {x : Except Fault α}

theorem mono (h : Ends faults wanted x) (hfaults : ∀ fault, faults fault → faults' fault)
    (hwanted : ∀ a, x = .ok a → wanted a → wanted' a) : Ends faults' wanted' x := by
  cases h with
  | ok h => exact .ok (hwanted _ rfl h)
  | error h => exact .error (hfaults _ h)

theorem bind {wanted' : β → Prop} {f : α → Except Fault β} (hx : Ends faults wanted x)
    (hf : ∀ a, wanted a → Ends faults wanted' (f a)) : Ends faults wanted' (x >>= f) := by
  cases hx with
  | ok h => exact hf _ h
  | error h => exact .error h

theorem of_error {fault : Fault} (h : Ends faults wanted (.error fault)) : faults fault := by
  cases h
  assumption

end Ends

namespace Formula

/-! ## Faults of an evaluation -/

/-- What evaluating these tokens may fail with. -/
inductive Disturbs (tokens : List Token) : Fault → Prop
  | evaluation (reason : EvaluationError) : Disturbs tokens (.evaluation reason)
  | overflow : Disturbs tokens .overflow
  /-- The index of a place has too many digits. -/
  | index {index : String} (mem : .place index ∈ tokens) (unreadable : readInt index = none) :
      Disturbs tokens .unreadable

theorem Disturbs.mono {tokens tokens' : List Token} (h : ∀ token ∈ tokens, token ∈ tokens')
    (fault : Fault) : Disturbs tokens fault → Disturbs tokens' fault
  | .evaluation reason => .evaluation reason
  | .overflow => .overflow
  | .index mem unreadable => .index (h _ mem) unreadable

section

variable {α : Type} {tokens : List Token}

theorem ends_mapError (x : Except EvaluationError α) :
    Ends (Disturbs tokens) (fun _ => True) (x.mapError .evaluation) := by
  cases x with
  | error reason => exact .error (.evaluation reason)
  | ok a => exact .ok trivial

theorem ends_of_follows {wanted : α → Prop} {balanced : Prop} {x : Except Fault α}
    (h : Follows wanted balanced x) : Ends (Disturbs tokens) wanted x := by
  cases h with
  | ok h => exact .ok h
  | overflow => exact .error .overflow
  | division => exact .error (.evaluation _)
  | miscount _ _ => exact .error (.evaluation _)

theorem ends_of_onlyOverflows {x : Except Fault α} (h : OnlyOverflows x) :
    Ends (Disturbs tokens) (fun _ => True) x :=
  ends_of_follows (show Follows _ True x from .of_onlyOverflows h fun _ _ => trivial)

theorem ends_call (f : Function) (arguments : List Amount) :
    Ends (Disturbs tokens) (fun _ => True) (f.apply arguments) := by
  cases f with
  | max => exact ends_mapError _
  | min => exact ends_mapError _
  | avg =>
    exact ends_of_onlyOverflows ((onlyOverflows_mean _).bind fun _ _ => onlyOverflows_ok _)

theorem ends_reduce (dry : Bool) (taken : Operator → Bool) (values : List Amount)
    (waiting : List Waiting) :
    Ends (Disturbs tokens) (fun _ => True) (reduce dry taken values waiting) := by
  induction waiting generalizing values with
  | nil => exact .ok trivial
  | cons w waiting ih =>
    cases w with
    | function f => exact .ok trivial
    | parenthesis splice => exact .ok trivial
    | operator op =>
      unfold reduce
      split
      · split
        · exact (ends_of_follows (follows_operator dry op _ _ True)).bind fun _ _ => ih _
        · exact .error (.evaluation _)
      · exact .ok trivial

theorem ends_place (context : Context) (index : String) :
    Ends (Disturbs [.place index]) (fun _ => True) (context.place index) := by
  unfold Context.place
  split
  · next hread => exact .error (.index (List.mem_singleton_self _) hread)
  · split
    · exact .ok trivial
    · split
      · exact .ok trivial
      · exact .error (.evaluation _)

end

/-! ## Parentheses -/

/-- The parentheses that wait are those that were opened, and the function of a call waits below its
parenthesis. -/
inductive Nested : List Waiting → List Bool → List Nat → Prop
  | empty : Nested [] [] []
  | operator {op : Operator} {waiting : List Waiting} {calls : List Bool} {bases : List Nat}
      (below : Nested waiting calls bases) : Nested (.operator op :: waiting) calls bases
  | group {splice : Bool} {base : Nat} {waiting : List Waiting} {calls : List Bool}
      {bases : List Nat} (below : Nested waiting calls bases) :
      Nested (.parenthesis splice :: waiting) (false :: calls) (base :: bases)
  | call {splice : Bool} {f : Function} {base : Nat} {waiting : List Waiting} {calls : List Bool}
      {bases : List Nat} (below : Nested waiting calls bases) :
      Nested (.parenthesis splice :: .function f :: waiting) (true :: calls) (base :: bases)

/-- A reduction takes operators only. -/
theorem Nested.reduce {waiting : List Waiting} {calls : List Bool} {bases : List Nat}
    (h : Nested waiting calls bases) {tokens : List Token} (dry : Bool) (taken : Operator → Bool)
    (values : List Amount) : Ends (Disturbs tokens)
      (fun r => r.2 = waiting.dropWhile (Waiting.isTaken taken) ∧ Nested r.2 calls bases)
      (Formula.reduce dry taken values waiting) := by
  refine (ends_reduce dry taken values waiting).mono (fun _ => id) fun r hr _ => ?_
  have hwaiting := waiting_of_reduce hr
  refine ⟨hwaiting, ?_⟩
  rw [hwaiting]
  clear hr hwaiting
  induction h with
  | empty => exact .empty
  | operator below ih =>
    rw [List.dropWhile_cons]
    split
    · exact ih
    · exact .operator below
  | group below => exact .group below
  | call below => exact .call below

section

variable {context : Context} {m : Machine}

/-- A parenthesis that is left. -/
theorem Nested.leave (h : Nested m.waiting m.calls m.bases)
    (htop : ∀ op waiting, m.waiting ≠ .operator op :: waiting) {tokens : List Token} :
    Ends (Disturbs tokens) (fun m' => Nested m'.waiting m'.calls m'.bases) m.leave := by
  generalize hw : m.waiting = waiting at h
  generalize hc : m.calls = calls at h
  generalize hb : m.bases = bases at h
  cases h with
  | empty =>
    unfold Machine.leave
    rw [hw]
    exact .error (.evaluation _)
  | operator below => exact absurd hw (htop _ _)
  | group below =>
    rw [leave_eq hw hc hb]
    unfold enclosed
    rw [if_neg Bool.false_ne_true, bind_assoc]
    exact (ends_mapError _).bind fun result _ => .ok below
  | call below =>
    rw [leave_eq hw hc hb]
    unfold enclosed
    rw [if_pos rfl, bind_assoc]
    exact (ends_call _ _).bind fun result _ => .ok below

/-- A parenthesis that is closed. -/
theorem Nested.close (h : Nested m.waiting m.calls m.bases) {tokens : List Token} :
    Ends (Disturbs tokens) (fun m' => Nested m'.waiting m'.calls m'.bases) (m.close context) := by
  refine (h.reduce context.dry (fun _ => true) m.values).bind ?_
  rintro ⟨values, waiting⟩ ⟨hwaiting, hnested⟩
  refine Nested.leave hnested fun op below htop => ?_
  -- an operator on top would have been taken
  have hhead := List.head?_dropWhile_not (Waiting.isTaken fun _ => true) m.waiting
  rw [← hwaiting, show waiting = _ from htop] at hhead
  cases hhead

/-- The machine's parentheses are nested, where a function that was just read waits for its own. -/
def Machine.InOrder (m : Machine) (next : Option Token) : Prop :=
  if m.previous.any Token.isName then
    next = some .opening ∧ ∃ f waiting, m.waiting = .function f :: waiting ∧
      Nested waiting m.calls m.bases
  else Nested m.waiting m.calls m.bases

/-- Tokens other than an opening parenthesis. -/
theorem Nested.step (h : Nested m.waiting m.calls m.bases) {token : Token}
    (hopening : token ≠ .opening) (next : Option Token) :
    Ends (Disturbs [token]) (fun m' => m'.InOrder next) (m.step context token next) := by
  refine (ends_mapError _).bind fun _ _ => ?_
  cases token with
  | splice => exact .ok h
  | number digits => exact .ok h
  | place index =>
    unfold Machine.read
    rw [bind_assoc]
    exact (ends_place context index).bind fun amount _ => .ok h
  | name letters =>
    unfold Machine.read
    dsimp only
    split
    · exact .error (.evaluation _)
    · split
      · next hnext => exact .ok ⟨hnext, _, _, rfl, h⟩
      · exact .error (.evaluation _)
  | opening => exact absurd rfl hopening
  | comma =>
    unfold Machine.read
    rw [bind_assoc]
    refine (h.reduce _ _ _).bind fun r hr => ?_
    dsimp only
    split
    · exact .ok hr.2
    · exact .error (.evaluation _)
  | operator op =>
    unfold Machine.read
    rw [bind_assoc]
    exact (h.reduce _ _ _).bind fun r hr => .ok hr.2.operator
  | closing => exact h.close.bind fun m' hm' => .ok hm'

/-- One token. -/
theorem Machine.InOrder.step {token : Token} (h : m.InOrder (some token)) (next : Option Token) :
    Ends (Disturbs [token]) (fun m' => m'.InOrder next) (m.step context token next) := by
  unfold Machine.InOrder at h
  by_cases hopening : token = .opening
  · subst hopening
    refine (ends_mapError _).bind fun _ _ => .ok ?_
    show Nested (.parenthesis m.splicing :: m.waiting) (m.previous.any Token.isName :: m.calls)
      (m.values.length :: m.bases)
    split at h
    · next hname =>
      obtain ⟨-, f, waiting, hw, hnested⟩ := h
      rw [hname, hw]
      exact .call hnested
    · next hname =>
      rw [Bool.eq_false_iff.2 hname]
      exact .group h
  · split at h
    · exact absurd (Option.some.inj h.1) hopening
    · exact h.step hopening next

/-- All tokens. -/
theorem Machine.InOrder.run {tokens : List Token} (h : m.InOrder tokens.head?) :
    Ends (Disturbs tokens) (fun m' => m'.InOrder none) (m.run context tokens) := by
  induction tokens generalizing m with
  | nil => exact .ok h
  | cons token tokens ih =>
    refine ((h.step tokens.head?).mono (Disturbs.mono ?_) fun _ _ => id).bind fun m' hm' => ?_
    · simp
    · exact (ih hm').mono (Disturbs.mono fun _ => List.mem_cons_of_mem _) fun _ _ => id

theorem ends_finish {tokens : List Token} :
    Ends (Disturbs tokens) (fun _ => True) (m.finish context) := by
  refine (ends_mapError _).bind fun _ _ => (ends_reduce _ _ _ _).bind fun r _ => ?_
  dsimp only
  split
  · exact ends_mapError _
  · exact .error (.evaluation _)

end

theorem ends_evaluateTokens (context : Context) (tokens : List Token) :
    Ends (Disturbs tokens) (fun _ => True) (evaluateTokens context tokens) :=
  (Machine.InOrder.run (m := {}) Nested.empty).bind fun _ _ => ends_finish

/-- Whatever text is evaluated, and whatever the amounts of its places. -/
theorem disturbs_of_evaluate {context : Context} {expression : String} {fault : Fault}
    (h : evaluate context expression = .error fault) : (∃ reason, fault = .evaluation reason) ∨
      ∃ tokens, tokenize expression = .ok tokens ∧ Disturbs (tagSplices tokens) fault := by
  unfold evaluate at h
  cases htokens : tokenize expression with
  | error reason =>
    rw [htokens] at h
    exact .inl ⟨reason, (Except.error.inj h).symm⟩
  | ok tokens =>
    rw [htokens] at h
    refine .inr ⟨tokens, rfl, ?_⟩
    have hends : Ends (Disturbs (tagSplices tokens)) (fun _ => True) (.error (α := Amount) fault) := by
      rw [← h]
      refine (ends_evaluateTokens context _).bind fun amount _ => ?_
      exact ends_of_onlyOverflows ((Num.onlyOverflows_roundTenths _).bind fun _ _ => onlyOverflows_ok _)
    exact hends.of_error

/-! ## Dice terms that cannot be read -/

/-- A number of a dice term has too many digits. A count is read only if some die has so many sides,
and how many dice are kept only if any are thrown. -/
inductive WrittenTerm.Overlong (written : WrittenTerm) : Prop
  | sides (h : integerDigitLimit < written.sides.length)
  | count (hkind : (DieKind.ofSides? (Text.natOfDigits written.sides)).isSome)
      (h : integerDigitLimit < written.count.length)
  | keepCount (hkind : (DieKind.ofSides? (Text.natOfDigits written.sides)).isSome)
      (hcount : written.count = [] ∨ 1 ≤ Text.natOfDigits written.count)
      (hkeep : written.keep = some .highest ∨ written.keep = some .lowest)
      (h : integerDigitLimit < written.keepCount.length)

theorem readCount_eq_error {digits : List Char} {fault : Fault} :
    readCount digits = .error fault ↔ fault = .unreadable ∧ integerDigitLimit < digits.length := by
  unfold readCount
  split
  · next h => simp [h, eq_comm]
  · next h => simp [h]

theorem readCountOrOne_eq_error {digits : List Char} {fault : Fault} :
    readCountOrOne digits = .error fault ↔
      fault = .unreadable ∧ integerDigitLimit < digits.length := by
  unfold readCountOrOne
  split
  · next h => simp [List.isEmpty_iff.1 h]
  · exact readCount_eq_error

theorem WrittenTerm.readKeep_eq_error {written : WrittenTerm} {fault : Fault} :
    written.readKeep = .error fault ↔ fault = .unreadable ∧
      (written.keep = some .highest ∨ written.keep = some .lowest) ∧
        integerDigitLimit < written.keepCount.length := by
  unfold WrittenTerm.readKeep
  rcases written.keep with _ | _ | _ | _ <;>
    simp [bind_eq_error, readCountOrOne_eq_error, pure, Except.pure]

theorem eq_of_readCount {digits : List Char} {n : Nat} (h : readCount digits = .ok n) :
    n = Text.natOfDigits digits := by
  unfold readCount at h
  split at h <;> cases h
  rfl

theorem eq_of_readCountOrOne {digits : List Char} {n : Nat} (h : readCountOrOne digits = .ok n) :
    digits = [] ∧ n = 1 ∨ n = Text.natOfDigits digits := by
  unfold readCountOrOne at h
  split at h
  · next hempty =>
    cases h
    exact .inl ⟨List.isEmpty_iff.1 hempty, rfl⟩
  · exact .inr (eq_of_readCount h)

/-- The only other fault of a dice term is that no dice are thrown. -/
theorem WrittenTerm.of_read_eq_error {written : WrittenTerm} {fault : Fault}
    (h : written.read = .error fault) :
    fault = .unreadable ∧ written.Overlong ∨ ∃ reason, fault = .formula reason := by
  unfold WrittenTerm.read at h
  rcases bind_eq_error.1 h with h | ⟨sides, hsides, h⟩
  · exact .inl ((readCount_eq_error.1 h).imp_right .sides)
  rw [eq_of_readCount hsides] at h
  dsimp only at h
  split at h
  · cases h
  next kind hkind =>
  have hkind := Option.isSome_of_eq_some hkind
  rcases bind_eq_error.1 h with h | ⟨count, hcount, h⟩
  · exact .inl ((readCountOrOne_eq_error.1 h).imp_right (.count hkind))
  split at h
  · cases h
    exact .inr ⟨_, rfl⟩
  next hpos =>
  rcases bind_eq_error.1 h with h | ⟨keep, -, h⟩
  · obtain ⟨rfl, hkeep, hlong⟩ := readKeep_eq_error.1 h
    refine .inl ⟨rfl, .keepCount hkind ?_ hkeep hlong⟩
    rcases eq_of_readCountOrOne hcount with ⟨hempty, -⟩ | rfl
    · exact .inl hempty
    · exact .inr (Nat.not_lt.1 hpos)
  · cases h

theorem WrittenTerm.Overlong.read {written : WrittenTerm} (h : written.Overlong) :
    written.read = .error .unreadable := by
  unfold WrittenTerm.read
  by_cases hsides : integerDigitLimit < written.sides.length
  · rw [readCount_eq_error.2 ⟨rfl, hsides⟩]
    rfl
  rw [readCount, if_neg hsides, ok_bind]
  cases h with
  | sides h => exact absurd h hsides
  | count hkind h =>
    obtain ⟨kind, hkind⟩ := Option.isSome_iff_exists.1 hkind
    rw [hkind, readCountOrOne_eq_error.2 ⟨rfl, h⟩]
    rfl
  | keepCount hkind hcount hkeep h =>
    obtain ⟨kind, hkind⟩ := Option.isSome_iff_exists.1 hkind
    rw [hkind]
    cases hread : readCountOrOne written.count with
    | error fault =>
      rw [(readCountOrOne_eq_error.1 hread).1]
      rfl
    | ok count =>
      have hpos : ¬count < 1 := by
        rcases eq_of_readCountOrOne hread with ⟨-, rfl⟩ | rfl
        · decide
        · rcases hcount with hempty | hpos
          · rw [hempty] at hread
            cases hread
          · exact Nat.not_lt.2 hpos
      dsimp only
      rw [ok_bind, if_neg hpos]
      rw [WrittenTerm.readKeep_eq_error.2 ⟨rfl, hkeep, h⟩]
      rfl

/-! ## Formulas that are neither compiled nor refused -/

/-- A piece that can be read, as dice or as it is written. -/
def Piece.Readable (piece : Piece) : Prop :=
  ∃ parts, piece.read = .ok parts

/-- The first piece that cannot be read is a dice term. -/
theorem readPieces_eq_error {ps : List Piece} {fault : Fault} :
    readPieces ps = .error fault ↔ ∃ front written rest, ps = front ++ .term written :: rest ∧
      (∀ piece ∈ front, piece.Readable) ∧ written.read = .error fault := by
  induction ps with
  | nil => simp [readPieces]
  | cons piece ps ih =>
    rw [readPieces, bind_eq_error]
    constructor
    · rintro (h | ⟨parts, hparts, h⟩)
      · cases piece with
        | plain c => cases h
        | term written =>
          refine ⟨[], written, ps, rfl, List.forall_mem_nil _, ?_⟩
          rcases bind_eq_error.1 h with h | ⟨dice, -, h⟩
          · exact h
          · cases dice <;> cases h
      · rcases bind_eq_error.1 h with h | ⟨later, -, h⟩
        · obtain ⟨front, written, rest, rfl, hfront, hread⟩ := ih.1 h
          exact ⟨piece :: front, written, rest, rfl,
            List.forall_mem_cons.2 ⟨⟨parts, hparts⟩, hfront⟩, hread⟩
        · cases h
    · rintro ⟨front, written, rest, heq, hfront, hread⟩
      cases front with
      | nil =>
        obtain ⟨rfl, rfl⟩ := List.cons.inj heq
        exact .inl (bind_eq_error.2 (.inl hread))
      | cons first front =>
        obtain ⟨rfl, rfl⟩ := List.cons.inj heq
        obtain ⟨⟨parts, hparts⟩, hfront⟩ := List.forall_mem_cons.1 hfront
        have hlater := ih.2 ⟨front, written, rest, rfl, hfront, hread⟩
        exact .inr ⟨parts, hparts, bind_eq_error.2 (.inl hlater)⟩

/-- A formula with dice, of whose template there is a dry run. -/
structure Reaches (formula : String) (parts : List Part) : Prop where
  read : partsOf formula = .ok parts
  dice : parts.filterMap Part.term? ≠ []
  allowed : ∀ part ∈ parts, part.isAllowed = true

/-- What compiling a formula fails with, other than the reason why it is refused. -/
inductive Escapes (formula : String) : Fault → Prop
  /-- A number of the first dice term that cannot be read has too many digits. -/
  | overlong {front rest : List Piece} {written : WrittenTerm}
      (pieces : pieces (expanded formula) = front ++ .term written :: rest)
      (readable : ∀ piece ∈ front, piece.Readable) (overlong : written.Overlong) :
      Escapes formula .unreadable
  /-- A number in the dry run is too large. -/
  | overflow {parts : List Part} (reaches : Reaches formula parts)
      (run : evaluate .dryRun (String.ofList (templateFrom 0 parts)) = .error .overflow) :
      Escapes formula .overflow
  /-- There are so many dice terms that the number of a place has too many digits. -/
  | index {parts : List Part} (reaches : Reaches formula parts)
      (many : 10 ^ integerDigitLimit < termCount parts)
      (run : evaluate .dryRun (String.ofList (templateFrom 0 parts)) = .error .unreadable) :
      Escapes formula .unreadable

section

variable {formula : String} {parts : List Part} {fault : Fault}

/-- A dry run decides. -/
theorem Reaches.compile_eq (h : Reaches formula parts) : compile formula =
    match evaluate .dryRun (String.ofList (templateFrom 0 parts)) with
    | .ok _ => .ok ⟨parts.filterMap Part.term?, String.ofList (templateFrom 0 parts), formula⟩
    | .error (.evaluation reason) => .error (.formula (.invalid formula reason))
    | .error fault => .error fault := by
  have hdice : ¬(parts.filterMap Part.term?).isEmpty = true := by simpa using h.dice
  have hallowed : ¬(!parts.all Part.isAllowed) = true := by simpa using h.allowed
  unfold compile
  rw [h.read, ok_bind]
  dsimp only
  rw [if_neg hdice, if_neg hallowed]
  rfl

/-- A formula that can be read has no dice, has characters that no formula has, or is tried. -/
theorem reaches_of_partsOf (h : partsOf formula = .ok parts) :
    compile formula = .error (.formula (.noDice formula)) ∨
      compile formula = .error (.formula (.invalidCharacters formula)) ∨ Reaches formula parts := by
  unfold compile
  rw [h, ok_bind]
  dsimp only
  split
  · exact .inl rfl
  · next hdice =>
    split
    · exact .inr (.inl rfl)
    · next hallowed => exact .inr (.inr ⟨h, by simpa using hdice, by simpa using hallowed⟩)

theorem Reaches.escapes (h : Reaches formula parts)
    (hrun : evaluate .dryRun (String.ofList (templateFrom 0 parts)) = .error fault)
    (hfault : ∀ reason, fault ≠ .evaluation reason) : Escapes formula fault := by
  rcases disturbs_of_evaluate hrun with ⟨reason, hreason⟩ | ⟨tokens, htokens, hdisturbs⟩
  · exact absurd hreason (hfault reason)
  cases hdisturbs with
  | evaluation reason => exact absurd rfl (hfault reason)
  | overflow => exact .overflow h hrun
  | index hmem hunreadable =>
    refine .index h ?_ hrun
    have hplace : _ ∈ tokens.filterMap Token.place? :=
      List.mem_filterMap.2 ⟨_, mem_of_mem_tagSplices (by nofun) hmem, rfl⟩
    rw [places_of_templateFrom h.allowed htokens] at hplace
    obtain ⟨k, hk, rfl⟩ := List.mem_map.1 hplace
    exact (le_of_readInt_toDigits hunreadable).trans_lt (List.mem_range.1 hk)

/-- Nothing but a number that is too long or too large escapes. -/
theorem escapes_iff : Escapes formula fault ↔
    compile formula = .error fault ∧ ∀ reason, fault ≠ .formula reason := by
  constructor
  · intro h
    cases h with
    | overlong hpieces hreadable hoverlong =>
      have hparts : partsOf formula = .error .unreadable :=
        readPieces_eq_error.2 ⟨_, _, _, hpieces, hreadable, hoverlong.read⟩
      exact ⟨bind_eq_error.2 (.inl hparts), nofun⟩
    | overflow hreaches hrun =>
      rw [hreaches.compile_eq, hrun]
      exact ⟨rfl, nofun⟩
    | index hreaches _ hrun =>
      rw [hreaches.compile_eq, hrun]
      exact ⟨rfl, nofun⟩
  · rintro ⟨h, hfault⟩
    cases hparts : partsOf formula with
    | error fault' =>
      obtain rfl : fault' = fault := by
        rw [compile, hparts] at h
        exact Except.error.inj h
      obtain ⟨front, written, rest, hpieces, hreadable, hread⟩ := readPieces_eq_error.1 hparts
      rcases WrittenTerm.of_read_eq_error hread with ⟨rfl, hoverlong⟩ | ⟨reason, hreason⟩
      · exact .overlong hpieces hreadable hoverlong
      · exact absurd hreason (hfault reason)
    | ok parts =>
      rcases reaches_of_partsOf hparts with hreason | hreason | hreaches
      · exact absurd (Except.error.inj (h.symm.trans hreason)) (hfault _)
      · exact absurd (Except.error.inj (h.symm.trans hreason)) (hfault _)
      rw [hreaches.compile_eq] at h
      split at h
      · cases h
      · cases h
        exact absurd rfl (hfault _)
      · next hne hrun =>
        cases h
        exact hreaches.escapes hrun hne

/-- Every formula is compiled or refused with a reason, except those that let a fault escape. -/
theorem compiles_or_refuses_iff (formula : String) :
    ((∃ compiled, compile formula = .ok compiled) ∨
        ∃ reason, compile formula = .error (.formula reason)) ↔
      ∀ fault, ¬Escapes formula fault := by
  constructor
  · rintro (⟨compiled, h⟩ | ⟨reason, h⟩) fault hescapes
    · exact nomatch h.symm.trans (escapes_iff.1 hescapes).1
    · have heq := h.symm.trans (escapes_iff.1 hescapes).1
      exact (escapes_iff.1 hescapes).2 reason (Except.error.inj heq).symm
  · intro h
    cases hcompile : compile formula with
    | ok compiled => exact .inl ⟨compiled, rfl⟩
    | error fault =>
      by_cases hreason : ∃ reason, fault = .formula reason
      · obtain ⟨reason, rfl⟩ := hreason
        exact .inr ⟨reason, rfl⟩
      · exact absurd (escapes_iff.2 ⟨hcompile, not_exists.1 hreason⟩) (h fault)

end

/-! ## A die with too many digits -/

/-- A shorthand has a parenthesis. -/
theorem opening_mem_of_take? {cs written rest : List Char}
    (h : Shorthand.take? cs = some (written, rest)) : '(' ∈ cs := by
  obtain ⟨⟨name, rule⟩, -, hname⟩ := List.exists_of_findSome?_eq_some h
  dsimp only at hname
  split at hname
  · cases hname
  · next hskip =>
    rw [Text.eq_append_of_skip? hskip]
    simp

theorem expandFrom_of_notMem {cs : List Char} (h : '(' ∉ cs) (inWord : Bool) :
    Shorthand.expandFrom inWord cs = cs := by
  fun_induction Shorthand.expandFrom inWord cs with
  | case1 => rfl
  | case2 inWord c tail written rest hshort =>
    split at hshort
    · cases hshort
    · exact absurd (opening_mem_of_take? hshort) h
  | case3 inWord c tail hshort ih =>
    rw [ih fun hmem => h (List.mem_cons_of_mem _ hmem)]

/-- Whatever comes before the letters stays the same in small letters. -/
theorem lowered_of_lt {c : Char} (h : c.toNat < 65) : lowered c = [c] := by
  have hkelvin : c ≠ '\u212a' := by
    rintro rfl
    exact absurd h (by decide)
  have hdotted : c ≠ '\u0130' := by
    rintro rfl
    exact absurd h (by decide)
  have hsmall : c < 'A' := by
    rw [Char.lt_def, UInt32.lt_iff_toNat_lt]
    exact h
  simp [lowered, hkelvin, hdotted, Text.toLowerAscii, hsmall]

/-- So many sides are not read, where fewer would be those of no die. -/
theorem compile_manySides {digits : List Char} (hdigits : ∀ c ∈ digits, Text.isDigit c = true)
    (hlong : integerDigitLimit < digits.length) :
    compile (String.ofList ('1' :: 'd' :: digits)) = .error .unreadable := by
  have hne : digits ≠ [] := List.ne_nil_of_length_pos (Nat.zero_lt_of_lt hlong)
  have hlowered : digits.flatMap lowered = digits := by
    rw [List.flatMap_congr fun c hc => lowered_of_lt ((toNat_of_isDigit (hdigits c hc)).2.trans_lt
      (by decide)), List.flatMap_singleton']
  have hexpanded : expanded (String.ofList ('1' :: 'd' :: digits)) = '1' :: 'd' :: digits := by
    have hnot := notMem_of_forall (c := '(') (p := Text.isDigit) (by decide) hdigits
    have hfront : ('1' :: 'd' :: digits).flatMap lowered = '1' :: 'd' :: digits.flatMap lowered := rfl
    rw [expanded, String.toList_ofList, hfront, hlowered, expandFrom_of_notMem]
    simpa using hnot
  have hterm : takeTerm? ('1' :: 'd' :: digits) = some (⟨['1'], digits, none, []⟩, []) := by
    have hone : ∀ c ∈ ['1'], Text.isDigit c = true := List.forall_mem_singleton.2 rfl
    have h := takeTerm?_dice hone hdigits hne List.takeWhile_nil
    rwa [List.append_nil] at h
  have hpieces : pieces (expanded (String.ofList ('1' :: 'd' :: digits))) =
      [] ++ .term ⟨['1'], digits, none, []⟩ :: [] := by
    rw [hexpanded, pieces_of_term hterm, pieces]
    rfl
  exact (escapes_iff.1 (.overlong hpieces (List.forall_mem_nil _) (.sides hlong))).1

end Formula

end RollTray
