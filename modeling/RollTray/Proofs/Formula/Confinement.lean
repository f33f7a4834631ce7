import RollTray.Proofs.Formula.Expansion

/-!
# Operators and the parentheses around them

An operator takes the two amounts on top, whether or not they were there before the innermost parenthesis was
opened. `Machine.Confines` says of tokens in a parenthesis that each operator applied on their behalf finds
both of its operands above the parenthesis' base.

* `below_kept_iff`: this is what it takes for the amounts below the parenthesis to be the ones that they were
  when it was opened, at every moment until it closes and when its arguments are cut off above its base; and
  it holds if no place in the parenthesis stands for an amount that spreads nothing.
* `below_lost_of_empty_splice`: a splice of nothing can leave an operator without an operand in its call, and
  it takes one from outside.

The amounts below stay for as long as no operator is short (`Machine.Rests`). Once one is, the amount that it
took is part of a longer one (`Machine.Spoiled`), and stays so.
-/

namespace RollTray.Formula

/-! ## Operators that are applied -/

/-- How many operators on top a reduction applies. -/
def dueCount (taken : Operator → Bool) (waiting : List Waiting) : Nat :=
  (waiting.takeWhile (Waiting.isTaken taken)).length

/-- How many operators are applied before a token is read. -/
def Machine.due (m : Machine) (token : Token) : Nat :=
  if token.followsOperand then dueCount token.takes m.waiting else 0

/-- One of the operators that are applied before a token finds less than two amounts above a base. Each of
them takes two amounts and leaves one. -/
def Machine.Starves (base : Nat) (m : Machine) (token : Token) : Prop :=
  m.due token ≠ 0 ∧ m.values.length < base + m.due token + 1

/-- No operator that is applied while these tokens are read takes an amount from below a base. -/
def Machine.Confines (context : Context) (base : Nat) : Machine → List Token → Prop
  | _, [] => True
  | m, token :: tokens => ¬m.Starves base token ∧
      ∀ m', m.step context token tokens.head? = .ok m' → Machine.Confines context base m' tokens

section

variable {taken : Operator → Bool} {op : Operator} {waiting : List Waiting}

theorem dueCount_taken (h : taken op = true) :
    dueCount taken (.operator op :: waiting) = dueCount taken waiting + 1 := by
  simp [dueCount, Waiting.isTaken, h]

theorem dueCount_of_head (h : ∀ w ∈ waiting.head?, w.isTaken taken = false) : dueCount taken waiting = 0 := by
  cases waiting with
  | nil => rfl
  | cons w waiting => simp [dueCount, h w rfl]

/-- What waits below a parenthesis is not reduced. -/
theorem dueCount_append_parenthesis (inner : List Waiting) (splice : Bool) :
    dueCount taken (inner ++ .parenthesis splice :: waiting) = dueCount taken inner := by
  induction inner with
  | nil => rfl
  | cons w inner ih =>
    rw [dueCount, dueCount, List.cons_append, List.takeWhile_cons, List.takeWhile_cons]
    split
    · exact congrArg (· + 1) ih
    · rfl

end

/-! ## What a token does to the stacks -/

/-- The stacks of amounts and of what waits once the operators due before a token are applied. -/
def Machine.settle (context : Context) (m : Machine) (token : Token) :
    Except Fault (List Amount × List Waiting) :=
  if token.followsOperand then reduce context.dry token.takes m.values m.waiting
  else .ok (m.values, m.waiting)

/-- What an amount puts on the stack, spliced or not. -/
def Amount.pushed (splice : Bool) (a : Amount) : List Amount :=
  if splice then a.operands.reverse else [a]

/-- What reading a token does to settled stacks: to the amounts, to what waits and to the bases. -/
inductive Effect (context : Context) (values : List Amount) (waiting : List Waiting) (bases : List Nat) :
    Token → List Amount → List Waiting → List Nat → Prop where
  | opens (splice : Bool) : Effect context values waiting bases
      .opening values (.parenthesis splice :: waiting) (values.length :: bases)
  | closes {splice : Bool} {inner rest : List Waiting} {base : Nat} {bases' : List Nat} (result : Amount)
      (hwaiting : waiting = .parenthesis splice :: inner) (hbases : bases = base :: bases')
      (hrest : inner = rest ∨ ∃ f, inner = .function f :: rest)
      (hresult : result.expanded = none ∨ ∃ a, values.take (values.length - base) = [a] ∧
        result.expanded = a.expanded) :
      Effect context values waiting bases
        .closing (result.pushed splice ++ values.drop (values.length - base)) rest bases'
  | pushes {token : Token} (splice : Bool) (amount : Amount) (hends : token.endsOperand = true)
      (hclosing : token ≠ .closing)
      (hamount : amount.expanded = none ∨ ∃ index, token = .place index ∧
        context.place index = .ok amount) :
      Effect context values waiting bases token (amount.pushed splice ++ values) waiting bases
  | waits {token : Token} (top : List Waiting) (hends : token.endsOperand = false)
      (hopening : token ≠ .opening)
      (htop : top = [] ∨ (∃ f, top = [.function f]) ∨
        token.followsOperand = true ∧ ∃ op, top = [.operator op]) :
      Effect context values waiting bases token values (top ++ waiting) bases

section

variable {context : Context} {m m' : Machine} {token : Token} {next : Option Token}

theorem push_values (m : Machine) (splice : Bool) (a : Amount) :
    (m.push splice a).values = a.pushed splice ++ m.values := by
  cases splice <;> rfl

theorem expanded_of_call {f : Function} {arguments : List Amount} {a : Amount}
    (h : f.apply arguments = .ok a) : a.expanded = none := by
  obtain ⟨value, texts, rfl, -⟩ := exists_of_call h
  rfl

/-- A group keeps what its only amount spreads. -/
theorem expanded_of_group {splice : Bool} {arguments : List Amount} {a : Amount}
    (h : group splice arguments = .ok a) : ∃ inner, arguments = [inner] ∧ a.expanded = inner.expanded := by
  obtain ⟨inner, rfl, rfl⟩ := group_eq_ok.1 h
  exact ⟨inner, rfl, by split <;> rfl⟩

theorem effect_of_leave (h : m.leave = .ok m') :
    Effect context m.values m.waiting m.bases .closing m'.values m'.waiting m'.bases := by
  obtain ⟨splice, waiting, isCall, calls, base, bases, result, waiting', hw, -, hb, henclosed, rfl⟩ :=
    exists_of_leave h
  rw [hw, hb, push_values]
  obtain ⟨-, f, rfl, hcall⟩ | ⟨-, rfl, hgroup⟩ := enclosed_eq_ok.1 henclosed
  · exact .closes result rfl rfl (.inr ⟨f, rfl⟩) (.inl (expanded_of_call hcall))
  · obtain ⟨a, hargs, hexpanded⟩ := expanded_of_group hgroup
    refine .closes result rfl rfl (.inl rfl) (.inr ⟨a, ?_, hexpanded⟩)
    rw [← List.reverse_reverse (List.take _ _), hargs, List.reverse_singleton]

/-- A step applies the operators that are due, and then does what its token does. -/
theorem effect_of_step (h : m.step context token next = .ok m') :
    ∃ values waiting, m.settle context token = .ok (values, waiting) ∧
      Effect context values waiting m.bases token m'.values m'.waiting m'.bases := by
  obtain ⟨-, -, m₁, hread, rfl⟩ := exists_read_of_step h
  cases token with
  | number digits =>
    cases hread
    exact ⟨_, _, rfl, .pushes false (numberAmount digits) rfl nofun (.inl rfl)⟩
  | name letters =>
    obtain ⟨f, -, -, rfl⟩ := read_name_eq_ok.1 hread
    exact ⟨_, _, rfl, .waits [.function f] rfl nofun (.inr (.inl ⟨f, rfl⟩))⟩
  | place index =>
    obtain ⟨amount, hplace, hread⟩ := bind_eq_ok.1 hread
    cases hread
    refine ⟨_, _, rfl, ?_⟩
    rw [push_values]
    exact .pushes m.splicing amount rfl nofun (.inr ⟨index, rfl, hplace⟩)
  | operator op =>
    obtain ⟨⟨values, waiting⟩, hreduce, hread⟩ := bind_eq_ok.1 hread
    cases hread
    exact ⟨_, _, hreduce, .waits [.operator op] rfl nofun (.inr (.inr ⟨rfl, op, rfl⟩))⟩
  | splice =>
    cases hread
    exact ⟨_, _, rfl, .waits [] rfl nofun (.inl rfl)⟩
  | opening =>
    cases hread
    exact ⟨_, _, rfl, .opens m.splicing⟩
  | closing =>
    obtain ⟨⟨values, waiting⟩, hreduce, hread⟩ := bind_eq_ok.1 hread
    exact ⟨_, _, hreduce, effect_of_leave hread⟩
  | comma =>
    obtain ⟨values, waiting, hreduce, -, rfl⟩ := read_comma_eq_ok.1 hread
    exact ⟨_, _, hreduce, .waits [] rfl nofun (.inl rfl)⟩

end

/-! ## Amounts below a parenthesis -/

/-- Among these amounts one stands for two of the others or more: where one stood on the amounts of `low`, there
is one with a longer text. -/
def Spoils (outer values low : List Amount) : Prop :=
  ∃ between taken merged, outer = between ++ taken :: low ∧ merged :: low <:+ values ∧
    taken.breakdown.length < merged.breakdown.length

section

variable {outer low values values' rest : List Amount} {waiting waiting' : List Waiting}

/-- What has been taken is not there any more. -/
theorem Spoils.not_suffix (h : Spoils outer values low) : ¬outer <:+ values := by
  obtain ⟨between, taken, merged, rfl, ⟨high, rfl⟩, hlonger⟩ := h
  rintro ⟨top, heq⟩
  have heads : (top ++ between) ++ taken :: low = high ++ merged :: low := by
    rw [List.append_assoc, heq]
  have hsame := (List.append_inj' heads rfl).2
  rw [(List.cons.inj hsame).1] at hlonger
  exact Nat.lt_irrefl _ hlonger

section

variable {dry : Bool} {taken : Operator → Bool} {op : Operator} {a b r : Amount}

theorem length_of_apply (h : op.apply dry a b = .ok r) : a.breakdown.length < r.breakdown.length := by
  obtain ⟨value, -, h⟩ := bind_eq_ok.1 h
  cases h
  simp only [String.length_append]
  have : " ".length = 1 := rfl
  omega

theorem expanded_of_operator (h : op.apply dry a b = .ok r) : r.expanded = none := by
  obtain ⟨value, -, h⟩ := bind_eq_ok.1 h
  cases h
  rfl

/-- An operator with both operands above the others leaves them. -/
theorem suffix_of_apply (r : Amount) (h : outer <:+ b :: a :: values)
    (hlength : outer.length ≤ values.length) : outer <:+ r :: values :=
  (List.suffix_of_suffix_length_le h ((List.suffix_cons a values).trans (List.suffix_cons b _)) hlength).trans
    (List.suffix_cons r values)

/-- An operator that is short of operands takes one of the others. -/
theorem spoils_of_apply (happly : op.apply dry a b = .ok r) (h : outer <:+ b :: a :: values)
    (hlength : values.length < outer.length) : Spoils outer (r :: values) values := by
  have hvalues : values <:+ outer := List.suffix_of_suffix_length_le
    ((List.suffix_cons a values).trans (List.suffix_cons b _)) h (Nat.le_of_lt hlength)
  obtain ⟨top, htop⟩ := h
  rcases top with - | ⟨_, - | ⟨_, top⟩⟩
  · cases htop
    exact ⟨[b], a, r, rfl, List.suffix_rfl, length_of_apply happly⟩
  · cases htop
    exact ⟨[], a, r, rfl, List.suffix_rfl, length_of_apply happly⟩
  · simp only [List.cons_append, List.cons.injEq] at htop
    obtain ⟨-, -, rfl⟩ := htop
    rw [List.length_append] at hlength
    omega

/-- Once an amount was taken, operators leave it or take it again. -/
theorem Spoils.apply (happly : op.apply dry a b = .ok r) (h : Spoils outer (b :: a :: values) low) :
    ∃ low', low'.length ≤ low.length ∧ Spoils outer (r :: values) low' := by
  obtain ⟨between, taken, merged, rfl, hmerged, hlonger⟩ := h
  obtain ⟨high, hmerged⟩ := hmerged
  have hr := length_of_apply happly
  rcases high with - | ⟨_, - | ⟨_, high⟩⟩
  · cases hmerged
    exact ⟨values, Nat.le_succ _, between ++ [taken], a, r, by simp, List.suffix_rfl, hr⟩
  · cases hmerged
    exact ⟨low, Nat.le_refl _, between, taken, r, rfl, List.suffix_rfl, Nat.lt_trans hlonger hr⟩
  · simp only [List.cons_append, List.cons.injEq] at hmerged
    obtain ⟨-, -, rfl⟩ := hmerged
    exact ⟨low, Nat.le_refl _, between, taken, merged, rfl,
      (List.suffix_append high _).trans (List.suffix_cons r _), hlonger⟩

theorem Spoils.reduces (hreduces : Reduces dry taken values waiting values' waiting')
    (h : Spoils outer values low) : ∃ low', low'.length ≤ low.length ∧ Spoils outer values' low' := by
  induction hreduces generalizing low with
  | stops => exact ⟨low, Nat.le_refl _, h⟩
  | applies _ happly _ ih =>
    obtain ⟨low', hlow', h'⟩ := h.apply happly
    obtain ⟨low'', hlow'', h''⟩ := ih h'
    exact ⟨low'', Nat.le_trans hlow'' hlow', h''⟩

/-- A reduction leaves the amounts below if and only if none of its operators is short of operands. -/
theorem below_of_reduce (hreduce : reduce dry taken values waiting = .ok (values', waiting'))
    (h : outer <:+ values) :
    (dueCount taken waiting ≠ 0 → outer.length + dueCount taken waiting + 1 ≤ values.length) ∧
        outer <:+ values' ∨
      (dueCount taken waiting ≠ 0 ∧ values.length < outer.length + dueCount taken waiting + 1) ∧
        ∃ low, low.length < outer.length ∧ Spoils outer values' low := by
  replace hreduce := reduces_of_reduce hreduce
  induction hreduce with
  | stops hhead => exact .inl ⟨fun hne => absurd (dueCount_of_head hhead) hne, h⟩
  | @applies op a b r values _ waiting _ htaken happly rest ih =>
    rw [dueCount_taken htaken]
    simp only [List.length_cons] at ih ⊢
    by_cases hlength : outer.length ≤ values.length
    · rcases ih (suffix_of_apply r h hlength) with ⟨henough, hkept⟩ | ⟨hshort, hspoiled⟩
      · exact .inl ⟨fun _ => by omega, hkept⟩
      · exact .inr ⟨by omega, hspoiled⟩
    · obtain ⟨low, hlow, hspoils⟩ :=
        (spoils_of_apply happly h (Nat.lt_of_not_le hlength)).reduces rest
      exact .inr ⟨by omega, low, by omega, hspoils⟩

end

/-! ## A parenthesis while it is open -/

/-- These amounts lie below everything that was pushed in the parentheses opened since, which are as many as
`depth` and have their bases on those of `outer`. -/
def Machine.Rests (low : List Amount) (outer : List Nat) (depth : Nat) (m : Machine) : Prop :=
  ∃ inner, m.bases = inner ++ outer ∧ inner.length = depth ∧ (∀ base ∈ inner, low.length ≤ base) ∧
    low <:+ m.values

/-- One of these amounts was taken, and no parenthesis opened since will ever give it back. -/
def Machine.Spoiled (below : List Amount) (outer : List Nat) (depth : Nat) (m : Machine) : Prop :=
  ∃ low merged, (∃ between taken, below = between ++ taken :: low ∧
    taken.breakdown.length < merged.breakdown.length) ∧ m.Rests (merged :: low) outer depth

theorem Machine.Spoiled.not_suffix {below : List Amount} {outer : List Nat} {depth : Nat} {m : Machine}
    (h : m.Spoiled below outer depth) : ¬below <:+ m.values := by
  obtain ⟨low, merged, ⟨between, taken, hbelow, hlonger⟩, -, -, -, -, hmerged⟩ := h
  exact Spoils.not_suffix ⟨between, taken, merged, hbelow, hmerged, hlonger⟩

theorem depthAfter?_singleton {depth : Nat} {token : Token} (hopening : token ≠ .opening)
    (hclosing : token ≠ .closing) : depthAfter? depth [token] = some depth := by
  cases token <;> first | rfl | exact absurd rfl hopening | exact absurd rfl hclosing

theorem depthAfter?_cons_eq_some {depth depth' : Nat} {token : Token} {tokens : List Token}
    (h : depthAfter? depth (token :: tokens) = some depth') :
    ∃ between, depthAfter? depth [token] = some between ∧ depthAfter? between tokens = some depth' := by
  cases token with
  | closing =>
    cases depth with
    | zero => cases h
    | succ depth => exact ⟨depth, rfl, h⟩
  | opening => exact ⟨depth + 1, rfl, h⟩
  | _ => exact ⟨depth, rfl, h⟩

section

variable {context : Context} {m m' : Machine} {token : Token} {next : Option Token} {outer : List Nat}
  {depth depth' : Nat} {below : List Amount}

/-- What lies below the parentheses that are open is not touched by what a token does once the operators due
are applied. -/
theorem rests_of_effect {inner : List Nat} (hbases : m.bases = inner ++ outer)
    (heffect : Effect context values waiting m.bases token m'.values m'.waiting m'.bases)
    (hdepth : depthAfter? inner.length [token] = some depth') (hinner : ∀ base ∈ inner, low.length ≤ base)
    (hlow : low <:+ values) : m'.Rests low outer depth' := by
  rw [hbases] at heffect
  unfold Machine.Rests
  generalize m'.values = values', m'.waiting = waiting', m'.bases = bases' at heffect ⊢
  cases heffect with
  | opens splice =>
    cases hdepth
    refine ⟨values.length :: inner, rfl, rfl, ?_, hlow⟩
    exact List.forall_mem_cons.2 ⟨hlow.length_le, hinner⟩
  | closes result hwaiting hopened =>
    cases inner with
    | nil => cases hdepth
    | cons base inner =>
      cases hdepth
      cases hopened
      obtain ⟨hbase, hinner⟩ := List.forall_mem_cons.1 hinner
      refine ⟨inner, rfl, rfl, hinner, List.suffix_append_of_suffix ?_⟩
      refine List.suffix_of_suffix_length_le hlow (List.drop_suffix ..) ?_
      have hlength := hlow.length_le
      rw [List.length_drop]
      omega
  | pushes splice amount hends hclosing =>
    have hopening : token ≠ .opening := fun heq => by
      subst heq
      cases hends
    rw [depthAfter?_singleton hopening hclosing] at hdepth
    exact ⟨inner, rfl, Option.some.inj hdepth, hinner, List.suffix_append_of_suffix hlow⟩
  | waits top hends hopening =>
    have hclosing : token ≠ .closing := fun heq => by
      subst heq
      cases hends
    rw [depthAfter?_singleton hopening hclosing] at hdepth
    exact ⟨inner, rfl, Option.some.inj hdepth, hinner, hlow⟩

/-- The operators due before a token leave the amounts below if and only if none is short of operands. -/
theorem below_of_settle {values : List Amount} {waiting : List Waiting}
    (hsettle : m.settle context token = .ok (values, waiting)) (h : below <:+ m.values) :
    ¬m.Starves below.length token ∧ below <:+ values ∨
      m.Starves below.length token ∧ ∃ low, low.length < below.length ∧ Spoils below values low := by
  unfold Machine.settle at hsettle
  unfold Machine.Starves Machine.due
  split at hsettle
  · rename_i hfollows
    rw [if_pos hfollows]
    rcases below_of_reduce hsettle h with ⟨henough, hkept⟩ | hspoils
    · exact .inl ⟨fun ⟨hne, hlt⟩ => Nat.not_lt.2 (henough hne) hlt, hkept⟩
    · exact .inr hspoils
  · rename_i hfollows
    rw [if_neg hfollows]
    cases hsettle
    exact .inl ⟨fun ⟨hne, _⟩ => hne rfl, h⟩

/-- A token in a parenthesis leaves the amounts below it if and only if no operator is short on its behalf. -/
theorem Machine.Rests.step (h : m.Rests below outer depth) (hdepth : depthAfter? depth [token] = some depth')
    (hstep : m.step context token next = .ok m') :
    ¬m.Starves below.length token ∧ m'.Rests below outer depth' ∨
      m.Starves below.length token ∧ m'.Spoiled below outer depth' := by
  obtain ⟨values, waiting, hsettle, heffect⟩ := effect_of_step hstep
  obtain ⟨inner, hbases, rfl, hinner, hbelow⟩ := h
  rcases below_of_settle hsettle hbelow with ⟨hfed, hkept⟩ | ⟨hstarves, low, hlow, hspoils⟩
  · exact .inl ⟨hfed, rests_of_effect hbases heffect hdepth hinner hkept⟩
  · obtain ⟨between, taken, merged, hbetween, hmerged, hlonger⟩ := hspoils
    refine .inr ⟨hstarves, low, merged, ⟨between, taken, hbetween, hlonger⟩, ?_⟩
    refine rests_of_effect hbases heffect hdepth (fun base hbase => ?_) hmerged
    exact Nat.lt_of_lt_of_le hlow (hinner base hbase)

theorem spoils_of_settle {values : List Amount} {waiting : List Waiting}
    (hsettle : m.settle context token = .ok (values, waiting)) (h : Spoils below m.values low) :
    ∃ low', low'.length ≤ low.length ∧ Spoils below values low' := by
  unfold Machine.settle at hsettle
  split at hsettle
  · exact h.reduces (reduces_of_reduce hsettle)
  · cases hsettle
    exact ⟨low, Nat.le_refl _, h⟩

/-- An amount that was taken from below stays so. -/
theorem Machine.Spoiled.step (h : m.Spoiled below outer depth)
    (hdepth : depthAfter? depth [token] = some depth') (hstep : m.step context token next = .ok m') :
    m'.Spoiled below outer depth' := by
  obtain ⟨values, waiting, hsettle, heffect⟩ := effect_of_step hstep
  obtain ⟨low, merged, ⟨between, taken, hbelow, hlonger⟩, inner, hbases, rfl, hinner, hmerged⟩ := h
  obtain ⟨low', hlow', between', taken', merged', hbelow', hmerged', hlonger'⟩ :=
    spoils_of_settle hsettle ⟨between, taken, merged, hbelow, hmerged, hlonger⟩
  refine ⟨low', merged', ⟨between', taken', hbelow', hlonger'⟩, ?_⟩
  refine rests_of_effect hbases heffect hdepth (fun base hbase => ?_) hmerged'
  exact Nat.le_trans (Nat.succ_le_succ hlow') (hinner base hbase)

theorem Machine.Spoiled.run {tokens : List Token} (h : m.Spoiled below outer depth)
    (hdepth : depthAfter? depth tokens = some depth') (hrun : m.run context tokens = .ok m') :
    m'.Spoiled below outer depth' := by
  induction tokens generalizing m depth with
  | nil =>
    cases hrun
    cases hdepth
    exact h
  | cons token tokens ih =>
    obtain ⟨m₁, hstep, hrun⟩ := bind_eq_ok.1 hrun
    obtain ⟨between, hfirst, hdepth⟩ := depthAfter?_cons_eq_some hdepth
    exact ih (h.step hfirst hstep) hdepth hrun

theorem confines_cons {tokens : List Token} {base : Nat} (hstep : m.step context token tokens.head? = .ok m') :
    m.Confines context base (token :: tokens) ↔
      ¬m.Starves base token ∧ m'.Confines context base tokens := by
  refine and_congr_right fun _ => ⟨fun h => h m' hstep, fun h m₁ hstep' => ?_⟩
  cases hstep.symm.trans hstep'
  exact h

/-- Tokens in a parenthesis leave the amounts below it if and only if they confine their operators. -/
theorem Machine.Rests.run {tokens : List Token} (h : m.Rests below outer depth)
    (hdepth : depthAfter? depth tokens = some depth') (hrun : m.run context tokens = .ok m') :
    m.Confines context below.length tokens ∧ m'.Rests below outer depth' ∨
      ¬m.Confines context below.length tokens ∧ m'.Spoiled below outer depth' := by
  induction tokens generalizing m depth with
  | nil =>
    cases hrun
    cases hdepth
    exact .inl ⟨trivial, h⟩
  | cons token tokens ih =>
    obtain ⟨m₁, hstep, hrun⟩ := bind_eq_ok.1 hrun
    obtain ⟨between, hfirst, hdepth⟩ := depthAfter?_cons_eq_some hdepth
    rw [confines_cons hstep]
    rcases h.step hfirst hstep with ⟨hfed, hrests⟩ | ⟨hstarves, hspoiled⟩
    · rcases ih hrests hdepth hrun with ⟨hconfines, hrests⟩ | ⟨hconfines, hspoiled⟩
      · exact .inl ⟨⟨hfed, hconfines⟩, hrests⟩
      · exact .inr ⟨fun h => hconfines h.2, hspoiled⟩
    · exact .inr ⟨fun h => h.1 hstarves, hspoiled.run hdepth hrun⟩

/-- A token that can be the last one is read alike whatever follows it. -/
theorem step_of_last (h : m.step context token none = .ok m') (next : Option Token) :
    m.step context token next = .ok m' := by
  rw [← h]
  refine step_next fun hname => ?_
  obtain ⟨-, -, m₁, hread, -⟩ := exists_read_of_step h
  cases token with
  | name letters =>
    obtain ⟨-, -, hnext, -⟩ := read_name_eq_ok.1 hread
    cases hnext
  | _ => cases hname

/-- One more token is confined with those before it if it is so where they end. -/
theorem confines_concat {tokens : List Token} {base : Nat} (hrun : m.run context tokens = .ok m') :
    m.Confines context base (tokens ++ [token]) ↔
      m.Confines context base tokens ∧ ¬m'.Starves base token := by
  induction tokens generalizing m with
  | nil =>
    cases hrun
    exact ⟨fun h => ⟨trivial, h.1⟩, fun h => ⟨h.2, fun _ _ => trivial⟩⟩
  | cons first tokens ih =>
    obtain ⟨m₁, hstep, hrun⟩ := bind_eq_ok.1 hrun
    have hstep' : m.step context first (tokens ++ [token]).head? = .ok m₁ := by
      cases tokens with
      | nil => exact step_of_last hstep _
      | cons second tokens => exact hstep
    rw [List.cons_append, confines_cons hstep', confines_cons hstep, ih hrun, and_assoc]

end

end

/-! ## Places that spread something -/

/-- An amount that stands for at least one operand when it is spliced, and so does each of its operands. -/
inductive Amount.Fruitful : Amount → Prop where
  | plain {a : Amount} (h : a.expanded = none) : Fruitful a
  | spread {a : Amount} {items : List Amount} (h : a.expanded = some items) (hne : items ≠ [])
      (hitems : ∀ item ∈ items, Fruitful item) : Fruitful a

/-- There are enough amounts for what waits in a parenthesis and in those opened in it: one above the base for
each operator, its left operand. -/
inductive Supplied (floor : Nat) : Nat → List Waiting → List Nat → Prop where
  | empty {height : Nat} (h : floor ≤ height) : Supplied floor height [] []
  | operator {height : Nat} {waiting : List Waiting} {bases : List Nat} (op : Operator)
      (h : Supplied floor height waiting bases) : Supplied floor (height + 1) (.operator op :: waiting) bases
  | function {height : Nat} {waiting : List Waiting} {bases : List Nat} (f : Function)
      (h : Supplied floor height waiting bases) : Supplied floor height (.function f :: waiting) bases
  | parenthesis {height base : Nat} {waiting : List Waiting} {bases : List Nat} (splice : Bool)
      (h : Supplied floor base waiting bases) (hbase : base ≤ height) :
      Supplied floor height (.parenthesis splice :: waiting) (base :: bases)

section

variable {floor height height' : Nat} {inner : List Waiting} {bases : List Nat}

theorem Supplied.mono (h : Supplied floor height inner bases) (hle : height ≤ height') :
    Supplied floor height' inner bases := by
  induction h generalizing height' with
  | empty h => exact .empty (Nat.le_trans h hle)
  | operator op _ ih =>
    obtain ⟨height', rfl⟩ : ∃ k, height' = k + 1 := ⟨height' - 1, by omega⟩
    exact .operator op (ih (by omega))
  | function f _ ih => exact .function f (ih hle)
  | parenthesis splice h hbase => exact .parenthesis splice h (Nat.le_trans hbase hle)

/-- No operator is short where all that waits is supplied. -/
theorem Supplied.dueCount_le (h : Supplied floor height inner bases) (taken : Operator → Bool) :
    floor + dueCount taken inner ≤ height := by
  induction h with
  | empty h => exact h
  | operator op _ ih =>
    cases htaken : taken op with
    | true =>
      rw [dueCount_taken htaken]
      omega
    | false =>
      rw [dueCount_of_head (head_of_not_taken htaken)]
      omega
  | function f _ ih => exact Nat.le_trans (Nat.le_add_right floor _) ih
  | parenthesis splice _ hbase ih => exact Nat.le_trans (Nat.le_add_right floor _) (Nat.le_trans ih hbase)

end

theorem Amount.Fruitful.pushed {a : Amount} (h : a.Fruitful) (splice : Bool) :
    a.pushed splice ≠ [] ∧ ∀ b ∈ a.pushed splice, b.Fruitful := by
  unfold Amount.pushed
  cases splice with
  | false => exact ⟨List.cons_ne_nil _ _, List.forall_mem_singleton.2 h⟩
  | true =>
    unfold Amount.operands
    cases h with
    | plain hnone =>
      rw [hnone]
      exact ⟨List.cons_ne_nil _ _, List.forall_mem_singleton.2 (.plain hnone)⟩
    | spread hsome hne hitems =>
      rw [hsome]
      exact ⟨fun h => hne (List.reverse_eq_nil_iff.1 h), fun b hb => hitems b (List.mem_reverse.1 hb)⟩

theorem Amount.Fruitful.congr {a b : Amount} (ha : a.Fruitful) (h : b.expanded = a.expanded) : b.Fruitful := by
  cases ha with
  | plain hnone => exact .plain (h.trans hnone)
  | spread hsome hne hitems => exact .spread (h.trans hsome) hne hitems

/-- The stacks in a parenthesis that stands above others: what was pushed in it is fruitful and supplies what
waits there, with one amount more where an operand has just ended. -/
def Stores (below : List Amount) (waiting : List Waiting) (bases : List Nat) (depth : Nat) (ended : Bool)
    (values : List Amount) (waiting' : List Waiting) (bases' : List Nat) : Prop :=
  ∃ above inner opened height, values = above ++ below ∧ waiting' = inner ++ waiting ∧
    bases' = opened ++ bases ∧ opened.length = depth ∧ (∀ a ∈ above, a.Fruitful) ∧
    Supplied below.length height inner opened ∧ height + ended.toNat ≤ values.length

section

variable {below values values' : List Amount} {waiting waiting' waiting'' : List Waiting}
  {bases bases' : List Nat} {depth : Nat} {ended splice : Bool}

theorem Supplied.floor_le {floor height : Nat} {inner : List Waiting} {opened : List Nat}
    (h : Supplied floor height inner opened) : floor ≤ height :=
  Nat.le_trans (Nat.le_add_right floor _) (h.dueCount_le fun _ => true)

/-- A reduction leaves what it does not apply supplied. -/
theorem Supplied.reduce {dry : Bool} {taken : Operator → Bool} {height : Nat} {above : List Amount}
    {inner : List Waiting} {opened : List Nat} (h : Supplied below.length height inner opened)
    (habove : ∀ a ∈ above, a.Fruitful) (hheight : height + 1 ≤ (above ++ below).length)
    (hreduce : Formula.reduce dry taken (above ++ below) (inner ++ .parenthesis splice :: waiting) =
      .ok (values', waiting')) :
    Stores below (.parenthesis splice :: waiting) bases opened.length true values' waiting' (opened ++ bases) := by
  induction h generalizing above with
  | empty h =>
    cases hreduce
    exact ⟨above, [], _, _, rfl, rfl, rfl, rfl, habove, .empty h, hheight⟩
  | function f h =>
    cases hreduce
    exact ⟨above, _, _, _, rfl, rfl, rfl, rfl, habove, .function f h, hheight⟩
  | parenthesis splice h hbase =>
    cases hreduce
    exact ⟨above, _, _, _, rfl, rfl, rfl, rfl, habove, .parenthesis splice h hbase, hheight⟩
  | operator op h ih =>
    rw [List.cons_append] at hreduce
    unfold Formula.reduce at hreduce
    split at hreduce
    · have hfloor := h.floor_le
      rw [List.length_append] at hheight
      rcases above with - | ⟨b, - | ⟨a, above⟩⟩
      · simp only [List.length_nil] at hheight
        omega
      · simp only [List.length_cons, List.length_nil] at hheight
        omega
      · obtain ⟨r, happly, hreduce⟩ := bind_eq_ok.1 hreduce
        have hr : r.Fruitful := .plain (expanded_of_operator happly)
        refine @ih (r :: above) ?_ ?_ hreduce
        · exact List.forall_mem_cons.2 ⟨hr, fun c hc => habove c (by simp [hc])⟩
        · simp only [List.length_cons, List.cons_append, List.length_append] at hheight ⊢
          omega
    · cases hreduce
      exact ⟨above, _, _, _, rfl, rfl, rfl, rfl, habove, .operator op h, hheight⟩

theorem Stores.reduce {dry : Bool} {taken : Operator → Bool}
    (h : Stores below (.parenthesis splice :: waiting) bases depth true values waiting' bases')
    (hreduce : Formula.reduce dry taken values waiting' = .ok (values', waiting'')) :
    Stores below (.parenthesis splice :: waiting) bases depth true values' waiting'' bases' := by
  obtain ⟨above, inner, opened, height, rfl, rfl, rfl, rfl, habove, hsupplied, hheight⟩ := h
  exact hsupplied.reduce habove hheight hreduce

/-- A parenthesis that opens has its base on all that is there. -/
theorem Stores.opens (h : Stores below waiting bases depth ended values waiting' bases') (splice : Bool) :
    Stores below waiting bases (depth + 1) false values (.parenthesis splice :: waiting')
      (values.length :: bases') := by
  obtain ⟨above, inner, opened, height, rfl, rfl, rfl, rfl, habove, hsupplied, hheight⟩ := h
  refine ⟨above, .parenthesis splice :: inner, (above ++ below).length :: opened, (above ++ below).length,
    rfl, rfl, rfl, rfl, habove, .parenthesis splice (hsupplied.mono ?_) (Nat.le_refl _), Nat.le_refl _⟩
  exact Nat.le_trans (Nat.le_add_right ..) hheight

/-- Where an operand ends there is one amount more at least. -/
theorem Stores.pushes (h : Stores below waiting bases depth ended values waiting' bases')
    {pushed : List Amount} (hne : pushed ≠ []) (hpushed : ∀ a ∈ pushed, a.Fruitful) :
    Stores below waiting bases depth true (pushed ++ values) waiting' bases' := by
  obtain ⟨above, inner, opened, height, rfl, rfl, rfl, rfl, habove, hsupplied, hheight⟩ := h
  refine ⟨pushed ++ above, inner, opened, height, (List.append_assoc ..).symm, rfl, rfl, rfl,
    List.forall_mem_append.2 ⟨hpushed, habove⟩, hsupplied, ?_⟩
  have hmore := List.length_pos_iff.2 hne
  rw [List.length_append, Bool.toNat_true]
  omega

/-- What waits for an operand: a function for its arguments, an operator for its right operand. -/
theorem Stores.waits (h : Stores below waiting bases depth ended values waiting' bases') {top : List Waiting}
    (htop : top = [] ∨ (∃ f, top = [.function f]) ∨ ended = true ∧ ∃ op, top = [.operator op]) :
    Stores below waiting bases depth false values (top ++ waiting') bases' := by
  obtain ⟨above, inner, opened, height, rfl, rfl, rfl, rfl, habove, hsupplied, hheight⟩ := h
  have hleast : height ≤ (above ++ below).length := Nat.le_trans (Nat.le_add_right ..) hheight
  rcases htop with rfl | ⟨f, rfl⟩ | ⟨rfl, op, rfl⟩
  · exact ⟨above, inner, opened, height, rfl, rfl, rfl, rfl, habove, hsupplied, hleast⟩
  · exact ⟨above, .function f :: inner, opened, height, rfl, rfl, rfl, rfl, habove, .function f hsupplied, hleast⟩
  · exact ⟨above, .operator op :: inner, opened, height + 1, rfl, rfl, rfl, rfl, habove,
      .operator op hsupplied, hheight⟩

/-- A parenthesis that closes is cut off at its base, which is above those of the parentheses around it. -/
theorem Stores.closes {base : Nat} {inner rest : List Waiting} {splice' : Bool}
    (h : Stores below (.parenthesis splice :: waiting) bases (depth + 1) ended values
      (.parenthesis splice' :: inner) (base :: bases'))
    (hrest : inner = rest ∨ ∃ f, inner = .function f :: rest) :
    ∃ above, values.take (values.length - base) <+: above ∧ (∀ a ∈ above, a.Fruitful) ∧
      Stores below (.parenthesis splice :: waiting) bases depth false
        (values.drop (values.length - base)) rest bases' := by
  obtain ⟨above, inner', opened, height, rfl, hinner, hopened, hdepth, habove, hsupplied, hheight⟩ := h
  cases hsupplied with
  | empty => cases hdepth
  | operator => cases hinner
  | function => cases hinner
  | @parenthesis _ base' inner' opened _ hsupplied hbase =>
    cases hopened
    cases hinner
    have hfloor := hsupplied.floor_le
    have hlength : (above ++ below).length = above.length + below.length := List.length_append
    have hcut : (above ++ below).length - base ≤ above.length := by omega
    refine ⟨above, ?_, habove, ?_⟩
    · rw [List.take_append_of_le_length hcut]
      exact List.take_prefix ..
    obtain ⟨inner, rfl, hsupplied⟩ : ∃ inner, rest = inner ++ .parenthesis splice :: waiting ∧
        Supplied below.length base inner opened := by
      rcases hrest with heq | ⟨f, heq⟩
      · exact ⟨_, heq.symm, hsupplied⟩
      · cases hsupplied with
        | function f hsupplied =>
          cases heq
          exact ⟨_, rfl, hsupplied⟩
        | _ => cases heq
    refine ⟨above.drop ((above ++ below).length - base), inner, opened, base,
      List.drop_append_of_le_length hcut, rfl, rfl, Nat.succ.inj hdepth,
      fun a ha => habove a (List.mem_of_mem_drop ha), hsupplied, ?_⟩
    rw [List.length_drop, Bool.toNat_false]
    omega

/-- A token in a parenthesis leaves it stocked, if its place stands for a fruitful amount. -/
theorem Stores.effect {context : Context} {token : Token} {depth' : Nat} {bases'' : List Nat}
    (h : Stores below (.parenthesis splice :: waiting) bases depth ended values waiting' bases')
    (heffect : Effect context values waiting' bases' token values' waiting'' bases'')
    (hdepth : depthAfter? depth [token] = some depth')
    (hended : token.followsOperand = true → token ≠ .closing → ended = true)
    (hplace : ∀ index amount, token = .place index → context.place index = .ok amount → amount.Fruitful) :
    Stores below (.parenthesis splice :: waiting) bases depth' token.endsOperand values' waiting'' bases'' := by
  cases heffect with
  | opens splice' =>
    cases hdepth
    exact h.opens splice'
  | closes result hwaiting hopened hrest hresult =>
    cases depth with
    | zero => cases hdepth
    | succ depth =>
      cases hdepth
      subst hwaiting hopened
      obtain ⟨above, hprefix, habove, hstores⟩ := h.closes hrest
      have hresult : result.Fruitful := by
        rcases hresult with hnone | ⟨a, htake, hsame⟩
        · exact .plain hnone
        · have ha := hprefix.subset (htake ▸ List.mem_singleton_self a)
          exact (habove a ha).congr hsame
      obtain ⟨hne, hpushed⟩ := hresult.pushed _
      exact hstores.pushes hne hpushed
  | pushes splice' amount hends hclosing hamount =>
    have hopening : token ≠ .opening := fun heq => by
      subst heq
      cases hends
    rw [depthAfter?_singleton hopening hclosing] at hdepth
    cases hdepth
    have hamount : amount.Fruitful := by
      rcases hamount with hnone | ⟨index, htoken, hamount⟩
      · exact .plain hnone
      · exact hplace index amount htoken hamount
    obtain ⟨hne, hpushed⟩ := hamount.pushed splice'
    rw [hends]
    exact h.pushes hne hpushed
  | waits top hends hopening htop =>
    have hclosing : token ≠ .closing := fun heq => by
      subst heq
      cases hends
    rw [depthAfter?_singleton hopening hclosing] at hdepth
    cases hdepth
    rw [hends]
    exact h.waits (htop.imp_right (Or.imp_right (And.imp_left (hended · hclosing))))

end

/-- Where the machine stands in a parenthesis. -/
structure Machine.Stocked (below : List Amount) (waiting : List Waiting) (bases : List Nat) (depth : Nat)
    (m : Machine) : Prop where
  stores : Stores below waiting bases depth (m.previous.any Token.endsOperand) m.values m.waiting m.bases
  opening : m.previous = some .opening → ∃ splice rest, m.waiting = .parenthesis splice :: rest

section

variable {below : List Amount} {waiting : List Waiting} {bases : List Nat} {depth depth' : Nat}
  {context : Context} {m m' : Machine} {token : Token} {next : Option Token} {splice : Bool}

/-- Where all that waits is supplied, no operator is short on behalf of a token. -/
theorem Machine.Stocked.not_starves (h : m.Stocked below (.parenthesis splice :: waiting) bases depth)
    (hended : token.followsOperand = true → m.previous.any Token.endsOperand = true ∨
      m.previous = some .opening) : ¬m.Starves below.length token := by
  rintro ⟨hdue, hlength⟩
  unfold Machine.due at hdue hlength
  split at hdue
  · rename_i hfollows
    rw [if_pos hfollows] at hlength
    obtain ⟨above, inner, opened, height, -, hwaiting, -, -, -, hsupplied, hheight⟩ := h.stores
    rcases hended hfollows with hended | hopening
    · have hle := hsupplied.dueCount_le token.takes
      rw [hwaiting, dueCount_append_parenthesis] at hlength
      rw [hended, Bool.toNat_true] at hheight
      omega
    · obtain ⟨splice', rest, hopened⟩ := h.opening hopening
      rw [hopened] at hdue
      exact hdue rfl
  · exact hdue rfl

theorem Machine.Stocked.settle {values : List Amount} {waiting' : List Waiting}
    (h : m.Stocked below (.parenthesis splice :: waiting) bases depth)
    (hended : token.followsOperand = true → m.previous.any Token.endsOperand = true ∨
      m.previous = some .opening)
    (hsettle : m.settle context token = .ok (values, waiting')) :
    Stores below (.parenthesis splice :: waiting) bases depth (m.previous.any Token.endsOperand) values
      waiting' m.bases := by
  have hstores := h.stores
  unfold Machine.settle at hsettle
  split at hsettle
  · rename_i hfollows
    rcases hended hfollows with hended | hopening
    · rw [hended] at hstores ⊢
      exact hstores.reduce hsettle
    · obtain ⟨splice', rest, hopened⟩ := h.opening hopening
      rw [hopened] at hsettle
      cases hsettle
      rwa [hopened] at hstores
  · cases hsettle
    exact hstores

/-- A token in a parenthesis takes nothing from below and leaves it stocked. -/
theorem Machine.Stocked.step (h : m.Stocked below (.parenthesis splice :: waiting) bases depth)
    (hdepth : depthAfter? depth [token] = some depth')
    (hplace : ∀ index amount, token = .place index → context.place index = .ok amount → amount.Fruitful)
    (hstep : m.step context token next = .ok m') :
    ¬m.Starves below.length token ∧ m'.Stocked below (.parenthesis splice :: waiting) bases depth' := by
  obtain ⟨-, hfollows, -⟩ := exists_read_of_step hstep
  have hended : token.followsOperand = true → m.previous.any Token.endsOperand = true ∨
      m.previous = some .opening := fun hf => (hfollows hf).imp_right fun hempty => hempty.2.1
  obtain ⟨values, waiting', hsettle, heffect⟩ := effect_of_step hstep
  obtain ⟨hlast, -⟩ := fields_of_step hstep
  refine ⟨h.not_starves hended, ⟨?_, fun hopening => ?_⟩⟩
  · rw [hlast, Option.any_some]
    refine (h.settle hended hsettle).effect heffect hdepth (fun hf hclosing => ?_) hplace
    exact (hfollows hf).resolve_right fun hempty => hclosing hempty.1
  · rw [hlast] at hopening
    cases hopening
    generalize m'.values = values', m'.waiting = waiting'', m'.bases = bases' at heffect
    cases heffect with
    | opens splice' => exact ⟨splice', _, rfl⟩
    | pushes _ _ hends => cases hends
    | waits _ _ hopening => exact absurd rfl hopening

/-- Tokens in a parenthesis whose places are fruitful confine their operators. -/
theorem Machine.Stocked.confines {tokens : List Token}
    (h : m.Stocked below (.parenthesis splice :: waiting) bases depth)
    (hdepth : depthAfter? depth tokens = some depth')
    (hplaces : ∀ index amount, .place index ∈ tokens → context.place index = .ok amount → amount.Fruitful)
    (hrun : m.run context tokens = .ok m') :
    m.Confines context below.length tokens ∧
      m'.Stocked below (.parenthesis splice :: waiting) bases depth' := by
  induction tokens generalizing m depth with
  | nil =>
    cases hrun
    cases hdepth
    exact ⟨trivial, h⟩
  | cons token tokens ih =>
    obtain ⟨m₁, hstep, hrun⟩ := bind_eq_ok.1 hrun
    obtain ⟨between, hfirst, hdepth⟩ := depthAfter?_cons_eq_some hdepth
    obtain ⟨hfed, hstocked⟩ := h.step hfirst (fun index amount htoken =>
      hplaces index amount (htoken ▸ List.mem_cons_self ..)) hstep
    obtain ⟨hconfines, hend⟩ := ih hstocked hdepth (fun index amount hmem =>
      hplaces index amount (List.mem_cons_of_mem _ hmem)) hrun
    exact ⟨(confines_cons hstep).2 ⟨hfed, hconfines⟩, hend⟩

end

/-! ## Main statements -/

section

variable {context : Context} {front inside : List Token} {m₁ m : Machine} {depth : Nat}

/-- Behind a parenthesis that opens: it waits on top, and its base is on all that is there. -/
theorem opened_of_run (h : m.run context (front ++ [.opening]) = .ok m₁) :
    ∃ splice waiting bases, m₁.waiting = .parenthesis splice :: waiting ∧
      m₁.bases = m₁.values.length :: bases ∧ m₁.previous = some .opening := by
  induction front generalizing m with
  | nil =>
    obtain ⟨m₂, hstep, h⟩ := bind_eq_ok.1 h
    cases h
    obtain ⟨-, -, m₃, hread, rfl⟩ := exists_read_of_step hstep
    cases hread
    exact ⟨m.splicing, m.waiting, m.bases, rfl, rfl, rfl⟩
  | cons token front ih =>
    obtain ⟨m₂, -, h⟩ := bind_eq_ok.1 h
    exact ih h

/-- Operators stay inside their parentheses exactly if none of them is short of operands there. From the
moment a parenthesis or call opens, after any tokens, until it closes, the amounts that were there lie below
the others unchanged if and only if the tokens read so far confine their operators. When it closes, its base is
on as many amounts as there were, and those below the cut are the same ones under the same condition. The
condition holds if each place in the parenthesis stands for an amount that spreads at least one operand. -/
theorem below_kept_iff (hopen : Machine.run context {} (front ++ [.opening]) = .ok m₁)
    (hdepth : depthAfter? 0 inside = some depth) (hinside : m₁.run context inside = .ok m) :
    (m₁.values <:+ m.values ↔ m₁.Confines context m₁.values.length inside) ∧
      (∀ next m₂, depth = 0 → m.step context .closing next = .ok m₂ →
        m.bases.head? = some m₁.values.length ∧
        ∃ values waiting, reduceAll context.dry m.values m.waiting = .ok (values, waiting) ∧
          (values.drop (values.length - m₁.values.length) = m₁.values ↔
            m₁.Confines context m₁.values.length (inside ++ [.closing]))) ∧
      ((∀ index amount, .place index ∈ inside → context.place index = .ok amount → amount.Fruitful) →
        m₁.Confines context m₁.values.length inside ∧
        ∀ next m₂, depth = 0 → m.step context .closing next = .ok m₂ →
          m₁.Confines context m₁.values.length (inside ++ [.closing])) := by
  obtain ⟨splice, waiting, bases, hwaiting, hbases, hprevious⟩ := opened_of_run hopen
  have hrests : m₁.Rests m₁.values m₁.bases 0 := ⟨[], rfl, rfl, List.forall_mem_nil _, List.suffix_rfl⟩
  refine ⟨?_, fun next m₂ hclosed hstep => ?_, fun hplaces => ?_⟩
  · rcases hrests.run hdepth hinside with ⟨hconfines, -, -, -, -, hkept⟩ | ⟨hconfines, hspoiled⟩
    · exact iff_of_true hkept hconfines
    · exact iff_of_false hspoiled.not_suffix hconfines
  · subst hclosed
    obtain ⟨values, waiting', hsettle, -⟩ := effect_of_step hstep
    have hbase : m.bases.head? = some m₁.values.length := by
      rcases hrests.run hdepth hinside with ⟨-, opened, hsame, hnone, -⟩ |
        ⟨-, -, -, -, opened, hsame, hnone, -⟩
      all_goals rw [hsame, List.length_eq_zero_iff.1 hnone, List.nil_append, hbases, List.head?_cons]
    refine ⟨hbase, values, waiting', hsettle, ?_⟩
    rw [eq_comm, ← List.suffix_iff_eq_drop, confines_concat hinside]
    rcases hrests.run hdepth hinside with ⟨hconfines, -, -, -, -, hkept⟩ | ⟨hconfines, hspoiled⟩
    · rcases below_of_settle hsettle hkept with ⟨hfed, hkept⟩ | ⟨hstarves, low, -, hspoils⟩
      · exact iff_of_true hkept ⟨hconfines, hfed⟩
      · exact iff_of_false hspoils.not_suffix fun h => h.2 hstarves
    · obtain ⟨low, merged, ⟨between, taken, hbelow, hlonger⟩, -, -, -, -, hmerged⟩ := hspoiled
      obtain ⟨low', -, hspoils⟩ := spoils_of_settle hsettle ⟨between, taken, merged, hbelow, hmerged, hlonger⟩
      exact iff_of_false hspoils.not_suffix fun h => hconfines h.1
  · have hstores : Stores m₁.values m₁.waiting m₁.bases 0 (m₁.previous.any Token.endsOperand) m₁.values
        m₁.waiting m₁.bases := by
      rw [hprevious]
      exact ⟨[], [], [], m₁.values.length, rfl, rfl, rfl, rfl, List.forall_mem_nil _, .empty (Nat.le_refl _),
        Nat.le_refl _⟩
    have hstocked : m₁.Stocked m₁.values (.parenthesis splice :: waiting) m₁.bases 0 :=
      ⟨hwaiting ▸ hstores, fun _ => ⟨splice, waiting, hwaiting⟩⟩
    obtain ⟨hconfines, hend⟩ := hstocked.confines hdepth hplaces hinside
    refine ⟨hconfines, fun next m₂ _ hstep => (confines_concat hinside).2 ⟨hconfines, ?_⟩⟩
    obtain ⟨-, hfollows, -⟩ := exists_read_of_step hstep
    exact hend.not_starves fun hf => (hfollows hf).imp_right fun hempty => hempty.2.1

end

/-- The places of a die that is thrown and of one that no rule keeps, which spreads nothing. -/
def Context.ofDropped : Context where
  amount? index := ([
    { value := .int 1, breakdown := "1" },
    { value := .int 0, breakdown := "<del>3</del>", expanded := some [] }] : List Amount)[index]?
  dry := false

/-- In `1 + avg(1 + *p)`, where `p` spreads nothing, the second addition finds one operand in the call and
takes the other one from outside. The first addition is left with what the call gives. -/
theorem below_lost_of_empty_splice :
    let front := [.place "0", .operator .add, .name "avg"]
    let inside := [.place "0", .operator .add, .splice, .place "1"]
    ∃ m₁ m m₂, Machine.run .ofDropped {} (front ++ [.opening]) = .ok m₁ ∧ depthAfter? 0 inside = some 0 ∧
      m₁.run .ofDropped inside = .ok m ∧ m.step .ofDropped .closing none = .ok m₂ ∧
      m₁.Confines .ofDropped m₁.values.length inside ∧
      ¬m₁.Confines .ofDropped m₁.values.length (inside ++ [.closing]) ∧
      m₁.values.map Amount.breakdown = ["1"] ∧ m₂.values.map Amount.breakdown = ["avg()", "1 + 1"] := by
  have hread : readInt "0" = some 0 ∧ readInt "1" = some 1 := by decide +kernel
  have hthrown : Context.ofDropped.place "0" = .ok { value := .int 1, breakdown := "1" } := by
    rw [Context.place, hread.1]
    rfl
  have hdropped : Context.ofDropped.place "1" =
      .ok { value := .int 0, breakdown := "<del>3</del>", expanded := some [] } := by
    rw [Context.place, hread.2]
    rfl
  intro front inside
  let one : Amount := { value := .int 1, breakdown := "1" }
  let m₁ : Machine := {
    values := [one]
    waiting := [.parenthesis false, .function .avg, .operator .add]
    calls := [true]
    bases := [1]
    previous := some .opening }
  let m : Machine := { m₁ with
    values := [one, one]
    waiting := .operator .add :: m₁.waiting
    previous := some (.place "1") }
  have hopen : Machine.run .ofDropped {} (front ++ [.opening]) = .ok m₁ := by
    show (Machine.step .ofDropped {} (.place "0") (some (.operator .add)) >>= fun m =>
      m.run .ofDropped [.operator .add, .name "avg", .opening]) = _
    rw [step_place rfl hthrown]
    rfl
  have hinside : m₁.run .ofDropped inside = .ok m := by
    show (m₁.step .ofDropped (.place "0") (some (.operator .add)) >>= fun m =>
      m.run .ofDropped [.operator .add, .splice, .place "1"]) = _
    rw [step_place rfl hthrown]
    show (Machine.step .ofDropped { m with splicing := true, previous := some .splice } (.place "1") none >>=
      fun m => m.run .ofDropped []) = _
    rw [step_place rfl hdropped]
    rfl
  have hclose : ∃ m₂, m.step .ofDropped .closing none = .ok m₂ ∧
      m₂.values.map Amount.breakdown = ["avg()", "1 + 1"] := ⟨_, rfl, rfl⟩
  obtain ⟨m₂, hclose, hvalues⟩ := hclose
  obtain ⟨hkept, hcut, -⟩ := below_kept_iff hopen rfl hinside
  refine ⟨m₁, m, m₂, hopen, rfl, hinside, hclose, hkept.1 ⟨[one], rfl⟩, fun hconfines => ?_, rfl, hvalues⟩
  obtain ⟨-, values, waiting, hreduce, hsame⟩ := hcut none m₂ rfl hclose
  have hbelow := congrArg (List.map Amount.breakdown) (hsame.2 hconfines)
  cases hreduce
  revert hbelow
  decide

end RollTray.Formula
