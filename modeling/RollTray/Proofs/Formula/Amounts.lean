import RollTray.Proofs.Formula.Acceptance

/-!
# What holds of every amount

A property that numbers and places have and that operations, calls, parentheses and splices keep
(`Kept`) holds of every amount on the machine's stack, of the operands on it when an evaluation begins
and of its outcome (`Kept.step`, `Kept.run`, `Kept.evaluateTokens`).
-/

namespace RollTray.Formula

/-- A property of amounts that evaluation keeps. -/
structure Kept (context : Context) (P : Amount → Prop) : Prop where
  zero : P .zero
  place : ∀ index a, context.place index = .ok a → P a
  operands : ∀ a, P a → ∀ b ∈ a.operands, P b
  enclose : ∀ a, P a → P { a with breakdown := "(" ++ a.breakdown ++ ")" }
  apply : ∀ (op : Operator) a b r, P a → P b → op.apply context.dry a b = .ok r → P r
  call : ∀ (f : Function) arguments r, (∀ a ∈ arguments, P a) → f.apply arguments = .ok r → P r

namespace Kept

variable {context : Context} {P : Amount → Prop}

theorem reduce (hP : Kept context P) {taken : Operator → Bool} {values values' : List Amount}
    {waiting waiting' : List Waiting} (hvalues : ∀ a ∈ values, P a)
    (h : Formula.reduce context.dry taken values waiting = .ok (values', waiting')) :
    ∀ a ∈ values', P a := by
  replace h := reduces_of_reduce h
  induction h with
  | stops => exact hvalues
  | applies _ happly _ ih =>
    simp only [List.forall_mem_cons] at hvalues
    obtain ⟨hb, ha, hvalues⟩ := hvalues
    exact ih (List.forall_mem_cons.2 ⟨hP.apply _ _ _ _ ha hb happly, hvalues⟩)

theorem push (hP : Kept context P) {m : Machine} (hm : ∀ a ∈ m.values, P a) (splice : Bool)
    {a : Amount} (ha : P a) : ∀ b ∈ (m.push splice a).values, P b := by
  cases splice with
  | false => exact List.forall_mem_cons.2 ⟨ha, hm⟩
  | true =>
    show ∀ b ∈ a.operands.reverse ++ m.values, P b
    refine List.forall_mem_append.2 ⟨fun b hb => ?_, hm⟩
    exact hP.operands a ha b (List.mem_reverse.1 hb)

theorem enclosed (hP : Kept context P) {isCall splice : Bool} {waiting waiting' : List Waiting}
    {arguments : List Amount} {result : Amount} (harguments : ∀ a ∈ arguments, P a)
    (h : Formula.enclosed isCall splice waiting arguments = .ok (result, waiting')) :
    P result := by
  obtain ⟨-, f, -, hcall⟩ | ⟨-, -, hgroup⟩ := enclosed_eq_ok.1 h
  · exact hP.call _ _ _ harguments hcall
  · obtain ⟨inner, rfl, rfl⟩ := group_eq_ok.1 hgroup
    have hinner : P inner := harguments inner (List.mem_singleton_self inner)
    cases splice with
    | true => exact hinner
    | false => exact hP.enclose inner hinner

theorem leave (hP : Kept context P) {m m' : Machine} (hm : ∀ a ∈ m.values, P a)
    (h : m.leave = .ok m') : ∀ a ∈ m'.values, P a := by
  obtain ⟨splice, waiting, isCall, calls, base, bases, result, waiting', -, -, -, hresult, rfl⟩ :=
    exists_of_leave h
  refine hP.push (fun a ha => hm a (List.mem_of_mem_drop ha)) splice (hP.enclosed ?_ hresult)
  exact fun a ha => hm a (List.mem_of_mem_take (List.mem_reverse.1 ha))

/-- One token. -/
theorem read (hP : Kept context P) {m m' : Machine} {token : Token} {next : Option Token}
    (hnumber : ∀ digits, token = .number digits → P (numberAmount digits))
    (hm : ∀ a ∈ m.values, P a) (h : m.read context token next = .ok m') :
    ∀ a ∈ m'.values, P a := by
  cases token with
  | splice =>
    cases h
    exact hm
  | opening =>
    cases h
    exact hm
  | number digits =>
    cases h
    exact List.forall_mem_cons.2 ⟨hnumber digits rfl, hm⟩
  | place index =>
    obtain ⟨a, ha, h⟩ := bind_eq_ok.1 h
    cases h
    exact hP.push hm m.splicing (hP.place index a ha)
  | name letters =>
    obtain ⟨f, -, -, rfl⟩ := read_name_eq_ok.1 h
    exact hm
  | comma =>
    obtain ⟨values, waiting, hreduce, -, rfl⟩ := read_comma_eq_ok.1 h
    exact hP.reduce hm hreduce
  | operator op =>
    obtain ⟨⟨values, waiting⟩, hreduce, h⟩ := bind_eq_ok.1 h
    have hvalues := hP.reduce hm hreduce
    cases h
    exact hvalues
  | closing =>
    obtain ⟨⟨values, waiting⟩, hreduce, h⟩ := bind_eq_ok.1 h
    have hvalues := hP.reduce hm hreduce
    exact hP.leave (fun a ha => hvalues a ha) h

theorem step (hP : Kept context P) {m m' : Machine} {token : Token} {next : Option Token}
    (hnumber : ∀ digits, token = .number digits → P (numberAmount digits))
    (hm : ∀ a ∈ m.values, P a) (h : m.step context token next = .ok m') :
    ∀ a ∈ m'.values, P a := by
  obtain ⟨_, _, h⟩ := bind_eq_ok.1 h
  obtain ⟨m₁, hread, h⟩ := bind_eq_ok.1 h
  have hvalues := hP.read hnumber hm hread
  cases h
  exact hvalues

theorem run (hP : Kept context P) {m m' : Machine} {tokens : List Token}
    (hnumber : ∀ digits, .number digits ∈ tokens → P (numberAmount digits))
    (hm : ∀ a ∈ m.values, P a) (h : m.run context tokens = .ok m') : ∀ a ∈ m'.values, P a := by
  induction tokens generalizing m with
  | nil =>
    cases h
    exact hm
  | cons token tokens ih =>
    obtain ⟨m₁, hstep, h⟩ := bind_eq_ok.1 h
    refine ih (fun digits hd => hnumber digits (List.mem_cons_of_mem _ hd)) ?_ h
    exact hP.step (fun digits hd => hnumber digits (hd ▸ List.mem_cons_self ..)) hm hstep

/-- The amount of all tokens. -/
theorem evaluateTokens (hP : Kept context P) {tokens : List Token} {amount : Amount}
    (hnumber : ∀ digits, .number digits ∈ tokens → P (numberAmount digits))
    (h : Formula.evaluateTokens context tokens = .ok amount) : P amount := by
  obtain ⟨m, hrun, h⟩ := bind_eq_ok.1 h
  have hm : ∀ a ∈ m.values, P a := hP.run hnumber (List.forall_mem_nil P) hrun
  obtain ⟨-, values, hreduce, houtcome⟩ := finish_eq_ok.1 h
  have hvalues := hP.reduce hm hreduce
  obtain ⟨rfl, rfl⟩ | rfl := outcome_eq_ok.1 houtcome
  · exact hP.zero
  · exact hvalues _ (List.mem_singleton_self _)

end Kept

end RollTray.Formula
