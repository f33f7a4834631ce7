import RollTray.Proofs.Tray.Clearing
import RollTray.Proofs.Tray.Evicting
import RollTray.Proofs.Tray.Reentry

/-!
# Rolling again

A roll keeps the groups and the template of the formula that was compiled for it, and a text to
show, which is the formula or a label (`documented_of_reach`). To roll it again that text is
compiled. So rolls without a label are rolled again with the same groups and template, and one with
a label is just if the label happens to be a formula for the same (`rerolled_of_reach`).
-/

namespace RollTray

/-- The text that a record shows compiles to its groups and its template. -/
def Record.Recompiles (r : Record) : Prop :=
  ∃ shown compiled, r.formula = .text shown ∧ Formula.compile shown = .ok compiled ∧
    r.groups = compiled.terms.map Group.ofTerm ∧ r.template = .text compiled.template

/-- A record of the same groups and template. -/
def Record.SameDice (r r' : Record) : Prop :=
  r.groups = r'.groups ∧ r.template = r'.template

/-- A record of a formula that was compiled and fits on the tray. It shows the formula or a
label. -/
structure Record.Documented (labels : Set String) (c : Config) (r : Record) : Prop where
  id : ∃ n, r.id = .int n
  source : ∃ source compiled shown, Formula.compile source = .ok compiled ∧
    compiled.physicalCount ≤ c.maxDice ∧ r.formula = .text shown ∧
    (shown = source ∨ shown ∈ labels) ∧ r.groups = compiled.terms.map Group.ofTerm ∧
    r.template = .text compiled.template

namespace Tray

open Attempt (Keeps)

variable {ω : Type}

/-- All rolls are documented in a tray of a configuration. -/
structure Documented (labels : Set String) (c : Config) (t : Tray ω) : Prop where
  config : t.config = c
  records : ∀ r ∈ t.history ++ t.active, r.record.Documented labels c

variable [World ω] {F : Footing ω} {labels : Set String} {c : Config} {t t' : Tray ω}

namespace Documented

omit [World ω] in
theorem around (h : Documented labels c t) (config : t'.config = t.config)
    (history : t'.history = t.history) (active : t'.active = t.active) :
    Documented labels c t' where
  config := config.trans h.config
  records := by
    rw [history, active]
    exact h.records

omit [World ω] in
/-- Fewer rolls are documented as well. -/
theorem fewer (h : Documented labels c t) {history active : List Roll}
    (hhistory : history.Sublist t.history) (hactive : active.Sublist t.active) :
    Documented labels c { t with history, active } where
  config := h.config
  records r hr := h.records r ((hhistory.append hactive).subset hr)

omit [World ω] in
theorem settle (h : Documented labels c t) {id : Value} {r : Roll} (hfind : t.find? id = some r)
    (serial : Nat) (dice : List Die) :
    Documented labels c (t.write serial (Dice.resolve r.record dice).2) where
  config := h.config
  records := by
    have hr := h.records r (List.mem_append_left _ (find?_id hfind).1)
    obtain ⟨results, result, breakdown, hresolve⟩ := Dice.exists_resolve r.record dice
    intro x hx
    rw [hresolve] at hx
    obtain ⟨y, hy, rfl⟩ := mem_write.1 hx
    unfold Roll.put
    split
    · exact ⟨hr.id, hr.source⟩
    · exact h.records y hy

theorem conduct : Conduct (fun id => ∃ n, id = .int n) (Documented (ω := ω) labels c) :=
  .of_rolls (fun h r hr => (h.records r hr).id)
    (fun h config _ _ history active _ _ => h.around config history active)
    (fun {_ id _} h _ _ => keeps_raiseWatermark (fun _ h => h.around rfl rfl rfl) id _
      (h.fewer (List.Sublist.refl _) List.eraseP_sublist))
    (fun h hfind _ dice => h.settle hfind _ dice)

end Documented

/-! ## Operations -/

/-- Rolls are documented, and dice are made as a formula says. -/
def WellMade (labels : Set String) (c : Config) (t : Tray ω) : Prop :=
  Documented labels c t ∧ Shaped t

namespace WellMade

theorem conduct : Conduct (fun id => ∃ n, id = .int n) (WellMade (ω := ω) labels c) :=
  Documented.conduct.and upkeep_shaped.conduct

omit [World ω] in
theorem fewer (h : WellMade labels c t) {history : List Roll}
    (hsublist : history.Sublist t.history) : WellMade labels c { t with history } :=
  ⟨h.1.fewer hsublist (List.Sublist.refl _), h.2.around rfl rfl rfl⟩

omit [World ω] in
theorem begun (h : WellMade labels c t) {source shown : String} {compiled : Formula.Compiled}
    (hcompiled : Formula.compile source = .ok compiled) (hshown : shown = source ∨ shown ∈ labels)
    (hfits : compiled.physicalCount ≤ c.maxDice) :
    WellMade labels c (t.begun (t.upcoming shown compiled)) := by
  refine ⟨⟨h.1.config, fun r hr => ?_⟩, h.2.around rfl rfl rfl⟩
  rcases mem_begun.1 hr with rfl | hr
  · exact ⟨⟨_, rfl⟩, source, compiled, shown, hcompiled, hfits, rfl, hshown, rfl, rfl⟩
  · exact h.1.records r hr

variable {notify : Notify ω}
  (hn : ∀ event r, (∃ n, r.id = .int n) → Keeps (WellMade labels c) (notify event r))

include hn

theorem launch {source shown : String} {compiled : Formula.Compiled}
    (hcompiled : Formula.compile source = .ok compiled) (hshown : shown = source ∨ shown ∈ labels)
    (hfits : compiled.physicalCount ≤ c.maxDice) :
    Keeps (WellMade labels c) (launch notify shown compiled) := by
  refine conduct.launch hn (fun h => h.fewer) (fun id total places => ?_) fun h => h.begun hcompiled hshown hfits
  exact Keeps.and (keeps_schedule (fun _ _ _ h => Documented.around h rfl rfl rfl) id total 0 0 places)
    (upkeep_shaped.schedule id total 0 0 places)

theorem offersAs :
    OffersAs (fun source shown => shown = source ∨ shown ∈ labels) notify (WellMade labels c) where
  chance _ := .within fun _ h => ⟨h.1.around rfl rfl rfl, h.2.around rfl rfl rfl⟩
  formula _ := .of_modify fun _ h => ⟨h.1.around rfl rfl rfl, h.2.around rfl rfl rfl⟩
  launch hcompiled hshown _ h hfits := launch hn hcompiled hshown (h.1.config ▸ hfits) _ h
  cancel n := conduct.cancel hn ⟨n, rfl⟩
  clearTray := conduct.clearTray hn fun h => ⟨h.1.around rfl rfl rfl, h.2.around rfl rfl rfl⟩
  clearHistory := keeps_clearHistory (fun h => h.fewer) (conduct.prune hn)
  prune := conduct.prune hn

theorem operation (op : Operation) (labeled : op.LabeledIn labels) :
    Keeps (WellMade labels c) (op.attempt notify) := by
  refine (offersAs hn).operation (fun _ => .inl rfl) op ?_ fun _ => ?_
  · rintro source compiled hcompiled label rfl
    split
    · exact .inl rfl
    · next hne => exact .inr (labeled.resolve_left hne)
  · have hpoll : Keeps (WellMade (ω := ω) labels c) poll :=
      Keeps.and (fun _ h => h.around rfl rfl rfl) Shaped.poll
    exact conduct.tick hn hpoll

end WellMade

/-- Whoever interferes, all rolls are documented, by the labels that they are given. -/
theorem documented_of_reach (run : ReachLabeled F labels t t') (h : WellMade labels c t) :
    WellMade labels c t' :=
  run.keeps (fun _ _ _ _ h => ⟨h.1.around rfl rfl rfl, h.2.around rfl rfl rfl⟩)
    (fun op _ labeled hn => WellMade.operation hn op labeled) h

/-! ## Rolling -/

variable {S : Setting ω} {owed : Owed} {notify : Notify ω} {start : Int} {r : Roll} {new : Record}

/-- The record of a roll that begins has an id that no roll had before. -/
theorem exists_of_launch (hn : Heeds S notify) (hexact : ¬S.Exact) (ho : Orderly S owed t)
    {shown : String} {compiled : Formula.Compiled}
    (h : (launch notify shown compiled).perform t = (.ok new, t')) :
    ∃ n, t.nextId ≤ n ∧ new = Record.ofCompiled n shown compiled := by
  obtain ⟨t₁, _, _, hmake, -, -, -, hnew⟩ := launch_eq_ok h
  obtain ⟨owed₁, trace, -⟩ := makeRoom_does hn compiled.physicalCount
    (t.active.length + patience) ho fun h => absurd h hexact
  rw [hmake] at trace
  exact ⟨t₁.nextId, trace.nextId_le, hnew⟩

/-- To roll a roll in history again is to roll the text that it shows. -/
theorem reroll_of_mem (ho : Orderly S owed t) (hr : r ∈ t.history) {shown : String}
    (hshown : r.record.formula = .text shown) :
    (reroll notify r.id).perform t = (some <$> roll notify shown).perform t := by
  have hfind := find?_of_mem ho hr
  rw [← ho.id_eq (List.mem_append_left _ hr)] at hfind
  rw [reroll, Attempt.perform_bind_of_ok (Attempt.perform_get t), hfind]
  dsimp only
  rw [hshown]
  rfl

/-- To roll a formula that compiles and fits is to begin a roll that shows it. -/
theorem roll_perform {shown : String} {compiled : Formula.Compiled}
    (hcompiled : Formula.compile shown = .ok compiled) : (roll notify shown).perform t =
      if t.config.maxDice < compiled.physicalCount then
        (.error (refusal shown compiled.physicalCount t.config.maxDice),
          { t with formula := shown })
      else (launch notify shown compiled).perform { t with formula := shown } := by
  have hcompile : (liftM (Formula.compile shown) : Attempt (Tray ω) Formula.Compiled).perform t =
      (.ok compiled, t) := by
    rw [hcompiled]
    rfl
  have hshow : (if shown = "" then compiled.formula else shown) = shown := by
    rw [formula_of_compile hcompiled, ite_self]
  rw [roll, Attempt.perform_bind_of_ok hcompile,
    Attempt.perform_bind_of_ok (Attempt.perform_modify _ t), beginRoll,
    Attempt.perform_bind_of_ok (Attempt.perform_get _), hshow]
  dsimp only
  split <;> rfl

theorem exists_of_roll (hn : Heeds S notify) (hexact : ¬S.Exact) (ho : Orderly S owed t)
    {shown : String} (h : (roll notify shown).perform t = (.ok new, t')) :
    ∃ compiled n, Formula.compile shown = .ok compiled ∧ t.nextId ≤ n ∧
      new = Record.ofCompiled n shown compiled := by
  cases hcompiled : Formula.compile shown with
  | error fault =>
    rw [roll, hcompiled] at h
    cases h
  | ok compiled =>
    rw [roll_perform hcompiled] at h
    split at h
    · cases h
    · obtain ⟨n, hle, hnew⟩ :=
        exists_of_launch hn hexact (ho.around _ _ _ _ _ _ _ ho.holds ho.quiet) h
      exact ⟨compiled, n, rfl, hle, hnew⟩

/-- What is rolled again gets a new id, and has the same groups and template just if the text that
the roll shows compiles to them. -/
theorem again_of_reroll (hn : Heeds S notify) (hexact : ¬S.Exact) (ho : Orderly S owed t)
    (hr : r ∈ t.history) {shown : String} (hshown : r.record.formula = .text shown)
    (h : (reroll notify r.id).perform t = (.ok (some new), t')) :
    IsNew t new.id ∧ (new.SameDice r.record ↔ r.record.Recompiles) := by
  rw [reroll_of_mem ho hr hshown, Attempt.perform_map] at h
  split at h
  · next hroll =>
    cases h
    obtain ⟨compiled, n, hcompiled, hle, rfl⟩ := exists_of_roll hn hexact ho hroll
    refine ⟨⟨n, rfl, fun x hx => ⟨_, ho.id_eq hx, ?_⟩⟩, fun h => ?_, ?_⟩
    · have hlt := (ho.issued x hx).1
      have hnext := ho.nextId
      omega
    · exact ⟨shown, compiled, hshown, hcompiled, h.1.symm, h.2.symm⟩
    · rintro ⟨shown', compiled', hshown', hcompiled', hgroups, htemplate⟩
      obtain rfl := Value.text.inj (hshown.symm.trans hshown')
      cases hcompiled.symm.trans hcompiled'
      exact ⟨hgroups.symm, htemplate.symm⟩
  · cases h

/-! ## Rolling again -/

theorem Orderly.not_same_nextId (ho : Orderly S owed t) (hr : r ∈ t.active) :
    r.id.same (.int t.nextId) = false := by
  obtain ⟨n, hid, hlt⟩ := ho.issued_of_active hr
  rw [hid, Value.same_int, decide_eq_false (Int.ne_of_lt hlt)]

/-- Where listeners only look on now, nobody interferes with what follows. -/
theorem Orderly.undisturbed (ho : Orderly (amid F start) owed t) (quiet : Onlookers t.listeners) :
    Orderly (undisturbed F start) owed t where
  nextId := ho.nextId
  issued := ho.issued
  sound := ho.sound
  history := ho.history
  active := ho.active
  agree := ho.agree
  watermark := ho.watermark
  pending := ho.pending
  dice := ho.dice
  holds := holds_undisturbed.2 (holds_amid.1 ho.holds)
  quiet := quiet
  unused := ho.unused
  accounted hcounted := absurd hcounted.1 not_exact_undisturbed

omit [World ω] in
/-- Formulas for the same groups need as many dice. -/
theorem physicalCount_congr {compiled compiled' : Formula.Compiled}
    (h : compiled.terms.map Group.ofTerm = compiled'.terms.map Group.ofTerm) :
    compiled.physicalCount = compiled'.physicalCount := by
  have hsites := sites_of_groups (r := Record.ofCompiled 0 "" compiled) rfl
  rw [sites_of_groups (r := Record.ofCompiled 0 "" compiled) h] at hsites
  have hlength := congrArg List.length hsites
  rw [List.length_map, List.length_map, length_places, length_places] at hlength
  exact hlength.symm

/-- A roll is rolled again as a new roll with the same groups and template. -/
def Rerolls (t : Tray ω) (r : Roll) : Prop :=
  ∃ r' t', (reroll announce r.id).perform t = (.ok (some r'.record), t') ∧ IsNew t r'.id ∧
    r'.record.SameDice r.record ∧
    (1 ≤ t.config.maxHistory → t'.history.head? = some r' ∧ r' ∈ t'.active)

/-- Where listeners only look on, a roll is rolled again if it recompiles. -/
theorem rerolls_of_recompiles (ho : Orderly (undisturbed F start) owed t)
    (hqueued : Queued t.nextThrow t.pending.toList) (hr : r ∈ t.history)
    (hdocumented : r.record.Documented labels t.config) (h : r.record.Recompiles) :
    Rerolls t r := by
  obtain ⟨shown, compiled, hshown, hcompiled, hgroups, -⟩ := id h
  obtain ⟨-, source, compiled', -, -, hneeded, -, -, hgroups', -⟩ := hdocumented
  have hfits : compiled.physicalCount ≤ t.config.maxDice := by
    rwa [physicalCount_congr (hgroups.symm.trans hgroups')]
  have ho' : Orderly (undisturbed F start) owed { t with formula := shown } :=
    ho.around _ _ _ _ _ _ _ ho.holds ho.quiet
  obtain ⟨r', t', hlaunch, hstarted⟩ := launch_returns (Firm.of_orderly ho')
    (fun r hr => ho.sound r (List.mem_append_right _ hr)) (fun _ => ho.not_same_nextId) hqueued
    shown hfits
  have hreroll : (reroll announce r.id).perform t = (.ok (some r'.record), t') := by
    rw [reroll_of_mem ho hr hshown, Attempt.perform_map, roll_perform hcompiled,
      if_neg (Int.not_lt.2 hfits), hlaunch]
  obtain ⟨hnew, hsame⟩ :=
    again_of_reroll heeds_undisturbed not_exact_undisturbed ho hr hshown hreroll
  exact ⟨r', t', hreroll, hnew, hsame.2 h, hstarted⟩

/-- A roll that shows no label is rolled again with the same groups and template, as a new roll. One
with a label is just if the label compiles to them. So it is where listeners only look on, and
whoever interferes, what is rolled again is a new roll and has the same dice just then. -/
theorem rerolled_of_reach {t₀ : Tray ω} (fresh : Fresh t₀) (holds : F.holds t₀.world [])
    (run : ReachLabeled F labels t₀ t) (hr : r ∈ t.history) :
    ((∀ label ∈ labels, r.record.formula ≠ .text label) → r.record.Recompiles) ∧
    (Onlookers t.listeners → (Rerolls t r ↔ r.record.Recompiles)) ∧
    ∀ notify new t', Reacts F notify → (reroll notify r.id).perform t = (.ok (some new), t') →
      IsNew t new.id ∧ (new.SameDice r.record ↔ r.record.Recompiles) := by
  have hdocumented₀ : Documented labels t₀.config t₀ := by
    refine ⟨rfl, fun r hr => ?_⟩
    rw [fresh.history, fresh.active] at hr
    nomatch hr
  obtain ⟨hdocumented, hshaped⟩ := documented_of_reach run ⟨hdocumented₀, fresh.shaped⟩
  have ho₀ : Orderly (amid F t₀.nextId) (fun _ => []) t₀ :=
    fresh.orderly rfl (holds_amid.2 holds) trivial
  obtain ⟨owed, trace⟩ := run.trace ho₀
  have ho := trace.orderly ho₀
  have hrecord := hdocumented.records r (List.mem_append_left _ hr)
  obtain ⟨-, source, compiled, shown, hcompiled, -, hshown, hlabel, hsame⟩ := id hrecord
  refine ⟨fun hnone => ?_, fun hquiet => ⟨?_, fun h => ?_⟩,
    fun notify new t' hreacts hreroll => ?_⟩
  · obtain rfl := hlabel.resolve_right fun hmem => hnone shown hmem hshown
    exact ⟨shown, compiled, hshown, hcompiled, hsame⟩
  · rintro ⟨r', t', hreroll, -, hsame, -⟩
    have ho := ho.undisturbed hquiet
    exact (again_of_reroll heeds_undisturbed not_exact_undisturbed ho hr hshown hreroll).2.1 hsame
  · exact rerolls_of_recompiles (ho.undisturbed hquiet) hshaped.queued hr
      (hdocumented.config ▸ hrecord) h
  · exact again_of_reroll hreacts.heeds not_exact_amid ho hr hshown hreroll

/-- The formula for two dice. -/
def twoDice : Formula.Compiled :=
  { terms := [⟨.d6, 2, none⟩], template := "__G0__", formula := "2d6" }

theorem compile_twoDice : Formula.compile "2d6" = .ok twoDice :=
  toOption_eq_some.1 (by decide +kernel)

/-- The text that a record shows, if it is one. -/
def shown? : Value → Option String
  | .text shown => some shown
  | _ => none

theorem shown?_eq_some {v : Value} {shown : String} (h : shown? v = some shown) :
    v = .text shown := by
  unfold shown? at h
  split at h <;> cases h
  rfl

/-- The roll with a label that is no formula cannot be rolled again, the one after it can. -/
theorem rerolled_after_label :
    ∃ t plain labeled,
      performAll announce [.beginRoll "2d6" twoDice compile_twoDice "advantage", .roll "d20"]
        vacant = some t ∧
      t.history = [plain, labeled] ∧ Rerolls t plain ∧ ¬Rerolls t labeled := by
  have hshown :
      (performAll announce
        [.beginRoll "2d6" twoDice compile_twoDice "advantage", .roll "d20"] vacant).map
          (fun t => t.history.map fun r => shown? r.record.formula) =
        some [some "d20", some "advantage"] := by decide +kernel
  obtain ⟨t, ht, hshown⟩ := Option.map_eq_some_iff.1 hshown
  obtain ⟨plain, rest, hhistory, hplain, hrest⟩ := List.map_eq_cons_iff.1 hshown
  obtain ⟨labeled, hrest, hlabeled⟩ := List.map_eq_singleton_iff.1 hrest
  rw [hrest] at hhistory
  have hplain := shown?_eq_some hplain
  have hlabeled := shown?_eq_some hlabeled
  have run : Undisturbed ScriptedWorld.footing vacant t := undisturbed_of_performAll ht
  obtain ⟨_, ho⟩ :=
    (run.intact (fresh_vacant.intact (ScriptedWorld.bears_nil _) onlookers_vacant)).orderly
  have hlabels : ∀ op ∈ [.beginRoll "2d6" twoDice compile_twoDice "advantage", .roll "d20"],
      Operation.LabeledIn {"advantage"} op := by
    simp [Operation.LabeledIn]
  have rerolled (r : Roll) (hr : r ∈ t.history) :=
    rerolled_of_reach (F := ScriptedWorld.footing) fresh_vacant (ScriptedWorld.bears_nil _)
      (reachLabeled_of_performAll hlabels .refl ht) hr
  refine ⟨t, plain, labeled, ht, hhistory, ?_, fun h => ?_⟩
  · obtain ⟨hrecompiles, hrerolls, -⟩ := rerolled plain (by simp [hhistory])
    exact (hrerolls ho.quiet).2 (hrecompiles (by simp [hplain]))
  · obtain ⟨-, hrerolls, -⟩ := rerolled labeled (by simp [hhistory])
    obtain ⟨shown, compiled, heq, hcompiled, -⟩ := (hrerolls ho.quiet).1 h
    obtain rfl := Value.text.inj (hlabeled.symm.trans heq)
    have hnone : (Formula.compile "advantage").toOption = none := by decide +kernel
    rw [hcompiled] at hnone
    exact Option.some_ne_none _ hnone

end Tray

end RollTray
