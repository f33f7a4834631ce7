import RollTray.Proofs.Tray.Keeping
import RollTray.Proofs.Tray.Runs

/-!
# Operations that may fail

`Undisturbed` relates a tray to those that can come after it while listeners only look on, whatever
comes of the operations. `Undisturbed.intact` says that all these trays are orderly and that their
active rolls are in history. Where rolls leave the history, in the middle of operations, active ones
among them are canceled at once, and nothing stops that (`prune_listed`).
-/

namespace RollTray.Tray

open Attempt (Keeps)

variable {ω : Type} [World ω]

/-- The trays that can come after one while listeners only look on. Operations are made, with any
outcome. In between the bodies, the source of chance and the listeners may change, as long as the world
keeps up its dice. -/
inductive Undisturbed (F : Footing ω) : Tray ω → Tray ω → Prop where
  | refl {t} : Undisturbed F t t
  /-- An operation, whether it returns or not. -/
  | act {t t'} (undisturbed : Undisturbed F t t') (op : Operation) :
      Undisturbed F t ((op.attempt announce).perform t').2
  /-- Something is done to the bodies, to the source of chance or about the listeners. -/
  | outside {t t'} (undisturbed : Undisturbed F t t') (world : ω) (chance : Chance)
      (listeners : Event → List Listener)
      (holds : F.holds t'.world (t'.dice.map Die.handle) → F.holds world (t'.dice.map Die.handle))
      (quiet : Onlookers listeners) : Undisturbed F t { t' with world, chance, listeners }

/-- The setting of trays in a world that keeps up their dice, with listeners that only look on. -/
def undisturbed (F : Footing ω) (start : Int) : Setting ω where
  start
  footing? := some F
  quiet := Onlookers

variable {F : Footing ω} {start : Int} {owed : Owed} {t t' : Tray ω}

theorem not_exact_undisturbed : ¬(undisturbed F start).Exact := fun h => nomatch h

theorem holds_undisturbed {w : ω} {handles : List Nat} :
    (undisturbed F start).Holds w handles ↔ F.holds w handles :=
  ⟨fun h => h F rfl, fun h F' hF' => by cases hF'; exact h⟩

theorem heeds_undisturbed : Heeds (undisturbed F start) announce where
  exact h := absurd h not_exact_undisturbed
  loose _ event r t owed _ ho := by
    obtain ⟨listeners, notices, hquiet, hpassing, hperform⟩ := announce_onlookers event r ho.quiet
    rw [hperform]
    have hnoted : Orderly (undisturbed F start) owed (t.noted event r) :=
      ho.around _ _ _ _ _ _ _ ho.holds ho.quiet
    exact ⟨owed, (Change.around_journal hnoted listeners _ hquiet
      (.inr ⟨notices, rfl, hpassing⟩)).trace fun _ => rfl⟩

/-! ## Active rolls in history -/

/-- Active rolls are in history, and listeners only look on. -/
structure Open (t : Tray ω) : Prop where
  listed : Listed t
  quiet : Onlookers t.listeners

theorem takeOff_perform_snd (taken : Die → Bool) (t : Tray ω) :
    ∃ world dice, ((takeOff taken).perform t).2 = { t with world, dice } := by
  let Beside (s : Tray ω) : Prop := ∃ world dice, s = { t with world, dice }
  have hworld : ∀ s, Beside s → ∀ world, Beside { s with world } := by
    rintro _ ⟨_, dice, rfl⟩ world
    exact ⟨world, dice, rfl⟩
  have hkeeps : Keeps Beside (takeOff taken) := by
    refine .get fun s hs => Keeps.bind (I := Beside) (.forM fun d _ => ?_) (fun _ => .of_modify ?_) s hs
    · split
      · exact .within fun s hs => hworld s hs _
      · exact .pure _
    · rintro _ ⟨world, dice, rfl⟩
      exact ⟨world, _, rfl⟩
  exact hkeeps t ⟨t.world, t.dice, rfl⟩

/-- What is said of rolls, ids and listeners alone is kept by canceling and ticks if it is where a watermark
is raised for a roll that is not active any more, and where a roll gets its result. -/
theorem Conduct.of_rolls {P : Value → Prop} {I : Tray ω → Prop}
    (known : ∀ {t}, I t → ∀ r ∈ t.history ++ t.active, P r.id)
    (around : ∀ {t t'}, I t → t'.config = t.config → t'.nextId = t.nextId →
      t'.nextSerial = t.nextSerial → t'.history = t.history → t'.active = t.active →
      t'.watermark = t.watermark → t'.listeners = t.listeners → I t')
    (raise : ∀ {t id r}, I t → P id → Roll.find? id t.active = some r →
      I ((raiseWatermark id).perform
        { t with active := t.active.eraseP fun other => other.id.same id }).2)
    (settle : ∀ {t id r}, I t → t.find? id = some r → r.record.resolved = false →
      ∀ dice, I (t.write r.serial (Dice.resolve r.record dice).2)) : Conduct P I := by
  have htake (taken : Die → Bool) : Keeps I (Tray.takeOff taken) := by
    intro t h
    obtain ⟨world, dice, hperform⟩ := takeOff_perform_snd taken t
    rw [hperform]
    exact around h rfl rfl rfl rfl rfl rfl rfl
  have hbeside {t : Tray ω} (h : I t) (world : ω) (chance : Chance) (clock : Float) (formula : String)
      (pending : Array (Nat × Throw)) (dice : List Die) :
      I { t with world, chance, clock, formula, pending, dice } :=
    around h rfl rfl rfl rfl rfl rfl rfl
  exact {
    known := known
    around := fun {t} chance clock formula h => hbeside h t.world chance clock formula t.pending t.dice
    depart := fun {t id r} h hid hfind => by
      rw [depart, Attempt.perform_bind_of_ok (Attempt.perform_modify _ t)]
      exact Keeps.bind_from (raise h hid hfind) (fun _ h => h) fun _ => htake _
    orphan := fun h _ => htake _ _ h
    takeOff := htake
    throwNext := fun {t _ throw} h _ _ => by
      have hrelease : Keeps I (release throw) := by
        refine Keeps.bind (.within fun t h => hbeside h _ _ _ _ _ _) fun _ => ?_
        refine Keeps.bind (.within fun t h => hbeside h _ _ _ _ _ _) fun _ => ?_
        exact .get fun t h => hbeside h _ _ _ _ _ _
      have htaken : Keeps I (takeThrow (ω := ω)) := .within fun t h => hbeside h _ _ _ _ _ _
      exact htaken.bind (fun _ => keeps_throwDie hrelease) t h
    step := fun _ => .within fun t h => hbeside h _ _ _ _ _ _
    settle := fun h hfind hresolved _ => settle h hfind hresolved _ }

/-- As long as no roll leaves the history, active rolls stay in it. -/
theorem upkeep_open : Upkeep (Open (ω := ω)) where
  around h _ _ _ _ hhistory hactive hlisteners _ :=
    ⟨fun r hr => hhistory ▸ h.listed r (hactive ▸ hr), hlisteners ▸ h.quiet⟩
  leave _ h hsublist := ⟨fun r hr => h.listed r (hsublist.subset hr), h.quiet⟩
  begin r h := by
    refine ⟨fun r' hr' => ?_, h.quiet⟩
    rcases List.mem_append.1 hr' with hr' | hr'
    · exact List.mem_cons_of_mem _ (h.listed r' hr')
    · rw [List.mem_singleton.1 hr']
      exact List.mem_cons_self ..
  write serial record h := ⟨h.listed.write serial record, h.quiet⟩
  takeOff taken t h := by
    obtain ⟨world, dice, hperform⟩ := takeOff_perform_snd taken t
    rw [hperform]
    exact ⟨h.listed, h.quiet⟩
  addThrow _ _ := keeps_addThrow (fun _ _ h => ⟨h.listed, h.quiet⟩) _
  throwNext h _ _ := by
    refine Keeps.bind (.within fun _ h => ⟨h.listed, h.quiet⟩) (fun _ => keeps_throwDie ?_) _ h
    refine Keeps.bind (.within fun _ h => ⟨h.listed, h.quiet⟩) fun _ => ?_
    exact .bind (.within fun _ h => ⟨h.listed, h.quiet⟩) fun _ => .get fun _ h => ⟨h.listed, h.quiet⟩
  step _ := .within fun _ h => ⟨h.listed, h.quiet⟩

/-- Listeners that only look on do not matter to what is said of the rest of the tray. -/
theorem keeps_announce {I : Tray ω → Prop} (quiet : ∀ {t}, I t → Onlookers t.listeners)
    (heard : ∀ {t} (listeners : Event → List Listener) (journal : List Notice), I t →
      Onlookers listeners → I { t with listeners, journal })
    (event : Event) (r : Record) : Keeps I (announce event r) := by
  intro t h
  obtain ⟨listeners, notices, hquiet, _, hperform⟩ := announce_onlookers event r (quiet h)
  rw [hperform]
  exact heard (t := t) listeners _ h hquiet

theorem Open.announce (event : Event) (r : Record) : Keeps (Open (ω := ω)) (announce event r) :=
  keeps_announce (fun h => h.quiet) (fun _ _ h hquiet => ⟨h.listed, hquiet⟩) event r

/-! ## Rolls that leave the history -/

variable {S : Setting ω} {notify : Notify ω}

/-- Where nobody interferes a roll is canceled without fail. -/
theorem cancel_observed (hexact : ¬S.Exact) (hn : Observes S.quiet notify) (ho : Orderly S owed t)
    (n : Int) : ∃ answer t', (cancel notify (.int n)).perform t = (.ok answer, t') ∧
      Orderly S owed t' ∧ Canceled t [.int n] t' := by
  cases hfind : Roll.find? (.int n) t.active with
  | none =>
    obtain ⟨hperform, hne⟩ := cancel_of_not_found notify hfind
    refine ⟨false, t, hperform, ho, rfl, fun r hr => ⟨hr, ?_⟩⟩
    rintro _ (_ | ⟨_, ⟨⟩⟩)
    exact hne r hr
  | some r =>
    obtain ⟨mem, hsame⟩ := find?_id hfind
    have hserial := ho.eq_of_same (List.mem_append_right _ mem) hsame
    obtain ⟨watermark, world, _, hchange, hperform | ⟨h, _⟩⟩ := cancel_perform notify ho hfind
    · have ho' := (hchange [] (.inl rfl)).orderly ho
      obtain ⟨listeners, journal, hquiet, hnotify⟩ := hn .canceled r.record _ ho'.quiet
      rw [List.append_nil] at hnotify
      refine ⟨true, _, hperform.trans (Attempt.perform_bind_of_ok hnotify),
        ho'.around _ _ _ _ _ _ _ ho'.holds hquiet, rfl, fun r' hr' => ?_⟩
      obtain ⟨hr', hne⟩ := mem_filter_serial.1 hr'
      refine ⟨hr', ?_⟩
      rintro _ (_ | ⟨_, ⟨⟩⟩) hid
      rw [ho.id_eq (List.mem_append_right _ hr'), hserial] at hid
      have := Value.int.inj hid
      omega
    · exact absurd h hexact

theorem cancelAll_observed (hexact : ¬S.Exact) (hn : Observes S.quiet notify)
    (ho : Orderly S owed t) {rolls : List Roll} (hids : ∀ r ∈ rolls, ∃ n, r.id = .int n) :
    ∃ t', (cancelAll notify rolls).perform t = (.ok (), t') ∧ Orderly S owed t' ∧
      Canceled t (rolls.map Roll.id) t' := by
  induction rolls generalizing t with
  | nil => exact ⟨t, rfl, ho, rfl, fun r hr => ⟨hr, fun _ h => nomatch h⟩⟩
  | cons first rest ih =>
    obtain ⟨n, hid⟩ := hids first (List.mem_cons_self ..)
    obtain ⟨answer, t₁, hfirst, ho₁, hhistory₁, hactive₁⟩ := cancel_observed hexact hn ho n
    obtain ⟨t₂, hrest, ho₂, hhistory₂, hactive₂⟩ :=
      ih ho₁ fun r hr => hids r (List.mem_cons_of_mem _ hr)
    refine ⟨t₂, ?_, ho₂, hhistory₂.trans hhistory₁, fun r hr => ?_⟩
    · have hdiscard : (discard (cancel notify first.id)).perform t = (.ok (), t₁) := by
        rw [Attempt.perform_discard, hid, hfirst]
      rw [cancelAll, List.forM, Attempt.perform_bind_of_ok hdiscard]
      exact hrest
    · obtain ⟨hr, hlater⟩ := hactive₂ r hr
      obtain ⟨hr, hnow⟩ := hactive₁ r hr
      refine ⟨hr, fun id hmem => ?_⟩
      rcases List.mem_cons.1 hmem with rfl | hmem
      · exact hnow _ (hid ▸ List.mem_cons_self ..)
      · exact hlater id hmem

/-- Whatever left the history, active rolls are in it after the tray was pruned. -/
theorem prune_listed (hexact : ¬S.Exact) (hn : Observes S.quiet notify) (ho : Orderly S owed t) :
    Listed ((prune notify).perform t).2 := by
  rw [prune, Attempt.perform_bind_of_ok (Attempt.perform_get t)]
  have hids : ∀ r ∈ t.active.filter (fun r => !r.id.among (t.history.map Roll.id)),
      ∃ n, r.id = .int n := fun r hr =>
    ⟨_, ho.id_eq (List.mem_append_right _ (List.mem_filter.1 hr).1)⟩
  obtain ⟨t₁, hcancel, _, hcanceled⟩ := cancelAll_observed hexact hn ho hids
  have hlisted : Listed t₁ := hcanceled.listed ho
  rw [Attempt.perform_bind_of_ok hcancel, Attempt.perform_bind_of_ok (Attempt.perform_get t₁)]
  refine Keeps.forM (fun id _ t h => ?_) t₁ hlisted
  obtain ⟨world, dice, hperform⟩ := takeOff_perform_snd (fun d => d.roll.same id) t
  rw [removeDice, hperform]
  exact h

/-! ## Rolling -/

/-- What is kept while room is made for a roll is kept where it is launched. From the moment it begins until
its dice are scheduled, `Due` holds of the roll and the tray. -/
theorem keeps_launch {I : Tray ω → Prop} (Due : Roll → Tray ω → Prop) {formula : String}
    {compiled : Formula.Compiled}
    (orderly : ∀ {r t}, Due r t → ∃ owed, Orderly (undisturbed F start) owed t)
    (room : ∀ needed fuel, Keeps I (makeRoom announce needed fuel))
    (begin : ∀ {t : Tray ω} {r : Roll}, I t → r.serial = t.nextSerial →
      r.record = Record.ofCompiled t.nextId formula compiled →
      Due r { t with nextId := t.nextId + 1, nextSerial := t.nextSerial + 1, active := t.active ++ [r],
                     history := r :: t.history })
    (trim : ∀ r, Keeps (Due r) (trimHistory announce)) (clear : ∀ {r t}, Due r t → I t)
    (schedule : ∀ {r t}, r.record.groups = compiled.terms.map Group.ofTerm → Due r t →
      r.serial < t.nextSerial → I ((schedule ((undisturbed F start).id r.serial)
        compiled.physicalCount 0 0 (places compiled.terms)).perform t).2)
    (tell : ∀ r, Keeps I (announce .started r)) : Keeps I (launch announce formula compiled) := by
  refine .get fun t h => (room _ _).bind (fun _ t h => ?_) t h
  let r : Roll := { serial := t.nextSerial, record := Record.ofCompiled t.nextId formula compiled }
  have hdue := begin (r := r) h rfl rfl
  obtain ⟨owed, ho⟩ := orderly hdue
  obtain ⟨owed', trace, _⟩ := trimHistory_tidy heeds_undisturbed ho
    fun hexact => absurd hexact not_exact_undisturbed
  have hid : r.id = (undisturbed F start).id r.serial :=
    ho.id_eq (List.mem_append_left _ (List.mem_cons_self ..))
  have hregister : (register formula compiled).perform t = (.ok r, _) := rfl
  rw [Attempt.perform_bind_of_ok hregister, hid]
  refine Keeps.bind_from (I := fun s => Due r s ∧ r.serial < s.nextSerial)
    ⟨trim r _ hdue, trace.nextSerial_le⟩ (fun _ h => clear h.1) fun _ s h => ?_
  refine Keeps.bind_from (schedule rfl h.1 h.2) (fun _ h => h) fun _ => ?_
  exact (tell _).bind fun _ => .pure _

/-! ## Operations -/

/-- What holds of a tray in the middle of operations too, whatever comes of them. -/
structure Intact (F : Footing ω) (start : Int) (t : Tray ω) : Prop where
  orderly : ∃ owed, Orderly (undisturbed F start) owed t
  listed : Listed t

namespace Intact

theorem isOpen (h : Intact F start t) : Open t :=
  have ⟨_, ho⟩ := h.orderly
  ⟨h.listed, ho.quiet⟩

/-- Attempts that are made up of changes leave the tray intact if active rolls stay in history. -/
theorem keeps {α : Type} {a : Attempt (Tray ω) α} {Q : Tray ω → Owed → α → Owed → Tray ω → Prop}
    (h : ∀ t owed, Does (undisturbed F start) owed t a (Q t owed))
    (hlisted : ∀ t, Intact F start t → Listed (a.perform t).2) : Keeps (Intact F start) a := by
  intro t ht
  obtain ⟨owed, ho⟩ := ht.orderly
  obtain ⟨owed', ho', _⟩ := (h t owed).orderly not_exact_undisturbed ho
  exact ⟨⟨owed', ho'⟩, hlisted t ht⟩

theorem keeps_of_open {α : Type} {a : Attempt (Tray ω) α}
    {Q : Tray ω → Owed → α → Owed → Tray ω → Prop}
    (h : ∀ t owed, Does (undisturbed F start) owed t a (Q t owed)) (hopen : Keeps Open a) :
    Keeps (Intact F start) a :=
  keeps h fun t ht => (hopen t ht.isOpen).listed

theorem prune_listed (h : Intact F start t) : Listed ((prune announce).perform t).2 :=
  have ⟨_, ho⟩ := h.orderly
  Tray.prune_listed not_exact_undisturbed observes_announce ho

theorem prune : Keeps (Intact F start) (prune announce) :=
  keeps (fun _ _ => prune_does heeds_undisturbed) fun _ h => h.prune_listed

/-- Rolls leave the history. -/
theorem trim (h : Intact F start t) {history : List Roll} (hsublist : history.Sublist t.history) :
    ∃ owed, Orderly (undisturbed F start) owed { t with history } :=
  have ⟨owed, ho⟩ := h.orderly
  ⟨owed, ho.trim hsublist⟩

theorem clearHistory : Keeps (Intact F start) (clearHistory announce) := by
  refine keeps (fun _ _ => clearHistory_does heeds_undisturbed) fun t h => ?_
  obtain ⟨owed, ho⟩ := h.trim (List.nil_sublist _)
  exact Tray.prune_listed not_exact_undisturbed observes_announce ho

theorem trimHistory : Keeps (Intact F start) (trimHistory announce) := by
  refine keeps (fun _ _ => trimHistory_tidy heeds_undisturbed) fun t h => ?_
  rw [Tray.trimHistory, Attempt.perform_bind_of_ok (Attempt.perform_get t)]
  split
  · obtain ⟨owed, ho⟩ := h.trim (List.dropLast_sublist _)
    rw [Attempt.perform_bind_of_ok (Attempt.perform_set ..)]
    exact Tray.prune_listed not_exact_undisturbed observes_announce ho
  · exact h.listed

theorem launch {source : String} {compiled : Formula.Compiled} (formula : String)
    (hcompiled : Formula.compile source = .ok compiled) :
    Keeps (Intact F start) (launch announce formula compiled) := by
  refine keeps (fun _ _ => launch_tidy heeds_undisturbed hcompiled formula) ?_
  -- Up to the trimming of the history the tray must be orderly for it; after it nothing leaves.
  have hroom : ∀ needed fuel, Keeps (Intact F start) (makeRoom announce needed fuel) :=
    fun needed fuel => keeps_of_open (fun _ _ => makeRoom_does heeds_undisturbed needed fuel)
      (upkeep_open.makeRoom Open.announce needed fuel)
  have hregister : Keeps (Intact F start) (register formula compiled) :=
    keeps_of_open (fun _ _ => register_does hcompiled) (upkeep_open.register formula compiled)
  have hrest : ∀ r : Roll, Keeps Open (do
      schedule r.id compiled.physicalCount 0 0 (places compiled.terms)
      announce .started r.record
      return r.record : Attempt (Tray ω) Record) := fun r =>
    (upkeep_open.schedule _ _ _ _ _).bind fun _ => (Open.announce _ _).bind fun _ => .pure _
  intro t h
  have hopen : ∀ s : Tray ω, Intact F start s → Open s := fun _ => isOpen
  rw [Tray.launch, Attempt.perform_bind_of_ok (Attempt.perform_get t)]
  refine (Keeps.bind_of (J := Open) (hroom _ _) h hopen fun _ s hs => ?_).listed
  refine Keeps.bind_of hregister hs hopen fun r s hs => ?_
  exact Keeps.bind_of trimHistory hs hopen fun _ s hs => hrest r s hs.isOpen

theorem around (h : Intact F start t) (chance : Chance) (formula : String) :
    Intact F start { t with chance, formula } :=
  have ⟨owed, ho⟩ := h.orderly
  ⟨⟨owed, ho.around _ _ _ _ _ _ _ ho.holds ho.quiet⟩, h.listed⟩

/-- No operation in which no time passes does harm. -/
theorem offers : Offers announce (Intact F start) where
  chance _ := .within fun t h => h.around _ t.formula
  formula formula := .of_modify fun t h => h.around t.chance formula
  launch formula hcompiled _ h _ := launch formula hcompiled _ h
  cancel n := keeps_of_open (fun _ _ => cancel_tidy heeds_undisturbed n)
    (upkeep_open.cancel Open.announce _)
  clearTray := keeps_of_open (fun _ _ => clearTray_tidy heeds_undisturbed)
    (upkeep_open.clearTray Open.announce)
  clearHistory := clearHistory
  prune := prune

theorem tick (dt : Num) : Keeps (Intact F start) (tick announce dt) :=
  keeps_of_open (fun _ _ => tick_does heeds_undisturbed not_exact_undisturbed dt)
    (upkeep_open.tick Open.announce (fun _ h => ⟨h.listed, h.quiet⟩) dt)

theorem operation (op : Operation) : Keeps (Intact F start) (op.attempt announce) :=
  offers.operation op fun _ => tick

end Intact

/-- While listeners only look on trays are orderly and active rolls in history. -/
theorem Undisturbed.intact (run : Undisturbed F t t') (h : Intact F start t) :
    Intact F start t' := by
  induction run with
  | refl => exact h
  | act _ op ih => exact Intact.operation op _ ih
  | outside _ world chance listeners holds quiet ih =>
    obtain ⟨owed, ho⟩ := ih.orderly
    have hholds : (undisturbed F start).Holds world _ :=
      holds_undisturbed.2 (holds (holds_undisturbed.1 ho.holds))
    exact ⟨⟨owed, ho.around _ _ _ _ _ _ _ hholds quiet⟩, ih.listed⟩

theorem Fresh.intact (fresh : Fresh t) (holds : F.holds t.world []) (quiet : Onlookers t.listeners) :
    Intact F t.nextId t :=
  ⟨⟨_, fresh.orderly rfl (holds_undisturbed.2 holds) quiet⟩, fun _ hr => nomatch fresh.active ▸ hr⟩

theorem Undisturbed.trans {t'' : Tray ω} (first : Undisturbed F t t') (second : Undisturbed F t' t'') :
    Undisturbed F t t'' := by
  induction second with
  | refl => exact first
  | act _ op ih => exact .act ih op
  | outside _ world chance listeners holds quiet ih =>
    exact .outside ih world chance listeners holds quiet

/-- Bodies may be moved by hand as long as the world keeps up its dice. -/
theorem Undisturbed.byHand {F : Footing ScriptedWorld} {t t' : Tray ScriptedWorld}
    (run : Undisturbed F t t') (h : Intact F start t) (a : Attempt ScriptedWorld Unit)
    (holds : F.holds t'.world (t'.dice.map Die.handle) →
      F.holds (a.perform t'.world).2 (t'.dice.map Die.handle)) :
    Undisturbed F t (Tray.byHand a t') :=
  have ⟨_, ho⟩ := (run.intact h).orderly
  run.outside _ t'.chance t'.listeners holds ho.quiet

theorem undisturbed_of_performAll {ops : List Operation} (h : performAll announce ops t = some t') :
    Undisturbed F t t' := by
  induction ops generalizing t with
  | nil =>
    cases h
    exact .refl
  | cons op rest ih =>
    rw [performAll] at h
    split at h
    · next hperform =>
      have hact : Undisturbed F t _ := .act .refl op
      rw [hperform] at hact
      exact hact.trans (ih h)
    · cases h

end RollTray.Tray
