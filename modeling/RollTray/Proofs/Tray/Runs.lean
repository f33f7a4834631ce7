import Mathlib.Logic.Relation
import RollTray.Proofs.Keys
import RollTray.Proofs.Tray.Operations
import RollTray.Proofs.Tray.Resolving

/-!
# Runs that nobody interferes with

A run is any number of steps: operations, and whatever is done to the bodies from outside, while
those who are told of events only look on (`Observes`).

`covered_of_run` says that at any time each site of an active roll has one die, on the tray or
waiting, and that a roll with a result had all its dice, which its result is read from.
`resolves_of_run` says that no roll is ready for its result between operations, and that each tick
gives their results to just those that are ready when all dice were looked at.
-/

namespace RollTray.Tray

variable {ω : Type} [World ω]

/-! ## Steps -/

/-- What is done about events leaves the tray alone, if the listeners are of some sort, which they
then still are. -/
def Observes (quiet : (Event → List Listener) → Prop) (notify : Notify ω) : Prop :=
  ∀ event r t, quiet t.listeners → ∃ listeners journal, quiet listeners ∧
    (notify event r).perform t = (.ok (), { t with listeners, journal })

/-- One step of a run. Operations return, or they refuse what they are asked for and leave the tray
as it is but for the formula and the source of chance. Ticks may fail in other ways too, if that is
allowed, once the world has moved. -/
inductive Step (quiet : (Event → List Listener) → Prop) (notify : Notify ω) (fails : Prop) :
    Tray ω → Tray ω → Prop where
  /-- An operation returns. -/
  | returned {t t'} (op : Operation) (h : (op.attempt notify).perform t = (.ok (), t')) :
      Step quiet notify fails t t'
  /-- An operation is refused. -/
  | refused {t} (op : Operation) (fault : Fault) (formula : String) (chance : Chance)
      (h : (op.attempt notify).perform t = (.error fault, { t with formula, chance })) :
      Step quiet notify fails t { t with formula, chance }
  /-- A tick fails after the world has moved. -/
  | failed {t t₁ t'} (allowed : fails) (dt : Num) (fault : Fault)
      (moved : (proceed dt).perform t = (.ok (), t₁))
      (h : (tick notify dt).perform t = (.error fault, t')) : Step quiet notify fails t t'
  /-- Something is done to the bodies, to the source of chance or about the listeners. -/
  | outside {t} (world : ω) (chance : Chance) (listeners : Event → List Listener)
      (h : quiet listeners) : Step quiet notify fails t { t with world, chance, listeners }

/-- Any number of steps. -/
abbrev Run (quiet : (Event → List Listener) → Prop) (notify : Notify ω) (fails : Prop) :
    Tray ω → Tray ω → Prop :=
  Relation.ReflTransGen (Step quiet notify fails)

variable {quiet : (Event → List Listener) → Prop} {notify : Notify ω} {fails : Prop} {t t' : Tray ω}

/-- The setting of runs in which the first roll has some id. -/
def exactly (ω : Type) [World ω] (start : Int) (quiet : (Event → List Listener) → Prop) : Setting ω where
  start
  footing? := none
  quiet

variable {start : Int}

theorem exact_exactly : (exactly ω start quiet).Exact := rfl

theorem holds_exactly (w : ω) (handles : List Nat) : (exactly ω start quiet).Holds w handles :=
  fun _ h => nomatch h

theorem Observes.heeds (h : Observes quiet notify) : Heeds (exactly ω start quiet) notify where
  exact _ := h
  loose hexact := absurd exact_exactly hexact

/-- What holds between operations. -/
structure Regular (start : Int) (quiet : (Event → List Listener) → Prop) (t : Tray ω) : Prop where
  orderly : Orderly (exactly ω start quiet) (fun _ => []) t
  listed : Listed t

theorem Fresh.regular (fresh : Fresh t) (hquiet : quiet t.listeners) : Regular t.nextId quiet t where
  orderly := fresh.orderly rfl (holds_exactly _ _) hquiet
  listed _ hr := nomatch fresh.active ▸ hr

omit [World ω] in
theorem Fresh.idle (fresh : Fresh t) : Idle t := by
  intro r hr
  rw [fresh.history] at hr
  nomatch hr

/-! ## Each step -/

/-- A tick that fails after the world has moved leaves the tray regular too. -/
theorem Regular.tick (hn : Observes quiet notify) (h : Regular start quiet t) {dt : Num} {t₁ : Tray ω}
    (moved : (proceed dt).perform t = (.ok (), t₁)) :
    Regular start quiet ((Tray.tick notify dt).perform t).2 := by
  obtain ⟨answer, t', hperform, ho, hlisted, _⟩ :=
    tick_exact hn.heeds exact_exactly h.orderly h.listed moved
  rw [hperform]
  exact ⟨ho, hlisted⟩

/-- A tick that returns has moved the world, looked at all dice and given results. -/
theorem Regular.tick_returned (hn : Observes quiet notify) (h : Regular start quiet t) {dt : Num}
    {done : List Value} {t' : Tray ω} (hperform : (Tray.tick notify dt).perform t = (.ok done, t')) :
    Regular start quiet t' ∧ ∃ ids t₁, (watch dt).perform t = (.ok ids, t₁) ∧
      Ticked (exactly ω start quiet) (fun _ => []) t t₁ done t' := by
  rcases hproceed : (proceed dt).perform t with ⟨fault | _, t₁⟩
  · have hwatch : (watch dt).perform t = (.error fault, t₁) := Attempt.perform_bind_of_error hproceed
    rw [Tray.tick, Attempt.perform_bind_of_error hwatch] at hperform
    cases hperform
  · obtain ⟨answer, t'', htick, ho, hlisted, hresolves⟩ :=
      tick_exact hn.heeds exact_exactly h.orderly h.listed hproceed
    cases htick.symm.trans hperform
    exact ⟨⟨ho, hlisted⟩, hresolves done rfl⟩

/-- What a step of a run without failures keeps. -/
def Kept (start : Int) (quiet : (Event → List Listener) → Prop) (t t' : Tray ω) : Prop :=
  Regular start quiet t' ∧ (Idle t → Idle t')

theorem Regular.discard_tick (hn : Observes quiet notify) (h : Regular start quiet t) {dt : Num}
    {t' : Tray ω} (hperform : (discard (Tray.tick notify dt)).perform t = (.ok (), t')) :
    Kept start quiet t t' := by
  rw [Attempt.perform_discard] at hperform
  rcases htick : (Tray.tick notify dt).perform t with ⟨fault | done, t''⟩
  · rw [htick] at hperform
    cases hperform
  · rw [htick] at hperform
    cases hperform
    obtain ⟨hregular, _, _, _, hticked⟩ := h.tick_returned hn htick
    exact ⟨hregular, fun hidle => (hticked.resolves hidle).idle⟩

theorem Regular.run (hn : Observes quiet notify) (h : Regular start quiet t) {dt : Num}
    {limit ticks n : Nat} {t' : Tray ω}
    (hperform : (run.go notify dt ticks limit).perform t = (.ok n, t')) : Kept start quiet t t' := by
  induction limit generalizing t ticks with
  | zero =>
    cases hperform
    exact ⟨h, id⟩
  | succ limit ih =>
    rw [Tray.run.go, Attempt.perform_bind_of_ok (Attempt.perform_get t)] at hperform
    split at hperform
    · cases hperform
      exact ⟨h, id⟩
    · rcases htick : (discard (Tray.tick notify dt)).perform t with ⟨fault | _, t₁⟩
      · rw [Attempt.perform_bind_of_error htick] at hperform
        cases hperform
      · rw [Attempt.perform_bind_of_ok htick] at hperform
        obtain ⟨hregular₁, hidle₁⟩ := h.discard_tick hn htick
        obtain ⟨hregular, hidle⟩ := ih hregular₁ hperform
        exact ⟨hregular, fun h => hidle (hidle₁ h)⟩

/-- An operation that returns. -/
theorem Regular.returned (hn : Observes quiet notify) (h : Regular start quiet t) (op : Operation)
    {t' : Tray ω} (hperform : (op.attempt notify).perform t = (.ok (), t')) : Kept start quiet t t' := by
  by_cases hticks : op.ticks = false
  · obtain ⟨trace, hlisted⟩ :=
      (op.does hn.heeds fun _ => hticks).exact exact_exactly h.orderly hperform
    exact ⟨⟨trace.orderly h.orderly, hlisted h.listed⟩, trace.idle exact_exactly h.orderly⟩
  · cases op with
    | tick dt => exact h.discard_tick hn hperform
    | run dt limit =>
      rw [Operation.attempt, Attempt.perform_discard] at hperform
      rcases hrun : (Tray.run notify dt limit).perform t with ⟨fault | n, t''⟩
      · rw [hrun] at hperform
        cases hperform
      · rw [hrun] at hperform
        cases hperform
        exact h.run hn hrun
    | _ => exact absurd rfl hticks

/-- What is around the dice may change. -/
theorem Regular.around (h : Regular start quiet t) (world : ω) (chance : Chance) (formula : String)
    {listeners : Event → List Listener} (hquiet : quiet listeners) :
    Regular start quiet { t with world, chance, formula, listeners } where
  orderly := Change.orderly (.around world chance t.clock formula t.nextThrow listeners t.journal
    (holds_exactly _ _) hquiet (.inl exact_exactly)) h.orderly
  listed := h.listed

theorem Step.regular (hn : Observes quiet notify) (step : Step quiet notify fails t t')
    (h : Regular start quiet t) : Regular start quiet t' := by
  cases step with
  | returned op hperform => exact (h.returned hn op hperform).1
  | refused op fault formula chance => exact h.around t.world chance formula h.orderly.quiet
  | failed allowed dt fault moved hperform =>
    have hregular := h.tick hn moved
    rwa [hperform] at hregular
  | outside world chance listeners hquiet => exact h.around world chance t.formula hquiet

theorem Step.idle (hn : Observes quiet notify) (step : Step quiet notify False t t')
    (h : Regular start quiet t) (hidle : Idle t) : Idle t' := by
  cases step with
  | returned op hperform => exact (h.returned hn op hperform).2 hidle
  | refused => exact fun r hr => mt (ready_congr rfl).1 (hidle r hr)
  | failed allowed => exact allowed.elim
  | outside => exact fun r hr => mt (ready_congr rfl).1 (hidle r hr)

/-! ## Listeners that only look on -/

/-- Listeners that do nothing with the roll that they are told of. -/
def Onlookers (listeners : Event → List Listener) : Prop :=
  ∀ event, ∀ listener ∈ listeners event, listener.reaction = .none

theorem tell_onlookers (notify : Notify ω) (r : Record) {told : List Listener}
    (h : ∀ listener ∈ told, listener.reaction = .none) :
    ∃ staying notices,
      (tell notify r told).perform t = (.ok staying, { t with journal := t.journal ++ notices }) ∧
      (∀ listener ∈ staying, listener ∈ told) ∧ ∀ notice ∈ notices, notice.Passing := by
  induction told generalizing t with
  | nil =>
    refine ⟨[], [], ?_, fun _ h => (nomatch h), fun _ h => (nomatch h)⟩
    rw [List.append_nil]
    rfl
  | cons listener rest ih =>
    obtain ⟨staying, notices, hperform, hstaying, hnotices⟩ :=
      ih (t := { t with journal := t.journal ++ [.told listener.tag r.id] })
        fun other hother => h other (List.mem_cons_of_mem _ hother)
    refine ⟨if listener.once then staying else listener :: staying,
      .told listener.tag r.id :: notices, ?_, ?_, ?_⟩
    · rw [tell, h listener (List.mem_cons_self ..), note,
        Attempt.perform_bind_of_ok (Attempt.perform_modify _ t), react,
        Attempt.perform_bind_of_ok (Attempt.perform_pure _ _), Attempt.perform_bind_of_ok hperform,
        List.append_assoc]
      rfl
    · intro other hother
      split at hother
      · exact List.mem_cons_of_mem _ (hstaying other hother)
      · rcases List.mem_cons.1 hother with rfl | hother
        · exact List.mem_cons_self ..
        · exact List.mem_cons_of_mem _ (hstaying other hother)
    · intro notice hnotice
      rcases List.mem_cons.1 hnotice with rfl | hnotice
      · trivial
      · exact hnotices notice hnotice

/-- To announce an event to onlookers is to note it down and whom was told of it. -/
theorem announce_onlookers (event : Event) (r : Record) (h : Onlookers t.listeners) :
    ∃ listeners notices, Onlookers listeners ∧ (∀ notice ∈ notices, notice.Passing) ∧
      (announce event r).perform t =
        (.ok (), { t.noted event r with
          listeners, journal := (t.noted event r).journal ++ notices }) := by
  obtain ⟨staying, notices, hperform, hstaying, hnotices⟩ :=
    tell_onlookers (t := t.noted event r) (announceWithin 199) r (h event)
  refine ⟨fun e => if e = event then staying else t.listeners e, notices, fun e listener hmem => ?_,
    hnotices, ?_⟩
  · dsimp only at hmem
    split at hmem
    · exact h event listener (hstaying listener hmem)
    · exact h e listener hmem
  · show (announceWithin (199 + 1) event r).perform t = _
    rw [announceWithin_succ]
    exact Attempt.perform_bind_of_ok hperform

/-- To announce events to onlookers leaves the tray alone. -/
theorem observes_announce : Observes Onlookers (announce : Notify ω) := by
  intro event r t h
  obtain ⟨listeners, notices, hquiet, _, hperform⟩ := announce_onlookers event r h
  exact ⟨listeners, _, hquiet, hperform⟩

/-! ## Whole runs -/

theorem run_of_performAll {ops : List Operation} (h : performAll notify ops t = some t') :
    Run quiet notify fails t t' := by
  induction ops generalizing t with
  | nil =>
    cases h
    exact .refl
  | cons op rest ih =>
    rw [performAll] at h
    split at h
    · next hperform => exact .head (.returned op hperform) (ih h)
    · cases h

theorem Run.regular (hn : Observes quiet notify) (run : Run quiet notify fails t t')
    (h : Regular start quiet t) : Regular start quiet t' := by
  induction run with
  | refl => exact h
  | tail _ step ih => exact step.regular hn ih

theorem Run.idle (hn : Observes quiet notify) (run : Run quiet notify False t t')
    (h : Regular start quiet t) (hidle : Idle t) : Idle t' := by
  induction run with
  | refl => exact hidle
  | tail run step ih => exact step.idle hn (Run.regular hn run h) ih

/-- Where the dice of rolls are, and what rolls with a result have. -/
structure Covered (t : Tray ω) : Prop where
  /-- Each site of an active roll has its die, on the tray or waiting. -/
  sites : ∀ r ∈ t.active, (t.sitesOf r.id).Perm r.record.sites
  /-- No site has two of them. -/
  once : ∀ r ∈ t.active, (t.sitesOf r.id).Nodup
  /-- Dice on the tray belong to active rolls. -/
  dice : ∀ d ∈ t.dice, ∃ r ∈ t.active, d.roll = r.id
  /-- Nothing waits for a roll with a result, which has one for each logical die of each group. -/
  resolved : ∀ r ∈ t.history, r.record.resolved = true →
    t.throwsOf r.id = [] ∧ List.Forall₂ Answers r.record.groups r.record.results

theorem Regular.covered (h : Regular start quiet t) (hstart : 0 ≤ start) : Covered t := by
  have ho := h.orderly
  have ha := ho.accounted ⟨exact_exactly, hstart⟩
  have hsites : ∀ r ∈ t.active, (t.sitesOf r.id).Perm r.record.sites := by
    intro r hr
    have hperm := ha.sites r hr
    rwa [List.append_nil, ← ho.id_eq (List.mem_append_right _ hr)] at hperm
  refine ⟨hsites, fun r hr => ?_, fun d hd => ?_, fun r hr hresolved => ?_⟩
  · exact (hsites r hr).nodup_iff.2 (nodup_sites r.record)
  · obtain ⟨r, hr, hroll⟩ := ho.dice d hd
    exact ⟨r, hr, hroll.trans (ho.id_eq (List.mem_append_right _ hr)).symm⟩
  · obtain ⟨hnone, _, hanswers⟩ := ha.resolved r (List.mem_append_left _ hr) hresolved
    rw [ho.id_eq (List.mem_append_left _ hr)]
    exact ⟨hnone, hanswers⟩

/-- The results of a roll are the values of its dice on the tray, one for each logical die. -/
def ReadFrom (t : Tray ω) (r : Roll) : Prop :=
  r.record.results.length = r.record.groups.length ∧
    ∀ (k : Nat) (g : Group) (results : List DieResult), r.record.groups[k]? = some g →
      r.record.results[k]? = some results → Dice.Reads (t.diceOf r.id) k g results

/-- A roll that gets its result in a tick gets it from its own dice, of which there is one for each
of its sites. -/
theorem readFrom_of_finished {t₁ : Tray ω} (ho : Orderly (exactly ω start quiet) (fun _ => []) t₁)
    (hstart : 0 ≤ start) {among done : List Value} (h : Finished t₁ among done t') :
    ∀ r ∈ t'.history, r.id ∈ done → t'.ReadFrom r := by
  intro r hr hdone
  obtain ⟨x, hx, hconcluded⟩ := forall₂_exists_left h.concludes.history hr
  rw [hconcluded.id] at hdone
  obtain ⟨_, y, hy, hready, hid⟩ := (h.mem_iff x.id).1 hdone
  obtain rfl := ho.eq_of_id (List.mem_append_left _ hx) (List.mem_append_left _ hy) hid.symm
  obtain ⟨_, hall, _⟩ := (ho.ready_iff (List.mem_append_left _ hx)).1 hready
  have hsites := ho.sites_of_all ⟨exact_exactly, hstart⟩ hx hall
  rw [← ho.id_eq (List.mem_append_left _ hx)] at hsites
  have hdice : t'.diceOf r.id = t₁.diceOf x.id := by rw [hconcluded.id, diceOf, h.concludes.dice, diceOf]
  rw [ReadFrom, hdice]
  exact Dice.reads_of_resolve hsites (hconcluded.resolves hdone).2.2

/-- If ids are not negative, in every run each site of an active roll has its die, on the tray or
waiting, and only one, and a roll that has its result had all its dice. In each tick the rolls that
get their results get them from these dice. -/
theorem covered_of_run (hn : Observes quiet notify) {t₀ : Tray ω} (fresh : Fresh t₀)
    (hquiet : quiet t₀.listeners) (hstart : 0 ≤ t₀.nextId) (run : Run quiet notify True t₀ t) :
    Covered t ∧ ∀ dt done t', (tick notify dt).perform t = (.ok done, t') →
      ∀ r ∈ t'.history, r.id ∈ done → t'.ReadFrom r := by
  have hregular := run.regular hn (fresh.regular hquiet)
  refine ⟨hregular.covered hstart, fun dt done t' htick => ?_⟩
  obtain ⟨_, _, _, _, hticked⟩ := hregular.tick_returned hn htick
  obtain ⟨_, hfinished⟩ := hticked.finished
  exact readFrom_of_finished hticked.orderly hstart hfinished

theorem onlookers_vacant : Onlookers vacant.listeners := fun _ _ h => nomatch h

/-- Of three rolls the first is canceled, the dice of the second lie on the tray, and the die of the third
waits. -/
def threeRolls : List Operation :=
  [.roll "d20", .roll "2d6kh1", .tick (.float 9), .cancel 0, .roll "d8"]

/-- The two dice on the tray are laid to rest, with a three and a five. -/
def laidDown (t : Tray ScriptedWorld) : Tray ScriptedWorld :=
  byHand (do ScriptedWorld.settle 1 (some (.int 3)); ScriptedWorld.settle 2 (some (.int 5))) t

theorem run_laidDown {t : Tray ScriptedWorld} (h : performAll announce threeRolls vacant = some t) :
    Run Onlookers announce fails vacant (laidDown t) :=
  have run := run_of_performAll h
  have hregular := Run.regular observes_announce run (fresh_vacant.regular onlookers_vacant)
  run.tail (.outside _ t.chance t.listeners hregular.orderly.quiet)

/-- The next tick gives the second roll its result. -/
theorem tick_laidDown : ∃ t t', performAll announce threeRolls vacant = some t ∧
    (tick announce (.int 0)).perform (laidDown t) = (.ok [.int 1], t') ∧
    ((laidDown t).active.map fun r => r.record.sites.length) = [2, 1] ∧
    ((laidDown t).dice.length, (laidDown t).pending.size) = (2, 1) ∧
    ∃ r ∈ t'.history, r.id = .int 1 ∧ r.record.result = .int 5 ∧ r.record.results.map List.length = [2] := by
  have htick : ∃ t ∈ performAll announce threeRolls vacant,
      ∃ done ∈ ((tick announce (.int 0)).perform (laidDown t)).1.toOption, Value.ints? done = some [1] ∧
        ((laidDown t).active.map fun r => r.record.sites.length) = [2, 1] ∧
        ((laidDown t).dice.length, (laidDown t).pending.size) = (2, 1) ∧
        ∃ r ∈ ((tick announce (.int 0)).perform (laidDown t)).2.history,
          Value.ints? [r.id, r.record.result] = some [1, 5] ∧ r.record.results.map List.length = [2] := by
    decide +kernel
  obtain ⟨t, ht, done, hdone, hids, hsites, hsizes, r, hr, hresult, hresults⟩ := htick
  obtain rfl := Value.eq_of_ints? hids
  obtain ⟨hid, hresult⟩ := List.cons.inj (Value.eq_of_ints? hresult)
  exact ⟨t, _, ht, Prod.ext (toOption_eq_some.1 hdone) rfl, hsites, hsizes, r, hr, hid,
    (List.cons.inj hresult).1, hresults⟩

theorem covered_after_canceling :
    ∃ t t', performAll announce threeRolls vacant = some t ∧
      (tick announce (.int 0)).perform (laidDown t) = (.ok [.int 1], t') ∧
      ((laidDown t).active.map fun r => r.record.sites.length) = [2, 1] ∧
      ((laidDown t).dice.length, (laidDown t).pending.size) = (2, 1) ∧ Covered (laidDown t) ∧
      ∃ r ∈ t'.history, r.id = .int 1 ∧ r.record.result = .int 5 ∧
        r.record.results.map List.length = [2] ∧ t'.ReadFrom r := by
  obtain ⟨t, t', ht, htick, hsites, hsizes, r, hr, hid, hresult, hresults⟩ := tick_laidDown
  obtain ⟨hcovered, hread⟩ :=
    covered_of_run observes_announce fresh_vacant onlookers_vacant (by decide) (run_laidDown ht)
  exact ⟨t, t', ht, htick, hsites, hsizes, hcovered, r, hr, hid, hresult, hresults,
    hread _ _ _ htick r hr (hid ▸ List.mem_singleton_self _)⟩

/-- In every run of operations that do not fail, no roll is ready for its result between operations,
and each tick gives their results to just the rolls that are ready when it has looked at all dice,
in the order of their ids. -/
theorem resolves_of_run (hn : Observes quiet notify) {t₀ : Tray ω} (fresh : Fresh t₀)
    (hquiet : quiet t₀.listeners) (run : Run quiet notify False t₀ t) :
    Idle t ∧ ∀ dt done t', (tick notify dt).perform t = (.ok done, t') →
      ∃ ids t₁, (watch dt).perform t = (.ok ids, t₁) ∧ Resolves t₁ done t' := by
  have hregular := run.regular hn (fresh.regular hquiet)
  have hidle := run.idle hn (fresh.regular hquiet) fresh.idle
  refine ⟨hidle, fun dt done t' htick => ?_⟩
  obtain ⟨_, ids, t₁, hwatch, hticked⟩ := hregular.tick_returned hn htick
  exact ⟨ids, t₁, hwatch, hticked.resolves hidle⟩

theorem idle_after_rolling :
    ∃ t t', performAll announce threeRolls vacant = some t ∧
      (tick announce (.int 0)).perform (laidDown t) = (.ok [.int 1], t') ∧
      Idle (laidDown t) ∧
      (∃ ids t₁, (watch (.int 0)).perform (laidDown t) = (.ok ids, t₁) ∧ Resolves t₁ [.int 1] t') ∧
      ∃ r ∈ t'.history, r.id = .int 1 ∧ r.record.result = .int 5 := by
  obtain ⟨t, t', ht, htick, -, -, r, hr, hid, hresult, -⟩ := tick_laidDown
  obtain ⟨hidle, hresolves⟩ :=
    resolves_of_run observes_announce fresh_vacant onlookers_vacant (run_laidDown ht)
  exact ⟨t, t', ht, htick, hidle, hresolves _ _ _ htick, r, hr, hid, hresult⟩

end RollTray.Tray
