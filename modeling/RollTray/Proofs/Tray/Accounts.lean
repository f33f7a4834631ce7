import RollTray.Proofs.Tray.Operations
import RollTray.Proofs.Tray.Telling

/-!
# Who is told, and how often

Listeners may leave when they are told, and may cause events in the middle of an announcement. In every
announcement that comes to its end, each listener of the event that did not leave is told, and none is
told twice in one announcement. But an announcement goes through the listeners that there were when it
began, and puts those of them that stay in their place at the end. So one that left in the meantime, in
another announcement of the event, is told once more or is there again; and where an announcement is
broken off nobody leaves. `told_in_turn` says that a listener that left is told again in these cases
only.

`Progress.Sound` is what each step of a history keeps: the log tells its listeners in turn so far, and
the announcements that are under way agree with it.
-/

namespace RollTray.Tray

variable {ω : Type} {log : List Entry}

/-! ## What a log says -/

namespace Entry

/-- Of which announcement something is known. -/
def number : Entry → Nat
  | .began number _ _ => number
  | .told number _ _ _ => number
  | .answered number _ _ _ => number
  | .ended number _ _ => number

/-- What the journal has of it. -/
def notices : Entry → List Notice
  | .began _ event r => [.happened event r.id r.result]
  | .told _ _ listener r => [.told listener.tag r.id]
  | .answered .. => []
  | .ended .. => []

/-- The listener that was told in an announcement. -/
def toldIn? (number : Nat) : Entry → Option Listener
  | .told n _ listener _ => if n = number then some listener else none
  | _ => none

end Entry

/-- The listeners that were told in an announcement. -/
def toldIn (number : Nat) (log : List Entry) : List Listener :=
  log.filterMap (Entry.toldIn? number)

/-- A listener that was told of an event answered that it leaves. -/
def Left (event : Event) (listener : Listener) (log : List Entry) : Prop :=
  ∃ number, .answered number event listener true ∈ log

/-- An announcement of an event was broken off. -/
def Broken (event : Event) (log : List Entry) : Prop :=
  ∃ number, .ended number event true ∈ log

/-- An announcement of an event began while another one was under way. -/
def Overlapped (event : Event) (log : List Entry) : Prop :=
  ∃ before after number r other r', log = before ++ .began number event r :: after ∧
    .began other event r' ∈ before ∧ ∀ broken, .ended other event broken ∉ before

/-- How listeners of some events are told. -/
structure ToldInTurn (listeners : Event → List Listener) (log : List Entry) : Prop where
  /-- A listener that answered that it leaves is told again only if an announcement of the event was
  broken off or began while another one was under way. -/
  gone : ∀ before after number event listener r,
    log = before ++ .told number event listener r :: after → Left event listener before →
      Broken event before ∨ Overlapped event before
  /-- No listener is told twice in one announcement. -/
  once : ∀ number, (toldIn number log).Nodup
  /-- A listener is told in each announcement of its event that comes to its end, unless it answered
  that it leaves. -/
  each : ∀ before after number event, log = before ++ .ended number event false :: after →
    ∀ listener ∈ listeners event, ¬Left event listener before → listener ∈ toldIn number before

/-! ## A log that grows -/

variable {entry : Entry} {event : Event} {listener : Listener}

theorem split_snoc {before after : List Entry} {x : Entry} (h : log ++ [entry] = before ++ x :: after) :
    (x = entry ∧ before = log) ∨ ∃ after', log = before ++ x :: after' := by
  rcases List.eq_nil_or_concat after with rfl | ⟨after', y, rfl⟩
  · obtain ⟨hlog, hentry⟩ := List.append_inj' h rfl
    cases hentry
    exact .inl ⟨rfl, hlog.symm⟩
  · rw [List.concat_eq_append, ← List.cons_append, ← List.append_assoc] at h
    exact .inr ⟨after', (List.append_inj' h rfl).1⟩

theorem mem_of_mem_snoc {x : Entry} (h : x ∈ log ++ [entry]) (hne : x ≠ entry) : x ∈ log :=
  (List.mem_append.1 h).resolve_right fun hmem => hne (List.mem_singleton.1 hmem)

theorem issued_snoc {next next' : Nat} (h : ∀ x ∈ log, x.number < next) (hle : next ≤ next')
    (hentry : entry.number < next') : ∀ x ∈ log ++ [entry], x.number < next' := by
  intro x hx
  rcases List.mem_append.1 hx with hx | hx
  · exact Nat.lt_of_lt_of_le (h x hx) hle
  · exact List.mem_singleton.1 hx ▸ hentry

theorem toldIn_snoc (number : Nat) (log : List Entry) (entry : Entry) :
    toldIn number (log ++ [entry]) = toldIn number log ++ (entry.toldIn? number).toList := by
  rw [toldIn, List.filterMap_append]
  cases h : entry.toldIn? number <;> simp [toldIn, h]

theorem left_snoc : Left event listener (log ++ [entry]) ↔
    Left event listener log ∨ ∃ number, entry = .answered number event listener true := by
  simp only [Left, List.mem_append, List.mem_singleton, exists_or, eq_comm]

theorem Left.snoc (h : Left event listener log) : Left event listener (log ++ [entry]) :=
  left_snoc.2 (.inl h)

theorem Left.of_snoc (h : Left event listener (log ++ [entry]))
    (hne : ∀ number, entry ≠ .answered number event listener true) : Left event listener log :=
  (left_snoc.1 h).resolve_right fun ⟨number, heq⟩ => hne number heq

theorem broken_snoc : Broken event (log ++ [entry]) ↔
    Broken event log ∨ ∃ number, entry = .ended number event true := by
  simp only [Broken, List.mem_append, List.mem_singleton, exists_or, eq_comm]

theorem Overlapped.snoc (h : Overlapped event log) : Overlapped event (log ++ [entry]) := by
  obtain ⟨before, after, number, r, other, r', rfl, hbegan, hunder⟩ := h
  exact ⟨before, after ++ [entry], number, r, other, r', by simp, hbegan, hunder⟩

/-- No announcement of an event was broken off, and none began while another one was under way. -/
def Clear (event : Event) (log : List Entry) : Prop :=
  ¬Broken event log ∧ ¬Overlapped event log

theorem Clear.of_snoc (h : Clear event (log ++ [entry])) : Clear event log :=
  ⟨fun hbroken => h.1 (broken_snoc.2 (.inl hbroken)), fun hoverlapped => h.2 hoverlapped.snoc⟩

variable {listeners : Event → List Listener}

theorem ToldInTurn.snoc (h : ToldInTurn listeners log)
    (told : ∀ number event listener r, entry = .told number event listener r →
      (Left event listener log → Broken event log ∨ Overlapped event log) ∧
        listener ∉ toldIn number log)
    (each : ∀ number event, entry = .ended number event false →
      ∀ listener ∈ listeners event, ¬Left event listener log → listener ∈ toldIn number log) :
    ToldInTurn listeners (log ++ [entry]) where
  gone before after number event listener r hsplit hleft := by
    rcases split_snoc hsplit with ⟨hentry, rfl⟩ | ⟨after', hlog⟩
    · exact (told number event listener r hentry.symm).1 hleft
    · exact h.gone before after' number event listener r hlog hleft
  once number := by
    rw [toldIn_snoc]
    cases entry with
    | told n event listener r =>
      by_cases hn : n = number
      · subst hn
        rw [Entry.toldIn?, if_pos rfl]
        exact List.nodup_append.2 ⟨h.once n, List.nodup_singleton _, fun x hx y hy => by
          cases List.mem_singleton.1 hy
          exact fun heq => (told n event listener r rfl).2 (heq ▸ hx)⟩
      · rw [Entry.toldIn?, if_neg hn]
        simpa using h.once number
    | _ => simpa [Entry.toldIn?] using h.once number
  each before after number event hsplit := by
    rcases split_snoc hsplit with ⟨hentry, rfl⟩ | ⟨after', hlog⟩
    · exact each number event hentry.symm
    · exact h.each before after' number event hlog

/-! ## Announcements that are under way -/

theorem Entry.toldIn?_of_ne {number : Nat} (h : entry.number ≠ number) : entry.toldIn? number = none := by
  cases entry with
  | told n => exact if_neg h
  | _ => rfl

theorem toldIn_snoc_of_ne {number : Nat} (h : entry.number ≠ number) :
    toldIn number (log ++ [entry]) = toldIn number log := by
  rw [toldIn_snoc, Entry.toldIn?_of_ne h]
  exact List.append_nil _

/-- The listeners of an announcement that did not leave. -/
def Frame.listed (f : Frame ω) : List Listener :=
  f.kept ++ (f.current.map Prod.fst).toList ++ f.waiting

/-- What holds of an announcement that is under way, given who listened at first. -/
structure Frame.Sound (listeners : Event → List Listener) (log : List Entry) (next : Nat)
    (f : Frame ω) : Prop where
  issued : f.number < next
  began : ∃ r, .began f.number f.event r ∈ log
  underway : ∀ broken, .ended f.number f.event broken ∉ log
  told : (f.kept ++ (f.current.map Prod.fst).toList).Sublist (toldIn f.number log)
  apart : (toldIn f.number log ++ f.waiting).Nodup
  loyal : ∀ listener ∈ listeners f.event, ¬Left f.event listener log → listener ∈ f.listed

variable {next : Nat} {f f' : Frame ω} {t t' : Tray ω} {rest : List (Frame ω)}

theorem Frame.Sound.nodup (h : f.Sound listeners log next) : f.listed.Nodup :=
  h.apart.sublist (h.told.append_right _)

/-- Something that belongs to another announcement. -/
theorem Frame.Sound.snoc (h : f.Sound listeners log next) (hother : entry.number ≠ f.number)
    {next' : Nat} (hle : next ≤ next') : f.Sound listeners (log ++ [entry]) next' where
  issued := Nat.lt_of_lt_of_le h.issued hle
  began := h.began.imp fun _ hr => List.mem_append_left _ hr
  underway broken hmem := h.underway broken (mem_of_mem_snoc hmem fun heq => hother (heq ▸ rfl))
  told := by
    rw [toldIn_snoc_of_ne hother]
    exact h.told
  apart := by
    rw [toldIn_snoc_of_ne hother]
    exact h.apart
  loyal listener hmem hstays := h.loyal listener hmem fun hleft => hstays hleft.snoc

/-- Something that belongs to the announcement itself, which does not end with it. -/
theorem Frame.Sound.goOn (h : f.Sound listeners log next) (hnumber : f'.number = f.number)
    (hevent : f'.event = f.event) (hentry : ∀ broken, entry ≠ .ended f.number f.event broken)
    (told : (f'.kept ++ (f'.current.map Prod.fst).toList).Sublist (toldIn f.number (log ++ [entry])))
    (apart : (toldIn f.number (log ++ [entry]) ++ f'.waiting).Nodup)
    (loyal : ∀ listener ∈ f.listed, ¬Left f.event listener (log ++ [entry]) → listener ∈ f'.listed) :
    f'.Sound listeners (log ++ [entry]) next where
  issued := hnumber ▸ h.issued
  began := by
    rw [hnumber, hevent]
    exact h.began.imp fun _ hr => List.mem_append_left _ hr
  underway broken hmem := by
    rw [hnumber, hevent] at hmem
    exact h.underway broken (mem_of_mem_snoc hmem (hentry broken).symm)
  told := hnumber ▸ told
  apart := hnumber ▸ apart
  loyal listener hmem hstays := by
    rw [hevent] at hmem hstays
    exact loyal listener (h.loyal listener hmem fun hleft => hstays hleft.snoc) hstays

/-- What holds at any time, given who listened at first. -/
structure Progress.Sound (listeners : Event → List Listener) (p : Progress ω) : Prop where
  told : ToldInTurn listeners p.log
  issued : ∀ entry ∈ p.log, entry.number < p.next
  apart : ∀ event, (p.tray.listeners event).Nodup
  loyal : ∀ event, ∀ listener ∈ listeners event, ¬Left event listener p.log →
    listener ∈ p.tray.listeners event
  frames : ∀ f ∈ p.frames, f.Sound listeners p.log p.next
  nested : p.frames.Pairwise fun f f' => f'.number < f.number
  /-- One announcement of an event is under way at most. -/
  alone : ∀ event, Clear event p.log →
    p.frames.Pairwise fun f f' => ¬(f.event = event ∧ f'.event = event)
  /-- A listener that left is not there any more. -/
  departed : ∀ event, Clear event p.log → ∀ listener, Left event listener p.log →
    (∀ f ∈ p.frames, f.event = event → listener ∉ f.listed) ∧
      ((∀ f ∈ p.frames, f.event ≠ event) → listener ∉ p.tray.listeners event)

namespace Progress.Sound

theorem aside (h : Sound listeners ⟨t, rest, log, next⟩) (hlisteners : t'.listeners = t.listeners) :
    Sound listeners ⟨t', rest, log, next⟩ :=
  { h with
    apart := fun event => hlisteners ▸ h.apart event
    loyal := fun event => hlisteners ▸ h.loyal event
    departed := fun event => hlisteners ▸ h.departed event }

/-- The innermost announcement goes on: a listener is told, or answers. -/
theorem goOn (h : Sound listeners ⟨t, f :: rest, log, next⟩) (hlisteners : t'.listeners = t.listeners)
    (hnumber : f'.number = f.number) (hevent : f'.event = f.event) (hentry : entry.number = f.number)
    (told : ToldInTurn listeners (log ++ [entry])) (sound : f'.Sound listeners (log ++ [entry]) next)
    (hlisted : ∀ listener ∈ f'.listed, listener ∈ f.listed)
    (hleft : ∀ number event listener, entry = .answered number event listener true →
      event = f.event ∧ listener ∉ f'.listed) :
    Sound listeners ⟨t', f' :: rest, log ++ [entry], next⟩ := by
  obtain ⟨hsound, hrest⟩ := List.forall_mem_cons.1 h.frames
  obtain ⟨hinner, hnested⟩ := List.pairwise_cons.1 h.nested
  refine {
    told
    issued := issued_snoc h.issued (Nat.le_refl _) (hentry ▸ hsound.issued)
    apart := fun event => hlisteners ▸ h.apart event
    loyal := fun event listener hmem hstays =>
      hlisteners ▸ h.loyal event listener hmem fun hleft => hstays hleft.snoc
    frames := List.forall_mem_cons.2 ⟨sound, fun g hg => ?_⟩
    nested := List.pairwise_cons.2 ⟨hnumber ▸ hinner, hnested⟩
    alone := fun event hclear => ?_
    departed := fun event hclear listener hnow => ?_ }
  · have := hinner g hg
    exact (hrest g hg).snoc (by omega) (Nat.le_refl _)
  · obtain ⟨halone, hpairwise⟩ := List.pairwise_cons.1 (h.alone event hclear.of_snoc)
    exact List.pairwise_cons.2 ⟨hevent ▸ halone, hpairwise⟩
  · obtain ⟨halone, _⟩ := List.pairwise_cons.1 (h.alone event hclear.of_snoc)
    rcases left_snoc.1 hnow with hbefore | ⟨number, hanswer⟩
    · obtain ⟨hframes, hnone⟩ := h.departed event hclear.of_snoc listener hbefore
      obtain ⟨hfirst, hothers⟩ := List.forall_mem_cons.1 hframes
      refine ⟨List.forall_mem_cons.2 ⟨fun heq hmem => ?_, hothers⟩, fun hnot => ?_⟩
      · exact hfirst (hevent ▸ heq) (hlisted listener hmem)
      · rw [hlisteners]
        obtain ⟨hne, hnot⟩ := List.forall_mem_cons.1 hnot
        exact hnone (List.forall_mem_cons.2 ⟨hevent ▸ hne, hnot⟩)
    · obtain ⟨rfl, hgone⟩ := hleft number event listener hanswer
      refine ⟨List.forall_mem_cons.2 ⟨fun _ => hgone, fun g hg heq => ?_⟩, fun hnot => ?_⟩
      · exact absurd ⟨rfl, heq⟩ (halone g hg)
      · exact absurd hevent (List.forall_mem_cons.1 hnot).1

/-- The innermost announcement ends, and the listeners of its event may be others then. -/
theorem pop (h : Sound listeners ⟨t, f :: rest, log, next⟩) {broken : Bool}
    (told : ToldInTurn listeners (log ++ [.ended f.number f.event broken]))
    (apart : ∀ event, (t'.listeners event).Nodup)
    (loyal : ∀ event, ∀ listener ∈ listeners event, ¬Left event listener log →
      listener ∈ t'.listeners event)
    (departed : ∀ event, Clear event (log ++ [.ended f.number f.event broken]) →
      ∀ listener, Left event listener log → (∀ f ∈ rest, f.event ≠ event) →
        listener ∉ t'.listeners event) :
    Sound listeners ⟨t', rest, log ++ [.ended f.number f.event broken], next⟩ := by
  obtain ⟨hsound, hrest⟩ := List.forall_mem_cons.1 h.frames
  obtain ⟨hinner, hnested⟩ := List.pairwise_cons.1 h.nested
  have hbefore : ∀ {event listener}, Left event listener (log ++ [.ended f.number f.event broken]) →
      Left event listener log := fun hleft => hleft.of_snoc fun _ heq => nomatch heq
  refine {
    told, apart
    issued := issued_snoc h.issued (Nat.le_refl _) hsound.issued
    loyal := fun event listener hmem hstays =>
      loyal event listener hmem fun hleft => hstays hleft.snoc
    frames := fun g hg => ?_
    nested := hnested
    alone := fun event hclear => (List.pairwise_cons.1 (h.alone event hclear.of_snoc)).2
    departed := fun event hclear listener hleft => ⟨?_, departed event hclear listener (hbefore hleft)⟩ }
  · refine (hrest g hg).snoc ?_ (Nat.le_refl _)
    exact Nat.ne_of_gt (hinner g hg)
  · have hframes := (h.departed event hclear.of_snoc listener (hbefore hleft)).1
    exact (List.forall_mem_cons.1 hframes).2

theorem begin (h : Sound listeners ⟨t, rest, log, next⟩) (event : Event) (r : Record) :
    Sound listeners ⟨t.noted event r, ⟨next, event, r, [], none, t.listeners event⟩ :: rest,
      log ++ [.began next event r], next + 1⟩ := by
  have hunused : toldIn next (log ++ [.began next event r]) = [] := by
    rw [toldIn_snoc]
    refine (List.append_nil _).trans (List.filterMap_eq_nil_iff.2 fun x hx => ?_)
    exact Entry.toldIn?_of_ne (Nat.ne_of_lt (h.issued x hx))
  have hbefore : ∀ {event' listener}, Left event' listener (log ++ [.began next event r]) →
      Left event' listener log := fun hleft => hleft.of_snoc fun _ heq => nomatch heq
  -- Where nothing overlaps, no other announcement of the event is under way.
  have hnone : Clear event (log ++ [.began next event r]) → ∀ f ∈ rest, f.event ≠ event := by
    rintro ⟨_, hnot⟩ f hf rfl
    obtain ⟨r', hbegan⟩ := (h.frames f hf).began
    exact hnot ⟨log, [], next, r, f.number, r', rfl, hbegan, (h.frames f hf).underway⟩
  refine {
    told := h.told.snoc (fun _ _ _ _ heq => nomatch heq) fun _ _ heq => nomatch heq
    issued := issued_snoc h.issued (Nat.le_succ _) (Nat.lt_succ_self _)
    apart := h.apart
    loyal := fun event' listener hmem hstays =>
      h.loyal event' listener hmem fun hleft => hstays hleft.snoc
    frames := List.forall_mem_cons.2 ⟨?_, fun g hg => ?_⟩
    nested := List.pairwise_cons.2 ⟨fun g hg => (h.frames g hg).issued, h.nested⟩
    alone := fun event' hclear => List.pairwise_cons.2 ⟨?_, h.alone event' hclear.of_snoc⟩
    departed := fun event' hclear listener hleft => ?_ }
  · refine ⟨Nat.lt_succ_self _, ⟨r, by simp⟩, fun broken hmem => ?_, List.nil_sublist _, ?_, ?_⟩
    · exact Nat.lt_irrefl _ (h.issued _ (mem_of_mem_snoc hmem fun heq => nomatch heq))
    · rw [hunused]
      exact h.apart event
    · exact fun listener hmem hstays => h.loyal event listener hmem fun hleft => hstays hleft.snoc
  · refine (h.frames g hg).snoc ?_ (Nat.le_succ _)
    exact Nat.ne_of_gt (h.frames g hg).issued
  · rintro g hg ⟨rfl, heq⟩
    exact hnone hclear g hg heq
  · obtain ⟨hframes, hgone⟩ := h.departed event' hclear.of_snoc listener (hbefore hleft)
    refine ⟨List.forall_mem_cons.2 ⟨?_, hframes⟩, fun hnot => hgone (List.forall_mem_cons.1 hnot).2⟩
    rintro rfl
    exact hgone (hnone hclear)

/-- A listener is told. It did not leave before, where nothing overlaps. -/
theorem tell {number : Nat} {event : Event} {r : Record} {kept waiting : List Listener}
    (h : Sound listeners ⟨t, ⟨number, event, r, kept, none, listener :: waiting⟩ :: rest, log, next⟩) :
    Sound listeners ⟨t.hinted listener r,
      ⟨number, event, r, kept, some (listener, t.hinted listener r), waiting⟩ :: rest,
      log ++ [.told number event listener r], next⟩ := by
  obtain ⟨hsound, -⟩ := List.forall_mem_cons.1 h.frames
  have htold : toldIn number (log ++ [.told number event listener r]) =
      toldIn number log ++ [listener] := by
    rw [toldIn_snoc, Entry.toldIn?, if_pos rfl]
    rfl
  have hnew : listener ∉ toldIn number log := fun hmem =>
    List.disjoint_of_nodup_append hsound.apart hmem (List.mem_cons_self ..)
  refine h.goOn rfl rfl rfl rfl (h.told.snoc ?_ fun _ _ heq => nomatch heq) ?_ (fun x hx => ?_)
    fun _ _ _ heq => nomatch heq
  · rintro _ _ _ _ ⟨⟩
    refine ⟨fun hleft => ?_, hnew⟩
    by_contra hnot
    have hclear : Clear event log := not_or.1 hnot
    have hgone := (h.departed event hclear listener hleft).1 _ (List.mem_cons_self ..) rfl
    exact hgone (List.mem_append_right _ (List.mem_cons_self ..))
  · refine hsound.goOn rfl rfl (fun _ heq => nomatch heq) ?_ ?_ fun x hx _ => ?_
    · rw [htold]
      exact (List.append_nil kept ▸ hsound.told).append (.refl _)
    · rw [htold, List.append_assoc]
      exact hsound.apart
    · simpa [Frame.listed] using hx
  · simpa [Frame.listed] using hx

/-- A listener answers. If it leaves, it is not among those of the announcement any more. -/
theorem answer {number : Nat} {event : Event} {r : Record} {kept waiting : List Listener} {s : Tray ω}
    (leaves : Bool)
    (h : Sound listeners
      ⟨t, ⟨number, event, r, kept, some (listener, s), waiting⟩ :: rest, log, next⟩) :
    Sound listeners ⟨t,
      ⟨number, event, r, if leaves then kept else kept ++ [listener], none, waiting⟩ :: rest,
      log ++ [.answered number event listener leaves], next⟩ := by
  obtain ⟨hsound, -⟩ := List.forall_mem_cons.1 h.frames
  have htold : toldIn number (log ++ [.answered number event listener leaves]) = toldIn number log := by
    rw [toldIn_snoc]
    exact List.append_nil _
  have hfewer : ((if leaves then kept else kept ++ [listener]) ++ []).Sublist (kept ++ [listener]) := by
    rw [List.append_nil]
    split
    · exact List.sublist_append_left ..
    · exact .refl _
  refine h.goOn rfl rfl rfl rfl
    (h.told.snoc (fun _ _ _ _ heq => nomatch heq) fun _ _ heq => nomatch heq) ?_ (fun x hx => ?_) ?_
  · refine hsound.goOn rfl rfl (fun _ heq => nomatch heq) ?_ ?_ fun x hx hstays => ?_
    · rw [htold]
      exact hfewer.trans hsound.told
    · rw [htold]
      exact hsound.apart
    · have hne : leaves = true → x ≠ listener := by
        rintro rfl rfl
        exact hstays (left_snoc.2 (.inr ⟨number, rfl⟩))
      cases leaves
      · simpa [Frame.listed] using hx
      · simpa [Frame.listed, hne rfl] using hx
  · exact ((hfewer.append_right waiting).subset hx : x ∈ kept ++ [listener] ++ waiting)
  · rintro _ _ _ ⟨⟩
    have hnodup : (kept ++ listener :: waiting).Nodup := by simpa [Frame.listed] using hsound.nodup
    obtain ⟨hgone, -⟩ := List.nodup_cons.1 (List.nodup_middle.1 hnodup)
    exact ⟨rfl, by simpa [Frame.listed] using hgone⟩

/-- An announcement comes to its end, and those that it kept are the event's listeners. -/
theorem finish {number : Nat} {event : Event} {r : Record} {kept : List Listener}
    (h : Sound listeners ⟨t, ⟨number, event, r, kept, none, []⟩ :: rest, log, next⟩) :
    Sound listeners ⟨{ t with listeners := fun e => if e = event then kept else t.listeners e }, rest,
      log ++ [.ended number event false], next⟩ := by
  obtain ⟨hsound, -⟩ := List.forall_mem_cons.1 h.frames
  have hlisted : (⟨number, event, r, kept, none, []⟩ : Frame ω).listed = kept := by
    simp [Frame.listed]
  have hkept : kept.Sublist (toldIn number log) := List.append_nil kept ▸ hsound.told
  refine h.pop (h.told.snoc (fun _ _ _ _ heq => nomatch heq) ?_)
    (fun event' => ?_) (fun event' x hx hstays => ?_) fun event' hclear x hleft hothers => ?_
  · rintro _ _ ⟨⟩ x hx hstays
    exact hkept.subset (hlisted ▸ hsound.loyal x hx hstays)
  · dsimp only
    split
    · exact hlisted ▸ hsound.nodup
    · exact h.apart event'
  · dsimp only
    split
    · next heq => exact hlisted ▸ hsound.loyal x (heq ▸ hx) (heq ▸ hstays)
    · exact h.loyal event' x hx hstays
  · obtain ⟨hframes, hnone⟩ := h.departed event' hclear.of_snoc x hleft
    dsimp only
    split
    · next heq => exact hlisted ▸ hframes _ (List.mem_cons_self ..) heq.symm
    · next hne => exact hnone (List.forall_mem_cons.2 ⟨fun heq => hne heq.symm, hothers⟩)

theorem breakOff (h : Sound listeners ⟨t, f :: rest, log, next⟩) :
    Sound listeners ⟨t, rest, log ++ [.ended f.number f.event true], next⟩ := by
  refine h.pop (h.told.snoc (fun _ _ _ _ heq => nomatch heq) fun _ _ heq => nomatch heq) h.apart
    h.loyal fun event hclear x hleft hothers => ?_
  have hne : f.event ≠ event := by
    rintro rfl
    exact hclear.1 (broken_snoc.2 (.inr ⟨f.number, rfl⟩))
  exact (h.departed event hclear.of_snoc x hleft).2 (List.forall_mem_cons.2 ⟨hne, hothers⟩)

theorem advance {behavior : Behavior ω} {p p' : Progress ω} (advance : Advance behavior p p')
    (h : Sound listeners p) : Sound listeners p' := by
  cases advance with
  | aside hlisteners => exact h.aside hlisteners
  | begin event r => exact h.begin event r
  | tell => exact h.tell
  | answer depth leaves => exact h.answer leaves
  | finish => exact h.finish
  | breakOff => exact h.breakOff

end Progress.Sound

/-! ## Everything that is done with a tray -/

variable {behavior : Behavior ω} {p p' : Progress ω}

/-- The journal goes on with what is announced and told. -/
theorem Advance.journal (advance : Advance behavior p p') {journal : List Notice}
    (h : p.tray.journal = journal ++ p.log.flatMap Entry.notices) :
    p'.tray.journal = journal ++ p'.log.flatMap Entry.notices := by
  cases advance with
  | aside _ hjournal => exact hjournal.trans h
  | _ => simp_all [noted, hinted, Entry.notices]

variable [World ω]

end RollTray.Tray
