import RollTray.Proofs.Tray.Preservation

/-!
# The life of a roll

A roll is active, and may get its result and be canceled. Whatever happens on the tray it never
becomes active again, an inactive roll without a result never gets one, and a record with a result is
never changed (`Later`). The journal has at most one notice of each end of a roll and none of a
result after that of its cancellation (`Recorded`). Both are shown change by change.
-/

namespace RollTray

/-- Notices of which the second cannot come after the first: a roll gets its result once and is
canceled once, and gets no result after it was canceled. -/
def Notice.Forbids : Notice → Notice → Prop
  | .happened .resolved id _, .happened .resolved id' _ => id = id'
  | .happened .canceled id _, .happened .canceled id' _ => id = id'
  | .happened .canceled id _, .happened .resolved id' _ => id = id'
  | _, _ => False

theorem Notice.not_forbids_passing {notice passing : Notice} (h : passing.Passing) :
    ¬notice.Forbids passing := by
  rcases passing with ⟨event, id, result⟩ | ⟨tag, id⟩
  · cases h
    rcases notice with ⟨_ | _ | _, id', result'⟩ | ⟨tag, id'⟩ <;> exact fun h => h
  · rcases notice with ⟨_ | _ | _, id', result'⟩ | ⟨tag', id'⟩ <;> exact fun h => h

namespace Tray

variable {ω : Type}

/-! ## What stays as it is -/

/-- A tray and what may become of it: rolls do not become active again, nor get a result when they
are not active, nor change when they have one. -/
structure Later (t t' : Tray ω) : Prop where
  nextSerial : t.nextSerial ≤ t'.nextSerial
  active : ∀ r' ∈ t'.active, r'.serial < t.nextSerial → ∃ r ∈ t.active, r.serial = r'.serial
  rolls : ∀ r' ∈ t'.history ++ t'.active, r'.serial < t.nextSerial →
    ∃ r ∈ t.history ++ t.active, r.serial = r'.serial ∧
      (r.record.resolved = true → r'.record = r.record) ∧
      (r.record.resolved = false → (∀ other ∈ t.active, other.serial ≠ r.serial) →
        r'.record.resolved = false)

namespace Later

variable {t t' t'' : Tray ω}

theorem refl (t : Tray ω) : Later t t where
  nextSerial := Nat.le_refl _
  active r hr _ := ⟨r, hr, rfl⟩
  rolls r hr _ := ⟨r, hr, rfl, fun _ => rfl, fun h _ => h⟩

theorem trans (first : Later t t') (second : Later t' t'') : Later t t'' where
  nextSerial := Nat.le_trans first.nextSerial second.nextSerial
  active r'' hr'' hlt := by
    obtain ⟨r', hr', heq⟩ := second.active r'' hr'' (Nat.lt_of_lt_of_le hlt first.nextSerial)
    obtain ⟨r, hr, heq'⟩ := first.active r' hr' (heq ▸ hlt)
    exact ⟨r, hr, heq'.trans heq⟩
  rolls r'' hr'' hlt := by
    obtain ⟨r', hr', heq, hresolved, hinactive⟩ :=
      second.rolls r'' hr'' (Nat.lt_of_lt_of_le hlt first.nextSerial)
    obtain ⟨r, hr, heq', hresolved', hinactive'⟩ := first.rolls r' hr' (heq ▸ hlt)
    refine ⟨r, hr, heq'.trans heq, fun h => ?_, fun h hnot => ?_⟩
    · have hrecord := hresolved' h
      rw [hresolved (hrecord ▸ h), hrecord]
    · refine hinactive (hinactive' h hnot) fun other hother hserial => ?_
      obtain ⟨x, hx, hxserial⟩ := first.active other hother (by omega)
      exact hnot x hx (by omega)

/-- Rolls leave history or the active ones. -/
theorem of_subset (nextSerial : t'.nextSerial = t.nextSerial)
    (history : ∀ r ∈ t'.history, r ∈ t.history) (active : ∀ r ∈ t'.active, r ∈ t.active) :
    Later t t' where
  nextSerial := Nat.le_of_eq nextSerial.symm
  active r hr _ := ⟨r, active r hr, rfl⟩
  rolls r hr _ := by
    refine ⟨r, ?_, rfl, fun _ => rfl, fun h _ => h⟩
    rcases List.mem_append.1 hr with hr | hr
    · exact List.mem_append_left _ (history r hr)
    · exact List.mem_append_right _ (active r hr)

end Later

variable [World ω] {S : Setting ω} {owed owed' : Owed} {t t' : Tray ω}

/-- A record without a result is written. It gets one only if its roll is active. -/
theorem Orderly.later_write (ho : Orderly S owed t) {r : Roll} (mem : r ∈ t.history) {record : Record}
    (unresolved : r.record.resolved = false) (h : record.resolved = true → r ∈ t.active)
    (journal : List Notice) : Later t { t.write r.serial record with journal } where
  nextSerial := Nat.le_refl _
  active r' hr' _ := by
    obtain ⟨x, hx, rfl⟩ := List.mem_map.1 hr'
    exact ⟨x, hx, (Roll.serial_put ..).symm⟩
  rolls r' hr' _ := by
    obtain ⟨x, hx, rfl⟩ := mem_write.1 hr'
    have hcases := ho.put_cases (List.mem_append_left _ mem) hx record
    refine ⟨x, hx, (Roll.serial_put ..).symm, fun hresolved => ?_, fun hx' hnot => ?_⟩
    · rcases hcases with ⟨rfl, _⟩ | ⟨_, hput⟩
      · rw [unresolved] at hresolved
        cases hresolved
      · rw [hput]
    · rcases hcases with ⟨rfl, hput⟩ | ⟨_, hput⟩ <;> rw [hput]
      · exact Bool.eq_false_iff.2 fun hresolved => hnot x (h hresolved) rfl
      · exact hx'

theorem Change.later {kind : Kind} (change : Change S kind t owed t' owed') (ho : Orderly S owed t) :
    Later t t' := by
  cases change with
  | begin r serial =>
    refine ⟨Nat.le_succ _, fun r' hr' hlt => ?_, fun r' hr' hlt => ?_⟩
    · rcases List.mem_append.1 hr' with hr' | hr'
      · exact ⟨r', hr', rfl⟩
      · rw [List.mem_singleton.1 hr'] at hlt
        omega
    · rcases mem_added.1 hr' with rfl | hr'
      · omega
      · exact ⟨r', hr', rfl, fun _ => rfl, fun h _ => h⟩
  | trim history sublist => exact .of_subset rfl (fun _ h => sublist.subset h) fun _ h => h
  | cancel r mem =>
    exact .of_subset rfl (fun _ h => h) fun _ h => (mem_filter_serial.1 h).1
  | settle r record notices mem unresolved all =>
    exact ho.later_write mem unresolved (fun _ => ho.active_of_all mem all) _
  | fail r record mem unresolved id groups still =>
    refine ho.later_write mem unresolved (fun hresolved => ?_) t.journal
    rw [still] at hresolved
    cases hresolved
  | _ => exact .of_subset rfl (fun _ h => h) fun _ h => h

theorem Trace.later (trace : Trace S t owed t' owed') (ho : Orderly S owed t) : Later t t' := by
  induction trace with
  | refl => exact .refl t
  | step trace change _ ih => exact ih.trans (change.later (trace.orderly ho))

/-! ## What is noted down -/

/-- What the journal says of the ends of rolls. -/
structure Recorded (S : Setting ω) (t : Tray ω) : Prop where
  apart : t.journal.Pairwise fun notice notice' => ¬notice.Forbids notice'
  issued : ∀ event id result, .happened event id result ∈ t.journal → event ≠ .started →
    ∃ serial < t.nextSerial, id = S.id serial
  resolved : ∀ serial result, .happened .resolved (S.id serial) result ∈ t.journal →
    ∀ r ∈ t.history ++ t.active, r.serial = serial → r.record.resolved = true
  canceled : ∀ serial result, .happened .canceled (S.id serial) result ∈ t.journal →
    ∀ r ∈ t.active, r.serial ≠ serial

/-- What is noted down in one change: nothing of the end of a roll, that an active roll was canceled
or that it got its result. -/
inductive Tells (S : Setting ω) (t : Tray ω) (notices : List Notice) (t' : Tray ω) : Prop where
  | passing (h : ∀ notice ∈ notices, notice.Passing)
  | canceled (r : Roll) (result : Value) (active : r ∈ t.active)
      (noted : notices = [.happened .canceled (S.id r.serial) result])
      (after : ∀ r' ∈ t'.active, r'.serial ≠ r.serial)
  | resolved (r : Roll) (result : Value) (active : r ∈ t.active)
      (unresolved : r.record.resolved = false)
      (noted : notices = [.happened .resolved (S.id r.serial) result])
      (after : ∀ r' ∈ t'.history ++ t'.active, r'.serial = r.serial → r'.record.resolved = true)

theorem Change.tells {kind : Kind} (change : Change S kind t owed t' owed') (ho : Orderly S owed t)
    (hexact : ¬S.Exact) : ∃ notices, t'.journal = t.journal ++ notices ∧ Tells S t notices t' := by
  have hnone : ∃ notices, t.journal = t.journal ++ notices ∧ Tells S t notices t' :=
    ⟨[], (List.append_nil _).symm, .passing fun _ h => nomatch h⟩
  cases change with
  | around world chance clock formula nextThrow listeners journal holds quiet passing =>
    obtain ⟨notices, rfl, h⟩ := passing.resolve_left hexact
    exact ⟨notices, rfl, .passing h⟩
  | cancel r mem watermark world notices mark holds noted =>
    refine ⟨notices, rfl, ?_⟩
    rcases noted with rfl | rfl
    · exact .passing fun _ h => nomatch h
    · refine .canceled r r.record.result mem ?_ fun r' hr' => (mem_filter_serial.1 hr').2
      exact congrArg (fun id => [Notice.happened .canceled id r.record.result])
        (ho.id_eq (List.mem_append_right _ mem))
  | settle r record notices mem unresolved all id groups resolved answers noted =>
    refine ⟨notices, rfl, ?_⟩
    rcases noted with rfl | rfl
    · exact .passing fun _ h => nomatch h
    · refine .resolved r record.result (ho.active_of_all mem all) unresolved ?_ fun r' hr' heq => ?_
      · exact congrArg (fun id => [Notice.happened .resolved id record.result])
          (id.trans (ho.id_eq (List.mem_append_left _ mem)))
      · obtain ⟨x, _, rfl⟩ := mem_write.1 hr'
        rw [Roll.serial_put] at heq
        rw [Roll.put_of_eq heq]
        exact resolved
  | _ => exact hnone

/-- A notice that is noted down is not forbidden by those before it. -/
theorem Recorded.not_forbids (h : Recorded S t) {notices : List Notice} (tells : Tells S t notices t') :
    ∀ notice ∈ t.journal, ∀ notice' ∈ notices, ¬notice.Forbids notice' := by
  intro notice hnotice notice' hnotice' hforbids
  cases tells with
  | passing hpassing => exact Notice.not_forbids_passing (hpassing notice' hnotice') hforbids
  | canceled r result active noted =>
    rw [noted, List.mem_singleton] at hnotice'
    subst hnotice'
    rcases notice with ⟨_ | _ | _, id, result'⟩ | ⟨tag, id⟩
    · exact hforbids
    · exact hforbids
    · cases hforbids
      exact h.canceled r.serial result' hnotice r active rfl
    · exact hforbids
  | resolved r result active unresolved noted =>
    rw [noted, List.mem_singleton] at hnotice'
    subst hnotice'
    rcases notice with ⟨_ | _ | _, id, result'⟩ | ⟨tag, id⟩
    · exact hforbids
    · cases hforbids
      have hresolved := h.resolved r.serial result' hnotice r (List.mem_append_right _ active) rfl
      rw [unresolved] at hresolved
      cases hresolved
    · cases hforbids
      exact h.canceled r.serial result' hnotice r active rfl
    · exact hforbids

theorem Tells.pairwise {notices : List Notice} (tells : Tells S t notices t') :
    notices.Pairwise fun notice notice' => ¬notice.Forbids notice' := by
  cases tells with
  | passing h =>
    exact List.pairwise_of_forall_mem_list fun _ _ notice' hnotice' =>
      Notice.not_forbids_passing (h notice' hnotice')
  | canceled r result active noted => exact noted ▸ List.pairwise_singleton ..
  | resolved r result active unresolved noted => exact noted ▸ List.pairwise_singleton ..

/-- The end of a roll is noted down of one that has begun. -/
theorem Tells.issued (tells : Tells S t notices t') (ho : Orderly S owed t) {event : Event} {id result : Value}
    (hmem : .happened event id result ∈ notices) (hevent : event ≠ .started) :
    ∃ serial < t.nextSerial, id = S.id serial := by
  cases tells with
  | passing hpassing => exact absurd (hpassing _ hmem) hevent
  | canceled r _ active noted =>
    cases List.mem_singleton.1 (noted ▸ hmem)
    exact ⟨r.serial, ho.serial_lt active, rfl⟩
  | resolved r _ active unresolved noted =>
    cases List.mem_singleton.1 (noted ▸ hmem)
    exact ⟨r.serial, ho.serial_lt active, rfl⟩

theorem Tells.of_resolved (tells : Tells S t notices t') {serial : Nat} {result : Value}
    (hmem : .happened .resolved (S.id serial) result ∈ notices) :
    ∀ r ∈ t'.history ++ t'.active, r.serial = serial → r.record.resolved = true := by
  cases tells with
  | passing hpassing => nomatch hpassing _ hmem
  | canceled r _ active noted =>
    rw [noted, List.mem_singleton] at hmem
    cases hmem
  | resolved r _ active unresolved noted after =>
    have hnotice := List.mem_singleton.1 (noted ▸ hmem)
    injection hnotice with _ hid
    exact id_inj hid ▸ after

theorem Tells.of_canceled (tells : Tells S t notices t') {serial : Nat} {result : Value}
    (hmem : .happened .canceled (S.id serial) result ∈ notices) : ∀ r ∈ t'.active, r.serial ≠ serial := by
  cases tells with
  | passing hpassing => nomatch hpassing _ hmem
  | resolved r _ active unresolved noted =>
    rw [noted, List.mem_singleton] at hmem
    cases hmem
  | canceled r _ active noted after =>
    have hnotice := List.mem_singleton.1 (noted ▸ hmem)
    injection hnotice with _ hid
    exact id_inj hid ▸ after

theorem Recorded.append (h : Recorded S t) (ho : Orderly S owed t) (later : Later t t')
    {notices : List Notice} (tells : Tells S t notices t')
    (journal : t'.journal = t.journal ++ notices) : Recorded S t' where
  apart := by
    rw [journal]
    exact List.pairwise_append.2 ⟨h.apart, tells.pairwise, h.not_forbids tells⟩
  issued event id result hmem hevent := by
    rw [journal] at hmem
    have hissued : ∃ serial < t.nextSerial, id = S.id serial :=
      (List.mem_append.1 hmem).elim (h.issued event id result · hevent) (tells.issued ho · hevent)
    obtain ⟨serial, hlt, hid⟩ := hissued
    exact ⟨serial, Nat.lt_of_lt_of_le hlt later.nextSerial, hid⟩
  resolved serial result hmem r' hr' heq := by
    rw [journal] at hmem
    rcases List.mem_append.1 hmem with hmem | hmem
    · obtain ⟨serial', hlt, hid⟩ := h.issued _ _ _ hmem (fun h => nomatch h)
      obtain rfl := id_inj hid
      obtain ⟨r, hr, hserial, hkept, _⟩ := later.rolls r' hr' (by omega)
      have hresolved := h.resolved serial result hmem r hr (by omega)
      rw [hkept hresolved]
      exact hresolved
    · exact tells.of_resolved hmem r' hr' heq
  canceled serial result hmem r' hr' heq := by
    rw [journal] at hmem
    rcases List.mem_append.1 hmem with hmem | hmem
    · obtain ⟨serial', hlt, hid⟩ := h.issued _ _ _ hmem (fun h => nomatch h)
      obtain rfl := id_inj hid
      obtain ⟨r, hr, hserial⟩ := later.active r' hr' (by omega)
      exact h.canceled serial result hmem r hr (by omega)
    · exact tells.of_canceled hmem r' hr' heq

theorem Trace.recorded (trace : Trace S t owed t' owed') (hexact : ¬S.Exact) (ho : Orderly S owed t)
    (h : Recorded S t) : Recorded S t' := by
  induction trace with
  | refl => exact h
  | step trace change _ ih =>
    have ho := trace.orderly ho
    obtain ⟨notices, hjournal, tells⟩ := change.tells ho hexact
    exact ih.append ho (change.later ho) tells hjournal

end Tray

end RollTray
