import RollTray.Proofs.Dice.Faces
import RollTray.Proofs.Tray.Keeping
import RollTray.Proofs.World.Faces

/-!
# Which faces are drawn

A source of chance is fair if what it draws below the number of faces of a die is below it
(`Chance.Fair`). With a fair source, the face that is drawn for a die is one that the die, or its half of a
d100, has (`Chance.Fair.drawFace`). So a die that comes into the simulated world shows one of its faces
(`enter_fair`), and so does one that is knocked over (`turns_disturb`).
-/

namespace RollTray

open Attempt (Keeps)

/-! ## Fair sources -/

/-- Wherever the tape is read, what is drawn below the number of faces of a die is at least zero and
below that number. -/
def Chance.Fair (c : Chance) : Prop :=
  ∀ (next : Nat) (kind : DieKind) (n : Int),
    ((Chance.below kind.faces).perform { c with next }).1 = .ok n → 0 ≤ n ∧ n < kind.faces

namespace Chance

variable {c c' : Chance}

theorem Fair.of_tape (h : c.Fair) (htape : c'.tape = c.tape) : c'.Fair := by
  intro next kind n hdraw
  refine h next kind n ?_
  rwa [show ({ c' with next } : Chance) = { c with next } from congrArg (Chance.mk · next) htape]
    at hdraw

/-- To draw leaves the tape as it is. -/
theorem keeps_draw (tape : Array Float) : Keeps (fun c => c.tape = tape) draw := by
  intro c h
  rw [draw, Attempt.perform_of]
  split
  · exact h
  · exact h

theorem keeps_below (tape : Array Float) (bound : Int) : Keeps (fun c => c.tape = tape) (below bound) :=
  (keeps_draw tape).bind fun _ => (Keeps.lift _).bind fun _ => .lift _

theorem keeps_drawFace (tape : Array Float) (kind tens : Value) :
    Keeps (fun c => c.tape = tape) (Motion.drawFace kind tens) := by
  unfold Motion.drawFace
  split
  · exact (keeps_below tape 10).bind fun _ => .pure _
  · split
    · exact keeps_below tape 10
    · exact (Keeps.lift _).bind fun _ => (keeps_below tape _).bind fun _ => .pure _

/-- A source stays fair when a face is drawn, or cannot be drawn. -/
theorem Fair.of_drawFace (h : c.Fair) {kind tens : Value} {answer : Except Fault Int}
    (hdraw : (Motion.drawFace kind tens).perform c = (answer, c')) : c'.Fair :=
  h.of_tape ((keeps_drawFace c.tape kind tens).holds hdraw rfl)

/-- What is drawn below a number of faces with a fair source. -/
theorem Fair.below (h : c.Fair) {kind : DieKind} {n : Int}
    (hdraw : (Chance.below kind.faces).perform c = (.ok n, c')) : 0 ≤ n ∧ n < kind.faces :=
  h c.next kind n (congrArg Prod.fst hdraw)

end Chance

/-! ## Faces -/

theorem sidesIn_name (kind : DieKind) : Motion.sidesIn (.text kind.name) = .ok kind.faces := by
  cases kind <;> cbv

/-- A face of any other kind than d10 and d100 is drawn from one up. -/
theorem drawFace_of_ne {kind : DieKind} (hhundred : kind ≠ .d100) (hten : kind ≠ .d10) (tens : Bool) :
    Motion.drawFace (.text kind.name) (.bool tens) = (do return 1 + (← Chance.below kind.faces)) := by
  have hnot : ∀ other : DieKind, kind ≠ other →
      ¬(Value.text kind.name).same (.text other.name) = true := fun other hne => by
    rw [same_name, decide_eq_true_iff]
    exact hne
  unfold Motion.drawFace
  rw [show "d100" = DieKind.d100.name from rfl, show "d10" = DieKind.d10.name from rfl,
    if_neg (hnot .d100 hhundred), if_neg (hnot .d10 hten), sidesIn_name]
  show (do return 1 + (← Chance.below ((kind.faces : Int) - 1 + 1)) : Attempt Chance Int) = _
  rw [sub_add_cancel]

/-- The faces that are drawn for a kind of dice, by how far they are from the lowest one. -/
theorem mem_shownFaces :
    (∀ tens, ∀ k < DieKind.d10.faces, (k : Int) ∈ DieKind.d10.shownFaces tens) ∧
      (∀ k < DieKind.d10.faces, (k : Int) ∈ DieKind.d100.shownFaces false) ∧
      (∀ k < DieKind.d10.faces, (k : Int) * 10 ∈ DieKind.d100.shownFaces true) ∧
      ∀ kind : DieKind, kind ≠ .d100 → kind ≠ .d10 → ∀ tens, ∀ k < kind.faces,
        1 + (k : Int) ∈ kind.shownFaces tens := by
  refine ⟨by decide, by decide, by decide, fun kind hhundred hten => ?_⟩
  cases kind
  case d100 | d10 => contradiction
  all_goals decide

namespace Chance

variable {c c' : Chance}

theorem Fair.below_nat (h : c.Fair) {kind : DieKind} {n : Int}
    (hdraw : (Chance.below kind.faces).perform c = (.ok n, c')) :
    ∃ k < kind.faces, n = ((k : Nat) : Int) := by
  obtain ⟨hlow, hhigh⟩ := h.below hdraw
  exact ⟨n.toNat, by omega, by omega⟩

theorem exists_of_map {bound n : Int} {f : Int → Int}
    (h : (do return f (← below bound) : Attempt Chance Int).perform c = (.ok n, c')) :
    ∃ m c₁, (below bound).perform c = (.ok m, c₁) ∧ n = f m := by
  rw [Attempt.perform_bind] at h
  rcases hm : (below bound).perform c with ⟨fault | m, c₁⟩ <;> rw [hm] at h <;> cases h
  exact ⟨m, _, rfl, rfl⟩

/-- The face that is drawn for a die is one that it has. -/
theorem Fair.drawFace (h : c.Fair) {kind : DieKind} {tens : Bool} {n : Int}
    (hdraw : (Motion.drawFace (.text kind.name) (.bool tens)).perform c = (.ok n, c')) :
    n ∈ kind.shownFaces tens := by
  obtain ⟨hmemTen, hmemUnits, hmemTens, hmem⟩ := mem_shownFaces
  have hdigit : ∀ {m c₁}, (Chance.below DieKind.d10.faces).perform c = (.ok m, c₁) →
      ∃ k < DieKind.d10.faces, m = ((k : Nat) : Int) := h.below_nat
  by_cases hhundred : kind = .d100
  · subst hhundred
    obtain ⟨m, c₁, hm, rfl⟩ := exists_of_map (f := fun digit => if tens then digit * 10 else digit) hdraw
    obtain ⟨k, hk, rfl⟩ := hdigit hm
    cases tens with
    | true => exact hmemTens k hk
    | false => exact hmemUnits k hk
  by_cases hten : kind = .d10
  · subst hten
    obtain ⟨k, hk, rfl⟩ := hdigit hdraw
    exact hmemTen tens k hk
  · rw [drawFace_of_ne hhundred hten] at hdraw
    obtain ⟨m, c₁, hm, rfl⟩ := exists_of_map hdraw
    obtain ⟨k, hk, rfl⟩ := h.below_nat hm
    exact hmem kind hhundred hten tens k hk

end Chance

/-! ## Bodies that show their faces -/

/-- A die, or a half of a d100, whose body shows one of its faces if it is in the world, and which shows
one itself if it has settled. -/
structure SimulatedWorld.Genuine (w : SimulatedWorld) (kind : DieKind) (tens : Bool) (d : Die) : Prop where
  kind_eq : d.kind = .text kind.name
  tens_eq : d.tens = .bool tens
  below : d.handle < w.nextHandle
  body : ∀ body, Bodies.find? d.handle w.bodies = some body →
    body.kind = d.kind ∧ body.tens = d.tens ∧ body.face ∈ kind.shownFaces tens
  value : d.settled = true → ∃ n ∈ kind.shownFaces tens, d.value = .int n

/-- What may happen to bodies that are in the world with a fair source of chance: some are taken out,
and some show another one of their faces. -/
structure SimulatedWorld.Turns (w w' : SimulatedWorld) : Prop where
  fair : w'.chance.Fair
  nextHandle : w'.nextHandle = w.nextHandle
  body : ∀ handle body, Bodies.find? handle w'.bodies = some body →
    ∃ old, Bodies.find? handle w.bodies = some old ∧ body.kind = old.kind ∧ body.tens = old.tens ∧
      (body.face = old.face ∨ ∀ (kind : DieKind) tens, old.kind = .text kind.name →
        old.tens = .bool tens → body.face ∈ kind.shownFaces tens)

namespace SimulatedWorld

variable {w w' : SimulatedWorld} {handle : Nat} {d : Die}

theorem Genuine.turn {kind : DieKind} {tens : Bool} (h : w.Genuine kind tens d) (turns : Turns w w') :
    w'.Genuine kind tens d where
  kind_eq := h.kind_eq
  tens_eq := h.tens_eq
  below := turns.nextHandle ▸ h.below
  body body hbody := by
    obtain ⟨old, hold, hkind, htens, hface⟩ := turns.body d.handle body hbody
    obtain ⟨holdKind, holdTens, holdFace⟩ := h.body old hold
    refine ⟨hkind.trans holdKind, htens.trans holdTens, ?_⟩
    rcases hface with hface | hface
    · rw [hface]
      exact holdFace
    · exact hface kind tens (holdKind.trans h.kind_eq) (holdTens.trans h.tens_eq)
  value := h.value

theorem SameGuises.turns (h : SameGuises w w') (fair : w.chance.Fair) : Turns w w' where
  fair := h.chance ▸ fair
  nextHandle := h.nextHandle
  body handle body hbody := by
    obtain ⟨old, hold, hguise⟩ := h.exists_body hbody
    obtain ⟨hkind, hrest⟩ := Prod.mk.inj hguise
    obtain ⟨htens, hface⟩ := Prod.mk.inj hrest
    exact ⟨old, hold, hkind.symm, htens.symm, .inl hface.symm⟩

theorem turns_remove (fair : w.chance.Fair) (handle : Nat) :
    Turns w ((World.remove handle).perform w).2 where
  fair := fair
  nextHandle := rfl
  body other body hbody := by
    replace hbody : Bodies.find? other (w.bodies.erase handle) = some body := hbody
    refine ⟨body, ?_, rfl, rfl, .inl rfl⟩
    by_cases hother : other = handle
    · rw [hother, Bodies.find?_erase_self] at hbody
      cases hbody
    · rwa [Bodies.find?_erase_of_ne hother] at hbody

/-- A body that is knocked over shows one of its faces. -/
theorem turns_disturb (fair : w.chance.Fair) (handle : Nat) (velocity angularVelocity : List Value) :
    Turns w ((disturb handle velocity angularVelocity).perform w).2 := by
  rw [disturb_perform]
  cases hget : w.bodies.get handle with
  | error fault => exact (SameGuises.refl w).turns fair
  | ok old =>
    have hold := Bodies.get_eq_ok.1 hget
    dsimp only
    rcases hdraw : (Motion.drawFace old.kind old.tens).perform w.chance with ⟨fault | face, chance⟩ <;>
      have hfair : chance.Fair := fair.of_drawFace hdraw
    · have hwoken : SameGuises w { w with bodies := w.bodies.set handle { old with asleep := false } } :=
        sameGuises_set hold rfl
      exact ⟨hfair, rfl, (hwoken.turns fair).body⟩
    · refine ⟨hfair, rfl, fun other body hbody => ?_⟩
      by_cases hother : other = handle
      · subst hother
        cases (Bodies.find?_set_self hold _).symm.trans hbody
        refine ⟨old, hold, rfl, rfl, .inr fun kind tens hkind htens => ?_⟩
        rw [hkind, htens] at hdraw
        exact fair.drawFace hdraw
      · exact ⟨body, (Bodies.find?_set_of_ne hother ..).symm.trans hbody, rfl, rfl, .inl rfl⟩

/-- A die that comes into the world shows one of its faces. -/
theorem enter_fair (fair : w.chance.Fair) (kind : DieKind) (tens : Bool) (motion : Motion) :
    ∃ chance : Chance, chance.Fair ∧
      ((∃ fault, (enter (.text kind.name) (.bool tens) motion).perform w =
        (.error fault, { w with chance, nextHandle := w.nextHandle + 1 })) ∨
      ∃ body : SimulatedBody, (body.kind = .text kind.name ∧ body.tens = .bool tens ∧
          body.face ∈ kind.shownFaces tens) ∧
        (enter (.text kind.name) (.bool tens) motion).perform w = (.ok w.nextHandle, { w with
          chance
          nextHandle := w.nextHandle + 1
          bodies := w.bodies ++ [(w.nextHandle, body)] })) := by
  rw [enter_perform]
  rcases hdraw : (Motion.drawFace (.text kind.name) (.bool tens)).perform w.chance with
    ⟨fault | face, chance⟩
  · exact ⟨chance, fair.of_drawFace hdraw, .inl ⟨fault, rfl⟩⟩
  · exact ⟨chance, fair.of_drawFace hdraw, .inr ⟨_, ⟨rfl, rfl, fair.drawFace hdraw⟩, rfl⟩⟩

end SimulatedWorld

end RollTray
