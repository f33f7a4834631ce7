import RollTray.Proofs.Keys
import RollTray.Proofs.Tray.Mirroring

/-!
# What a tray is used for

A tray is used by what can be done with it (`Deed`), snapshots that are put onto it included. What is put
back may be any value, ids may be of any type, and listeners may do what they like. `Upkeep.deed` says what
is kept by all of it. However a tray is used, its dice are the bodies of its world, each once, and no handle
without a body is ever used (`houses_of_used`).
-/

namespace RollTray.Tray

open Attempt (Keeps Mirrors)

variable {ω : Type} [World ω]

/-- What can be done with a tray, by itself and with what was saved. -/
inductive Deed where
  | operation (op : Operation)
  | cancel (id : Value)
  | reroll (id : Value)
  | rollTyped (formula : String)
  | restore (saved : Value)
  | load (text : Option String)

/-- The deed without its answer. -/
def Deed.attempt (notify : Notify ω) : Deed → Attempt (Tray ω) Unit
  | .operation op => op.attempt notify
  | .cancel id => discard (Tray.cancel notify id)
  | .reroll id => discard (Tray.reroll notify id)
  | .rollTyped formula => discard (Tray.rollTyped notify formula)
  | .restore saved => Tray.restore notify saved
  | .load text => discard (Tray.load notify text)

/-! ## What is kept by all of it -/

section Keeping

variable {I : Tray ω → Prop} {notify : Notify ω}

theorem Offers.rollTyped (h : Offers notify I) (htick : ∀ dt, Keeps I (tick notify dt))
    (formula : String) : Keeps I (rollTyped notify formula) := by
  unfold Tray.rollTyped
  split
  · exact .pure _
  · refine .get fun t ht => ?_
    have hleft := h.roll formula t ht
    rcases hperform : (Tray.roll notify formula).perform t with ⟨answer, t'⟩
    rw [hperform] at hleft
    refine Keeps.bind_from (I := I) hleft (fun _ ht => ht) fun _ => ?_
    cases answer with
    | ok _ => exact (keeps_run htick _ _).discard.bind fun _ => .pure _
    | error fault => cases fault <;> first | exact Keeps.pure _ | exact Keeps.throw _

/-- A snapshot is put back part by part. -/
theorem keeps_restore (rolls : ∀ saved, Keeps I (modify (placeRolls saved)))
    (die : ∀ s, Keeps I (placeDie s)) (throw : ∀ throw, Keeps I (addThrow throw))
    (prune : Keeps I (prune notify)) (v : Value) : Keeps I (restore notify v) :=
  .get fun t ht => Keeps.lift_bind ht fun saved _ =>
    (rolls saved).bind (fun _ => (Keeps.forM fun s _ => die s).bind fun _ =>
      (Keeps.forM fun w _ => throw w).bind fun _ => prune) t ht

theorem keeps_load (h : ∀ v, Keeps I (restore notify v)) (text : Option String) :
    Keeps I (load notify text) := by
  unfold Tray.load
  split
  · exact .pure _
  · split
    · exact .pure _
    · next v _ =>
      refine .get fun t ht => ?_
      have hleft := h v t ht
      rcases hperform : (restore notify v).perform t with ⟨answer, t'⟩
      rw [hperform] at hleft
      refine Keeps.bind_from (I := I) hleft (fun _ ht => ht) fun _ => ?_
      cases answer with
      | ok _ => exact Keeps.pure _
      | error fault => cases fault <;> first | exact Keeps.pure _ | exact Keeps.throw _

/-- What does not depend on the history is kept by all that is done, if the parts of a snapshot may be
put onto the tray. -/
theorem Upkeep.deed (h : Upkeep I) (hn : ∀ event r, Keeps I (notify event r)) (hpoll : Keeps I poll)
    (trim : ∀ {t} (history : List Roll), I t → I { t with history })
    (rolls : ∀ saved, Keeps I (modify (placeRolls saved))) (die : ∀ s, Keeps I (placeDie s))
    (throw : ∀ throw, Keeps I (Tray.addThrow throw)) (deed : Deed) : Keeps I (deed.attempt notify) := by
  have hoffers := h.offers trim hn
  have hrestore : ∀ v, Keeps I (restore notify v) := keeps_restore rolls die throw (h.prune hn)
  cases deed with
  | operation op => exact hoffers.operation op fun _ => h.tick hn hpoll
  | cancel id => exact (h.cancel hn id).discard
  | reroll id => exact (hoffers.reroll id).discard
  | rollTyped formula => exact (hoffers.rollTyped (h.tick hn hpoll) formula).discard
  | restore saved => exact hrestore saved
  | load text => exact (keeps_load hrestore text).discard

/-- A die of a snapshot matters only as the world and the dice on the tray do. -/
theorem keeps_placeDie (h : ∀ {t} (world : ω) (dice : List Die), I t → I { t with world, dice })
    (s : SavedDie) : Keeps I (placeDie s) := by
  have htrack : ∀ d, Keeps I (track d) := fun _ => .of_modify fun t ht => h t.world _ ht
  refine Keeps.bind (.within fun t ht => h _ t.dice ht) fun handle => ?_
  dsimp only
  split
  · exact Keeps.bind (.within fun t ht => h _ t.dice ht) fun _ => htrack _
  · exact htrack _

end Keeping

/-! ## Where dice are kept -/

/-- The trays that there are after some use, whether what was done returned or not. -/
inductive Used (H : Housing ω) : Tray ω → Prop where
  /-- At first there are neither dice nor bodies. -/
  | new {t} (dice : t.dice = []) (bodies : World.handles t.world = []) : Used H t
  | act {t} (used : Used H t) (deed : Deed) : Used H ((deed.attempt announce).perform t).2
  /-- Anything else is changed: rolls, listeners, the configuration, or how the bodies lie. -/
  | outside {t t'} (used : Used H t) (dice : t'.dice = t.dice)
      (bodies : ∀ handles, H.holds t.world handles → H.holds t'.world handles) : Used H t'

theorem mirrors_deed {H : Housing ω} (T : World.Twin ω) (deed : Deed) :
    Mirrors H.Houses (deed.attempt announce) (@Deed.attempt ω T.other (@announce ω T.other) deed) := by
  have hn := mirrors_announce (H := H) T
  cases deed with
  | operation op => exact mirrors_operation T hn op
  | cancel id => exact (mirrors_cancel T hn id).discard
  | reroll id => exact (mirrors_reroll T hn id).discard
  | rollTyped formula => exact (mirrors_rollTyped T hn formula).discard
  | restore saved => exact mirrors_restore T hn saved
  | load text => exact (mirrors_load T hn text).discard

theorem Used.houses {H : Housing ω} {t : Tray ω} (used : Used H t) : H.Houses t := by
  induction used with
  | new dice bodies =>
    rw [Housing.Houses, dice]
    exact H.empty bodies
  | act _ deed ih => exact (mirrors_deed (World.guarded .endless) deed _ ih).2
  | outside _ dice bodies ih =>
    rw [Housing.Houses, dice]
    exact bodies _ ih

/-- The dice on a tray are the bodies of its world, and whatever is done next, a handle without a body
is not used: it is all the same what the world would do about one. -/
theorem houses_of_used (H : Housing ω) {t : Tray ω} (used : Used H t) :
    (t.dice.map Die.handle).Nodup ∧ (World.handles t.world).Perm (t.dice.map Die.handle) ∧
      ∀ T : World.Twin ω,
        (∀ deed : Deed, (@Deed.attempt ω T.other (@announce ω T.other) deed).perform t =
          (deed.attempt announce).perform t) ∧
        @snapshot ω T.other t = t.snapshot := by
  have houses := used.houses
  refine ⟨H.apart houses, H.bodies houses, fun T => ⟨fun deed => ?_, snapshot_twin T houses⟩⟩
  exact (mirrors_deed T deed t houses).1

/-- A die is rolled and thrown. -/
def throwing (formula : String) (t : Tray ScriptedWorld) : Tray ScriptedWorld :=
  let after (op : Operation) (t : Tray ScriptedWorld) := ((op.attempt announce).perform t).2
  after (.tick (.int 1)) (after (.roll formula) t)

/-- Two dice are thrown and a snapshot is taken. Then a third die is thrown, and the snapshot is put onto the
tray. -/
def restocked : Tray ScriptedWorld :=
  let before := throwing "2d6" vacant
  let saved := before.snapshot.toOption.getD .null
  (((Deed.restore saved).attempt announce).perform (throwing "d20" before)).2

/-- The third die is gone, as its roll is not in the snapshot, and the first two are there twice. -/
theorem houses_restocked :
    (∃ v, (throwing "2d6" vacant).snapshot = .ok v ∧
      (restore announce v).perform (throwing "d20" (throwing "2d6" vacant)) = (.ok (), restocked)) ∧
      (restocked.dice.map fun d => (d.handle, Value.ints? [d.roll])) =
        [(0, some [0]), (1, some [0]), (3, some [0]), (4, some [0])] ∧
      Used ScriptedWorld.housing restocked ∧
      (restocked.dice.map Die.handle).Nodup ∧
      (World.handles restocked.world).Perm (restocked.dice.map Die.handle) ∧
      ∀ alarm deed, (@Deed.attempt _ (World.guarded alarm).other
        (@announce _ (World.guarded alarm).other) deed).perform restocked =
          (deed.attempt announce).perform restocked := by
  have hrestored : ∃ v ∈ (throwing "2d6" vacant).snapshot.toOption,
      ((restore announce v).perform (throwing "d20" (throwing "2d6" vacant))).1.toOption = some () := by
    decide +kernel
  obtain ⟨v, hv, hrestored⟩ := hrestored
  have hsnapshot : (throwing "2d6" vacant).snapshot = .ok v := toOption_eq_some.1 hv
  have hleft : ((restore announce v).perform (throwing "d20" (throwing "2d6" vacant))).2 = restocked := by
    rw [restocked, hsnapshot]
    rfl
  have used : Used ScriptedWorld.housing restocked :=
    .act (.act (.act (.act (.act (.new rfl rfl) (.operation _)) (.operation _)) (.operation _))
      (.operation _)) _
  obtain ⟨hapart, hbodies, htwin⟩ := houses_of_used ScriptedWorld.housing used
  exact ⟨⟨v, hsnapshot, Prod.ext (toOption_eq_some.1 hrestored) hleft⟩, by decide +kernel, used, hapart,
    hbodies, fun alarm deed => (htwin (World.guarded alarm)).1 deed⟩

end RollTray.Tray
