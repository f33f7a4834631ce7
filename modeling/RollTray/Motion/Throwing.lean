import RollTray.Chance
import RollTray.Motion

/-!
# Throwing

How a die is thrown: which face it will show, how it is turned, and where it starts and how fast.
The dice of one throw are spread around the edge of the tray, wider for bigger throws and in a full
circle from twenty dice on, and aimed at random points near the centre, tumbling fast enough to
roll over several times. `drawFace`, `drawOrientation` and `drawThrow` draw these; the order of
their draws is part of what they promise.
-/

namespace RollTray.Motion

def pi : Float := 3.141592653589793

/-- The distance from the tray's centre to its walls. -/
def wallLimit : Float := 10

def spawnDistance : Float := wallLimit * 1.4

/-- Sine and cosine have no value at infinity. An angle is infinite only if a part of it is, and that
is looked at first: an arc tangent, which may be the rest of it, never is. -/
def circular (f : Float → Float) (part angle : Float) : Except Fault Float :=
  if part.isInf && angle.isInf then .error .unreadable else .ok (f angle)

def sine (angle : Float) : Except Fault Float := circular Float.sin angle angle

def cosine (angle : Float) : Except Fault Float := circular Float.cos angle angle

/-! ## Faces -/

/-- The number in a kind's name. -/
def sidesIn : Value → Except Fault Int
  | .text name =>
    match readInt (String.ofList (name.toList.drop 1)) with
    | some n => .ok n
    | none => .error .unreadable
  | _ => .error .mistyped

/-- A face as the physical die shows it: 0 to 9 on a d10 and on the units half of a d100, 00 to 90
on its tens half, and from one up on every other die. -/
def drawFace (kind tens : Value) : Attempt Chance Int := do
  if kind.same (.text "d100") then
    let digit ← Chance.below 10
    return if tens.truthy then digit * 10 else digit
  else if kind.same (.text "d10") then Chance.below 10
  else Chance.between 1 (← sidesIn kind)

/-! ## Orientation -/

/-- A turn by a random angle about a random axis. -/
def drawOrientation : Attempt Chance (List Value) := do
  let x ← Chance.draw
  let y ← Chance.draw
  let z ← Chance.draw
  let length := vectorLength [x, y, z]
  let norm := if length == 0 then 1 else length
  let angle := (← Chance.draw) * pi * 2
  let s := (← sine (angle / 2)) / norm
  let w ← cosine (angle / 2)
  return vector [x * s, y * s, z * s, w]

/-! ## Position and velocity -/

/-- The part of the edge that a throw of `total` dice is spread over, as an angle. -/
def spreadOf (total : Num) : Except Fault Num := do
  let least : Float := 0.3
  let share ← (← total.sub (.int 2)).div (.int 18)
  let share := Num.maximum (.float 0) [Num.minimum (.float 1) [share]]
  (Num.float least).add (← share.mul (.float (pi * 2 - least)))

/-- The angle at which die `index` of `total` starts. -/
def startAngle (index total : Value) (azimuth : Num) : Except Fault Num := do
  let total ← total.num
  if !(Num.int 1).lt total then return azimuth
  let spread ← spreadOf total
  let place ← (← index.num).div (← total.sub (.int 1))
  azimuth.add (← (← place.sub (.float 0.5)).mul spread)

/-- A random number of a range of the given width about zero. -/
def jitter (width : Float) : Attempt Chance Float := do
  return ((← Chance.draw) - 0.5) * width

/-- A spin about one axis, at least as fast as a die needs to roll over. -/
def tumble : Attempt Chance Float := do
  let v ← jitter 20
  return v + Num.copySign 10 v

/-- The motion with which die `index` of `total` is thrown, from the edge in the direction of
`azimuth`. -/
def drawThrow (index total : Value) (azimuth : Num) : Attempt Chance Motion := do
  let angle ← (← startAngle index total azimuth).toFloat
  let x := (← sine angle) * spawnDistance + (← jitter 4)
  let z := (← cosine angle) * spawnDistance + (← jitter 4)
  let y := 8 + (← Chance.draw) * 4
  let many := (Num.int 1).lt (← total.num)
  let range := wallLimit * (if many then 1 else 0.5)
  let targetX ← jitter range
  let targetZ ← jitter range
  let turn ← jitter 0.2
  let heading := Float.atan2 (targetX - x) (targetZ - z) + turn
  let speed := 25 + (← Chance.draw) * 10
  let orientation ← drawOrientation
  let alongX ← circular Float.sin turn heading
  let alongZ ← circular Float.cos turn heading
  let velocity := [alongX * speed, 0, alongZ * speed]
  let spinX ← tumble
  let spinY ← tumble
  let spinZ ← tumble
  return { position := vector [x, y, z], orientation, velocity := vector velocity,
           angularVelocity := vector [spinX, spinY, spinZ] }

end RollTray.Motion
