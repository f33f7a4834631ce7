import RollTray.Record
import RollTray.Text.Strike

/-!
# Showing records

A record is shown in two lines: its id, formula and result, and below them its breakdown. A roll
without a result shows what became of it instead: it is still rolling if it is on the tray, and
was canceled if not. `Style.markdown` marks dropped dice as Markdown does.
-/

namespace RollTray

inductive Style where
  | plain
  | markdown
  deriving DecidableEq, Repr

namespace Style

/-- A breakdown in the style, which for Markdown must be a text. -/
def breakdown : Style → Value → Except Fault String
  | plain, v => v.shown
  | markdown, .text s => .ok (Text.Strike.toMarkdown s)
  | markdown, _ => .error .mistyped

/-- The breakdown of a record, or what became of a roll without a result. -/
def status (style : Style) (r : Record) (active : Bool) : Except Fault String :=
  if r.resolved then style.breakdown (if r.breakdown.truthy then r.breakdown else .text "")
  else .ok (if active then "Rolling..." else "Canceled")

/-- The result of a record, with dots in place of one that is still to come. -/
def result (r : Record) : Except Fault String :=
  if r.resolved then r.result.shown else .ok "..."

/-- The two lines of a record. -/
def record (style : Style) (r : Record) (active : Bool) : Except Fault (List String) := do
  let first := "#" ++ (← r.id.shown) ++ " " ++ (← r.formula.shown) ++ " = " ++ (← result r)
  return [first, "    " ++ (← style.status r active)]

/-- The lines of a history, given the ids of the rolls on the tray. -/
def history (style : Style) (rs : List Record) (active : List Value) :
    Except Fault (List String) := do
  let active ← active.mapM Value.asKey
  let lines ← rs.mapM fun r => do
    let id ← r.id.asKey
    style.record r (id.among active)
  return lines.flatten

/-- The result of the newest roll; nothing while it rolls. -/
def latest : List Record → Except Fault String
  | [] => .ok ""
  | r :: _ => if r.resolved then r.result.shown else .ok ""

/-- A record as an entry of a page: formula and result in bold, the breakdown below. -/
def entry (style : Style) (r : Record) (active : Bool) : Except Fault String := do
  let result ← result r
  let formula ← r.formula.shown
  return "**" ++ formula ++ "** = **" ++ result ++ "**  \n" ++ (← style.status r active)

end Style

end RollTray
