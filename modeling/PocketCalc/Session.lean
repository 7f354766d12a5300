import PocketCalc.Calculation
import PocketCalc.Keypad.Entry

/-!
# A session with the calculator

A session is what the calculator holds between two frames. In every frame the user does at most one
thing, an `Action`, and `Session.frame` goes through the frame in a fixed order: keys that work
everywhere, then the entry field, then the keypad, and last the preview, which always shows the value
of the entry as it then is.

The enter key evaluates only where the entry field has the focus. The field is not the calculator's
own: the window system provides it, and `TextField` says what the calculator relies on. With the
enter key such a field gives up the focus that it holds, so that only the focus counts which the
calculator requests in the same frame. It does so in the first frame, and in the frame behind a key of
the keypad or an evaluation.
-/

namespace PocketCalc

/-- What the calculator holds between two frames. -/
structure Session where
  /-- The expression as entered so far. -/
  entry : String := ""
  /-- What the display shows of the last evaluation. -/
  display : Display := {}
  /-- The value of the entry as it is, empty if it has none. -/
  preview : String := ""
  /-- How the last evaluation went. -/
  trace : Trace := {}
  /-- The unit of angles. -/
  unit : AngleUnit := .degrees
  /-- Whether the calculator requests the focus for the entry field in the next frame. -/
  focusPending : Bool := true
deriving DecidableEq

/-- What the user can do in a frame. -/
inductive Action
  /-- Presses a key of the keypad. -/
  | press (k : Key)
  /-- Presses the enter key. -/
  | enter
  /-- Presses the escape key, which clears the entry. -/
  | escape
  /-- Presses the function key that switches the unit of angles. -/
  | unitShortcut
  /-- Types a text over the entry. -/
  | typeText (text : String)
  /-- Does nothing. -/
  | wait

/-- What the calculator relies on of the text field of one line that the window system provides. -/
structure TextField where
  /-- Whether the field keeps the focus that it holds, in a frame with the action. -/
  keepsFocus : Action → Bool
  /-- The enter key ends the input: the field has given up the focus when the calculator looks at
  the key. -/
  keepsFocus_enter : keepsFocus .enter = false

/-- Whether the field has the focus when the calculator looks at the enter key: it has kept the focus
that it `held` before the frame, or the calculator has `requested` the focus in this frame, which takes
effect at once. -/
def TextField.hasFocus (field : TextField) (held requested : Bool) (action : Action) : Bool :=
  requested || held && field.keepsFocus action

namespace Session

/-- Clears the entry. -/
def clearEntry (s : Session) : Session := { s with entry := "", preview := "", focusPending := true }

/-- Clears the result and the trace. -/
def clearResult (s : Session) : Session :=
  { s with display := {}, preview := "", trace := {}, focusPending := true }

/-- Clears everything and goes back to degrees. -/
def reset (s : Session) : Session := { s.clearResult with entry := "", unit := .degrees }

/-- Switches the unit of angles. -/
def toggleUnit (s : Session) : Session :=
  { s with unit := s.unit.toggle, preview := "", focusPending := true }

/-- Evaluates the entry and keeps what the display shows and how the calculation went. -/
def evaluate (A : Arithmetic) (s : Session) : Session :=
  let c := calculate A s.unit s.entry
  { s with display := c.display, trace := c.trace, preview := "", focusPending := true }

/-- Changes the entry with a key. -/
def edit (s : Session) (change : List Char → List Char) : Session :=
  { s with entry := .ofList (change s.entry.toList), focusPending := true }

/-- What a key of the keypad does. -/
def press (A : Arithmetic) (s : Session) : Key → Session
  | .insert k => s.edit (insertKey k)
  | .delete => s.edit deleteLast
  | .clearEntry => s.clearEntry
  | .clearResult => s.clearResult
  | .reset => s.reset
  | .toggleUnit => s.toggleUnit
  | .evaluate => s.evaluate A

/-- Recomputes the preview: the value of the entry, and nothing while it has none. -/
def refresh (A : Arithmetic) (s : Session) : Session :=
  let d := displayOf A s.unit s.entry
  { s with preview := if d.isError then "" else d.text }

/-- What happens in a frame before the entry field is reached. -/
def beforeField (s : Session) : Action → Session
  | .escape => s.clearEntry
  | .unitShortcut => s.toggleUnit
  | .typeText text => { s with entry := text }
  | _ => s

/-- What happens in a frame from the entry field on, by whether the field has the focus. -/
def fromField (A : Arithmetic) (focused : Bool) (s : Session) : Action → Session
  | .enter => if focused then s.evaluate A else s
  | .press k => s.press A k
  | _ => s

/-- The session after a frame that shows the entry in a field, which `held` the focus before or did
not. -/
def frameWith (field : TextField) (held : Bool) (A : Arithmetic) (s : Session) (action : Action) :
    Session :=
  let before := s.beforeField action
  let focused := field.hasFocus held before.focusPending action
  (fromField A focused { before with focusPending := false } action).refresh A

/-- The session after a frame. Of the focus it asks only whether the calculator has requested it, which
comes to the same for every field, whether it held the focus or not (`frameWith_eq_frame`). -/
def frame (A : Arithmetic) (s : Session) (action : Action) : Session :=
  let before := s.beforeField action
  (fromField A before.focusPending { before with focusPending := false } action).refresh A

/-- The sessions of a run after each of its frames, from the one before the first. -/
def runFrom (A : Arithmetic) (s : Session) : List Action → List Session
  | [] => []
  | action :: rest =>
    let next := frame A s action
    next :: runFrom A next rest

/-- The sessions of a run from a fresh calculator in whose first frame nothing is done. -/
def run (A : Arithmetic) (actions : List Action) : List Session :=
  runFrom A {} (.wait :: actions)

end Session

end PocketCalc
