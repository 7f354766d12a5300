import Mathlib.Algebra.Group.Nat.Even
import Mathlib.Data.List.DropRight
import Mathlib.Data.List.Forall2
import Mathlib.Data.List.Infix
import PocketCalc.Machine
import PocketCalc.Session

/-!
# What a session shows, by its history

The history of a session is the list of its actions so far, from a fresh calculator on.
`Session.Describes` says what the history makes of the preview, the display, the trace and the unit: it
names the actions that evaluate, clear and switch. What it leaves open is behind which histories the
enter key evaluates, for in a frame the focus of the entry field decides that, which no history
mentions. It does behind those of `Session.ReachesEnter`, and with these `run_describes` shows the
description of every session of every run. The start is one of them, so that in a run in whose first
frame nothing is done those of `Session.EndsWithPress` are enough.

A frame is described first, action by action (`focusPending_frame`, `frame_of_evaluates`,
`frame_of_clears`, `frame_of_keeps`, `unit_frame`), and then the sessions of a run, by induction over
the history from its last action back.

The last section compares the enter key with the key for an evaluation. Where the focus is requested
the two are the same action, and elsewhere the enter key does nothing, which shows only in a session
that does not show the calculation of its entry already.
-/

namespace PocketCalc

namespace Action

/-- The action clears the display and the trace. -/
def Clears (a : Action) : Prop := a = .press .clearResult ∨ a = .press .reset

/-- Whether the action goes back to degrees. -/
def isReset : Action → Bool
  | .press .reset => true
  | _ => false

/-- Whether the action switches the unit of angles. -/
def togglesUnit : Action → Bool
  | .unitShortcut | .press .toggleUnit => true
  | _ => false

end Action

/-- Where the enter key is pressed, a field has the focus exactly if the calculator requests it. -/
theorem TextField.hasFocus_enter (field : TextField) (held requested : Bool) :
    field.hasFocus held requested .enter = requested := by
  rw [TextField.hasFocus, field.keepsFocus_enter, Bool.and_false, Bool.or_false]

namespace Session

/-- The session after the actions of a history, one in each frame, from a fresh calculator on. -/
def after (A : Arithmetic) (history : List Action) : Session := history.foldl (frame A) {}

/-- The history ends with a key of the keypad, with nothing but the enter key behind it. -/
def EndsWithPress (history : List Action) : Prop :=
  ∃ before k n, history = before ++ .press k :: List.replicate n .enter

/-- The history leads through enter keys only, from the start or from a key of the keypad. -/
def ReachesEnter (history : List Action) : Prop :=
  (∃ n, history = List.replicate n .enter) ∨ EndsWithPress history

section Reached

/-! Behind which histories the enter key evaluates is a parameter of what follows. -/

variable (reached : List Action → Prop)

/-- Behind a history, the action evaluates the entry: the key for it does, and so does the enter key
where it is reached. -/
def Evaluates (history : List Action) (a : Action) : Prop :=
  a = .press .evaluate ∨ a = .enter ∧ reached history

/-- Behind a history, none of the recent actions evaluates the entry. -/
def NoneEvaluates (history recent : List Action) : Prop :=
  ∀ before a rest, recent = before ++ a :: rest → ¬ Evaluates reached (history ++ before) a

/-- Since the start or since an action that clears the display, none evaluates the entry. -/
def Unevaluated (history : List Action) : Prop :=
  ∃ before recent, history = before ++ recent ∧
    (before = [] ∨ ∃ first a, before = first ++ [a] ∧ a.Clears) ∧
    NoneEvaluates reached before recent

/-- The last action that evaluates the entry comes behind the actions `before`, and the display has
not been cleared since. -/
def LastEvaluated (history before : List Action) : Prop :=
  ∃ a recent, history = before ++ a :: recent ∧ Evaluates reached before a ∧
    NoneEvaluates reached (before ++ [a]) recent ∧ ∀ a ∈ recent, ¬ a.Clears

/-- What a session shows after a history. -/
structure Describes (A : Arithmetic) (history : List Action) (s : Session) : Prop where
  /-- The preview is what the display would show for the entry, unless that is an error. -/
  preview : s.preview =
    if (displayOf A s.unit s.entry).isError then "" else (displayOf A s.unit s.entry).text
  /-- Display and trace are empty, or an evaluation is shown. -/
  shown : Unevaluated reached history ∨ ∃ before, LastEvaluated reached history before
  /-- Without an evaluation, display and trace are empty. -/
  unevaluated : Unevaluated reached history → s.display = {} ∧ s.trace = {}
  /-- Display and trace are those of the calculation of the entry, in the unit, that the session held
  just before its last evaluation. -/
  evaluated : ∀ before, LastEvaluated reached history before →
    s.display = (calculate A (after A before).unit (after A before).entry).display ∧
      s.trace = (calculate A (after A before).unit (after A before).entry).trace
  /-- Angles are in degrees if the unit was switched an even number of times since the start or the
  last action that went back to degrees. -/
  unit : s.unit = .degrees ↔
    Even ((history.rtakeWhile fun a => !a.isReset).countP Action.togglesUnit)

end Reached

variable {A : Arithmetic} {s : Session} {a : Action} {history before : List Action}
variable {reached : List Action → Prop}

/-! ## One frame -/

section Frame

attribute [local simp] frame beforeField fromField press refresh edit clearEntry clearResult reset
  toggleUnit evaluate

/-- A frame is the same for every field, whether the field held the focus or not. -/
theorem frameWith_eq_frame (field : TextField) (held : Bool) :
    frameWith field held A s a = frame A s a := by
  cases a with
  | enter => rw [frameWith, TextField.hasFocus_enter, frame]
  | _ => rfl

/-- The focus is requested for the next frame behind a key of the keypad, and behind an enter key that
evaluated. -/
theorem focusPending_frame : (frame A s a).focusPending = true ↔
    (∃ k, a = .press k) ∨ a = .enter ∧ s.focusPending = true := by
  rcases a with k | _ | _ | _ | _ | _
  · rcases k <;> simp
  · rcases hf : s.focusPending <;> simp [hf]
  all_goals simp

/-- An evaluation leaves the display and the trace of the calculation of the entry. -/
theorem frame_of_evaluates (h : a = .press .evaluate ∨ a = .enter ∧ s.focusPending = true) :
    (frame A s a).display = (calculate A s.unit s.entry).display ∧
      (frame A s a).trace = (calculate A s.unit s.entry).trace := by
  rcases h with rfl | ⟨rfl, hf⟩
  · simp
  · simp [hf]

/-- Clearing leaves an empty display and an empty trace. -/
theorem frame_of_clears (h : a.Clears) : (frame A s a).display = {} ∧ (frame A s a).trace = {} := by
  rcases h with rfl | rfl <;> simp

/-- All else leaves display and trace as they are. -/
theorem frame_of_keeps (h : ¬ a.Clears)
    (he : ¬ (a = .press .evaluate ∨ a = .enter ∧ s.focusPending = true)) :
    (frame A s a).display = s.display ∧ (frame A s a).trace = s.trace := by
  rcases a with k | _ | _ | _ | _ | _
  · rcases k <;> simp_all [Action.Clears]
  all_goals simp_all

/-- The unit of angles changes only where it is switched or goes back to degrees. -/
theorem unit_frame : (frame A s a).unit =
    if a.isReset then .degrees else if a.togglesUnit then s.unit.toggle else s.unit := by
  rcases a with k | _ | _ | _ | _ | _
  · rcases k <;> simp [Action.isReset, Action.togglesUnit]
  · rcases hf : s.focusPending <;> simp [hf, Action.isReset, Action.togglesUnit]
  all_goals simp [Action.isReset, Action.togglesUnit]

end Frame

/-- Every frame ends with a new preview. -/
theorem preview_frame : (frame A s a).preview =
    if (displayOf A (frame A s a).unit (frame A s a).entry).isError then ""
    else (displayOf A (frame A s a).unit (frame A s a).entry).text :=
  rfl

/-! ## One more action in a history -/

/-- A session after one more action is the one after a frame with it. -/
theorem after_concat (A : Arithmetic) (history : List Action) (a : Action) :
    after A (history ++ [a]) = frame A (after A history) a :=
  List.foldl_concat ..

/-- Where a list with a last element is split, this element is the last one behind the split, or the
split is at the end. -/
theorem append_singleton_eq_append_iff {α : Type} {xs ys zs : List α} {x : α} :
    xs ++ [x] = ys ++ zs ↔
      (ys = xs ++ [x] ∧ zs = []) ∨ ∃ zs', zs = zs' ++ [x] ∧ xs = ys ++ zs' := by
  constructor
  · intro h
    rcases zs.eq_nil_or_concat' with rfl | ⟨zs', z, rfl⟩
    · exact .inl ⟨by rw [h, List.append_nil], rfl⟩
    · rw [← List.append_assoc] at h
      obtain ⟨hxs, hx⟩ := List.append_inj' h rfl
      cases hx
      exact .inr ⟨zs', rfl, hxs⟩
  · rintro (⟨rfl, rfl⟩ | ⟨zs', rfl, rfl⟩)
    · rw [List.append_nil]
    · rw [List.append_assoc]

/-- A part of a list behind an element is empty, or ends with the last element of the list. -/
theorem append_singleton_eq_append_cons_iff {α : Type} {xs ys zs : List α} {x y : α} :
    xs ++ [x] = ys ++ y :: zs ↔
      (ys = xs ∧ y = x ∧ zs = []) ∨ ∃ zs', zs = zs' ++ [x] ∧ xs = ys ++ y :: zs' := by
  rw [List.append_cons ys, append_singleton_eq_append_iff]
  constructor
  · rintro (⟨h, rfl⟩ | ⟨zs', rfl, rfl⟩)
    · obtain ⟨hys, hy⟩ := List.append_inj' h rfl
      cases hy
      exact .inl ⟨hys, rfl, rfl⟩
    · exact .inr ⟨zs', rfl, List.append_cons .. ▸ rfl⟩
  · rintro (⟨rfl, rfl, rfl⟩ | ⟨zs', rfl, rfl⟩)
    · exact .inl ⟨rfl, rfl⟩
    · exact .inr ⟨zs', rfl, List.append_cons ..⟩

/-- One more action behind a key of the keypad: another key, or the enter key. -/
theorem endsWithPress_concat : EndsWithPress (history ++ [a]) ↔
    (∃ k, a = .press k) ∨ a = .enter ∧ EndsWithPress history := by
  constructor
  · rintro ⟨before, k, n, h⟩
    rcases append_singleton_eq_append_cons_iff.mp h with ⟨-, ha, -⟩ | ⟨enters, hn, rfl⟩
    · exact .inl ⟨k, ha.symm⟩
    · obtain ⟨-, henters, ha⟩ := List.append_eq_replicate_iff.mp hn.symm
      exact .inr ⟨by simpa using ha, before, k, _, by rw [henters]⟩
  · rintro (⟨k, rfl⟩ | ⟨rfl, before, k, n, rfl⟩)
    · exact ⟨history, k, 0, rfl⟩
    · exact ⟨before, k, n + 1, by rw [List.replicate_succ']; simp⟩

/-- One more action behind enter keys only: another enter key. -/
theorem exists_eq_replicate_concat : (∃ n, history ++ [a] = List.replicate n .enter) ↔
    a = .enter ∧ ∃ n, history = List.replicate n .enter := by
  constructor
  · rintro ⟨n, h⟩
    obtain ⟨-, henters, ha⟩ := List.append_eq_replicate_iff.mp h
    exact ⟨by simpa using ha, _, henters⟩
  · rintro ⟨rfl, n, rfl⟩
    exact ⟨n + 1, List.replicate_succ'.symm⟩

/-- One more action through enter keys only: a key of the keypad, or another enter key. -/
theorem reachesEnter_concat : ReachesEnter (history ++ [a]) ↔
    (∃ k, a = .press k) ∨ a = .enter ∧ ReachesEnter history := by
  rw [ReachesEnter, exists_eq_replicate_concat, endsWithPress_concat, ReachesEnter]
  tauto

/-- Behind a first frame in which nothing is done, the enter key is reached from a key of the keypad or
not at all. -/
theorem reachesEnter_wait_cons :
    ReachesEnter (.wait :: history) ↔ EndsWithPress (.wait :: history) := by
  refine ⟨fun h => h.resolve_left ?_, .inr⟩
  rintro ⟨n, h⟩
  have hwait : Action.wait ∈ List.replicate n .enter := h ▸ List.mem_cons_self
  cases List.eq_of_mem_replicate hwait

/-- One more recent action does not evaluate either. -/
theorem noneEvaluates_concat {recent : List Action} :
    NoneEvaluates reached history (recent ++ [a]) ↔
      NoneEvaluates reached history recent ∧ ¬ Evaluates reached (history ++ recent) a := by
  constructor
  · intro h
    refine ⟨fun before b rest hr => h before b (rest ++ [a]) ?_, h recent a [] rfl⟩
    rw [hr, List.append_assoc, List.cons_append]
  · rintro ⟨hrecent, ha⟩ before b rest h
    rcases append_singleton_eq_append_cons_iff.mp h with ⟨rfl, rfl, -⟩ | ⟨rest', -, hr⟩
    · exact ha
    · exact hrecent before b rest' hr

/-- After one more action there is no evaluation if it clears the display, or if it does not evaluate
and there was none before. -/
theorem unevaluated_concat : Unevaluated reached (history ++ [a]) ↔
    a.Clears ∨ ¬ Evaluates reached history a ∧ Unevaluated reached history := by
  constructor
  · rintro ⟨before, recent, h, hbefore, hnone⟩
    rcases append_singleton_eq_append_iff.mp h with ⟨rfl, rfl⟩ | ⟨recent', rfl, rfl⟩
    · rcases hbefore with h | ⟨first, b, h, hb⟩
      · simp at h
      · obtain ⟨-, ha⟩ := List.append_inj' h rfl
        cases ha
        exact .inl hb
    · obtain ⟨hnone, ha⟩ := noneEvaluates_concat.mp hnone
      exact .inr ⟨ha, before, recent', rfl, hbefore, hnone⟩
  · rintro (ha | ⟨ha, before, recent, rfl, hbefore, hnone⟩)
    · exact ⟨history ++ [a], [], by simp, .inr ⟨history, a, rfl, ha⟩, by simp [NoneEvaluates]⟩
    · exact ⟨before, recent ++ [a], by simp, hbefore, noneEvaluates_concat.mpr ⟨hnone, ha⟩⟩

/-- After one more action the last evaluation is this action, or the one before, if the action
neither evaluates nor clears the display. -/
theorem lastEvaluated_concat : LastEvaluated reached (history ++ [a]) before ↔
    (Evaluates reached history a ∧ before = history) ∨
      ¬ Evaluates reached history a ∧ ¬ a.Clears ∧ LastEvaluated reached history before := by
  constructor
  · rintro ⟨b, recent, h, hb, hnone, hclears⟩
    rcases append_singleton_eq_append_cons_iff.mp h with ⟨rfl, rfl, -⟩ | ⟨recent', rfl, rfl⟩
    · exact .inl ⟨hb, rfl⟩
    · obtain ⟨hnone, ha⟩ := noneEvaluates_concat.mp hnone
      rw [List.append_assoc] at ha
      refine .inr ⟨ha, hclears a (by simp), b, recent', rfl, hb, hnone, fun c hc => ?_⟩
      exact hclears c (List.mem_append_left _ hc)
  · rintro (⟨ha, rfl⟩ | ⟨ha, hclear, b, recent, rfl, hb, hnone, hclears⟩)
    · exact ⟨a, [], rfl, ha, by simp [NoneEvaluates], by simp⟩
    · refine ⟨b, recent ++ [a], by simp, hb, noneEvaluates_concat.mpr ⟨hnone, ?_⟩, ?_⟩
      · rwa [List.append_assoc]
      · simpa [or_imp, forall_and] using ⟨hclears, hclear⟩

/-! ## A whole run -/

/-- The focus is requested for the next frame exactly if the history leads through enter keys only,
from the start or from a key of the keypad. -/
theorem focusPending_after (A : Arithmetic) (history : List Action) :
    (after A history).focusPending = true ↔ ReachesEnter history := by
  induction history using List.reverseRecOn with
  | nil => exact iff_of_true rfl (.inl ⟨0, rfl⟩)
  | append_singleton history a ih =>
    rw [after_concat, focusPending_frame, reachesEnter_concat, ih]

/-- Wherever the enter key is pressed in the history, it is reached exactly if the focus is
requested. -/
def FollowsFocus (reached : List Action → Prop) (A : Arithmetic) (history : List Action) : Prop :=
  ∀ before rest, history = before ++ .enter :: rest →
    (reached before ↔ (after A before).focusPending = true)

/-- The enter key that is reached from the start or from a key of the keypad follows the focus. -/
theorem followsFocus_reachesEnter (A : Arithmetic) (history : List Action) :
    FollowsFocus ReachesEnter A history :=
  fun before _ _ => (focusPending_after A before).symm

/-- Behind a first frame in which nothing is done, so does the one that is reached from a key. -/
theorem followsFocus_endsWithPress (A : Arithmetic) (history : List Action) :
    FollowsFocus EndsWithPress A (.wait :: history) := by
  intro before rest h
  obtain ⟨hbefore, -⟩ | ⟨before, rfl, -⟩ := List.cons_eq_append_iff.mp h
  · subst hbefore
    cases h
  · rw [focusPending_after, reachesEnter_wait_cons]

/-- A shorter history follows the focus as well. -/
theorem FollowsFocus.of_concat (h : FollowsFocus reached A (history ++ [a])) :
    FollowsFocus reached A history := by
  rintro before rest rfl
  exact h before (rest ++ [a]) (by simp)

/-- Behind a history the last action evaluates in its frame exactly if it does so by the history. -/
theorem FollowsFocus.evaluates_iff (h : FollowsFocus reached A (history ++ [a])) :
    Evaluates reached history a ↔
      a = .press .evaluate ∨ a = .enter ∧ (after A history).focusPending = true := by
  refine or_congr_right (and_congr_right ?_)
  rintro rfl
  exact h history [] rfl

/-- There is no evaluation in a history, or a last one. -/
theorem unevaluated_or_lastEvaluated (reached : List Action → Prop) (history : List Action) :
    Unevaluated reached history ∨ ∃ before, LastEvaluated reached history before := by
  induction history using List.reverseRecOn with
  | nil => exact .inl ⟨[], [], rfl, .inl rfl, by simp [NoneEvaluates]⟩
  | append_singleton history a ih =>
    simp only [unevaluated_concat, lastEvaluated_concat]
    by_cases ha : Evaluates reached history a
    · exact .inr ⟨history, .inl ⟨ha, rfl⟩⟩
    · by_cases hc : a.Clears
      · exact .inl (.inl hc)
      · rcases ih with h | ⟨before, h⟩
        · exact .inl (.inr ⟨ha, h⟩)
        · exact .inr ⟨before, .inr ⟨ha, hc, h⟩⟩

/-- Without an evaluation, display and trace are empty. -/
theorem after_of_unevaluated (hf : FollowsFocus reached A history)
    (h : Unevaluated reached history) :
    (after A history).display = {} ∧ (after A history).trace = {} := by
  induction history using List.reverseRecOn with
  | nil => exact ⟨rfl, rfl⟩
  | append_singleton history a ih =>
    rw [after_concat]
    by_cases hc : a.Clears
    · exact frame_of_clears hc
    · obtain ⟨ha, h⟩ := (unevaluated_concat.mp h).resolve_left hc
      rw [hf.evaluates_iff] at ha
      obtain ⟨hdisplay, htrace⟩ := frame_of_keeps (A := A) hc ha
      rw [hdisplay, htrace]
      exact ih hf.of_concat h

/-- Display and trace are those of the last evaluation. -/
theorem after_of_lastEvaluated (hf : FollowsFocus reached A history)
    (h : LastEvaluated reached history before) :
    (after A history).display =
        (calculate A (after A before).unit (after A before).entry).display ∧
      (after A history).trace =
        (calculate A (after A before).unit (after A before).entry).trace := by
  induction history using List.reverseRecOn with
  | nil => simp [LastEvaluated] at h
  | append_singleton history a ih =>
    rw [after_concat]
    rcases lastEvaluated_concat.mp h with ⟨ha, rfl⟩ | ⟨ha, hc, h⟩
    · exact frame_of_evaluates (hf.evaluates_iff.mp ha)
    · rw [hf.evaluates_iff] at ha
      obtain ⟨hdisplay, htrace⟩ := frame_of_keeps (A := A) hc ha
      rw [hdisplay, htrace]
      exact ih hf.of_concat h

/-- Angles are in degrees after an even number of switches since they last were reset. -/
theorem unit_after (A : Arithmetic) (history : List Action) :
    (after A history).unit = .degrees ↔
      Even ((history.rtakeWhile fun a => !a.isReset).countP Action.togglesUnit) := by
  induction history using List.reverseRecOn with
  | nil => simp [after]
  | append_singleton history a ih =>
    rw [after_concat, unit_frame, List.rtakeWhile_concat]
    rcases hr : a.isReset with _ | _
    · rcases ht : a.togglesUnit with _ | _
      · simpa [ht] using ih
      · rcases hu : (after A history).unit <;>
          simp_all [AngleUnit.toggle, Nat.even_add_one]
    · simp

/-- An empty entry has no value. -/
theorem isError_displayOf_empty (A : Arithmetic) (unit : AngleUnit) :
    (displayOf A unit "").isError = true := by
  have htokens : tokenize (trim "".toList) = .ok [] := by decide +kernel
  rw [displayOf, calculate, htokens]
  rfl

/-- A session shows what its history makes of it. -/
theorem describes_after (hf : FollowsFocus reached A history) :
    Describes reached A history (after A history) where
  preview := by
    rcases history.eq_nil_or_concat' with rfl | ⟨history, a, rfl⟩
    · exact (if_pos (isError_displayOf_empty A .degrees)).symm
    · rw [after_concat]
      exact preview_frame
  shown := unevaluated_or_lastEvaluated reached history
  unevaluated := after_of_unevaluated hf
  evaluated _ := after_of_lastEvaluated hf
  unit := unit_after A history

/-- A run leads from any session through those after its first actions. -/
theorem cons_runFrom (A : Arithmetic) (s : Session) (actions : List Action) :
    s :: runFrom A s actions = actions.inits.map (List.foldl (frame A) s) := by
  induction actions generalizing s with
  | nil => simp [runFrom]
  | cons a actions ih => simp [runFrom, ih, Function.comp_def]

/-- The sessions of a run are those after its histories. -/
theorem runFrom_eq_map_after (A : Arithmetic) (actions : List Action) :
    runFrom A {} actions = actions.inits.tail.map (after A) := by
  have hcons : {} :: runFrom A {} actions = actions.inits.map (after A) := cons_runFrom A {} actions
  rw [List.map_tail, ← hcons, List.tail_cons]

/-- The sessions of a run are described by its histories, if these follow the focus. -/
theorem describes_runFrom {actions : List Action}
    (hf : ∀ history ∈ actions.inits.tail, FollowsFocus reached A history) :
    List.Forall₂ (Describes reached A) actions.inits.tail (runFrom A {} actions) := by
  rw [runFrom_eq_map_after, List.forall₂_map_right_iff, List.forall₂_same]
  exact fun history h => describes_after (hf history h)

/-- The sessions of a run are those after its histories, and each is described by its history: its
preview is the value of its entry; its display and trace are those of the last evaluation, of the
entry and in the unit that the session held just before it, or empty; and its unit is the one that
the switches have led to. An enter key evaluates where it is reached, through enter keys only, from the
start or from a key of the keypad, and where nothing is done in the first frame, from a key only. -/
theorem run_describes (A : Arithmetic) (actions : List Action) :
    runFrom A {} actions = actions.inits.tail.map (after A) ∧
      List.Forall₂ (Describes ReachesEnter A) actions.inits.tail (runFrom A {} actions) ∧
      List.Forall₂ (Describes EndsWithPress A) (Action.wait :: actions).inits.tail
        (run A actions) := by
  refine ⟨runFrom_eq_map_after A actions, ?_, ?_⟩
  · exact describes_runFrom fun history _ => followsFocus_reachesEnter A history
  · refine describes_runFrom fun history h => ?_
    rw [List.inits_cons, List.tail_cons] at h
    obtain ⟨rest, -, rfl⟩ := List.mem_map.mp h
    exact followsFocus_endsWithPress A rest

/-- An enter key in the very first frame evaluates as well, although no key of the keypad leads to it:
the display then shows that an empty entry has no value. -/
theorem run_enter_first : ¬ ∀ (A : Arithmetic) (actions : List Action),
    List.Forall₂ (Describes EndsWithPress A) actions.inits.tail (runFrom A {} actions) := by
  intro h
  obtain ⟨hfirst, -⟩ := List.forall₂_cons.mp (h .machine [.enter])
  have hnone : NoneEvaluates EndsWithPress [] [.enter] := by
    rw [← List.nil_append [Action.enter], noneEvaluates_concat]
    simp [NoneEvaluates, Evaluates, EndsWithPress]
  have hempty := (hfirst.unevaluated ⟨[], [.enter], rfl, .inl rfl, hnone⟩).1
  revert hempty
  decide +kernel

/-! ## The enter key -/

/-- What a session shows: its entry, the display, the preview and the trace. -/
def shown (s : Session) : String × Display × String × Trace :=
  (s.entry, s.display, s.preview, s.trace)

/-- The session shows the calculation of its entry. -/
def IsSettled (A : Arithmetic) (s : Session) : Prop :=
  s.display = (calculate A s.unit s.entry).display ∧ s.trace = (calculate A s.unit s.entry).trace

/-- In a frame that requests the focus, the enter key does what the key for an evaluation does. -/
theorem frame_enter_of_focusPending (hf : s.focusPending = true) :
    frame A s .enter = frame A s (.press .evaluate) := by
  simp only [frame, beforeField, fromField, press, hf, if_true]

/-- In any other frame the enter key does nothing. -/
theorem frame_enter_of_not_focusPending (hf : s.focusPending = false) :
    frame A s .enter = frame A s .wait := by
  simp only [frame, beforeField, fromField, hf, Bool.false_eq_true, if_false]

/-- A frame without an action shows the same as one with an evaluation exactly if the session shows the
calculation of its entry already. -/
theorem shown_frame_wait_iff :
    (frame A s .wait).shown = (frame A s (.press .evaluate)).shown ↔ IsSettled A s := by
  -- Neither action changes the entry or the unit, so that the preview is the same.
  have hentry : (frame A s (.press .evaluate)).entry = (frame A s .wait).entry := rfl
  have hunit : (frame A s (.press .evaluate)).unit = (frame A s .wait).unit := rfl
  have hpreview : (frame A s (.press .evaluate)).preview = (frame A s .wait).preview := by
    rw [preview_frame, hentry, hunit, preview_frame]
  have hwait : ¬ Action.Clears .wait := by simp [Action.Clears]
  obtain ⟨hdisplay, htrace⟩ := frame_of_evaluates (A := A) (s := s) (.inl rfl)
  obtain ⟨hdisplay', htrace'⟩ := frame_of_keeps (A := A) (s := s) hwait (by simp)
  rw [shown, shown, hentry, hpreview, hdisplay, htrace, hdisplay', htrace']
  simp only [Prod.mk.injEq, true_and, IsSettled]

/-- After any history, a frame with the enter key shows the same as one with the key for an evaluation,
exactly if the history leads through enter keys only, from the start or from a key of the keypad, or if
the session shows the calculation of its entry already. -/
theorem shown_frame_enter_iff (A : Arithmetic) (history : List Action) :
    (frame A (after A history) .enter).shown =
        (frame A (after A history) (.press .evaluate)).shown ↔
      ReachesEnter history ∨ IsSettled A (after A history) := by
  rw [← focusPending_after A]
  rcases hf : (after A history).focusPending with _ | _
  · rw [frame_enter_of_not_focusPending hf, shown_frame_wait_iff]
    simp
  · rw [frame_enter_of_focusPending hf]
    simp

/-- The enter key does not always evaluate: behind a typed text it does nothing. -/
theorem shown_frame_enter_typed : ¬ ∀ history : List Action,
    (after .machine history).entry ≠ "" →
      (frame .machine (after .machine history) .enter).shown =
        (frame .machine (after .machine history) (.press .evaluate)).shown := by
  intro h
  have htyped := h [.typeText "1+2"] (by decide +kernel)
  revert htyped
  decide +kernel

end Session

end PocketCalc
