import StreamFusion.Lib.WrappingInt
import StreamFusion.State.Timers

/-!
# Windows of time

A row belongs to the windows that its time lies in (`planner/operators/window_table_function.rs`).
Windows are aligned to local time, so a plan has a time zone that takes an instant to local time and
the end of a window back to an instant; the two conversions are parameters here, and in UTC both are
the identity.

The bounds of the windows are 64-bit numbers that wrap around, so that a loop over the windows of a
row may go wrong, or go on for ever, near the ends of the range.  The windows that a loop makes are
those of any number of its iterations.
-/

namespace StreamFusion.Window

open State

/-- The conversions of a time zone, which fail outside the range of the calendar. -/
structure ShiftTimeZone where
  toWindowTime : Int → Except StateError Int
  timerTimestamp : Int → Except StateError Int

/-- Universal time is local time. -/
def ShiftTimeZone.utc : ShiftTimeZone := ⟨.ok, .ok⟩

/-- The first and the first excluded instant of a window. -/
structure Bounds where
  start : Int
  stop : Int
  deriving DecidableEq, Repr, Ord

/-- The instant a window is complete: its last one. -/
def Bounds.deadline (zone : ShiftTimeZone) (bounds : Bounds) : Except StateError Int :=
  zone.timerTimestamp (max (bounds.stop - 1) I64.min)

/-- The kinds of windows that are assigned by time. -/
inductive WindowKind where
  | tumble
  | hop
  | cumulate
  | session
  deriving DecidableEq, Repr

/-- A window function: its kind and its 64-bit numbers. -/
structure WindowPlan where
  kind : WindowKind
  sizeMillis : Int
  slideOrStepMillis : Int
  offsetMillis : Int
  size_inRange : I64.InRange sizeMillis := by decide
  slideOrStep_inRange : I64.InRange slideOrStepMillis := by decide
  offset_inRange : I64.InRange offsetMillis := by decide

/-- The plans that are accepted; the time zone is accepted here. -/
def WindowPlan.validate (window : WindowPlan) : Except StateError Unit :=
  if window.sizeMillis ≤ 0 then
    .error (.plan "Window TVF kind and positive size are required")
  else
    match window.kind with
    | .tumble =>
      if window.slideOrStepMillis ≠ 0 then .error (.plan "TUMBLE must not define a slide or step")
      else .ok ()
    | .hop =>
      if window.slideOrStepMillis ≤ 0 then .error (.plan "HOP slide must be positive") else .ok ()
    | .cumulate =>
      if window.slideOrStepMillis ≤ 0 ∨ window.sizeMillis.tmod window.slideOrStepMillis ≠ 0 then
        .error (.plan "CUMULATE size must be an integral multiple of its positive step")
      else .ok ()
    | .session => .ok ()

/-- The start of the window of `size` that a time lies in; the remainder of the source is
truncated. -/
def windowStart (timestamp offset size : Int) : Int :=
  let remainder := (I64.wrap (timestamp - offset)).tmod size
  if remainder < 0 then
    I64.wrap (timestamp - I64.wrap (remainder + size))
  else
    I64.wrap (timestamp - remainder)

/-- The windows of the first iterations of a loop over a number. -/
def pushes (goesOn : Int → Bool) (window : Int → Bounds) (next : Int → Int) :
    Nat → Int → List Bounds
  | 0, _ => []
  | fuel + 1, n => if goesOn n then window n :: pushes goesOn window next fuel (next n) else []

/-- The windows of a row, as far as `fuel` iterations make them. -/
def assignWindows (window : WindowPlan) (timestamp : Int) (fuel : Nat) : List Bounds :=
  let size := window.sizeMillis
  let step := window.slideOrStepMillis
  match window.kind with
  | .tumble =>
    let start := windowStart timestamp window.offsetMillis size
    [⟨start, I64.wrap (start + size)⟩]
  | .hop =>
    let lower := I64.wrap (timestamp - size)
    pushes (fun start => lower < start) (fun start => ⟨start, I64.wrap (start + size)⟩)
      (fun start => I64.wrap (start - step)) fuel (windowStart timestamp window.offsetMillis step)
  | .cumulate =>
    let start := windowStart timestamp window.offsetMillis size
    let lastStop := I64.wrap (start + size)
    pushes (fun stop => stop ≤ lastStop) (fun stop => ⟨start, stop⟩)
      (fun stop => I64.wrap (stop + step)) fuel
      (I64.wrap (windowStart timestamp window.offsetMillis step + step))
  | .session => [⟨timestamp, min (timestamp + size) I64.max⟩]

/-- The assignment comes to an end. -/
def Ends (window : WindowPlan) (timestamp : Int) : Prop :=
  ∃ iterations, ∀ more,
    assignWindows window timestamp (iterations + more) = assignWindows window timestamp iterations

end StreamFusion.Window
