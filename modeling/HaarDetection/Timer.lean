import HaarDetection.Number.Scalar
import HaarDetection.Decimal.Numeral

/-!
# Timers

A timer collects how long the runs of an activity took: their number, their total, and a smoothed
average that follows the latest runs. Reporting on a timer begins a new period without runs.

* `Timer.record`: a timer after another run.
* `Timer.report`: the line about a period, and the timer for the next one.
-/

namespace HaarDetection

/-- The runs of an activity since the last report. Durations count nanoseconds. -/
structure Timer where
  name : String
  samples : Nat
  total : Nat
  /-- The smoothed average in seconds, once there has been a run. -/
  smoothed : Option Float32
deriving DecidableEq

namespace Timer

/-- The weight of the latest run in the smoothed average. -/
def smoothing : Float32 := 0.3

/-- A duration in seconds. -/
def seconds (nanoseconds : Nat) : Float32 :=
  let second := 1000000000
  singleOfNat (nanoseconds / second) + singleOfNat (nanoseconds % second) / singleOfNat second

/-- A timer without runs. -/
def fresh (name : String) : Timer := ⟨name, 0, 0, none⟩

/-- The timer after a run that took `elapsed`. -/
def record (t : Timer) (elapsed : Nat) : Timer :=
  let latest := seconds elapsed
  { t with
    samples := t.samples + 1
    total := t.total + elapsed
    smoothed := some (match t.smoothed with
      | none => latest
      | some average => average + smoothing * (latest - average)) }

/-- A copy of a timer for another owner has had no runs. -/
def copy (t : Timer) : Timer := fresh t.name

/-- The tenths nearest to a magnitude, halves to the even tenth. -/
def tenths (x : Float32) : Nat :=
  match x.toModel.unpack with
  | .finite _ mantissa exponent _ =>
    let num := (10 * mantissa) <<< exponent.toNat
    let den := 1 <<< (-exponent).toNat
    match compare (2 * (num % den)) den with
    | .lt => num / den
    | .gt => num / den + 1
    | .eq => num / den + num / den % 2
  | _ => 0

/-- Milliseconds with one decimal place. -/
def milliseconds (x : Float32) : String :=
  let n := tenths (x * 1000)
  s!"{n / 10}.{n % 10}ms"

/-- What a report begins with: the name and the number of runs. -/
def heading (t : Timer) : String := s!"{t.name}: {t.samples}x"

/-- The line about the runs of a timer. -/
def text (t : Timer) : String :=
  t.heading ++ s!"{milliseconds (t.smoothed.getD 0)} ({milliseconds (seconds t.total)})"

/-- **The line about a period, and the timer for the next period.** -/
def report (t : Timer) : String × Timer := (t.text, fresh t.name)

end Timer

end HaarDetection
