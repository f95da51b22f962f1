import HaarDetection.Image.Query

/-!
# Computations that ask an image

A computation that asks queries is a *probe*: a tree that branches over the answers. Keeping the
computation apart from the image tells which queries it makes, and on which answers its result
hangs.

* `Probe.bind`: one probe after another; `bind_assoc` lets them be regrouped.
* `Probe.run`: the result of a probe on an image, and the number of queries made.
* `Probe.runFrom_bind`: to run one probe after another is to run the second one from where the
  first one has ended.
-/

namespace HaarDetection

/-- A computation that asks an image for sums in `α` and results in a `β`. Between two queries it
may look whether it has been cancelled. -/
inductive Probe (α β : Type)
  /-- The computation ends with a result. -/
  | done (result : β)
  /-- The computation stops with a fault. -/
  | fail (fault : Fault)
  /-- The computation asks a query and goes on with the answer. -/
  | ask (query : Query) (next : α → Probe α β)
  /-- The computation goes on with whether it has been cancelled. -/
  | poll (next : Bool → Probe α β)

namespace Probe

variable {α β γ : Type}

/-- One computation, and after it another that depends on the first one's result. -/
def bind : Probe α β → (β → Probe α γ) → Probe α γ
  | done result, f => f result
  | fail fault, _ => fail fault
  | ask query next, f => ask query fun answer => bind (next answer) f
  | poll next, f => poll fun cancelled => bind (next cancelled) f

@[simp]
theorem bind_done (p : Probe α β) : p.bind done = p := by
  induction p with
  | done => rfl
  | fail => rfl
  | ask query next ih => simp [bind, ih]
  | poll next ih => simp [bind, ih]

theorem bind_assoc {δ : Type} (p : Probe α β) (f : β → Probe α γ) (g : γ → Probe α δ) :
    (p.bind f).bind g = p.bind fun b => (f b).bind g := by
  induction p with
  | done => rfl
  | fail => rfl
  | ask query next ih => simp [bind, ih]
  | poll next ih => simp [bind, ih]

/-- What a probe came to. -/
structure Outcome (β : Type) where
  /-- The result, unless there was a fault. -/
  result : Except Fault β
  /-- The number of queries made. -/
  queries : Nat

/-- **Running a probe.** Every query is answered, and counted onto `made`; `cancelled` tells from
the number of queries made so far whether the computation has been cancelled. -/
def runFrom (answer : Query → Except Fault α) (cancelled : Nat → Bool) :
    Nat → Probe α β → Outcome β
  | made, done result => ⟨.ok result, made⟩
  | made, fail fault => ⟨.error fault, made⟩
  | made, ask query next =>
    match answer query with
    | .ok value => runFrom answer cancelled (made + 1) (next value)
    | .error fault => ⟨.error fault, made + 1⟩
  | made, poll next => runFrom answer cancelled made (next (cancelled made))

/-- What comes of going on from an outcome. -/
def Outcome.andThen (o : Outcome β) (f : β → Nat → Outcome γ) : Outcome γ :=
  match o.result with
  | .ok b => f b o.queries
  | .error fault => ⟨.error fault, o.queries⟩

theorem runFrom_bind (answer : Query → Except Fault α) (cancelled : Nat → Bool) (p : Probe α β)
    (f : β → Probe α γ) (made : Nat) :
    (p.bind f).runFrom answer cancelled made =
      (p.runFrom answer cancelled made).andThen fun b made =>
        (f b).runFrom answer cancelled made := by
  induction p generalizing made with
  | done => rfl
  | fail => rfl
  | ask query next ih =>
    simp only [bind, runFrom]
    split
    · exact ih _ _
    · rfl
  | poll next ih => exact ih _ _

/-- The outcome of a probe on an image, when nobody cancels it. -/
def run (p : Probe α β) (image : Source α) : Outcome β :=
  p.runFrom image.answer (fun _ => false) 0

/-- The outcome of a probe on an image that is cancelled by the `moment`-th query, or before the
first one if `moment` is zero. -/
def runCancelled (p : Probe α β) (image : Source α) (moment : Nat) : Outcome β :=
  p.runFrom image.answer (fun made => moment ≤ made) 0

/-- The outcome of a probe on an image that is cancelled at a moment, or not at all. -/
def runUntil (p : Probe α β) (image : Source α) : Option Nat → Outcome β
  | none => p.run image
  | some moment => p.runCancelled image moment

end Probe

end HaarDetection
