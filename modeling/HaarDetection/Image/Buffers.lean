import HaarDetection.Image.Fault

/-!
# Loops over buffers

The tables of an image are made in loops that count up, in buffers of a fixed size. Reading or writing
past the end of a buffer is a fault.

* `countUp`: a loop.
* `readAt`, `readByte`, `writeAt`, `fillFrom`: buffers.
-/

namespace HaarDetection

/-- A loop of `count` steps: `step i`, `step (i + 1)`, and so on. -/
def countUp {σ : Type} (step : Nat → σ → Except Fault σ) : (count i : Nat) → σ → Except Fault σ
  | 0, _, s => .ok s
  | count + 1, i, s => do countUp step count (i + 1) (← step i s)

section Buffer

variable {β : Type}

/-- What is at a place of a buffer. -/
def readAt (buffer : Array β) (i : Nat) : Except Fault β :=
  match buffer[i]? with
  | some value => .ok value
  | none => .error .outsideTable

/-- The byte at a place, as a number. -/
def readByte (bytes : ByteArray) (i : Nat) : Except Fault Nat :=
  match bytes[i]? with
  | some byte => .ok byte.toNat
  | none => .error .outsideTable

/-- A buffer with another value at a place. -/
def writeAt (buffer : Array β) (i : Nat) (value : β) : Except Fault (Array β) :=
  if h : i < buffer.size then .ok (buffer.set i value) else .error .outsideTable

/-- A buffer with `value 0`, `value 1`, …, `value (n - 1)` at the places from `start` on. -/
def fillFrom (start n : Nat) (value : Nat → Except Fault β) (buffer : Array β) :
    Except Fault (Array β) :=
  countUp (fun i buffer => do writeAt buffer (start + i) (← value i)) n 0 buffer

end Buffer

end HaarDetection
