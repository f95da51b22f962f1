/-!
# The total order of single-precision numbers

Besides `<`, which leaves out what is no number and does not tell the two zeros apart, the
single-precision numbers have a total order on their representations: the sign first, then the
magnitude, so that `-0` comes before `0` and what is no number after infinity, or before its negative.
Arithmetic does not tell apart the many representations of what is no number, but this order does.

* `RawSingle`: a single with all of its bits.
* `RawSingle.key`: an integer for every representation, in the total order.
* `compareTotal_eq_iff`: two singles compare equal exactly when they have the same representation.
-/

namespace HaarDetection

/-- A single-precision number as it is stored, with all of its bits. -/
structure RawSingle where
  bits : UInt32
deriving DecidableEq

namespace RawSingle

/-- The representation of a single. -/
def ofSingle (x : Float32) : RawSingle := ⟨x.toBits⟩

/-- What is no number, with a sign bit: what the machine makes of zero by zero. -/
def indeterminate : RawSingle := ⟨0xffc00000⟩

/-- The representation of a result, where none is an indeterminate one. -/
def ofSingle? (x : Option Float32) : RawSingle := (x.map ofSingle).getD indeterminate

/-- Is the sign bit set? -/
def isNegative (r : RawSingle) : Bool := 0x80000000 ≤ r.bits

/-- The single that is represented. What is no number and has a sign bit is indeterminate: none. -/
def single? (r : RawSingle) : Option Float32 :=
  let x := Float32.ofBits r.bits
  if x.isNaN && r.isNegative then none else some x

/-- The place in the total order: the magnitude bits, counted down from `-1` for a negative sign. -/
def key (r : RawSingle) : Int :=
  if r.isNegative then 0x7fffffff - (r.bits.toNat : Int) else r.bits.toNat

theorem isNegative_iff (r : RawSingle) : r.isNegative = true ↔ 0x80000000 ≤ r.bits.toNat := by
  rw [isNegative, decide_eq_true_iff, UInt32.le_iff_toNat_le]
  rfl

theorem key_inj {a b : RawSingle} (h : a.key = b.key) : a = b := by
  have ha := a.isNegative_iff
  have hb := b.isNegative_iff
  have hbits : a.bits = b.bits := by
    apply UInt32.toNat_inj.mp
    unfold key at h
    split at h <;> split at h <;> simp_all <;> omega
  cases a
  cases b
  exact congrArg RawSingle.mk hbits

end RawSingle

/-- The comparison of two singles in the total order. -/
def compareTotal (a b : RawSingle) : Ordering := compare a.key b.key

/-- The places of some singles in a list, in the total order of the singles; equal ones stay in
order. -/
def placesInOrder (xs : List RawSingle) : List Nat :=
  (xs.zipIdx.mergeSort fun a b => a.1.key ≤ b.1.key).map (·.2)

theorem compareTotal_eq_iff {a b : RawSingle} : compareTotal a b = .eq ↔ a = b := by
  rw [compareTotal, Int.compare_eq_eq]
  exact ⟨RawSingle.key_inj, fun h => h ▸ rfl⟩

end HaarDetection
