import Mathlib
import HaarDetection.Image.Buffers

/-!
# What loops keep

A loop over buffers ends without a fault and keeps whatever each of its steps keeps.

* `countUp_keeps`: **what every step keeps, a loop keeps.**
* `readAt_of_lt`, `readByte_of_lt`, `writeAt_ok`, `fillFrom_ok`: a buffer that is read, written to, and
  filled.
-/

namespace HaarDetection

section Loops

variable {σ β : Type}

/-- **What every step keeps, a loop keeps**, and no step ends in a fault. -/
theorem countUp_keeps {step : ℕ → σ → Except Fault σ} {I : ℕ → σ → Prop} {count i : ℕ} {s : σ}
    (h0 : I i s)
    (hstep : ∀ j s, j < i + count → I j s → ∃ s', step j s = .ok s' ∧ I (j + 1) s') :
    ∃ s', countUp step count i s = .ok s' ∧ I (i + count) s' := by
  induction count generalizing i s with
  | zero => exact ⟨s, rfl, h0⟩
  | succ count ih =>
    obtain ⟨s₁, hs₁, hI₁⟩ := hstep i s (by omega) h0
    obtain ⟨s', hs', hI'⟩ := ih hI₁ fun j t hj => hstep j t (by omega)
    refine ⟨s', ?_, ?_⟩
    · simp only [countUp, hs₁, bind, Except.bind]
      exact hs'
    · rwa [show i + 1 + count = i + (count + 1) by omega] at hI'

theorem readAt_eq {buffer : Array β} {i : ℕ} {v : β} (h : buffer[i]? = some v) :
    readAt buffer i = .ok v := by
  unfold readAt
  rw [h]

theorem readAt_of_lt {buffer : Array β} {i : ℕ} (h : i < buffer.size) (fallback : β) :
    readAt buffer i = .ok (buffer.getD i fallback) := by
  refine readAt_eq ?_
  rw [Array.getElem?_eq_getElem h, Array.getElem_eq_getD fallback]

theorem readByte_of_lt {bytes : ByteArray} {i : ℕ} (h : i < bytes.size) :
    readByte bytes i = .ok bytes[i].toNat := by
  rw [readByte, getElem?_pos bytes i h]

/-- A place of a buffer that is written to holds the value, and the others what they held before. -/
theorem writeAt_ok {buffer : Array β} {i : ℕ} (h : i < buffer.size) (v : β) :
    ∃ buffer', writeAt buffer i v = .ok buffer' ∧ buffer'.size = buffer.size ∧
      ∀ j, buffer'[j]? = if i = j then some v else buffer[j]? := by
  refine ⟨buffer.set i v, dif_pos h, Array.size_set h, ?_⟩
  intro j
  exact Array.getElem?_set h

/-- **A buffer that is filled** from some place on. -/
theorem fillFrom_ok {start n : ℕ} {value : ℕ → Except Fault β} {v : ℕ → β} {buffer : Array β}
    (hvalue : ∀ i < n, value i = .ok (v i)) (hn : start + n ≤ buffer.size) :
    ∃ buffer', fillFrom start n value buffer = .ok buffer' ∧ buffer'.size = buffer.size ∧
      ∀ j, buffer'[j]? = if start ≤ j ∧ j < start + n then some (v (j - start)) else buffer[j]? := by
  -- after `i` steps the first `i` of these places are filled
  refine (countUp_keeps (I := fun i b => b.size = buffer.size ∧
    ∀ j, b[j]? = if start ≤ j ∧ j < start + i then some (v (j - start)) else buffer[j]?)
    ⟨rfl, ?_⟩ ?_).imp fun b hb => ⟨hb.1, by simpa using hb.2⟩
  · intro j
    rw [if_neg (by omega)]
  · rintro i b hi ⟨hsize, hentry⟩
    obtain ⟨b', hb', hsize', hentry'⟩ := writeAt_ok (show start + i < b.size by omega) (v i)
    refine ⟨b', ?_, hsize'.trans hsize, ?_⟩
    · simp only [hvalue i (by omega), bind, Except.bind]
      exact hb'
    · intro j
      rw [hentry', hentry]
      split_ifs with h1 h2 h3 h3
      · rw [← h1, Nat.add_sub_cancel_left]
      · omega
      · rfl
      · omega
      · omega
      · rfl

end Loops

end HaarDetection
