import Mathlib
import HaarDetection.Decimal.Layout
import HaarDetection.Proofs.Decimal.Numerals

/-!
# Doubles as they are written

A finite double has a numeral that the grammar of documents allows, and no other double has one. The
shortest decimal of a number is never zero where zeros would be put behind it.

* `Surrounds.onGrid?_pos`: no interval reaches down to zero.
* `Surrounds.shortest_pos`: a shortest decimal has a coefficient, or is too large to be filled up with
  zeros.
* `documentNumeral?_eq_none_iff`: **what is not finite has no numeral.**
* `documentNumeral?_wellFormed`: **the grammar allows the numerals that are written.**
-/

namespace HaarDetection

section Shortest

variable {s : Surrounds} {tie : Tie} {grid : ℤ}

theorem Surrounds.numerator_pos {units : ℕ} (h : 0 < units) : 0 < s.numerator grid units := by
  unfold numerator
  rw [Nat.shiftLeft_eq, Nat.pow_eq]
  positivity

theorem Surrounds.denominator_pos : 0 < s.denominator grid := by
  unfold denominator
  rw [Nat.shiftLeft_eq, Nat.pow_eq]
  positivity

/-- No interval reaches down to zero. -/
theorem Surrounds.onGrid?_pos (hb : 0 < s.below) {point : ℕ} (h : s.onGrid? tie grid = some point) :
    0 < point := by
  set den := s.denominator grid with hden
  set lower := s.numerator grid s.value / den with hlower
  set least := s.numerator grid s.below with hleast
  set most := s.numerator grid s.above with hmost
  simp only [onGrid?, ← hden, ← hlower, ← hleast, ← hmost] at h
  by_cases hfits : if s.closed = true then least ≤ lower * den else least < lower * den
  · -- a lower neighbour in the interval is not zero
    have hpos : 0 < lower := by
      have hl : 0 < least := numerator_pos hb
      refine Nat.pos_of_mul_pos_right (b := den) ?_
      split at hfits <;> omega
    rw [if_pos hfits] at h
    by_cases hupper : if s.closed = true then (lower + 1) * den ≤ most else (lower + 1) * den < most
    · rw [if_pos hupper] at h
      split at h
      · exact Option.some.inj h ▸ hpos
      · exact Option.some.inj h ▸ Nat.succ_pos _
      · split at h
        · exact Option.some.inj h ▸ Nat.succ_pos _
        · exact Option.some.inj h ▸ Nat.add_pos_left hpos _
    · rw [if_neg hupper] at h
      exact Option.some.inj h ▸ hpos
  · rw [if_neg hfits] at h
    by_cases hupper : if s.closed = true then (lower + 1) * den ≤ most else (lower + 1) * den < most
    · rw [if_pos hupper] at h
      exact Option.some.inj h ▸ Nat.succ_pos _
    · rw [if_neg hupper] at h
      cases h

/-- The search ends at a point of the interval, or at its last grid. -/
theorem Surrounds.coarsest_cases (s : Surrounds) (tie : Tie) (grid : ℤ) (hb : 0 < s.below)
    (finer : ℕ) :
    0 < (s.coarsest tie finer grid).coefficient ∨
      s.coarsest tie finer grid =
        ⟨s.numerator (grid - finer) s.value / s.denominator (grid - finer), grid - finer⟩ := by
  induction finer generalizing grid with
  | zero => exact .inr (by simp [coarsest])
  | succ finer ih =>
    unfold coarsest
    split
    · rename_i point h
      exact .inl (onGrid?_pos hb h)
    · have hstep : grid - 1 - finer = grid - (finer + 1 : ℕ) := by push_cast; ring
      rw [← hstep]
      exact ih _

/-- Where the search ends, the last grid is far finer than the number, unless it is fine anyway. -/
theorem Surrounds.shortest_pos (hb : 0 < s.below) (hv : 0 < s.value)
    (h0 : 0 < (s.shortest tie).exponent) (h15 : (s.shortest tie).exponent ≤ 15) :
    0 < (s.shortest tie).coefficient := by
  unfold shortest at h0 h15 ⊢
  set bits : ℤ := s.value.log2 + 1 + s.exponent with hbits
  set first : ℤ := Int.fdiv (bits * 30103) 100000 + 1 with hfirst
  rcases s.coarsest_cases tie first hb 24 with h | h
  · exact h
  · rw [h] at h0 h15 ⊢
    simp only at h0 h15 ⊢
    have hdiv : Int.fdiv (bits * 30103) 100000 = bits * 30103 / 100000 :=
      Int.fdiv_eq_ediv_of_nonneg _ (by decide)
    -- a last grid of whole numbers has been begun 24 places higher, so the number has many bits
    have hlarge : 77 ≤ bits := by omega
    refine Nat.div_pos ?_ denominator_pos
    have hneg : (-(first - (24 : ℕ))).toNat = 0 := by omega
    have hgrid : (first - (24 : ℕ)).toNat ≤ 15 := by omega
    simp only [numerator, denominator, hneg, Nat.pow_eq, pow_zero, mul_one, Nat.shiftLeft_eq]
    calc 10 ^ (first - (24 : ℕ)).toNat * 2 ^ (-s.exponent).toNat
        ≤ 10 ^ 15 * 2 ^ (-s.exponent).toNat :=
          Nat.mul_le_mul_right _ (Nat.pow_le_pow_right (by decide) hgrid)
      _ ≤ 2 ^ 50 * 2 ^ (-s.exponent).toNat := Nat.mul_le_mul_right _ (by decide)
      _ = 2 ^ (50 + (-s.exponent).toNat) := (pow_add ..).symm
      _ ≤ 2 ^ (s.value.log2 + s.exponent.toNat) := Nat.pow_le_pow_right (by decide) (by omega)
      _ = 2 ^ s.value.log2 * 2 ^ s.exponent.toNat := pow_add ..
      _ ≤ s.value * 2 ^ s.exponent.toNat := Nat.mul_le_mul_right _ (Nat.log2_self_le hv.ne')

end Shortest

namespace Decimal

variable {d : Decimal} {negative : Bool}

/-- **Positional numerals** are allowed when zeros are put behind a number only. -/
theorem positional_wellFormed (h : 0 < d.exponent → 0 < d.coefficient) :
    (d.positional negative (some [0])).WellFormed := by
  have hd : WholeDigits d.digits := wholeDigits_digitsOf d.coefficient
  unfold positional
  split
  · rename_i zeros he
    refine ⟨⟨List.append_ne_nil_of_left_ne_nil hd.ne_nil _, ?_⟩, ?_, nofun⟩
    · intro h0
      simp only [List.head?_append_of_ne_nil _ hd.ne_nil] at h0
      cases zeros with
      | zero => simpa using hd.head h0
      | succ zeros => exact absurd h0 (digitsOf_head (h (by rw [he]; exact Int.natCast_pos.2 zeros.succ_pos)))
    · rintro ds ⟨⟩
      exact List.cons_ne_nil _ _
  · rename_i before he
    simp only
    set padded := List.replicate (before + 1 + 1 - d.digits.length) 0 ++ d.digits with hpadded
    have hlen : padded.length = max (before + 2) d.digits.length := by
      rw [hpadded, List.length_append, List.length_replicate]
      omega
    refine ⟨⟨?_, ?_⟩, ?_, nofun⟩
    · rw [← List.length_pos_iff, List.length_take]
      omega
    · intro h0
      rw [List.length_take]
      rcases Nat.lt_or_ge d.digits.length (before + 2) with hlt | hge
      · omega
      · -- nothing is filled up, so a zero in front would be the only digit
        have hone : d.digits.length = 1 := by
          refine hd.head ?_
          rw [List.head?_take, if_neg (by omega), hpadded,
            Nat.sub_eq_zero_of_le (by omega), List.replicate_zero, List.nil_append] at h0
          exact h0
        omega
    · rintro ds ⟨⟩
      rw [← List.length_pos_iff, List.length_drop]
      omega

theorem scientific_wellFormed : (d.scientific negative).WellFormed := by
  have hd : WholeDigits d.digits := wholeDigits_digitsOf d.coefficient
  have hlen : (d.digits.take 1).length = 1 := by
    have := List.length_pos_iff.2 hd.ne_nil
    rw [List.length_take]
    omega
  unfold scientific
  refine ⟨⟨List.length_pos_iff.1 (by rw [hlen]; exact one_pos), fun _ => hlen⟩, ?_, ?_⟩
  · intro ds hds
    simp only [Option.mem_def] at hds
    split at hds
    · cases hds
    · rename_i h
      cases hds
      simpa using h
  · rintro p ⟨⟩
    exact digitsOf_ne_nil _

end Decimal

theorem Surrounds.ofFinite_pos {f : Float.Model.Format} {m : ℕ} {e : ℤ} (hm : 0 < m) :
    0 < (ofFinite f m e).below ∧ 0 < (ofFinite f m e).value := by
  unfold ofFinite
  simp only
  split <;> omega

/-- **What is not finite has no numeral.** -/
theorem documentNumeral?_eq_none_iff {x : Float} : documentNumeral? x = none ↔ x.isFinite = false := by
  change _ ↔ x.toModel.unpack.isFinite = false
  unfold documentNumeral? Printed.ofDouble
  cases x.toModel.unpack with
  | notANumber => exact ⟨fun _ => rfl, fun _ => rfl⟩
  | infinity s => exact ⟨fun _ => rfl, fun _ => rfl⟩
  | zero s =>
    simp only [Printed.ofUnpacked]
    split <;> exact ⟨nofun, nofun⟩
  | finite s m e hm =>
    simp only [Printed.ofUnpacked]
    split <;> exact ⟨nofun, nofun⟩

/-- **The grammar allows the numerals that are written.** -/
theorem documentNumeral?_wellFormed {x : Float} {n : Numeral} (h : documentNumeral? x = some n) :
    n.WellFormed := by
  have hlaid : ∀ (negative : Bool) (d : Decimal), (0 < d.exponent → d.exponent ≤ 15 → 0 < d.coefficient) →
      (if -5 ≤ d.leading ∧ d.leading ≤ 15 then some (d.positional negative (some [0]))
        else some (d.scientific negative)) = some n → n.WellFormed := by
    intro negative d hd hn
    split at hn
    · rename_i hlead
      have hlen : 0 < d.digits.length := List.length_pos_iff.2 (digitsOf_ne_nil _)
      have hexp : d.exponent ≤ 15 := by
        have := hlead.2
        unfold Decimal.leading at this
        omega
      exact Option.some.inj hn ▸ Decimal.positional_wellFormed fun h0 => hd h0 hexp
    · exact Option.some.inj hn ▸ Decimal.scientific_wellFormed
  unfold documentNumeral? Printed.ofDouble at h
  cases hx : x.toModel.unpack with
  | notANumber => rw [hx] at h; cases h
  | infinity s => rw [hx] at h; cases h
  | zero s =>
    rw [hx] at h
    exact hlaid _ ⟨0, 0⟩ (fun h0 => absurd h0 (by decide)) h
  | finite s m e hm =>
    rw [hx] at h
    obtain ⟨hb, hv⟩ := Surrounds.ofFinite_pos (f := .binary64) (e := e) hm
    exact hlaid _ _ (fun h0 h15 => Surrounds.shortest_pos hb hv h0 h15) h

end HaarDetection
