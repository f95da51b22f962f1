import HaarDetection.Proofs.Number.Order
import HaarDetection.Proofs.Number.Packing

/-!
# Finite results

Every operation ends with packing its result. A finite result has not been changed by that, and
its operands were finite as well.

* `Known`: what can be unpacked, and with it what the operands of an operation can be.
* `RoundsTo.between`: what is rounded below a number of the format is not too large.
* `RoundsTo.within`: rounding does not leave the span between two numbers of the format.
* `add_nearest`, `mul_nearest`: **a finite sum or product is nearest to the exact one.**
* `mul_mono`, `add_mono`: products with a common factor and sums with a common addend keep the order.
* `AtLeastOne`: the numbers from one on, the infinite one included. Sums and products of them are
  such numbers, too.
-/

namespace HaarDetection

open Float.Model (Format UnpackedFloat)
open Float.Model.UnpackedFloat

variable {f : Format} {a b c u : UnpackedFloat} {q : ℚ}

/-- What is left of a number that has been kept as bits. -/
def repack (f : Format) (u : UnpackedFloat) : UnpackedFloat := unpack f (pack f u)

/-- The numbers that can be unpacked: finite ones in the form that the format holds, infinite ones,
and what is no number. -/
def Known (f : Format) (u : UnpackedFloat) : Prop :=
  Canonical f u ∨ (∃ s, u = .infinity s) ∨ u = .notANumber

theorem Known.isFinite_iff (h : Known f u) : u.isFinite = true ↔ Canonical f u := by
  rcases h with h | ⟨s, rfl⟩ | rfl
  · refine iff_of_true ?_ h
    cases u with
    | finite s m e hm => rfl
    | zero s => rfl
    | infinity s => exact h.elim
    | notANumber => exact h.elim
  · exact iff_of_false nofun id
  · exact iff_of_false nofun id

theorem isNaN_eq_false (h : Canonical f u) : u.isNaN = false := by
  cases u with
  | notANumber => exact h.elim
  | _ => rfl

theorem repack_infinity (s : Sign) : repack f (.infinity s) = .infinity s :=
  unpack_packedInfinity s

theorem repack_notANumber : repack f .notANumber = .notANumber := by
  have hm := f.hm
  have h : (1#f.mantissaBitsWithoutImplicit <<< (f.mantissaBitsWithoutImplicit - 1)) ≠ 0#_ := by
    intro h
    have := congrArg (BitVec.getLsbD · (f.mantissaBitsWithoutImplicit - 1)) h
    simp [BitVec.getLsbD_shiftLeft] at this
    omega
  simp only [repack, pack, packedNaN, unpack, unpackExponent_packComponents,
    unpackMantissa_packComponents, if_true]
  rw [if_neg h]

/-- **A rounded result, packed:** it is still the same, or it was too large and is infinite. -/
theorem RoundsTo.repack_cases (he : 1 < f.exponentBits) (h : RoundsTo f q u) :
    (repack f u = u ∧ |value u| < 2 ^ exponentRange f) ∨
      (∃ s, repack f u = .infinity s) ∧ 2 ^ exponentRange f ≤ |value u| := by
  rcases lt_or_ge |value u| (2 ^ exponentRange f) with hu | hu
  · exact .inl ⟨unpack_pack he h.1 hu, hu⟩
  · refine .inr ⟨?_, hu⟩
    cases u with
    | infinity s => exact h.1.elim
    | notANumber => exact h.1.elim
    | zero s =>
      rw [value_zero, abs_zero] at hu
      exact absurd hu (not_le.2 (by positivity))
    | finite s m e hm =>
      rw [abs_value_finite] at hu
      exact ⟨s, unpack_pack_of_large h.1 hu⟩

/-- **A rounded result that is not below zero, packed:** it is still the same, or it is infinite. -/
theorem RoundsTo.repack_of_nonneg (he : 1 < f.exponentBits) (h : RoundsTo f q u) (hq : 0 ≤ q) :
    repack f u = .infinity .positive ∨ repack f u = u := by
  rcases h.repack_cases he with ⟨heq, -⟩ | ⟨-, hlarge⟩
  · exact .inr heq
  have h0 := h.2.nonneg hq
  cases u with
  | infinity s => exact h.1.elim
  | notANumber => exact h.1.elim
  | zero s =>
    rw [value_zero, abs_zero] at hlarge
    exact absurd hlarge (not_le.2 (by positivity))
  | finite s m e hm =>
    rw [abs_value_finite] at hlarge
    cases s with
    | positive => exact .inl (unpack_pack_of_large h.1 hlarge)
    | negative => exact absurd h0 (not_le.2 (neg_lt_zero.2 (finite_pos e hm)))

/-- **What is rounded below a number of the format** is not too large. -/
theorem RoundsTo.between (he : 1 < f.exponentBits) (h : RoundsTo f q u) {b : ℚ} (hb : OnGrid f b)
    (hlt : b < 2 ^ exponentRange f) (h0 : 0 ≤ q) (hq : q ≤ b) :
    repack f u = u ∧ 0 ≤ value u ∧ value u ≤ b := by
  have hv0 := h.2.nonneg h0
  have hv1 := h.2.le_of_le hb hq
  refine ⟨unpack_pack he h.1 ?_, hv0, hv1⟩
  rw [abs_of_nonneg hv0]
  exact hv1.trans_lt hlt

/-- **Rounding stays between two numbers of the format.** -/
theorem RoundsTo.within (he : 1 < f.exponentBits) (h : RoundsTo f q u) {a b : ℚ} (ha : OnGrid f a)
    (hb : OnGrid f b) (hlt : b < 2 ^ exponentRange f) (h0 : 0 ≤ a) (haq : a ≤ q) (hqb : q ≤ b) :
    Canonical f (repack f u) ∧ a ≤ value (repack f u) ∧ value (repack f u) ≤ b := by
  obtain ⟨heq, -, hle⟩ := h.between he hb hlt (h0.trans haq) hqb
  rw [heq]
  exact ⟨h.1, h.2.le_of_ge ha haq, hle⟩

theorem RoundsTo.of_finite (he : 1 < f.exponentBits) (h : RoundsTo f q u)
    (hu : Canonical f (repack f u)) :
    repack f u = u ∧ |value u| < 2 ^ exponentRange f := by
  rcases h.repack_cases he with h' | ⟨⟨s, hs⟩, -⟩
  · exact h'
  · rw [hs] at hu; exact hu.elim

/-- **Exact results** that are not too large are results. -/
theorem RoundsTo.exact (he : 1 < f.exponentBits) (h : RoundsTo f q u) (hq : OnGrid f q)
    (hlt : |q| < 2 ^ exponentRange f) : Canonical f (repack f u) ∧ value (repack f u) = q := by
  have hu := h.2.eq_of_grid hq
  have heq : repack f u = u := unpack_pack he h.1 (by rwa [hu])
  rw [heq]
  exact ⟨h.1, hu⟩

theorem not_canonical_of_special (h : (∃ s, u = .infinity s) ∨ u = .notANumber) :
    ¬ Canonical f (repack f u) := by
  rcases h with ⟨s, rfl⟩ | rfl
  · rw [repack_infinity]; exact id
  · rw [repack_notANumber]; exact id

/-- **A finite product** has finite factors, and is nearest to the exact one. -/
theorem mul_nearest (he : 1 < f.exponentBits) (ha : Known f a) (hb : Known f b)
    (h : Canonical f (repack f (UnpackedFloat.mul f a b))) :
    Canonical f a ∧ Canonical f b ∧
      Nearest f (value a * value b) (value (repack f (UnpackedFloat.mul f a b))) := by
  have hca : Canonical f a := by
    refine ha.resolve_right fun hs => not_canonical_of_special ?_ h
    rcases hs with ⟨s, rfl⟩ | rfl
    · cases b <;> simp [UnpackedFloat.mul]
    · exact .inr rfl
  have hcb : Canonical f b := by
    refine hb.resolve_right fun hs => not_canonical_of_special ?_ h
    rcases hs with ⟨s, rfl⟩ | rfl
    · cases a <;> simp [UnpackedFloat.mul]
    · cases a <;> simp [UnpackedFloat.mul]
  have hr := mul_spec hca hcb
  rw [(hr.of_finite he h).1]
  exact ⟨hca, hcb, hr.2⟩

/-- **A finite sum** has finite addends, and is nearest to the exact one. -/
theorem add_nearest (he : 1 < f.exponentBits) (ha : Known f a) (hb : Known f b)
    (h : Canonical f (repack f (UnpackedFloat.add f a b))) :
    Canonical f a ∧ Canonical f b ∧
      Nearest f (value a + value b) (value (repack f (UnpackedFloat.add f a b))) := by
  have hca : Canonical f a := by
    refine ha.resolve_right fun hs => not_canonical_of_special ?_ h
    rcases hs with ⟨s, rfl⟩ | rfl
    · cases b with
      | infinity s' => cases s <;> cases s' <;> simp [UnpackedFloat.add]
      | _ => simp [UnpackedFloat.add]
    · exact .inr rfl
  have hcb : Canonical f b := by
    refine hb.resolve_right fun hs => not_canonical_of_special ?_ h
    rcases hs with ⟨s, rfl⟩ | rfl
    · cases a with
      | infinity s' => cases s <;> cases s' <;> simp [UnpackedFloat.add]
      | _ => simp [UnpackedFloat.add]
    · cases a <;> simp [UnpackedFloat.add]
  have hr := add_spec hca hcb
  rw [(hr.of_finite he h).1]
  exact ⟨hca, hcb, hr.2⟩

/-- Products with a common factor, before they are packed. -/
theorem value_mul_mono (ha : Canonical f a) (hb : Canonical f b) (hc : Canonical f c)
    (hc0 : 0 ≤ value c) (hab : value a ≤ value b) :
    value (UnpackedFloat.mul f a c) ≤ value (UnpackedFloat.mul f b c) := by
  have hl := mul_spec ha hc
  have hr := mul_spec hb hc
  -- rounding keeps the strict order; equal products have the same factors, or are zero
  rcases (mul_le_mul_of_nonneg_right hab hc0).lt_or_eq with hlt | heq
  · exact hl.2.mono hr.2 hlt
  by_cases h0 : value a * value c = 0
  · rw [h0] at hl heq
    rw [← heq] at hr
    rw [hl.2.eq_of_grid OnGrid.zero, hr.2.eq_of_grid OnGrid.zero]
  · have hac := mul_ne_zero_iff.1 h0
    rw [eq_of_value_eq ha hb (mul_right_cancel₀ hac.2 heq) hac.1]

/-- **Packing keeps the order**, and with the greater number the smaller one is finite. -/
theorem RoundsTo.repack_mono (he : 1 < f.exponentBits) {q' : ℚ} {u' : UnpackedFloat}
    (h : RoundsTo f q u) (h' : RoundsTo f q' u') (hq : 0 ≤ q) (hle : value u ≤ value u')
    (hu' : Canonical f (repack f u')) :
    Canonical f (repack f u) ∧ value (repack f u) ≤ value (repack f u') := by
  obtain ⟨heq', hlt⟩ := h'.of_finite he hu'
  have hu : |value u| < 2 ^ exponentRange f := by
    rw [abs_of_nonneg (h.2.nonneg hq)]
    exact hle.trans_lt (lt_of_abs_lt hlt)
  have heq : repack f u = u := unpack_pack he h.1 hu
  rw [heq, heq']
  exact ⟨h.1, hle⟩

/-- **Products with a common factor keep the order** of the other factors, and with the greater one
the smaller one is finite. -/
theorem mul_mono (he : 1 < f.exponentBits) (ha : Canonical f a) (hb : Canonical f b)
    (hc : Canonical f c) (ha0 : 0 ≤ value a) (hc0 : 0 ≤ value c) (hab : value a ≤ value b)
    (h : Canonical f (repack f (UnpackedFloat.mul f b c))) :
    Canonical f (repack f (UnpackedFloat.mul f a c)) ∧
      value (repack f (UnpackedFloat.mul f a c)) ≤ value (repack f (UnpackedFloat.mul f b c)) :=
  (mul_spec ha hc).repack_mono he (mul_spec hb hc) (mul_nonneg ha0 hc0)
    (value_mul_mono ha hb hc hc0 hab) h

/-- Sums with a common addend, before they are packed. -/
theorem value_add_mono (ha : Canonical f a) (hb : Canonical f b) (hc : Canonical f c)
    (hab : value a ≤ value b) :
    value (UnpackedFloat.add f a c) ≤ value (UnpackedFloat.add f b c) := by
  have hl := add_spec ha hc
  have hr := add_spec hb hc
  -- rounding keeps the strict order; equal sums have the same addends, or are the common addend
  rcases hab.lt_or_eq with hlt | heq
  · exact hl.2.mono hr.2 (add_lt_add_left hlt _)
  by_cases h0 : value a = 0
  · rw [← heq, h0, zero_add] at hr
    rw [h0, zero_add] at hl
    rw [hl.2.eq_of_grid (canonical_onGrid hc), hr.2.eq_of_grid (canonical_onGrid hc)]
  · rw [eq_of_value_eq ha hb heq h0]

/-- **Sums with a common addend keep the order** of the other addends, and with the greater one the
smaller one is finite. -/
theorem add_mono (he : 1 < f.exponentBits) (ha : Canonical f a) (hb : Canonical f b)
    (hc : Canonical f c) (ha0 : 0 ≤ value a) (hc0 : 0 ≤ value c) (hab : value a ≤ value b)
    (h : Canonical f (repack f (UnpackedFloat.add f b c))) :
    Canonical f (repack f (UnpackedFloat.add f a c)) ∧
      value (repack f (UnpackedFloat.add f a c)) ≤ value (repack f (UnpackedFloat.add f b c)) :=
  (add_spec ha hc).repack_mono he (add_spec hb hc) (add_nonneg ha0 hc0)
    (value_add_mono ha hb hc hab) h

/-- **A number from one on**, or infinite. -/
def AtLeastOne (f : Format) (u : UnpackedFloat) : Prop :=
  u = .infinity .positive ∨ Canonical f u ∧ 1 ≤ value u

/-- A finite number above zero has a positive sign. -/
theorem finite_of_pos (hc : Canonical f u) (h : 0 < value u) :
    ∃ m e hm, u = .finite .positive m e hm := by
  cases u with
  | infinity s => exact hc.elim
  | notANumber => exact hc.elim
  | zero s => exact absurd h (lt_irrefl _)
  | finite s m e hm =>
    cases s with
    | positive => exact ⟨m, e, hm, rfl⟩
    | negative => exact absurd h (not_lt.2 (neg_nonpos.2 (finite_pos e hm).le))

/-- It is above zero. -/
theorem AtLeastOne.cases (h : AtLeastOne f u) :
    u = .infinity .positive ∨ ∃ m e hm, u = .finite .positive m e hm :=
  h.imp_right fun ⟨hc, hv⟩ => finite_of_pos hc (zero_lt_one.trans_le hv)

/-- What is finite of it is one at least. -/
theorem AtLeastOne.one_le (h : AtLeastOne f u) (hc : Canonical f u) : 1 ≤ value u := by
  rcases h with rfl | ⟨-, hv⟩
  · exact hc.elim
  · exact hv

/-- **What is rounded from one on stays there.** -/
theorem RoundsTo.atLeastOne (he : 1 < f.exponentBits) (h : RoundsTo f q u) (hq : 1 ≤ q) :
    AtLeastOne f (repack f u) := by
  have hone : OnGrid f 1 := by simpa using OnGrid.of_nat (f := f) (n := 1) Nat.one_le_two_pow
  refine (h.repack_of_nonneg he (zero_le_one.trans hq)).imp_right ?_
  intro heq
  rw [heq]
  exact ⟨h.1, h.2.le_of_ge hone hq⟩

/-- **What is rounded to one or more** is above zero. -/
theorem RoundsTo.pos (he : 1 < f.exponentBits) (h : RoundsTo f q u)
    (hu : AtLeastOne f (repack f u)) : 0 < q := by
  by_contra hq
  have h0 : value u ≤ 0 := h.2.le_of_le OnGrid.zero (not_lt.1 hq)
  rcases h.repack_cases he with ⟨heq, -⟩ | ⟨-, hlarge⟩
  · rw [heq] at hu
    rcases hu with rfl | ⟨-, hone⟩
    · exact h.1.elim
    · linarith
  · cases u with
    | infinity s => exact h.1.elim
    | notANumber => exact h.1.elim
    | zero s =>
      rw [value_zero, abs_zero] at hlarge
      exact absurd hlarge (not_le.2 (by positivity))
    | finite s m e hm =>
      rw [abs_value_finite] at hlarge
      cases s with
      | positive => exact absurd h0 (not_le.2 (finite_pos e hm))
      | negative =>
        rw [repack, unpack_pack_of_large h.1 hlarge] at hu
        rcases hu with hinf | ⟨hc, -⟩
        · cases hinf
        · exact hc.elim

theorem AtLeastOne.mul (he : 1 < f.exponentBits) (ha : AtLeastOne f a) (hb : AtLeastOne f b) :
    AtLeastOne f (repack f (UnpackedFloat.mul f a b)) := by
  rcases ha with rfl | ⟨hca, hva⟩
  · obtain rfl | ⟨m, e, hm, rfl⟩ := hb.cases
    · exact .inl (repack_infinity _)
    · exact .inl (repack_infinity _)
  · rcases hb with rfl | ⟨hcb, hvb⟩
    · obtain rfl | ⟨m, e, hm, rfl⟩ := AtLeastOne.cases (.inr ⟨hca, hva⟩)
      · exact hca.elim
      · exact .inl (repack_infinity _)
    · exact (mul_spec hca hcb).atLeastOne he (one_le_mul_of_one_le_of_one_le hva hvb)

theorem add_infinity (hb : Canonical f b) :
    repack f (UnpackedFloat.add f (.infinity .positive) b) = .infinity .positive := by
  cases b with
  | infinity s => exact hb.elim
  | notANumber => exact hb.elim
  | zero s => exact repack_infinity _
  | finite s m e hm => exact repack_infinity _

/-- A finite addend that is not negative leads no further down. -/
theorem AtLeastOne.add (he : 1 < f.exponentBits) (ha : AtLeastOne f a) (hb : Canonical f b)
    (hb0 : 0 ≤ value b) : AtLeastOne f (repack f (UnpackedFloat.add f a b)) := by
  rcases ha with rfl | ⟨hca, hva⟩
  · exact .inl (add_infinity hb)
  · exact (add_spec hca hb).atLeastOne he (by linarith)

/-- **A sum with an addend that is not negative** is infinite, or not below the other one. -/
theorem le_add_of_nonneg (he : 1 < f.exponentBits) (ha : Canonical f a) (ha0 : 0 ≤ value a)
    (hb : Canonical f b) (hb0 : 0 ≤ value b) :
    repack f (UnpackedFloat.add f a b) = .infinity .positive ∨
      Canonical f (repack f (UnpackedFloat.add f a b)) ∧
        value a ≤ value (repack f (UnpackedFloat.add f a b)) := by
  have hr := add_spec ha hb
  refine (hr.repack_of_nonneg he (add_nonneg ha0 hb0)).imp_right ?_
  intro heq
  rw [heq]
  exact ⟨hr.1, hr.2.le_of_ge (canonical_onGrid ha) (le_add_of_nonneg_right hb0)⟩

/-- The factors of a product from one on, if the first one is finite and not below zero. -/
theorem AtLeastOne.factors (he : 1 < f.exponentBits) (ha : Canonical f a) (ha0 : 0 ≤ value a)
    (hc : Known f c) (h : AtLeastOne f (repack f (UnpackedFloat.mul f a c))) :
    0 < value a ∧ (c = .infinity .positive ∨ Canonical f c ∧ 0 < value c) := by
  rcases hc with hc | ⟨s, rfl⟩ | rfl
  · have hpos := (mul_spec ha hc).pos he h
    have hc0 : 0 < value c := pos_of_mul_pos_right hpos ha0
    exact ⟨pos_of_mul_pos_left hpos hc0.le, .inr ⟨hc, hc0⟩⟩
  · cases a with
    | infinity s => exact ha.elim
    | notANumber => exact ha.elim
    | zero s' => simp [UnpackedFloat.mul, repack_notANumber, AtLeastOne, Canonical] at h
    | finite s' m e hm =>
      have hpos := finite_pos e hm
      cases s' with
      | negative => exact absurd ha0 (not_le.2 (neg_lt_zero.2 hpos))
      | positive =>
        refine ⟨hpos, .inl ?_⟩
        cases s with
        | positive => rfl
        | negative =>
          have hmul : UnpackedFloat.mul f (.finite .positive m e hm) (.infinity .negative) =
              .infinity .negative := rfl
          simp [hmul, repack_infinity, AtLeastOne, Canonical] at h
  · cases a <;> simp [UnpackedFloat.mul, repack_notANumber, AtLeastOne, Canonical] at h

/-- **Products from one on keep the order** of their first factors, infinite ones included. -/
theorem AtLeastOne.mul_mono (he : 1 < f.exponentBits) (ha : Canonical f a) (hb : Canonical f b)
    (ha0 : 0 ≤ value a) (hab : value a ≤ value b) (hc : Known f c)
    (h : AtLeastOne f (repack f (UnpackedFloat.mul f a c))) :
    repack f (UnpackedFloat.mul f b c) = .infinity .positive ∨
      Canonical f (repack f (UnpackedFloat.mul f a c)) ∧
        Canonical f (repack f (UnpackedFloat.mul f b c)) ∧
        value (repack f (UnpackedFloat.mul f a c)) ≤ value (repack f (UnpackedFloat.mul f b c)) := by
  obtain ⟨hapos, hc'⟩ := h.factors he ha ha0 hc
  rcases hc' with rfl | ⟨hc', hc0⟩
  · left
    obtain ⟨m, e, hm, rfl⟩ := finite_of_pos hb (hapos.trans_le hab)
    exact repack_infinity _
  · have hr := mul_spec hb hc'
    refine (hr.repack_of_nonneg he (mul_nonneg (ha0.trans hab) hc0.le)).imp_right ?_
    intro heq
    have hfin : Canonical f (repack f (UnpackedFloat.mul f b c)) := by rw [heq]; exact hr.1
    obtain ⟨hfin', hle⟩ := HaarDetection.mul_mono he ha hb hc' ha0 hc0.le hab hfin
    exact ⟨hfin', hfin, hle⟩

end HaarDetection
