import HaarDetection.Number.TotalOrder
import HaarDetection.Proofs.Number.Single

/-!
# The total order of positive numbers

The bits of a positive number are those of its exponent and after them those of its mantissa, so they
count the positive numbers from the least one on.

* `RawSingle.single?_ofSingle`: a single is known from its representation.
* `toNat_of_unpack`: **the bits of a positive number.**
* `totalKey_le_iff`: the total order of positive singles is that of the rationals that they stand for.
-/

namespace HaarDetection

open Float.Model (Format UnpackedFloat)
open Float.Model.UnpackedFloat

variable {f : Format}

/-- A positive number has no sign bit. -/
theorem toNat_packComponents_positive (e : BitVec f.exponentBits)
    (m : BitVec f.mantissaBitsWithoutImplicit) :
    (packComponents f .positive e m).toNat = e.toNat * 2 ^ f.mantissaBitsWithoutImplicit + m.toNat := by
  unfold packComponents
  rw [BitVec.toNat_append, ← Nat.shiftLeft_add_eq_or_of_lt m.isLt, Nat.shiftLeft_eq, BitVec.toNat_append]
  simp [Sign.toBitVec]

/-- **The bits of a positive number:** the places of the exponent above the least one, then the
mantissa. -/
theorem toNat_of_unpack {b : BitVec f.numBits} {m : ℕ} {e : ℤ} {hm : 0 < m}
    (h : unpack f b = .finite .positive m e hm) :
    (b.toNat : ℤ) = (e - f.minExponent) * 2 ^ f.mantissaBitsWithoutImplicit + m ∧
      b.toNat < 2 ^ f.exponentBits * 2 ^ f.mantissaBitsWithoutImplicit := by
  have hbias := exponentBias_eq f
  have hmin := minExponent_eq f
  have hbits : Sign.ofBitVec (unpackSign b) = .positive →
      b.toNat = (unpackExponent b).toNat * 2 ^ f.mantissaBitsWithoutImplicit +
        (unpackMantissa b).toNat := by
    intro hs
    rw [← toNat_packComponents_positive, ← hs, packComponents_unpack]
  have hbound : (unpackExponent b).toNat * 2 ^ f.mantissaBitsWithoutImplicit +
      (unpackMantissa b).toNat < 2 ^ f.exponentBits * 2 ^ f.mantissaBitsWithoutImplicit :=
    calc _ < (unpackExponent b).toNat * 2 ^ f.mantissaBitsWithoutImplicit +
          2 ^ f.mantissaBitsWithoutImplicit := Nat.add_lt_add_left (unpackMantissa b).isLt _
      _ = ((unpackExponent b).toNat + 1) * 2 ^ f.mantissaBitsWithoutImplicit := (Nat.succ_mul _ _).symm
      _ ≤ _ := Nat.mul_le_mul_right _ (unpackExponent b).isLt
  unfold unpack at h
  simp only at h
  split at h
  · split at h <;> cases h
  · split at h
    · -- the least exponent
      rename_i hzero
      split at h
      · cases h
      · obtain ⟨hs, rfl, rfl⟩ := UnpackedFloat.finite.inj h
        rw [hbits hs]
        refine ⟨?_, hbound⟩
        rw [hzero, BitVec.toNat_zero]
        push_cast
        have hexp : (0 : ℤ) - (f.exponentBias + f.mantissaBitsWithoutImplicit) + 1 - f.minExponent = 0 := by
          omega
        rw [hexp]
    · -- a full mantissa
      obtain ⟨hs, rfl, rfl⟩ := UnpackedFloat.finite.inj h
      rw [hbits hs]
      refine ⟨?_, hbound⟩
      rw [toNat_one_append]
      push_cast
      have hexp : ((unpackExponent b).toNat : ℤ) -
          (f.exponentBias + f.mantissaBitsWithoutImplicit) - f.minExponent =
            (unpackExponent b).toNat - 1 := by
        omega
      rw [hexp]
      ring

variable {x y : Float32}

/-- There is one single that is no number, and it has no sign bit. -/
theorem toBits_of_isNaN (h : x.isNaN = true) : x.toBits = 0x7fc00000 := by
  have hx : x.toModel.unpack = .notANumber := by
    change x.toModel.unpack.isNaN = true at h
    cases hu : x.toModel.unpack <;> rw [hu] at h <;> first | rfl | cases h
  have hnan : (Float32.ofBits 0x7fc00000).toModel.unpack = .notANumber := rfl
  rw [eq_of_unpack_eq (hx.trans hnan.symm)]
  decide +kernel

/-- **A single is known from its representation.** -/
theorem RawSingle.single?_ofSingle (x : Float32) : (RawSingle.ofSingle x).single? = some x := by
  rw [RawSingle.single?, RawSingle.ofSingle, Float32.ofBits_toBits]
  refine if_neg fun h => ?_
  obtain ⟨hnan, hneg⟩ := Bool.and_eq_true_iff.1 h
  rw [toBits_of_isNaN hnan] at hneg
  exact absurd hneg (by decide)

/-- The place of a single in the total order. -/
def totalKey (x : Float32) : ℤ := (RawSingle.ofSingle x).key

/-- Without a sign bit the place is that of the bits. -/
theorem totalKey_of_lt (h : x.toBits.toNat < 0x80000000) : totalKey x = x.toBits.toNat :=
  if_neg fun hneg => absurd ((RawSingle.isNegative_iff _).1 hneg) (not_le.2 h)

/-- The place of a positive single in the total order. -/
theorem totalKey_of_pos (hx : FiniteSingle x) (h0 : 0 < singleValue x) :
    ∃ m e hm, x.toModel.unpack = .finite .positive m e hm ∧
      totalKey x = (e + 149) * 2 ^ 23 + m := by
  obtain ⟨m, e, hm, hu⟩ := finite_of_pos hx h0
  obtain ⟨hbits, hlt⟩ := toNat_of_unpack hu
  refine ⟨m, e, hm, hu, ?_⟩
  change x.toBits.toNat < 0x80000000 at hlt
  change (x.toBits.toNat : ℤ) = (e - -149) * 2 ^ 23 + m at hbits
  rw [totalKey_of_lt hlt, hbits]
  ring

/-- Of numbers with different exponents, the bits of the greater one are greater. -/
theorem place_lt {m m' : ℕ} {e e' : ℤ} {hm : 0 < m} {hm' : 0 < m'}
    (hx : Canonical .binary32 (.finite .positive m e hm))
    (hy : Canonical .binary32 (.finite .positive m' e' hm')) (h : e < e') :
    (e + 149) * 2 ^ 23 + m < (e' + 149) * 2 ^ 23 + m' := by
  obtain ⟨hlt, hle, -⟩ := hx
  obtain ⟨-, -, hfull⟩ := hy
  have hlt' : m < 2 ^ 24 := hlt
  have hle' : -149 ≤ e := hle
  have hfull' : 2 ^ 23 ≤ m' := hfull.resolve_right fun hmin : e' = -149 => by omega
  omega

/-- **The total order of positive singles** is that of the rationals that they stand for. -/
theorem totalKey_le_iff (hx : FiniteSingle x) (hx0 : 0 < singleValue x) (hy : FiniteSingle y)
    (hy0 : 0 < singleValue y) : totalKey x ≤ totalKey y ↔ singleValue x ≤ singleValue y := by
  obtain ⟨m, e, hm, hu, hkey⟩ := totalKey_of_pos hx hx0
  obtain ⟨m', e', hm', hu', hkey'⟩ := totalKey_of_pos hy hy0
  rw [FiniteSingle, hu] at hx
  rw [FiniteSingle, hu'] at hy
  rw [singleValue, singleValue, hu, hu', hkey, hkey', value_finite, value_finite]
  simp only [signed]
  rcases lt_trichotomy e e' with h | rfl | h
  · exact iff_of_true (place_lt hx hy h).le (lt_of_exponent_lt hx hy h).le
  · have hpos : (0 : ℚ) < 2 ^ e := zpow_pos (by norm_num) e
    rw [mul_le_mul_iff_left₀ hpos, Nat.cast_le, add_le_add_iff_left, Nat.cast_le]
  · exact iff_of_false (not_le.2 (place_lt hy hx h)) (not_le.2 (lt_of_exponent_lt hy hx h))

end HaarDetection
