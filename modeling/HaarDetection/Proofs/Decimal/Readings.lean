import HaarDetection.Decimal.Numeral
import HaarDetection.Proofs.Number.Double

/-!
# Doubles as they are read

What is read as a double is finite: the digits taken are too few to lead out of the range, powers of ten
that they are divided by are at least one, and a product that is infinite is refused.

* `isFinite_iff`: the finite doubles.
* `powerOfTen_spec`: **a power of ten** that there is a double for.
* `Moderate`: doubles up to the number of integers of 64 bits, which quotients do not leave.
* `Numeral.isFinite_of_toFloat?`: **what is read is finite.**
-/

namespace HaarDetection

open Float.Model (UnpackedFloat totalExponent)
open Float.Model.UnpackedFloat (roundWithAccuracy)

theorem isFinite_iff {x : Float} : x.isFinite = true ↔ Canonical .binary64 x.toModel.unpack :=
  Known.isFinite_iff (canonical_unpack _)

/-- Doubles up to the number of integers of 64 bits. -/
structure Moderate (x : Float) : Prop where
  canonical : Canonical .binary64 x.toModel.unpack
  nonneg : 0 ≤ value x.toModel.unpack
  le : value x.toModel.unpack ≤ 2 ^ 64

/-- What is rounded between zero and such a bound stays there. -/
theorem RoundsTo.moderate {u : UnpackedFloat} {q : ℚ} (h : RoundsTo .binary64 q u) (h0 : 0 ≤ q)
    (hq : q ≤ 2 ^ 64) : repack .binary64 u = u ∧ 0 ≤ value u ∧ value u ≤ 2 ^ 64 := by
  have hgrid : OnGrid .binary64 (2 ^ 64) := ⟨1, 64, by decide, by decide, by norm_num⟩
  exact h.between (by decide) hgrid (pow_lt_pow_right₀ (by norm_num) (by decide)) h0 hq

theorem moderate_toFloat (n : UInt64) : Moderate n.toFloat := by
  have hr := ofNat_spec (f := .binary64) n.toNat
  obtain ⟨hu, h0, h1⟩ := hr.moderate (by positivity) (by exact_mod_cast n.toNat_lt.le)
  have hn : n.toFloat.toModel.unpack = repack .binary64 (UnpackedFloat.ofNat .binary64 n.toNat) := rfl
  constructor <;> rw [hn, hu]
  · exact hr.1
  · exact h0
  · exact h1

/-- A power of ten as a number before it is kept. -/
theorem ofScientific_spec {n : ℕ} (hn : n ≤ 308) :
    RoundsTo .binary64 (10 ^ n) (UnpackedFloat.ofScientific .binary64 1 n) := by
  set m : ℕ := 2 ^ 53 * 10 ^ n with hm
  have hlog : 53 ≤ m.log2 := by
    refine (Nat.le_log2 (by positivity)).2 ?_
    exact Nat.le_mul_of_pos_right _ (by positivity)
  have hplace : (-53 : ℤ) ≤ Float.Model.Format.binary64.targetExponent (totalExponent m (-53)) := by
    have := sub_mantissaBits_le_targetExponent .binary64 (totalExponent m (-53))
    rw [totalExponent_eq] at this ⊢
    have hbits : Float.Model.Format.binary64.mantissaBits = 53 := rfl
    omega
  have hu : UnpackedFloat.ofScientific .binary64 1 n =
      roundWithAccuracy .binary64 .positive m (-53) .exact := by
    have hlarge : ¬((n : ℤ) > 2 ^ 11) := by omega
    have hsmall : ¬((n : ℤ) < -(2 ^ 11 + ((1 : ℕ).log2 : ℕ))) := by omega
    unfold UnpackedFloat.ofScientific
    rw [dif_neg one_ne_zero, if_neg hlarge, if_neg hsmall, if_pos (Int.natCast_nonneg n)]
    rfl
  have h := roundWithAccuracy_spec (f := .binary64) (x := m) (a := .exact) .positive rfl hplace
  have hv : (m : ℚ) * 2 ^ (-53 : ℤ) = 10 ^ n := by
    rw [hm]
    push_cast
    ring
  rw [hu, ← hv]
  exact h

theorem powerOfTen_spec_of_large {n : ℕ} (hlt : 22 < n) (hn : n ≤ 308) :
    Canonical .binary64 (Numeral.powerOfTen n).toModel.unpack ∧
      1 ≤ value (Numeral.powerOfTen n).toModel.unpack := by
  have h := ofScientific_spec hn
  have hone : OnGrid .binary64 1 := ⟨1, 0, by decide, by decide, by norm_num⟩
  have hmost : OnGrid .binary64 (9007199254740991 * 2 ^ 971) :=
    ⟨9007199254740991, 971, by decide, by decide, by norm_num⟩
  have hle : (10 : ℚ) ^ n ≤ 9007199254740991 * 2 ^ 971 := by
    have hnat : 10 ^ 308 ≤ 9007199254740991 * 2 ^ 971 := by decide +kernel
    have hcast : ((10 ^ 308 : ℕ) : ℚ) ≤ ((9007199254740991 * 2 ^ 971 : ℕ) : ℚ) := Nat.cast_le.2 hnat
    simp only [Nat.cast_mul, Nat.cast_pow, Nat.cast_ofNat] at hcast
    exact (pow_le_pow_right₀ (by norm_num) hn).trans hcast
  have hrange : (9007199254740991 * 2 ^ 971 : ℚ) < 2 ^ exponentRange .binary64 :=
    calc (9007199254740991 * 2 ^ 971 : ℚ) < 2 ^ 53 * 2 ^ 971 :=
          mul_lt_mul_of_pos_right (by norm_num) (by positivity)
      _ = 2 ^ exponentRange .binary64 := (pow_add 2 53 971).symm
  obtain ⟨hkept, -, -⟩ := h.between (by decide) hmost hrange (by positivity) hle
  have hslow : ¬(1 < 2 ^ 53 ∧ n ≤ 22) := fun hfast => absurd hfast.2 (Nat.not_le.2 hlt)
  have hu : (Numeral.powerOfTen n).toModel.unpack =
      repack .binary64 (UnpackedFloat.ofScientific .binary64 1 n) := by
    unfold Numeral.powerOfTen Float.ofScientific
    rw [dif_neg hslow]
    rfl
  rw [hu, hkept]
  exact ⟨h.1, h.2.le_of_ge hone (one_le_pow₀ (by norm_num))⟩

theorem powerOfTen_spec_of_small {n : ℕ} (hn : n ≤ 22) :
    Canonical .binary64 (Numeral.powerOfTen n).toModel.unpack ∧
      1 ≤ value (Numeral.powerOfTen n).toModel.unpack := by
  have htable : ∀ i : Fin 23, (Numeral.powerOfTen i.val).isFinite = true ∧
      UnpackedFloat.lt (Numeral.powerOfTen i.val).toModel.unpack (1 : Float).toModel.unpack = false := by
    decide +kernel
  obtain ⟨hfin, hlt⟩ := htable ⟨n, by omega⟩
  have hc := isFinite_iff.1 hfin
  obtain ⟨hone, hv⟩ := holds_doubleOfNat (n := 1) (by norm_num)
  have h1 : (1 : Float).toModel.unpack = (doubleOfNat 1).toModel.unpack := rfl
  refine ⟨hc, not_lt.1 fun hlt' => ?_⟩
  rw [h1, Bool.eq_false_iff, ne_eq, lt_iff hc hone, hv] at hlt
  exact hlt (by exact_mod_cast hlt')

/-- **A power of ten** that there is a double for is at least one. The smaller ones come from a table. -/
theorem powerOfTen_spec {n : ℕ} (hn : n ≤ 308) :
    Canonical .binary64 (Numeral.powerOfTen n).toModel.unpack ∧
      1 ≤ value (Numeral.powerOfTen n).toModel.unpack := by
  rcases Nat.lt_or_ge 22 n with hlt | hge
  · exact powerOfTen_spec_of_large hlt hn
  · exact powerOfTen_spec_of_small hge

theorem Moderate.div_powerOfTen {x : Float} (hx : Moderate x) {n : ℕ} (hn : n ≤ 308) :
    Moderate (x / Numeral.powerOfTen n) := by
  obtain ⟨hc, h0, h1⟩ := hx
  obtain ⟨hy, hy1⟩ := powerOfTen_spec hn
  set y := Numeral.powerOfTen n
  have hr := div_spec hc hy (by linarith)
  have hle : value x.toModel.unpack / value y.toModel.unpack ≤ 2 ^ 64 :=
    (div_le_self h0 hy1).trans h1
  obtain ⟨hu, hv0, hv1⟩ := hr.moderate (div_nonneg h0 (by linarith)) hle
  have hxy : (x / y).toModel.unpack =
      repack .binary64 (UnpackedFloat.div .binary64 x.toModel.unpack y.toModel.unpack) := rfl
  constructor <;> rw [hxy, hu]
  · exact hr.1
  · exact hv0
  · exact hv1

/-- A product of finite doubles is finite or infinite. -/
theorem isFinite_mul {x y : Float} (hx : Canonical .binary64 x.toModel.unpack)
    (hy : Canonical .binary64 y.toModel.unpack) (h : (x * y).isInf = false) : (x * y).isFinite = true := by
  have hxy : (x * y).toModel.unpack =
      repack .binary64 (UnpackedFloat.mul .binary64 x.toModel.unpack y.toModel.unpack) := rfl
  have hr := mul_spec hx hy
  rcases hr.repack_cases (by decide) with ⟨hu, -⟩ | ⟨⟨s, hs⟩, -⟩
  · rw [isFinite_iff, hxy, hu]
    exact hr.1
  · change UnpackedFloat.isInf _ = false at h
    rw [← hxy] at hs
    rw [hs] at h
    cases h

/-- Finite doubles are not too large to be kept. -/
theorem abs_value_lt {x : Float} (h : Canonical .binary64 x.toModel.unpack) :
    |value x.toModel.unpack| < 2 ^ exponentRange .binary64 := by
  have hx : repack .binary64 x.toModel.unpack = x.toModel.unpack := by
    change UnpackedFloat.unpack .binary64 (UnpackedFloat.pack .binary64
      (UnpackedFloat.unpack .binary64 _)) = _
    rw [pack_unpack (by decide) x.toModel.valid]
    rfl
  rcases (RoundsTo.refl h).repack_cases (by decide) with ⟨-, hlt⟩ | ⟨⟨s, hs⟩, -⟩
  · exact hlt
  · rw [hx] at hs
    rw [hs] at h
    exact h.elim

theorem isFinite_neg {x : Float} (h : x.isFinite = true) : (-x).isFinite = true := by
  rw [isFinite_iff] at h ⊢
  have hlt := abs_value_lt h
  have hx : (-x).toModel.unpack = repack .binary64 x.toModel.unpack.neg := rfl
  have hneg : Canonical .binary64 x.toModel.unpack.neg ∧
      |value x.toModel.unpack.neg| = |value x.toModel.unpack| := by
    cases hu : x.toModel.unpack with
    | infinity s => rw [hu] at h; exact h.elim
    | notANumber => rw [hu] at h; exact h.elim
    | zero s => exact ⟨trivial, rfl⟩
    | finite s m e hm =>
      rw [hu] at h
      exact ⟨h, by rw [UnpackedFloat.neg, abs_value_finite, abs_value_finite]⟩
  rw [hx, repack, unpack_pack (by decide) hneg.1 (by rwa [hneg.2])]
  exact hneg.1

/-- **What is read is finite.** -/
theorem Numeral.isFinite_of_magnitude? {n : Numeral} {x : Float} (h : n.magnitude? = some x) :
    x.isFinite = true := by
  unfold magnitude? at h
  have hbase := moderate_toFloat n.scaled.1.toUInt64
  simp only at h
  split at h
  · rename_i up _
    split at h
    · cases h
      exact isFinite_iff.2 hbase.canonical
    · split at h
      · cases h
      · rename_i hup
        split at h
        · cases h
        · rename_i hinf
          cases h
          exact isFinite_mul hbase.canonical (powerOfTen_spec (not_lt.1 hup)).1 (Bool.eq_false_iff.2 hinf)
  · rename_i before _
    split at h
    · rename_i hdown
      cases h
      exact isFinite_iff.2 (hbase.div_powerOfTen hdown).canonical
    · split at h
      · rename_i hdown
        cases h
        have hfirst := hbase.div_powerOfTen (n := 308) le_rfl
        exact isFinite_iff.2 (hfirst.div_powerOfTen (by omega)).canonical
      · cases h
        rfl

theorem Numeral.isFinite_of_toFloat? {n : Numeral} {x : Float} (h : n.toFloat? = some x) :
    x.isFinite = true := by
  unfold toFloat? at h
  rw [Option.map_eq_some_iff] at h
  obtain ⟨y, hy, rfl⟩ := h
  have hfin := isFinite_of_magnitude? hy
  split
  · exact isFinite_neg hfin
  · exact hfin

end HaarDetection
