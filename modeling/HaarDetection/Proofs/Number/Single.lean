import HaarDetection.Proofs.Number.Finite

/-!
# Single precision

The operations of the machine on singles, as operations on rationals.

* `FiniteSingle`, `singleValue`: the finite singles, and the rationals that they stand for.
* `mul_single`, `add_single`: **a finite result is nearest to the exact one.**
* `mul_single_mono`, `toFloat32_mono`: rounding keeps the order.
* `toUInt32_eq`: a single cut to an integer.
* `eq_of_beq_single`: singles that compare equal are equal, zeros with different signs apart.
* `atLeastOne_of_le`: singles from one on.
-/

namespace HaarDetection

open Float.Model (UnpackedFloat)

variable {x y z : Float32}

/-- Is a single a finite number? -/
def FiniteSingle (x : Float32) : Prop := Canonical .binary32 x.toModel.unpack

/-- The rational that a finite single stands for. -/
def singleValue (x : Float32) : ℚ := value x.toModel.unpack

theorem known_single (x : Float32) : Known .binary32 x.toModel.unpack := canonical_unpack _

theorem isFinite_single_iff : x.isFinite = true ↔ FiniteSingle x := (known_single x).isFinite_iff

theorem FiniteSingle.isNaN_eq (h : FiniteSingle x) : x.isNaN = false := isNaN_eq_false h

theorem FiniteSingle.onGrid (h : FiniteSingle x) : OnGrid .binary32 (singleValue x) :=
  canonical_onGrid h

theorem one_single : FiniteSingle 1 ∧ singleValue 1 = 1 := by
  have h : (1 : Float32).toModel.unpack = .finite .positive (2 ^ 23) (-23) (by decide) := rfl
  rw [FiniteSingle, singleValue, h]
  exact ⟨⟨by decide, by decide, .inl (by decide)⟩, by norm_num [value, signed]⟩

/-- **A finite product of singles.** -/
theorem mul_single (h : FiniteSingle (x * y)) :
    FiniteSingle x ∧ FiniteSingle y ∧
      Nearest .binary32 (singleValue x * singleValue y) (singleValue (x * y)) :=
  mul_nearest (by decide) (known_single x) (known_single y) h

/-- **A finite sum of singles.** -/
theorem add_single (h : FiniteSingle (x + y)) :
    FiniteSingle x ∧ FiniteSingle y ∧
      Nearest .binary32 (singleValue x + singleValue y) (singleValue (x + y)) :=
  add_nearest (by decide) (known_single x) (known_single y) h

theorem mul_single_mono (hx : FiniteSingle x) (hx0 : 0 ≤ singleValue x)
    (hxy : singleValue x ≤ singleValue y) (h : FiniteSingle (y * z)) (hz0 : 0 ≤ singleValue z) :
    FiniteSingle (x * z) ∧ singleValue (x * z) ≤ singleValue (y * z) :=
  mul_mono (by decide) hx (mul_single h).1 (mul_single h).2.1 hx0 hz0 hxy h

/-- **A natural number as a single.** -/
theorem toFloat32_single (n : UInt32) :
    FiniteSingle n.toFloat32 ∧ Nearest .binary32 n.toNat (singleValue n.toFloat32) := by
  have hr := ofNat_spec (f := .binary32) n.toNat
  have hgrid : OnGrid .binary32 (2 ^ 32) := ⟨1, 32, by decide, by decide, by norm_num⟩
  obtain ⟨hp, -, -⟩ := hr.between (by decide) hgrid (by norm_num [exponentRange]) (Nat.cast_nonneg _)
    (by exact_mod_cast n.toNat_lt.le)
  have hn : n.toFloat32.toModel.unpack = UnpackedFloat.ofNat .binary32 n.toNat := hp
  rw [FiniteSingle, singleValue, hn]
  exact hr

theorem toFloat32_nonneg (n : UInt32) : 0 ≤ singleValue n.toFloat32 :=
  (toFloat32_single n).2.nonneg (Nat.cast_nonneg _)

theorem toFloat32_mono {m n : UInt32} (h : m ≤ n) :
    singleValue m.toFloat32 ≤ singleValue n.toFloat32 := by
  rcases (UInt32.le_iff_toNat_le.1 h).lt_or_eq with hlt | heq
  · exact (toFloat32_single m).2.mono (toFloat32_single n).2 (by exact_mod_cast hlt)
  · rw [UInt32.toNat_inj.1 heq]

/-- **Small numbers are converted exactly.** -/
theorem toFloat32_exact {n : UInt32} (h : n.toNat ≤ 2 ^ 24) : singleValue n.toFloat32 = n.toNat :=
  (toFloat32_single n).2.eq_of_grid (OnGrid.of_nat h)

theorem toNat_ofNatClamp (n : ℕ) : (UInt32.ofNatClamp n).toNat = min n (2 ^ 32 - 1) := by
  unfold UInt32.ofNatClamp
  split
  · rename_i h
    rw [UInt32.toNat_ofNatLT, min_eq_left]
    exact Nat.le_sub_one_of_lt h
  · rename_i h
    rw [min_eq_right]
    · rfl
    · exact (Nat.sub_le _ _).trans (not_lt.1 h)

/-- **A single cut to an integer.** -/
theorem toUInt32_eq (h : FiniteSingle x) (h0 : 0 ≤ singleValue x) :
    x.toUInt32.toNat = min ⌊singleValue x⌋₊ (2 ^ 32 - 1) := by
  change (UnpackedFloat.toUInt32 x.toModel.unpack).toNat = _
  unfold FiniteSingle at h
  unfold singleValue at h0 ⊢
  cases hu : x.toModel.unpack with
  | infinity s => rw [hu] at h; exact h.elim
  | notANumber => rw [hu] at h; exact h.elim
  | zero s => rw [value_zero, Nat.floor_zero]; rfl
  | finite s m e hm =>
    rw [hu, value_finite] at h0
    rw [value_finite, UnpackedFloat.toUInt32, UnpackedFloat.toInt, roundToInt_eq, toNat_ofNatClamp]
    have hpos := finite_pos e hm
    cases s with
    | negative => exact absurd h0 (not_le.2 (neg_lt_zero.2 hpos))
    | positive => rfl

/-- **A single that is cut to an integer above zero** is one at least, or infinite. -/
theorem atLeastOne_of_toUInt32_pos (h : 0 < x.toUInt32.toNat) :
    AtLeastOne .binary32 x.toModel.unpack := by
  change 0 < (UnpackedFloat.toUInt32 x.toModel.unpack).toNat at h
  rcases known_single x with hc | ⟨s, hs⟩ | hs
  · have h0 : 0 ≤ singleValue x := by
      unfold singleValue
      cases hu : x.toModel.unpack with
      | finite s m e hm =>
        have hpos := finite_pos e hm
        cases s with
        | positive => exact hpos.le
        | negative =>
          rw [hu, UnpackedFloat.toUInt32, UnpackedFloat.toInt, roundToInt_eq,
            toNat_ofNatClamp] at h
          simp [UnpackedFloat.Sign.apply] at h
      | _ => exact le_rfl
    have heq : (UnpackedFloat.toUInt32 x.toModel.unpack).toNat = _ := toUInt32_eq hc h0
    have hone : 1 ≤ ⌊singleValue x⌋₊ := by omega
    exact .inr ⟨hc, (Nat.one_le_floor_iff _).1 hone⟩
  · rw [hs] at h
    cases s with
    | positive => exact .inl hs
    | negative => exact absurd h (by decide)
  · rw [hs] at h
    exact absurd h (by decide)

/-- An infinite single is cut to the greatest integer. -/
theorem toUInt32_infinity (h : x.toModel.unpack = .infinity .positive) :
    x.toUInt32.toNat = 2 ^ 32 - 1 := by
  change (UnpackedFloat.toUInt32 x.toModel.unpack).toNat = _
  rw [h]
  rfl

/-- A single that is cut to a number between zero and the greatest one is finite. -/
theorem of_toUInt32 (h0 : 0 < x.toUInt32.toNat) (h1 : x.toUInt32.toNat < 2 ^ 32 - 1) :
    FiniteSingle x ∧ 0 ≤ singleValue x ∧ x.toUInt32.toNat = ⌊singleValue x⌋₊ := by
  rcases atLeastOne_of_toUInt32_pos h0 with hinf | ⟨hc, hv⟩
  · rw [toUInt32_infinity hinf] at h1
    exact absurd h1 (lt_irrefl _)
  · have hv0 : 0 ≤ singleValue x := zero_le_one.trans hv
    rw [toUInt32_eq hc hv0] at h1 ⊢
    exact ⟨hc, hv0, by omega⟩

/-- A single is known from what it is unpacked to. -/
theorem eq_of_unpack_eq (h : x.toModel.unpack = y.toModel.unpack) : x = y := by
  -- equal numbers are kept as equal bits
  have hp := congrArg (UnpackedFloat.pack .binary32) h
  change UnpackedFloat.pack .binary32 (UnpackedFloat.unpack .binary32 _) =
    UnpackedFloat.pack .binary32 (UnpackedFloat.unpack .binary32 _) at hp
  rw [pack_unpack (by decide) x.toModel.valid, pack_unpack (by decide) y.toModel.valid] at hp
  obtain ⟨⟨bx, hx⟩⟩ := x
  obtain ⟨⟨by', hy⟩⟩ := y
  obtain rfl : bx = by' := UInt32.toBitVec_inj.1 hp
  rfl

/-- **Singles that compare equal are equal**, but for the sign of a zero. -/
theorem eq_of_beq_single (h : (x == y) = true) :
    x = y ∨ (∃ s, x.toModel.unpack = .zero s) ∧ ∃ s, y.toModel.unpack = .zero s := by
  have hc : UnpackedFloat.compare x.toModel.unpack y.toModel.unpack = some .eq := by
    change UnpackedFloat.beq x.toModel.unpack y.toModel.unpack = true at h
    exact beq_iff_eq.1 h
  exact (eq_of_compare_eq hc).imp_left eq_of_unpack_eq

theorem lt_single_iff (hx : FiniteSingle x) (hy : FiniteSingle y) :
    Float32.lt x y = true ↔ singleValue x < singleValue y := by
  rw [singleValue, singleValue, ← lt_iff hx hy, Float32.lt, decide_eq_true_iff]
  rfl

/-- **A single from one on**, or infinite. -/
theorem atLeastOne_of_le (h : Float32.le 1 x = true) : AtLeastOne .binary32 x.toModel.unpack := by
  have hone : (1 : Float32).toModel.unpack = .finite .positive (2 ^ 23) (-23) (by decide) := rfl
  have hle : UnpackedFloat.le (1 : Float32).toModel.unpack x.toModel.unpack = true :=
    of_decide_eq_true h
  rcases known_single x with hc | ⟨s, hs⟩ | hs
  · refine .inr ⟨hc, ?_⟩
    have hv : value (1 : Float32).toModel.unpack = 1 := one_single.2
    rw [UnpackedFloat.le, compare_eq one_single.1 hc, hv] at hle
    refine not_lt.1 fun hlt => ?_
    rw [compare_gt_iff_gt.2 hlt] at hle
    exact absurd hle (by decide)
  · rw [hs, hone] at hle
    cases s with
    | positive => exact .inl hs
    | negative => exact absurd hle (by decide)
  · rw [hs, hone] at hle
    exact absurd hle (by decide)

theorem atLeastOne_mul (hx : AtLeastOne .binary32 x.toModel.unpack)
    (hy : AtLeastOne .binary32 y.toModel.unpack) : AtLeastOne .binary32 (x * y).toModel.unpack :=
  hx.mul (by decide) hy

theorem atLeastOne_add (hx : AtLeastOne .binary32 x.toModel.unpack) (hy : FiniteSingle y)
    (h0 : 0 ≤ singleValue y) : AtLeastOne .binary32 (x + y).toModel.unpack :=
  hx.add (by decide) hy h0

/-- Cut to an integer, it is not zero. -/
theorem AtLeastOne.toUInt32_pos (h : AtLeastOne .binary32 x.toModel.unpack) :
    0 < x.toUInt32.toNat := by
  rcases h with hinf | ⟨hc, hv⟩
  · change 0 < (UnpackedFloat.toUInt32 x.toModel.unpack).toNat
    rw [hinf]
    decide
  · have hfloor : 1 ≤ ⌊singleValue x⌋₊ := (Nat.one_le_floor_iff _).2 hv
    rw [toUInt32_eq hc (zero_le_one.trans hv)]
    omega

theorem atLeastOne_toFloat32 {n : UInt32} (h : 0 < n.toNat) :
    AtLeastOne .binary32 n.toFloat32.toModel.unpack := by
  have hone : OnGrid .binary32 1 := one_single.2 ▸ one_single.1.onGrid
  obtain ⟨hf, hn⟩ := toFloat32_single n
  exact .inr ⟨hf, hn.le_of_ge hone (by exact_mod_cast h)⟩

/-- **Cut to integers, singles from one on keep the order**, also if something is added to the greater
one. -/
theorem AtLeastOne.toUInt32_le_add (hx : AtLeastOne .binary32 x.toModel.unpack)
    (hxy : y.toModel.unpack = .infinity .positive ∨
      FiniteSingle x ∧ FiniteSingle y ∧ singleValue x ≤ singleValue y)
    (hz : FiniteSingle z) (hz0 : 0 ≤ singleValue z) : x.toUInt32.toNat ≤ (y + z).toUInt32.toNat := by
  have hsum : (y + z).toModel.unpack = .infinity .positive ∨
      FiniteSingle x ∧ FiniteSingle (y + z) ∧ singleValue x ≤ singleValue (y + z) := by
    have heq : (y + z).toModel.unpack =
        repack .binary32 (UnpackedFloat.add .binary32 y.toModel.unpack z.toModel.unpack) := rfl
    rcases hxy with hinf | ⟨hfx, hfy, hle⟩
    · rw [heq, hinf]
      exact .inl (add_infinity hz)
    · have hy0 : 0 ≤ singleValue y := (zero_le_one.trans (hx.one_le hfx)).trans hle
      refine (le_add_of_nonneg (by decide) hfy hy0 hz hz0).imp_right ?_
      rintro ⟨hfin, hge⟩
      exact ⟨hfx, hfin, hle.trans hge⟩
  rcases hsum with hinf | ⟨hfx, hfs, hle⟩
  · rw [toUInt32_infinity hinf]
    exact Nat.le_sub_one_of_lt (UInt32.toNat_lt _)
  · have h0 : 0 ≤ singleValue x := zero_le_one.trans (hx.one_le hfx)
    rw [toUInt32_eq hfx h0, toUInt32_eq hfs (h0.trans hle)]
    exact min_le_min_right _ (Nat.floor_le_floor hle)

end HaarDetection
