import HaarDetection.Cascade.Basic
import HaarDetection.Classifier
import HaarDetection.Proofs.Number.Single

/-!
# Scaled lengths

The sides of a window are cut to whole pixels with some slack, the sides of the regions in it
without. What is known of a scale is that the window has at least a pixel at it and is not too
large; this makes the scale a finite number above zero.

* `wholePixels_spec`, `le_wholePixels`: what the slack does. **It makes up for the rounding of a
  length below `2 ^ 15` pixels.**
* `scaledLength_le_wholePixels`: a length up to a side has no more pixels, whatever the scale is.
* `ScaledSide`: a side of a window that has whole pixels at a scale.
* `ScaledSide.scaledLength_le`: a shorter length stays shorter.
* `ScaledSide.add_le`: lengths that make up a side at most do so when they are scaled up.
-/

namespace HaarDetection

open Float.Model (Format)

/-- The slack of a length, as a rational. -/
def slack : ℚ := 8589935 / 2 ^ 33

theorem slack_single : FiniteSingle 0.001 ∧ singleValue 0.001 = slack := by
  have h : (0.001 : Float32).toModel.unpack = .finite .positive 8589935 (-33) (by decide) := rfl
  rw [FiniteSingle, singleValue, h]
  exact ⟨⟨by decide, by decide, .inl (by decide)⟩, by norm_num [value, signed, slack]⟩

theorem slack_pos : 0 < slack := by norm_num [slack]

variable {l : Float32} {n : ℕ}

/-- **A length that has some whole pixels, and not too many**, is a finite number. -/
theorem wholePixels_spec (h0 : 0 < (wholePixels l).toNat) (h1 : (wholePixels l).toNat < 2 ^ 32 - 1) :
    FiniteSingle l ∧ Nearest .binary32 (singleValue l + slack) (singleValue (l + 0.001)) ∧
      0 ≤ singleValue (l + 0.001) ∧ (wholePixels l).toNat = ⌊singleValue (l + 0.001)⌋₊ := by
  obtain ⟨hf, h0, hfloor⟩ := of_toUInt32 h0 h1
  obtain ⟨hl, -, hn⟩ := add_single hf
  rw [slack_single.2] at hn
  exact ⟨hl, hn, h0, hfloor⟩

/-- **A length up to a side** has no more pixels at any scale. It is cut without the slack that the side
is given. -/
theorem scaledLength_le_wholePixels {len side : UInt32} (hl : len ≤ side) (scale : Float32) :
    (scaledLength len scale).toNat ≤ (wholePixels (side.toFloat32 * scale)).toNat := by
  rcases Nat.eq_zero_or_pos (scaledLength len scale).toNat with h0 | hpos
  · rw [h0]
    exact Nat.zero_le _
  · have hlen := atLeastOne_of_toUInt32_pos hpos
    have hside := AtLeastOne.mul_mono (by decide) (toFloat32_single len).1 (toFloat32_single side).1
      (toFloat32_nonneg len) (toFloat32_mono hl) (known_single scale) hlen
    exact hlen.toUInt32_le_add hside slack_single.1 (slack_single.2 ▸ slack_pos.le)

/-- **A length times zero has no whole pixels.** -/
theorem wholePixels_mul_zero (side : UInt32) {scale : Float32}
    (hz : ∃ s, scale.toModel.unpack = .zero s) : wholePixels (side.toFloat32 * scale) = 0 := by
  obtain ⟨s, hs⟩ := hz
  have hscale : FiniteSingle scale ∧ singleValue scale = 0 := by
    rw [FiniteSingle, singleValue, hs]
    exact ⟨True.intro, rfl⟩
  -- the product is exact, and so is its sum with the slack
  have hmul : FiniteSingle (side.toFloat32 * scale) ∧ singleValue (side.toFloat32 * scale) = 0 := by
    have h := mul_spec (toFloat32_single side).1 hscale.1
    rw [show value scale.toModel.unpack = 0 from hscale.2, mul_zero] at h
    exact h.exact (by decide) OnGrid.zero (by simp)
  have hadd : FiniteSingle (side.toFloat32 * scale + 0.001) ∧
      singleValue (side.toFloat32 * scale + 0.001) = slack := by
    have h := add_spec hmul.1 slack_single.1
    rw [show value (side.toFloat32 * scale).toModel.unpack = 0 from hmul.2,
      show value (0.001 : Float32).toModel.unpack = slack from slack_single.2, zero_add] at h
    refine h.exact (by decide) (slack_single.2 ▸ slack_single.1.onGrid) ?_
    norm_num [slack, exponentRange]
  have hfloor : ⌊slack⌋₊ = 0 := Nat.floor_eq_zero.2 (by norm_num [slack])
  rw [wholePixels, ← UInt32.toNat_inj, toUInt32_eq hadd.1 (hadd.2 ▸ slack_pos.le), hadd.2, hfloor]
  rfl

/-- A number that is `2 ^ -t` short of `n` pixels is on the grid. -/
theorem onGrid_short {t : ℕ} (ht : t ≤ 20) (hn : n * 2 ^ t ≤ 2 ^ 24) (hpos : 0 < n * 2 ^ t) :
    OnGrid .binary32 ((n : ℚ) - 1 / 2 ^ t) := by
  have hm : Format.mantissaBits .binary32 = 24 := rfl
  have hmin : Format.minExponent .binary32 = -149 := rfl
  have h := OnGrid.of_multiple (f := .binary32) (k := (n * 2 ^ t : ℕ) - 1) (n := t) (by omega) (by
    rw [hm, abs_le]; omega)
  have heq : (((n * 2 ^ t : ℕ) - 1 : ℤ) : ℚ) / 2 ^ t = n - 1 / 2 ^ t := by
    push_cast
    field_simp
  rwa [heq] at h

section Slack

variable {q r : ℚ} (hq : Nearest .binary32 q (singleValue l))
  (hr : Nearest .binary32 (singleValue l + slack) r) (hle : (n : ℚ) * (1 - 1 / 2 ^ 24) ≤ q)
include hq hr hle

/-- Up to `2 ^ 14` pixels the slack exceeds all that rounding can take away. -/
theorem le_sum_of_small (hpos : 0 < n) (hn : n ≤ 2 ^ 14) : (n : ℚ) ≤ r := by
  have hnq : (n : ℚ) ≤ 2 ^ 14 := by exact_mod_cast hn
  have hl := hq.le_of_ge (onGrid_short (n := n) (t := 10) (by omega) (by omega) (by omega)) (by linarith)
  have hc : (1 : ℚ) / 2 ^ 10 < slack := by norm_num [slack]
  exact hr.le_of_ge (OnGrid.of_nat (hn.trans (by decide))) (by linarith)

/-- From there on the sum with the slack is behind the middle between the number before `n` and
`n`. -/
theorem le_sum_of_large (hbig : 2 ^ 14 < n) (hn : n ≤ 2 ^ 15) : (n : ℚ) ≤ r := by
  have hnq : (n : ℚ) ≤ 2 ^ 15 := by exact_mod_cast hn
  have hnb : (2 : ℚ) ^ 14 + 1 ≤ n := by exact_mod_cast hbig
  have hgrid : OnGrid .binary32 n := OnGrid.of_nat (hn.trans (by decide))
  have hl := hq.le_of_ge (onGrid_short (n := n) (t := 9) (by omega) (by omega) (by omega)) (by linarith)
  have hc : (1 : ℚ) / 2 ^ 10 < slack := by norm_num [slack]
  by_contra hlt
  push Not at hlt
  have hx : singleValue l + slack < n := by
    by_contra hge
    exact absurd (hr.le_of_ge hgrid (not_lt.1 hge)) (not_le.2 hlt)
  have hclose := hr.closest n hgrid
  rw [abs_of_pos (by linarith : (0 : ℚ) < n - (singleValue l + slack))] at hclose
  have hgap : (n : ℚ) - 1 / 2 ^ 9 < r := by linarith [(abs_le.1 hclose).1]
  -- but there is no number of the grid between the two
  obtain ⟨j, rfl⟩ := hr.grid.multiple (t := -9) (by
    have hm : Format.mantissaBits .binary32 - 1 = 23 := rfl
    rw [hm]; norm_num at hgap ⊢; linarith)
  norm_num at hgap hlt
  have h3 : (j : ℚ) < ((n * 512 : ℤ) : ℚ) := by push_cast; linarith
  have h4 : ((n * 512 - 1 : ℤ) : ℚ) < j := by push_cast; linarith
  have h3' := Int.cast_lt.1 h3
  have h4' := Int.cast_lt.1 h4
  omega

/-- **The slack makes up for rounding.** With it, a length within a relative `2 ^ -24` below `n` pixels
is not below `n`. -/
theorem le_sum (hr0 : 0 ≤ r) (hn : n ≤ 2 ^ 15) : (n : ℚ) ≤ r := by
  rcases Nat.eq_zero_or_pos n with rfl | hpos
  · rwa [Nat.cast_zero]
  rcases le_or_gt n (2 ^ 14) with hsmall | hbig
  · exact le_sum_of_small hq hr hle hpos hsmall
  · exact le_sum_of_large hq hr hle hbig hn

end Slack

/-- A length within a relative `2 ^ -24` below `n` pixels has `n` whole pixels. -/
theorem le_wholePixels {q : ℚ} (hq : Nearest .binary32 q (singleValue l)) (hn : n ≤ 2 ^ 15)
    (hle : (n : ℚ) * (1 - 1 / 2 ^ 24) ≤ q) (h0 : 0 < (wholePixels l).toNat)
    (h1 : (wholePixels l).toNat < 2 ^ 32 - 1) : n ≤ (wholePixels l).toNat := by
  obtain ⟨-, hr, hr0, hfloor⟩ := wholePixels_spec h0 h1
  rw [hfloor, Nat.le_floor_iff hr0]
  exact le_sum hq hr hle hr0 hn

/-- A side of a window that has whole pixels at a scale, of which there are fewer than `2 ^ 31`. -/
structure ScaledSide (side : UInt32) (scale : Float32) (pixels : ℕ) : Prop where
  eq : (wholePixels (side.toFloat32 * scale)).toNat = pixels
  pos : 0 < pixels
  lt : pixels < 2 ^ 31

namespace ScaledSide

variable {side len len' : UInt32} {scale : Float32} {pixels : ℕ}

theorem spec (h : ScaledSide side scale pixels) :
    FiniteSingle (side.toFloat32 * scale) ∧ FiniteSingle scale ∧
      Nearest .binary32 (singleValue side.toFloat32 * singleValue scale)
        (singleValue (side.toFloat32 * scale)) := by
  obtain ⟨hl, -⟩ := wholePixels_spec (h.eq ▸ h.pos) (h.eq ▸ h.lt.trans (by decide))
  exact ⟨hl, (mul_single hl).2⟩

/-- **The scale is a finite number above zero.** -/
theorem scale_pos (h : ScaledSide side scale pixels) : 0 < singleValue scale := by
  obtain ⟨-, hn, h0, hfloor⟩ := wholePixels_spec (h.eq ▸ h.pos) (h.eq ▸ h.lt.trans (by decide))
  have hs := h.spec.2.2
  by_contra hneg
  have h1 : singleValue side.toFloat32 * singleValue scale ≤ 0 :=
    mul_nonpos_of_nonneg_of_nonpos (toFloat32_nonneg side) (not_lt.1 hneg)
  have h2 := hs.le_of_le OnGrid.zero h1
  have h3 : singleValue (side.toFloat32 * scale + 0.001) ≤ (1 : ℤ) / 2 ^ 1 :=
    hn.le_of_le (OnGrid.of_multiple (by decide) (by decide)) (by norm_num [slack]; linarith)
  have h4 : 1 ≤ ⌊singleValue (side.toFloat32 * scale + 0.001)⌋₊ := by
    rw [← hfloor, h.eq]; exact h.pos
  have h5 := (Nat.le_floor_iff h0).1 h4
  norm_num at h3 h5
  linarith

/-- **A length up to the side** is scaled to a finite number, and has no more pixels. -/
theorem length (h : ScaledSide side scale pixels) (hl : len ≤ side) :
    FiniteSingle (len.toFloat32 * scale) ∧ 0 ≤ singleValue (len.toFloat32 * scale) ∧
      (scaledLength len scale).toNat = ⌊singleValue (len.toFloat32 * scale)⌋₊ ∧
      (scaledLength len scale).toNat ≤ pixels := by
  have hf : FiniteSingle (len.toFloat32 * scale) := (mul_single_mono (toFloat32_single len).1
    (toFloat32_nonneg len) (toFloat32_mono hl) h.spec.1 h.scale_pos.le).1
  have h0 : 0 ≤ singleValue (len.toFloat32 * scale) :=
    (mul_single hf).2.2.nonneg (mul_nonneg (toFloat32_nonneg len) h.scale_pos.le)
  have hfloor : (scaledLength len scale).toNat ≤ pixels := by
    rw [← h.eq]
    exact scaledLength_le_wholePixels hl scale
  have heq : (scaledLength len scale).toNat = min _ _ := toUInt32_eq hf h0
  have hlt := h.lt
  exact ⟨hf, h0, by omega, hfloor⟩

/-- **A shorter length stays shorter.** -/
theorem scaledLength_mono (h : ScaledSide side scale pixels) (hl : len ≤ len') (hl' : len' ≤ side) :
    (scaledLength len scale).toNat ≤ (scaledLength len' scale).toNat := by
  obtain ⟨hf, -, heq, -⟩ := h.length (UInt32.le_trans hl hl')
  obtain ⟨hf', -, heq', -⟩ := h.length hl'
  rw [heq, heq']
  exact Nat.floor_le_floor (mul_single_mono (toFloat32_single len).1 (toFloat32_nonneg len)
    (toFloat32_mono hl) hf' h.scale_pos.le).2

/-- **A side that is scaled up** has a pixel at least for each of its own, if they are not too many. -/
theorem side_le (h : ScaledSide side scale pixels) (hs : 1 ≤ singleValue scale)
    (hsmall : pixels < 2 ^ 15) : side.toNat ≤ pixels := by
  obtain ⟨-, h0, heq, hle⟩ := h.length (UInt32.le_refl side)
  -- sides that are not exact singles are far too large
  have hgrid : OnGrid .binary32 (min side.toNat (2 ^ 24) : ℕ) := OnGrid.of_nat (min_le_right _ _)
  have hside : ((min side.toNat (2 ^ 24) : ℕ) : ℚ) ≤ singleValue side.toFloat32 :=
    (toFloat32_single side).2.le_of_ge hgrid (by exact_mod_cast min_le_left _ _)
  have hmul : ((min side.toNat (2 ^ 24) : ℕ) : ℚ) ≤ singleValue (side.toFloat32 * scale) :=
    h.spec.2.2.le_of_ge hgrid (hside.trans (le_mul_of_one_le_right (toFloat32_nonneg side) hs))
  have hfloor := (Nat.le_floor_iff h0).2 hmul
  omega

theorem toFloat32_eq (hside : side.toNat ≤ pixels) (hsmall : pixels < 2 ^ 15) (hl : len ≤ side) :
    singleValue len.toFloat32 = len.toNat :=
  toFloat32_exact (by have := UInt32.le_iff_toNat_le.1 hl; omega)

variable (h : ScaledSide side scale pixels) (hside : side.toNat ≤ pixels) (hsmall : pixels < 2 ^ 15)
include h hside hsmall

/-- What a length times the scale is rounded to. -/
theorem nearest (hl : len ≤ side) :
    Nearest .binary32 (len.toNat * singleValue scale) (singleValue (len.toFloat32 * scale)) := by
  have hn := (mul_single (h.length hl).1).2.2
  rwa [toFloat32_eq hside hsmall hl] at hn

/-- A window that has all its pixels left has not been scaled down by half. -/
theorem half_le_scale : 1 / 2 ≤ singleValue scale := by
  obtain ⟨-, hn, h0, hfloor⟩ := wholePixels_spec (h.eq ▸ h.pos) (h.eq ▸ h.lt.trans (by decide))
  have hs := h.nearest hside hsmall (UInt32.le_refl side)
  have hpos : (1 : ℚ) ≤ pixels := by exact_mod_cast h.pos
  have hsp : (side.toNat : ℚ) ≤ pixels := by exact_mod_cast hside
  have hs0 : (0 : ℚ) ≤ side.toNat := Nat.cast_nonneg _
  by_contra hlt
  have hm : Format.mantissaBits .binary32 = 24 := rfl
  have h1 : singleValue (side.toFloat32 * scale) ≤ ((side.toNat : ℤ) : ℚ) / 2 ^ 1 :=
    hs.le_of_le (OnGrid.of_multiple (by decide) (by rw [hm, abs_le]; omega)) (by push_cast; nlinarith)
  have h2 : singleValue (side.toFloat32 * scale + 0.001) ≤ ((pixels * 4 - 1 : ℤ) : ℚ) / 2 ^ 2 :=
    hn.le_of_le (OnGrid.of_multiple (by decide) (by rw [hm, abs_le]; omega))
      (by push_cast at h1 ⊢; linarith [show slack < 1 / 4 by norm_num [slack]])
  have h3 := (Nat.le_floor_iff h0).1 (h.eq.symm.trans hfloor).le
  push_cast at h2
  linarith

/-- A length that is scaled up has a pixel at least for each of its own. -/
theorem le_scaledLength (hs : 1 ≤ singleValue scale) (hl : len ≤ side) :
    len.toNat ≤ (scaledLength len scale).toNat := by
  obtain ⟨-, h0, heq, -⟩ := h.length hl
  have hlt := UInt32.le_iff_toNat_le.1 hl
  rw [heq, Nat.le_floor_iff h0]
  refine (h.nearest hside hsmall hl).le_of_ge (OnGrid.of_nat ?_) ?_
  · change len.toNat ≤ 2 ^ 24
    omega
  · have : (0 : ℚ) ≤ len.toNat := Nat.cast_nonneg _
    nlinarith

/-- A length that is scaled down has no more pixels than before. -/
theorem scaledLength_le (hs : singleValue scale ≤ 1) (hl : len ≤ side) :
    (scaledLength len scale).toNat ≤ len.toNat := by
  obtain ⟨-, h0, heq, -⟩ := h.length hl
  have hlt := UInt32.le_iff_toNat_le.1 hl
  rw [heq]
  refine Nat.floor_le_of_le ((h.nearest hside hsmall hl).le_of_le (OnGrid.of_nat ?_) ?_)
  · change len.toNat ≤ 2 ^ 24
    omega
  · have : (0 : ℚ) ≤ len.toNat := Nat.cast_nonneg _
    nlinarith

/-- How far rounding leads up from the exact length. -/
theorem scaledLength_le_mul (hs : 1 ≤ singleValue scale) (hl : len ≤ side) :
    ((scaledLength len scale).toNat : ℚ) ≤ len.toNat * singleValue scale * (1 + 1 / 2 ^ 24) := by
  obtain ⟨-, h0, heq, -⟩ := h.length hl
  have hn := h.nearest hside hsmall hl
  rw [heq]
  refine (Nat.floor_le h0).trans ?_
  rcases Nat.eq_zero_or_pos len.toNat with hz | hpos
  · rw [hz, Nat.cast_zero, zero_mul] at hn ⊢
    rw [hn.eq_of_grid OnGrid.zero, zero_mul]
  · have h1 : (1 : ℚ) ≤ len.toNat := by exact_mod_cast hpos
    have h2 : (1 : ℚ) ≤ len.toNat * singleValue scale := by nlinarith
    have habs : |(len.toNat : ℚ) * singleValue scale| = len.toNat * singleValue scale :=
      abs_of_pos (by linarith)
    have herr := hn.relative_error_le (by
      rw [habs]
      refine le_trans ?_ h2
      norm_num [Format.mantissaBits, Format.minExponent])
    rw [habs] at herr
    have := (abs_le.1 herr).2
    norm_num [Format.mantissaBits] at this ⊢
    linarith

/-- **Lengths that make up the side at most** do so when they are scaled up. -/
theorem add_le (hs : 1 ≤ singleValue scale) {a b c : UInt32}
    (habc : a.toNat + b.toNat + c.toNat ≤ side.toNat) :
    (scaledLength a scale).toNat + (scaledLength b scale).toNat + (scaledLength c scale).toNat ≤
      pixels := by
  set n := (scaledLength a scale).toNat + (scaledLength b scale).toNat +
    (scaledLength c scale).toNat with hn
  have ha := h.scaledLength_le_mul hside hsmall hs (UInt32.le_iff_toNat_le.2 (by omega : a.toNat ≤ _))
  have hb := h.scaledLength_le_mul hside hsmall hs (UInt32.le_iff_toNat_le.2 (by omega : b.toNat ≤ _))
  have hc := h.scaledLength_le_mul hside hsmall hs (UInt32.le_iff_toNat_le.2 (by omega : c.toNat ≤ _))
  have hsum : (n : ℚ) ≤ side.toNat * singleValue scale * (1 + 1 / 2 ^ 24) := by
    have h1 : ((a.toNat + b.toNat + c.toNat : ℕ) : ℚ) ≤ side.toNat := by exact_mod_cast habc
    push_cast [hn] at h1 ⊢
    nlinarith
  have hside0 : (0 : ℚ) ≤ side.toNat * singleValue scale :=
    mul_nonneg (Nat.cast_nonneg _) (by linarith)
  have hexact : ∀ m : ℕ, m ≤ n → (m : ℚ) * (1 - 1 / 2 ^ 24) ≤ side.toNat * singleValue scale := by
    intro m hm
    have h1 : (m : ℚ) ≤ n := by exact_mod_cast hm
    nlinarith
  have hside' := h.nearest hside hsmall (UInt32.le_refl side)
  have hpos := h.eq ▸ h.pos
  have hlt := h.eq ▸ h.lt.trans (by decide : 2 ^ 31 < 2 ^ 32 - 1)
  rcases le_or_gt n (2 ^ 15) with hle | hgt
  · rw [← h.eq]
    exact le_wholePixels hside' hle (hexact n le_rfl) hpos hlt
  · have := le_wholePixels hside' le_rfl (hexact (2 ^ 15) hgt.le) hpos hlt
    rw [h.eq] at this
    omega

end ScaledSide

end HaarDetection
