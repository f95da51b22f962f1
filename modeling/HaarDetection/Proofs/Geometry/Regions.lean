import HaarDetection.Proofs.Geometry.Lengths

/-!
# Scaled regions

A region inside of a window is scaled with it. Its sides are cut and then keep a pixel at least.

* `Rect.InImage`: a rectangle in an image.
* `ScaledWindow`: a window that has whole pixels at a scale.
* `ScaledWindow.of_one_le`: a window that is scaled up has.
* `ScaledWindow.inside_scale_iff`: **which regions stay inside of a window** of fewer than
  `2 ^ 15` pixels a side. It is all of them, but for the tilted ones whose topmost corner is next to
  the left border of the window, when the scale is below one.
-/

namespace HaarDetection

open Float.Model (Format)

/-- **The rectangle lies in an image** of a size. -/
def Rect.InImage (r : Rect) (image : Size) : Prop :=
  0 ≤ r.left ∧ 0 ≤ r.top ∧ r.right ≤ image.width.toNat ∧ r.bottom ≤ image.height.toNat

/-- A window that has whole pixels at a scale, fewer than `2 ^ 31` a side. -/
structure ScaledWindow (window : Size) (scale : Float32) : Prop where
  horizontal : ScaledSide window.width scale (window.scale scale).width.toNat
  vertical : ScaledSide window.height scale (window.scale scale).height.toNat

/-- A side times a scale from one on has a whole pixel. -/
theorem wholePixels_pos {side : UInt32} {scale : Float32} (h : 0 < side.toNat)
    (hs : Float32.le 1 scale = true) : 0 < (wholePixels (side.toFloat32 * scale)).toNat := by
  have hslack : 0 ≤ singleValue 0.001 := slack_single.2 ▸ slack_pos.le
  have hmul := atLeastOne_mul (atLeastOne_toFloat32 h) (atLeastOne_of_le hs)
  exact (atLeastOne_add hmul slack_single.1 hslack).toUInt32_pos

/-- **A window that is scaled up** has whole pixels, and room for what it was before. If it is not too
large then the scale is a finite number. -/
theorem ScaledWindow.of_one_le {window : Size} {scale : Float32}
    (hw : 0 < window.width.toNat ∧ 0 < window.height.toNat) (hs : Float32.le 1 scale = true)
    (hsmall : (window.scale scale).width.toNat < 2 ^ 15 ∧ (window.scale scale).height.toNat < 2 ^ 15) :
    ScaledWindow window scale ∧ 1 ≤ singleValue scale ∧ (window.scale scale).Fits window := by
  obtain ⟨hwidth, hheight⟩ := hsmall
  have h : ScaledWindow window scale :=
    ⟨⟨rfl, wholePixels_pos hw.1 hs, by omega⟩, ⟨rfl, wholePixels_pos hw.2 hs, by omega⟩⟩
  rcases atLeastOne_of_le hs with hinf | ⟨-, hv⟩
  · have hfin := h.horizontal.spec.2.1
    rw [FiniteSingle, hinf] at hfin
    exact hfin.elim
  · exact ⟨h, hv, UInt32.le_iff_toNat_le.2 (h.horizontal.side_le hv hwidth),
      UInt32.le_iff_toNat_le.2 (h.vertical.side_le hv hheight)⟩

/-- The sides of a region are those of no empty one. -/
def Region.Nonempty (r : Region) : Prop := 0 < r.width.toNat ∧ 0 < r.height.toNat

theorem toNat_max (a b : UInt32) : (max a b).toNat = max a.toNat b.toNat := by
  rw [UInt32.max_def]
  split <;> rename_i h <;> rw [UInt32.le_iff_toNat_le] at h <;> omega

namespace Region

variable (r : Region) (scale : Float32)

theorem scale_x : (r.scale scale).x.toNat = (scaledLength r.x scale).toNat := rfl

theorem scale_y : (r.scale scale).y.toNat = (scaledLength r.y scale).toNat := rfl

theorem scale_width : (r.scale scale).width.toNat = max 1 (scaledLength r.width scale).toNat :=
  toNat_max _ _

theorem scale_height : (r.scale scale).height.toNat = max 1 (scaledLength r.height scale).toNat :=
  toNat_max _ _

variable {r scale} {window : Size} {tilted : Bool}

/-- **The corner of a region** lies within the sides of the window, whatever the scale is. -/
theorem Inside.scale_corner_le (h : r.Inside tilted window) (scale : Float32) :
    (r.scale scale).x.toNat ≤ (window.scale scale).width.toNat ∧
      (r.scale scale).y.toNat ≤ (window.scale scale).height.toNat := by
  have hxy : r.x ≤ window.width ∧ r.y ≤ window.height := by
    simp only [Region.Inside] at h
    simp only [UInt32.le_iff_toNat_le]
    split at h <;> omega
  exact ⟨scaledLength_le_wholePixels hxy.1 scale, scaledLength_le_wholePixels hxy.2 scale⟩

end Region

namespace ScaledWindow

variable {window : Size} {scale : Float32} {r : Region} {tilted : Bool}

/-- **Of a single column nothing is left** at a scale below one. -/
theorem scaledLength_one (h : ScaledWindow window scale) (hroom : (window.scale scale).Fits window)
    (hw : (window.scale scale).width.toNat < 2 ^ 15) (hs : singleValue scale < 1)
    (h1 : 1 ≤ window.width) : (scaledLength 1 scale).toNat = 0 := by
  obtain ⟨-, -, heq, -⟩ := h.horizontal.length h1
  have hn := h.horizontal.nearest (UInt32.le_iff_toNat_le.1 hroom.1) hw h1
  have hgrid : OnGrid .binary32 (((1 : UInt32).toNat : ℚ) * singleValue scale) := by
    simpa using h.horizontal.spec.2.1.onGrid
  rw [heq, hn.eq_of_grid hgrid]
  exact Nat.floor_eq_zero.2 (by simpa using hs)

variable (h : ScaledWindow window scale) (hroom : (window.scale scale).Fits window)
  (hw : (window.scale scale).width.toNat < 2 ^ 15) (hh : (window.scale scale).height.toNat < 2 ^ 15)
include h hroom hw hh

/-- **No region leaves a window that is scaled up.** -/
theorem inside_scale_of_one_le (hs : 1 ≤ singleValue scale) (hr : r.Inside tilted window)
    (hne : r.Nonempty) : (r.scale scale).Inside tilted (window.scale scale) := by
  obtain ⟨hw0, hh0⟩ := hne
  have hfw := UInt32.le_iff_toNat_le.1 hroom.1
  have hfh := UInt32.le_iff_toNat_le.1 hroom.2
  have hwx := fun l (hl : l ≤ window.width) => h.horizontal.le_scaledLength hfw hw hs hl
  have hwy := fun l (hl : l ≤ window.height) => h.vertical.le_scaledLength hfh hh hs hl
  have hax := fun a b c => h.horizontal.add_le hfw hw hs (a := a) (b := b) (c := c)
  have hay := fun a b c => h.vertical.add_le hfh hh hs (a := a) (b := b) (c := c)
  simp only [UInt32.le_iff_toNat_le] at hwx hwy
  unfold Region.Inside at hr ⊢
  rw [r.scale_x, r.scale_y, r.scale_width, r.scale_height]
  cases tilted with
  | true =>
    rw [if_pos rfl] at hr ⊢
    obtain ⟨h1, h2, h3⟩ := hr
    have hmono := h.horizontal.scaledLength_mono (UInt32.le_iff_toNat_le.2 h1)
      (UInt32.le_iff_toNat_le.2 (by omega : r.x.toNat ≤ _))
    have := hwx r.width (by omega)
    have := hwx r.height (by omega)
    have := hax r.x r.width 0 h2
    have := hay r.y r.width r.height h3
    omega
  | false =>
    rw [if_neg Bool.false_ne_true] at hr ⊢
    obtain ⟨h1, h2⟩ := hr
    have := hwx r.width (by omega)
    have := hwy r.height (by omega)
    have := hax r.x r.width 0 h1
    have := hay r.y r.height 0 h2
    omega

/-- **Regions in a window that is scaled down** have no more pixels than before, but may lose the
column between a topmost corner and the left border. -/
theorem inside_scale_of_lt_one (hs : singleValue scale < 1) (hr : r.Inside tilted window)
    (hne : r.Nonempty) :
    (r.scale scale).Inside tilted (window.scale scale) ↔ ¬(tilted = true ∧ r.x = 1) := by
  obtain ⟨hw0, hh0⟩ := hne
  have hfw := UInt32.le_iff_toNat_le.1 hroom.1
  have hfh := UInt32.le_iff_toNat_le.1 hroom.2
  have hlx := fun l (hl : l ≤ window.width) => h.horizontal.scaledLength_le hfw hw hs.le hl
  have hly := fun l (hl : l ≤ window.height) => h.vertical.scaledLength_le hfh hh hs.le hl
  simp only [UInt32.le_iff_toNat_le] at hlx hly
  unfold Region.Inside at hr ⊢
  rw [r.scale_x, r.scale_y, r.scale_width, r.scale_height]
  cases tilted with
  | true =>
    rw [if_pos rfl] at hr ⊢
    obtain ⟨h1, h2, h3⟩ := hr
    have hx : r.x ≤ window.width := UInt32.le_iff_toNat_le.2 (by omega)
    obtain ⟨-, h0, heq, -⟩ := h.horizontal.length hx
    have hn := h.horizontal.nearest hfw hw hx
    have := hlx r.x (by omega)
    have := hlx r.width (by omega)
    have := hlx r.height (by omega)
    have := hly r.y (by omega)
    by_cases hone : r.x = 1
    · rw [hone] at hx
      have hz := h.scaledLength_one hroom hw hs hx
      simp only [hone, and_self, not_true_eq_false, iff_false]
      omega
    · have hone' : r.x.toNat ≠ 1 := fun hc => hone (UInt32.toNat_inj.1 hc)
      have hge : 1 ≤ (scaledLength r.x scale).toNat := by
        have hhalf := h.horizontal.half_le_scale hfw hw
        have htwo : (2 : ℚ) ≤ r.x.toNat := by exact_mod_cast (by omega : 2 ≤ r.x.toNat)
        rw [heq, Nat.le_floor_iff h0]
        exact hn.le_of_ge (OnGrid.of_nat (by decide)) (by push_cast; nlinarith)
      have hmono := h.horizontal.scaledLength_mono (UInt32.le_iff_toNat_le.2 h1) hx
      simp only [hone, and_false, not_false_eq_true, iff_true]
      omega
  | false =>
    rw [if_neg Bool.false_ne_true] at hr ⊢
    obtain ⟨h1, h2⟩ := hr
    have := hlx r.x (by omega)
    have := hlx r.width (by omega)
    have := hly r.y (by omega)
    have := hly r.height (by omega)
    simp only [Bool.false_eq_true, false_and, not_false_eq_true, iff_true]
    omega

/-- **Which regions stay inside of a window** when it is scaled. -/
theorem inside_scale_iff (hr : r.Inside tilted window) (hne : r.Nonempty) :
    (r.scale scale).Inside tilted (window.scale scale) ↔
      ¬(tilted = true ∧ r.x = 1 ∧ Float32.lt scale 1 = true) := by
  have hlt := lt_single_iff h.horizontal.spec.2.1 one_single.1
  rw [one_single.2] at hlt
  rw [hlt]
  rcases lt_or_ge (singleValue scale) 1 with hs | hs
  · simp only [h.inside_scale_of_lt_one hroom hw hh hs hr hne, hs, and_true]
  · simp only [h.inside_scale_of_one_le hroom hw hh hs hr hne, not_lt.2 hs, and_false,
      not_false_eq_true]

end ScaledWindow

end HaarDetection
