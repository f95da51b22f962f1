import Mathlib
import HaarDetection.Proofs.Cascade.Stump
import HaarDetection.Proofs.Classifier.Variance

/-!
# Brightness does not matter

A feature compares the pixels of its rectangles. As the weighted areas cancel out at every scale, what
is added to all pixels of an image cancels out, too: with exact numbers a brighter image has the same
features, the same variances and the same verdicts.

* `Feature.weightedArea_rescale`: **the weighted areas of a scaled feature cancel out.**
* `Brighter`: an image with something added to all of its pixels.
* `Brighter.valueOn`: a scaled feature has the same value in a brighter image.
* `Brighter.variance`: so has the variance of a window.
* `Classifier.brightness_invariance`: **a brighter image is judged the same.**
-/

namespace HaarDetection

/-- **An image with `b` added to all of its pixels.** -/
structure Brighter (b : ℤ) (p p' : Pixels) : Prop where
  size_eq : p'.size = p.size
  pixel_eq : ∀ i < p.width, ∀ j < p.height, (p'.pixel i j : ℤ) = p.pixel i j + b

variable {p p' : Pixels} {b : ℤ} {f : Feature ℝ} {scale : Float32} {inverseArea : ℝ} {x y : ℕ}

namespace Feature

theorem weightedArea_eq (rects : List (FeatureRect ℝ)) :
    weightedArea rects = (rects.map fun r => r.area * r.scaledWeight).sum :=
  Scalar.sum_real _

/-- The sides of a scaled region keep a pixel at least, so its area is not zero. -/
theorem area_rescaleRegion_ne_zero (r : FeatureRect ℝ) : (r.rescaleRegion scale).area ≠ 0 := by
  have hw : 0 < (r.region.scale scale).width.toNat := by
    rw [Region.scale_width]
    exact lt_of_lt_of_le one_pos (le_max_left _ _)
  have hh : 0 < (r.region.scale scale).height.toNat := by
    rw [Region.scale_height]
    exact lt_of_lt_of_le one_pos (le_max_left _ _)
  unfold FeatureRect.area
  rw [Scalar.ofNat_real, Scalar.ofNat_real]
  exact mul_ne_zero (Nat.cast_ne_zero.2 hw.ne') (Nat.cast_ne_zero.2 hh.ne')

/-- **The weighted areas of a scaled feature cancel out.** -/
theorem weightedArea_rescale (f : Feature ℝ) (scale : Float32) (inverseArea : ℝ) :
    weightedArea (f.rescale scale inverseArea).rects = 0 := by
  set r := f.reference.rescaleRegion scale
  set others := (f.rescale scale inverseArea).others
  have harea : r.area ≠ 0 := area_rescaleRegion_ne_zero f.reference
  have hweight : (f.rescale scale inverseArea).reference.scaledWeight = -weightedArea others / r.area :=
    rfl
  have hsame : (f.rescale scale inverseArea).reference.area = r.area := rfl
  calc weightedArea (f.rescale scale inverseArea).rects
      = r.area * (-weightedArea others / r.area) + weightedArea others := by
        rw [weightedArea_eq, weightedArea_eq, rects, List.map_cons, List.sum_cons, hweight, hsame,
          weightedArea_eq]
    _ = 0 := by
        rw [mul_div_cancel₀ _ harea]
        exact neg_add_cancel _

/-- How often a pixel of a rectangle's sides is counted: a tilted rectangle has twice as many pixels as
its sides tell. -/
def multiplicity (f : Feature ℝ) : ℕ := if f.tilted then 2 else 1

theorem card_covered_queryAt {image : Size} {r : FeatureRect ℝ}
    (h : (r.scaledRegion.queryAt f.tilted x y).Inside image) :
    ((r.scaledRegion.queryAt f.tilted x y).covered.card : ℝ) = f.multiplicity * r.area := by
  rw [Query.card_covered h]
  unfold multiplicity FeatureRect.area Region.queryAt
  cases f.tilted with
  | true => simp
  | false => simp

/-- **The value of a feature** as a sum over its rectangles. -/
theorem valueOn_eq (f : Feature ℝ) (p : Pixels) (x y : ℕ) :
    f.valueOn p x y = (f.rects.map fun r => (r.pixelSum f.tilted p x y : ℝ) * r.scaledWeight).sum := by
  unfold valueOn
  rw [Scalar.zero_real, List.sum_eq_foldl, List.foldl_map]
  rfl

/-- **A scaled feature is zero where all pixels are the same.** -/
theorem valueOn_of_constant {k : ℕ} (hf : f.InImage p.size x y) (hzero : weightedArea f.rects = 0)
    (h : ∀ i < p.width, ∀ j < p.height, p.pixel i j = k) : f.valueOn p x y = 0 := by
  have hterm : ∀ r ∈ f.rects, (r.pixelSum f.tilted p x y : ℝ) * r.scaledWeight =
      k * f.multiplicity * (r.area * r.scaledWeight) := by
    intro r hr
    have hsum : r.pixelSum f.tilted p x y = k * (r.scaledRegion.queryAt f.tilted x y).covered.card :=
      Query.pixelSum_of_constant (r.scaledRegion.queryAt_kind_ne f.tilted x y) (hf r hr) h
    rw [hsum]
    push_cast
    rw [card_covered_queryAt (hf r hr)]
    ring
  rw [valueOn_eq, List.map_congr_left hterm, List.sum_map_mul_left, ← weightedArea_eq, hzero, mul_zero]

end Feature

/-- **A variance does not change** when something is added to all values. -/
theorem Classifier.variance_add (n : ℕ) (sum squares b : ℝ) :
    variance n (sum + b * n) (squares + 2 * b * sum + b ^ 2 * n) = variance n sum squares := by
  rw [variance_real, variance_real]
  by_cases hn : (n : ℝ) = 0
  · rw [hn]
    simp
  · field_simp
    ring

namespace Brighter

variable (h : Brighter b p p')
include h

/-- **What is added to all pixels cancels out** in a feature whose weighted areas do. -/
theorem valueOn (hf : f.InImage p.size x y) (hzero : Feature.weightedArea f.rects = 0) :
    f.valueOn p' x y = f.valueOn p x y := by
  have hterm : ∀ r ∈ f.rects, (r.pixelSum f.tilted p' x y : ℝ) * r.scaledWeight =
      r.pixelSum f.tilted p x y * r.scaledWeight +
        b * f.multiplicity * (r.area * r.scaledWeight) := by
    intro r hr
    have hsum : r.pixelSum f.tilted p' x y =
        r.pixelSum f.tilted p x y + b * (r.scaledRegion.queryAt f.tilted x y).covered.card :=
      Query.pixelSum_brighter (r.scaledRegion.queryAt_kind_ne f.tilted x y) (hf r hr) h.pixel_eq
    rw [hsum]
    push_cast
    rw [Feature.card_covered_queryAt (hf r hr)]
    ring
  calc f.valueOn p' x y
      = (f.rects.map fun r => (r.pixelSum f.tilted p x y : ℝ) * r.scaledWeight +
          b * f.multiplicity * (r.area * r.scaledWeight)).sum := by
        rw [Feature.valueOn_eq, List.map_congr_left hterm]
    _ = f.valueOn p x y + b * f.multiplicity * Feature.weightedArea f.rects := by
        rw [List.sum_map_add, List.sum_map_mul_left, Feature.valueOn_eq, Feature.weightedArea_eq]
    _ = f.valueOn p x y := by rw [hzero, mul_zero, add_zero]

variable {w : Rect} (hw : w.InImage p.size)
include hw

/-- **The variance of a window** is the same in a brighter image. -/
theorem variance :
    Classifier.variance w.area (Scalar.ofInt (Classifier.windowSum .sum p' w) : ℝ)
        (Scalar.ofInt (Classifier.windowSum .squares p' w)) =
      Classifier.variance w.area (Scalar.ofInt (Classifier.windowSum .sum p w) : ℝ)
        (Scalar.ofInt (Classifier.windowSum .squares p w)) := by
  have hsum : Classifier.windowSum .sum p' w =
      Classifier.windowSum .sum p w + b * (w.width.toNat * w.height.toNat) := by
    have hin : (Classifier.windowQuery .sum w w.left.toNat w.top.toNat).Inside p.size :=
      Classifier.inside_windowQuery nofun hw
    unfold Classifier.windowSum
    rw [Query.pixelSum_brighter (by simp [Classifier.windowQuery]) hin h.pixel_eq,
      Query.card_covered hin]
    simp [Classifier.windowQuery]
  have hsquares : Classifier.windowSum .squares p' w =
      Classifier.windowSum .squares p w + 2 * b * Classifier.windowSum .sum p w
        + b ^ 2 * (w.width.toNat * w.height.toNat) :=
    Query.pixelSum_squares_brighter (Classifier.inside_windowQuery nofun hw) h.pixel_eq
  have harea : (w.area : ℝ) = w.width.toNat * w.height.toNat := Nat.cast_mul _ _
  rw [hsum, hsquares]
  simp only [Scalar.ofInt_real]
  push_cast
  rw [← harea]
  exact Classifier.variance_add _ _ _ _

theorem deviationOn : Classifier.deviationOn ℝ p' w = Classifier.deviationOn ℝ p w := by
  unfold Classifier.deviationOn Classifier.deviationOf
  rw [h.variance hw]

end Brighter

namespace Classifier

/-- **A brighter image is judged the same** by a classifier all regions of which lie in the window. -/
theorem rejectingStage_brighter (h : Brighter b p p') {c : Cascade ℝ} {cl : Classifier ℝ} {w : Rect}
    (hcl : cl.cascade = c.rescale scale inverseArea)
    (hin : ∀ f ∈ cl.cascade.features, ∀ r ∈ f.rects, r.scaledRegion.Inside f.tilted w.size) :
    (cl.rejectingStage p'.size w).resultOn ((IntegralImage.ofPixels p').source ℝ).answer =
      (cl.rejectingStage p.size w).resultOn ((IntegralImage.ofPixels p).source ℝ).answer := by
  cases hpos : cl.position? p.size w with
  | none =>
    -- no query is made for a window without a position
    unfold rejectingStage
    rw [h.size_eq, hpos]
    rfl
  | some position =>
    obtain ⟨hw, hfits, -⟩ := inImage_of_position? hpos
    have hw' : w.InImage p'.size := h.size_eq.symm ▸ hw
    have himage : ∀ f ∈ cl.cascade.features, f.InImage p.size w.left.toNat w.top.toNat :=
      fun f hf => Feature.inImage_of_inside hw (hin f hf)
    have himage' : ∀ f ∈ cl.cascade.features, f.InImage p'.size w.left.toNat w.top.toNat :=
      fun f hf => Feature.inImage_of_inside hw' (hin f hf)
    refine rejectingStage_ofPixels_congr hw' hw hfits hfits himage' himage (h.deviationOn hw) ?_
    intro f hf
    refine h.valueOn (himage f hf) ?_
    rw [hcl, Cascade.features_rescale] at hf
    obtain ⟨f₀, -, rfl⟩ := List.mem_map.1 hf
    exact Feature.weightedArea_rescale f₀ scale inverseArea

/-- **Brightness does not matter**, when numbers are not rounded. At every scale, and whatever the
weights are multiplied with, the weighted areas of a feature cancel out. Where its rectangles lie in the
image it therefore has the same value in a brighter image, and is zero where all pixels are the same.
A window has the same variance in a brighter image, and is rejected by the same stage of a cascade
all rectangles of which lie in the window. -/
theorem brightness_invariance (scale : Float32) (inverseArea : ℝ) (h : Brighter b p p') :
    (∀ f : Feature ℝ, Feature.weightedArea (f.rescale scale inverseArea).rects = 0) ∧
    (∀ (f : Feature ℝ) (x y : ℕ), (f.rescale scale inverseArea).InImage p.size x y →
      ∃ v : ℝ,
        (((f.rescale scale inverseArea).sum x y).run ((IntegralImage.ofPixels p).source ℝ)).result
          = .ok v ∧
        (((f.rescale scale inverseArea).sum x y).run ((IntegralImage.ofPixels p').source ℝ)).result
          = .ok v ∧
        ∀ k : ℕ, (∀ i < p.width, ∀ j < p.height, p.pixel i j = k) → v = 0) ∧
    (∀ w : Rect, w.InImage p.size → ∃ sum squares sum' squares' d : ℝ,
      ((IntegralImage.ofPixels p).source ℝ).answer (windowQuery .sum w w.left.toNat w.top.toNat)
        = .ok sum ∧
      ((IntegralImage.ofPixels p).source ℝ).answer (windowQuery .squares w w.left.toNat w.top.toNat)
        = .ok squares ∧
      ((IntegralImage.ofPixels p').source ℝ).answer (windowQuery .sum w w.left.toNat w.top.toNat)
        = .ok sum' ∧
      ((IntegralImage.ofPixels p').source ℝ).answer (windowQuery .squares w w.left.toNat w.top.toNat)
        = .ok squares' ∧
      variance w.area sum' squares' = variance w.area sum squares ∧
      ((deviation w).run ((IntegralImage.ofPixels p).source ℝ)).result = .ok d ∧
      ((deviation w).run ((IntegralImage.ofPixels p').source ℝ)).result = .ok d) ∧
    ∀ (c : Cascade ℝ) (cl : Classifier ℝ) (w : Rect), cl.cascade = c.rescale scale inverseArea →
      (∀ f ∈ cl.cascade.features, ∀ r ∈ f.rects, r.scaledRegion.Inside f.tilted w.size) →
      ((cl.rejectingStage p'.size w).run ((IntegralImage.ofPixels p').source ℝ)).result =
        ((cl.rejectingStage p.size w).run ((IntegralImage.ofPixels p).source ℝ)).result ∧
      (c.Accepted → ∃ stage,
        ((cl.rejectingStage p.size w).run ((IntegralImage.ofPixels p).source ℝ)).result = .ok stage) := by
  refine ⟨fun f => Feature.weightedArea_rescale f scale inverseArea, ?_, ?_, ?_⟩
  · intro f x y hf
    have hzero := Feature.weightedArea_rescale f scale inverseArea
    have hf' : (f.rescale scale inverseArea).InImage p'.size x y := h.size_eq.symm ▸ hf
    refine ⟨(f.rescale scale inverseArea).valueOn p x y, ?_, ?_, ?_⟩
    · rw [Probe.run_result]
      exact Feature.valueIn_ofPixels hf
    · rw [Probe.run_result, ← h.valueOn hf hzero]
      exact Feature.valueIn_ofPixels hf'
    · intro k hk
      exact Feature.valueOn_of_constant hf hzero hk
  · intro w hw
    have hw' : w.InImage p'.size := h.size_eq.symm ▸ hw
    refine ⟨_, _, _, _, deviationOn ℝ p w,
      IntegralImage.answer_ofPixels (inside_windowQuery nofun hw),
      IntegralImage.answer_ofPixels (inside_windowQuery nofun hw),
      IntegralImage.answer_ofPixels (inside_windowQuery nofun hw'),
      IntegralImage.answer_ofPixels (inside_windowQuery nofun hw'), h.variance hw, ?_, ?_⟩
    · rw [Probe.run_result]
      exact resultOn_deviation_ofPixels hw
    · rw [Probe.run_result, ← h.deviationOn hw]
      exact resultOn_deviation_ofPixels hw'
  · intro c cl w hcl hin
    simp only [Probe.run_result]
    refine ⟨rejectingStage_brighter h hcl hin, ?_⟩
    intro hc
    exact exists_rejectingStage hc hcl hin

/-- Nine pixels that are brighter by ten than those of another image. -/
def lightKeypad : Pixels := ⟨⟨3, 3⟩, ⟨#[11, 12, 13, 14, 15, 16, 17, 18, 19]⟩, by decide⟩

theorem lightKeypad_brighter : Brighter 10 IntegralImage.keypad lightKeypad where
  size_eq := rfl
  pixel_eq := by decide +kernel

/-- A feature that compares two tilted squares, one below the other. -/
noncomputable def slant : Feature ℝ :=
  ⟨true, ⟨⟨1, 0, 1, 1⟩, 1, ⟨1, 0, 1, 1⟩, 1⟩, [⟨⟨1, 1, 1, 1⟩, -1, ⟨1, 1, 1, 1⟩, -1⟩]⟩

/-- A cascade that looks at this feature. -/
noncomputable def slantCascade : Cascade ℝ :=
  ⟨⟨3, 3⟩, [⟨0, none, none, [[⟨0, ⟨1, none⟩, ⟨-1, none⟩, slant⟩]]⟩]⟩

theorem slantCascade_features : slantCascade.features = [slant] := rfl

theorem slantCascade_accepted : slantCascade.Accepted := by
  refine singleNode_accepted rfl (by decide) rfl ?_
  intro r hr
  simp only [Feature.rects, slant, List.mem_cons, List.not_mem_nil, or_false] at hr
  rcases hr with rfl | rfl
  · exact ⟨by decide, _, rfl⟩
  · exact ⟨by decide, _, rfl⟩

/-- Both squares lie in the window. -/
theorem slant_inside : ∀ r ∈ slant.rects,
    (r.region.scale 1).Inside slant.tilted (⟨0, 0, 3, 3⟩ : Rect).size := by
  intro r hr
  simp only [Feature.rects, slant, List.mem_cons, List.not_mem_nil, or_false] at hr
  rcases hr with rfl | rfl
  · change (Region.scale ⟨1, 0, 1, 1⟩ 1).Inside true ⟨3, 3⟩
    decide +kernel
  · change (Region.scale ⟨1, 1, 1, 1⟩ 1).Inside true ⟨3, 3⟩
    decide +kernel

/-- The brighter keypad is judged as the other one is, and has the same feature. -/
theorem brightness_invariance_keypad :
    Brighter 10 IntegralImage.keypad lightKeypad ∧ slantCascade.Accepted ∧
    (⟨0, 0, 3, 3⟩ : Rect).InImage IntegralImage.keypad.size ∧
    (∃ v : ℝ,
      (((slant.rescale 1 (1 / 9)).sum 0 0).run
        ((IntegralImage.ofPixels IntegralImage.keypad).source ℝ)).result = .ok v ∧
      (((slant.rescale 1 (1 / 9)).sum 0 0).run
        ((IntegralImage.ofPixels lightKeypad).source ℝ)).result = .ok v) ∧
    ∃ stage,
      (((⟨slantCascade.rescale 1 (1 / 9), 1, 1 / 9⟩ : Classifier ℝ).rejectingStage ⟨3, 3⟩ ⟨0, 0, 3, 3⟩).run
        ((IntegralImage.ofPixels IntegralImage.keypad).source ℝ)).result = .ok stage ∧
      (((⟨slantCascade.rescale 1 (1 / 9), 1, 1 / 9⟩ : Classifier ℝ).rejectingStage ⟨3, 3⟩ ⟨0, 0, 3, 3⟩).run
        ((IntegralImage.ofPixels lightKeypad).source ℝ)).result = .ok stage := by
  have hw : (⟨0, 0, 3, 3⟩ : Rect).InImage IntegralImage.keypad.size :=
    ⟨by decide, by decide, by decide, by decide⟩
  have hslant : ∀ r ∈ (slant.rescale 1 (1 / 9)).rects,
      r.scaledRegion.Inside slant.tilted (⟨0, 0, 3, 3⟩ : Rect).size :=
    (Feature.forall_rects_rescale fun r => r.Inside slant.tilted _).2 slant_inside
  have hin : ∀ f ∈ (slantCascade.rescale 1 (1 / 9)).features, ∀ r ∈ f.rects,
      r.scaledRegion.Inside f.tilted (⟨0, 0, 3, 3⟩ : Rect).size := by
    intro f hf
    rw [Cascade.features_rescale, slantCascade_features] at hf
    obtain rfl := List.mem_singleton.1 hf
    exact hslant
  obtain ⟨-, hsum, -, hjudge⟩ := brightness_invariance 1 (1 / 9) lightKeypad_brighter
  obtain ⟨v, hv, hv', -⟩ := hsum slant 0 0 (Feature.inImage_of_inside hw hslant)
  obtain ⟨hsame, hresult⟩ :=
    hjudge slantCascade ⟨slantCascade.rescale 1 (1 / 9), 1, 1 / 9⟩ ⟨0, 0, 3, 3⟩ rfl hin
  obtain ⟨stage, hstage⟩ := hresult slantCascade_accepted
  exact ⟨lightKeypad_brighter, slantCascade_accepted, hw, ⟨v, hv, hv'⟩, stage, hstage,
    hsame.trans hstage⟩

end Classifier

end HaarDetection
