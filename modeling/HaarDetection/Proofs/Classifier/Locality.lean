import HaarDetection.Proofs.Cascade.Stump
import HaarDetection.Proofs.Classifier.PixelSums

/-!
# Verdicts are local

What a classifier makes of a window that is scaled up hangs on the pixels of the window. Neither the
pixels around the window nor its place in the image nor the size of the image matter.

* `SamePixels`: two windows with the same pixels.
* `SamePixels.valueOn`, `SamePixels.deviationOn`: features and deviations are the same in both.
* `Classifier.setScale_history`: the scales that a classifier had before do not matter, either.
* `Classifier.verdict_of_pixels`: **windows with the same pixels are judged the same**, and no feature
  adds up a pixel outside of its window.
-/

namespace HaarDetection

variable {α : Type} {p p' : Pixels} {w w' : Rect}

/-- **Two windows with the same pixels**, each in an image of its own. -/
structure SamePixels (p : Pixels) (w : Rect) (p' : Pixels) (w' : Rect) : Prop where
  inImage : w.InImage p.size
  inImage' : w'.InImage p'.size
  size_eq : w'.size = w.size
  pixel_eq : ∀ i < w.width.toNat, ∀ j < w.height.toNat,
    p.pixel (w.left.toNat + i) (w.top.toNat + j) = p'.pixel (w'.left.toNat + i) (w'.top.toNat + j)

namespace SamePixels

variable [Scalar α] (h : SamePixels p w p' w')
include h

/-- What is asked for the window, or for a part of it, adds up the same. -/
theorem pixelSum {q : Query} (hq : q.Inside w.size) :
    (q.moved w.left.toNat w.top.toNat).pixelSum p = (q.moved w'.left.toNat w'.top.toNat).pixelSum p' :=
  Query.pixelSum_moved_congr hq h.pixel_eq

/-- **A feature has the same value in both windows.** -/
theorem valueOn {f : Feature α} (hf : ∀ r ∈ f.rects, r.scaledRegion.Inside f.tilted w.size) :
    f.valueOn p w.left.toNat w.top.toNat = f.valueOn p' w'.left.toNat w'.top.toNat := by
  unfold Feature.valueOn
  refine List.foldl_ext _ _ _ ?_
  intro total r hr
  have hsum : r.pixelSum f.tilted p w.left.toNat w.top.toNat =
      r.pixelSum f.tilted p' w'.left.toNat w'.top.toNat :=
    h.pixelSum (Region.inside_query (hf r hr))
  rw [hsum]

/-- **Both windows have the same deviation.** -/
theorem deviationOn : Classifier.deviationOn α p w = Classifier.deviationOn α p' w' := by
  have hw : w'.width = w.width := congrArg Size.width h.size_eq
  have hh : w'.height = w.height := congrArg Size.height h.size_eq
  have hsum : ∀ kind, (⟨kind, 0, 0, w.width.toNat, w.height.toNat⟩ : Query).Inside w.size →
      Classifier.windowSum kind p w = Classifier.windowSum kind p' w' := by
    intro kind hq
    unfold Classifier.windowSum Classifier.windowQuery
    rw [hw, hh]
    exact h.pixelSum hq
  have harea : w'.area = w.area := congrArg Size.pixels h.size_eq
  unfold Classifier.deviationOn
  rw [hsum .sum ⟨by simp [Rect.size], by simp [Rect.size]⟩,
    hsum .squares ⟨by simp [Rect.size], by simp [Rect.size]⟩, harea]

end SamePixels

namespace Classifier

variable [Scalar α] {c : Cascade α} {scale : Float32}

/-- **The scales that a classifier had before** leave no trace. -/
theorem setScale_history (c : Cascade α) (h0 : singleValue scale ≠ 0) (earlier : List Float32) :
    (earlier.foldl setScale (ofCascade c)).setScale scale = atScale c scale := by
  obtain ⟨s₀, hs₀⟩ := exists_foldl_setScale (α := α) earlier
  rw [hs₀, setScale_atScale h0]

section ScaledUp

variable (hc : c.Accepted) (hs : Float32.le 1 scale = true)
  (hsmall : (c.window.scale scale).width.toNat < 2 ^ 15 ∧ (c.window.scale scale).height.toNat < 2 ^ 15)
include hc hs hsmall

/-- **No region leaves the window** of a classifier that is scaled up. -/
theorem inside_scale {f : Feature α} (hf : f ∈ c.features) {r : FeatureRect α} (hr : r ∈ f.rects) :
    (r.region.scale scale).Inside f.tilted (c.window.scale scale) := by
  obtain ⟨hw, hv, hroom⟩ := ScaledWindow.of_one_le hc.window_pos hs hsmall
  exact hw.inside_scale_of_one_le hroom hsmall.1 hsmall.2 hv (hc.inside hf hr) (hc.nonempty hf hr)

theorem inside_atScale : ∀ f ∈ (atScale c scale).cascade.features, ∀ r ∈ f.rects,
    r.scaledRegion.Inside f.tilted (c.window.scale scale) :=
  (Cascade.forall_rects_rescale fun tilted r => r.Inside tilted (c.window.scale scale)).2
    fun _ hf _ hr => inside_scale hc hs hsmall hf hr

omit hc hs hsmall in
/-- **Windows with the same pixels are judged the same** by a classifier all regions of which lie in
the window. -/
theorem rejectingStage_eq {cl : Classifier α} (h : SamePixels p w p' w')
    (hfits : w.size.Fits cl.windowSize)
    (hin : ∀ f ∈ cl.cascade.features, ∀ r ∈ f.rects, r.scaledRegion.Inside f.tilted w.size) :
    (cl.rejectingStage p.size w).resultOn ((IntegralImage.ofPixels p).source α).answer =
      (cl.rejectingStage p'.size w').resultOn ((IntegralImage.ofPixels p').source α).answer := by
  have hin' : ∀ f ∈ cl.cascade.features, ∀ r ∈ f.rects, r.scaledRegion.Inside f.tilted w'.size := by
    rw [h.size_eq]; exact hin
  exact rejectingStage_ofPixels_congr h.inImage h.inImage' hfits (h.size_eq ▸ hfits)
    (fun f hf => Feature.inImage_of_inside h.inImage (hin f hf))
    (fun f hf => Feature.inImage_of_inside h.inImage' (hin' f hf)) h.deviationOn
    fun f hf => h.valueOn (hin f hf)

/-- **Verdicts are local.** Take an accepted cascade and a scale from one on at which its window has
fewer than `2 ^ 15` pixels a side, and let the classifier have had any other scales before. Two windows
with the same pixels, wherever they lie in whatever images, then have the same deviation and are
rejected by the same stage, or by none. The rectangles of the features, upright and tilted ones, add up
pixels of the window only. -/
theorem verdict_of_pixels (earlier : List Float32) {cl : Classifier α}
    (hcl : cl = (earlier.foldl setScale (ofCascade c)).setScale scale) :
    (∀ p w p' w', SamePixels p w p' w' → w.size.Fits cl.windowSize →
      ∃ (d : α) (stage : Option ℕ),
        ((deviation w).run ((IntegralImage.ofPixels p).source α)).result = .ok d ∧
        ((deviation w').run ((IntegralImage.ofPixels p').source α)).result = .ok d ∧
        ((cl.rejectingStage p.size w).run ((IntegralImage.ofPixels p).source α)).result = .ok stage ∧
        ((cl.rejectingStage p'.size w').run ((IntegralImage.ofPixels p').source α)).result =
          .ok stage) ∧
    ∀ f ∈ cl.cascade.features, ∀ r ∈ f.rects, ∀ x y i j, (r.query f.tilted x y).Covers i j →
      (x ≤ i ∧ i < x + cl.windowSize.width.toNat) ∧ y ≤ j ∧ j < y + cl.windowSize.height.toNat := by
  have h0 : singleValue scale ≠ 0 := by
    have := (ScaledWindow.of_one_le hc.window_pos hs hsmall).2.1
    linarith
  rw [hcl, setScale_history c h0 earlier]
  refine ⟨?_, ?_⟩
  · intro p w p' w' h hfits
    have hin : ∀ f ∈ (atScale c scale).cascade.features, ∀ r ∈ f.rects,
        r.scaledRegion.Inside f.tilted w.size :=
      fun f hf r hr => (inside_atScale hc hs hsmall f hf r hr).mono hfits
    obtain ⟨stage, hstage⟩ := exists_rejectingStage hc (cascade_atScale c scale) hin
    refine ⟨deviationOn α p w, stage, ?_, ?_, ?_, ?_⟩
    · rw [Probe.run_result]
      exact resultOn_deviation_ofPixels h.inImage
    · rw [Probe.run_result, h.deviationOn]
      exact resultOn_deviation_ofPixels h.inImage'
    · rw [Probe.run_result]
      exact hstage
    · rw [Probe.run_result]
      exact (rejectingStage_eq h hfits hin).symm.trans hstage
  · intro f hf r hr x y i j hcov
    have hin := Region.inside_query (inside_atScale hc hs hsmall f hf r hr)
    obtain ⟨hi, hj, hlt⟩ := (Query.covers_moved hin).1 hcov
    have := hlt.lt hin
    change (x ≤ i ∧ i < x + (c.window.scale scale).width.toNat) ∧
      y ≤ j ∧ j < y + (c.window.scale scale).height.toNat
    omega

end ScaledUp

/-- Nine pixels in the corner of a larger image. -/
def cornered : Pixels :=
  ⟨⟨4, 4⟩, ⟨#[0, 0, 0, 0, 0, 1, 2, 3, 0, 4, 5, 6, 0, 7, 8, 9]⟩, by decide⟩

theorem samePixels_cornered : SamePixels IntegralImage.keypad ⟨0, 0, 3, 3⟩ cornered ⟨1, 1, 3, 3⟩ where
  inImage := ⟨by decide, by decide, by decide, by decide⟩
  inImage' := ⟨by decide, by decide, by decide, by decide⟩
  size_eq := rfl
  pixel_eq := by decide +kernel

/-- A classifier that has been scaled up, scaled down and scaled up again. -/
def rescaledEdge : Classifier Float :=
  (([2, 0.5] : List Float32).foldl setScale (ofCascade edge)).setScale 1.5

/-- It judges the nine pixels alike in both images. -/
theorem verdict_of_pixels_cornered : edge.Accepted ∧ Float32.le 1 1.5 = true ∧
    edge.window.scale 1.5 = ⟨3, 3⟩ ∧
    SamePixels IntegralImage.keypad ⟨0, 0, 3, 3⟩ cornered ⟨1, 1, 3, 3⟩ ∧
    ∃ (d : Float) (stage : Option ℕ),
      ((deviation ⟨0, 0, 3, 3⟩).run ((IntegralImage.ofPixels IntegralImage.keypad).source Float)).result
        = .ok d ∧
      ((deviation ⟨1, 1, 3, 3⟩).run ((IntegralImage.ofPixels cornered).source Float)).result = .ok d ∧
      ((rescaledEdge.rejectingStage ⟨3, 3⟩ ⟨0, 0, 3, 3⟩).run
        ((IntegralImage.ofPixels IntegralImage.keypad).source Float)).result = .ok stage ∧
      ((rescaledEdge.rejectingStage ⟨4, 4⟩ ⟨1, 1, 3, 3⟩).run
        ((IntegralImage.ofPixels cornered).source Float)).result = .ok stage := by
  have hs : Float32.le 1 1.5 = true := by decide +kernel
  have hwindow : edge.window.scale 1.5 = ⟨3, 3⟩ := by decide +kernel
  refine ⟨edge_accepted, hs, hwindow, samePixels_cornered, ?_⟩
  refine (verdict_of_pixels edge_accepted hs ?_ [2, 0.5] rfl).1 _ _ _ _ samePixels_cornered ?_
  · rw [hwindow]
    decide
  · decide +kernel

end Classifier

end HaarDetection
