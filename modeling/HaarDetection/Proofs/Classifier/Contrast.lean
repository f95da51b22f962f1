import Mathlib
import HaarDetection.Proofs.Cascade.Stump
import HaarDetection.Proofs.Classifier.Variance
import HaarDetection.Proofs.Image.Contrast

/-!
# What contrast does to a verdict

With more contrast the features of a window grow, and so does its deviation. A stage multiplies its own
threshold with the deviation, but what it compares with it is a sum of values that trees end with, which
do not grow. The nodes compare features, which grow, with thresholds that are not multiplied. So an
image with more contrast is judged as the image itself is by a cascade with other thresholds. That is
the same verdict where all thresholds are zero, and otherwise need not be.

* `Cascade.forContrast`: **the cascade with other thresholds**, those of nodes divided and those of
  stages multiplied.
* `Multiplies.trace_firstRejecting`: what some stages make of answers that are multiplied.
* `Amplified.deviationOn`: the deviation of a window is multiplied.
* `Classifier.contrast_verdict`: **an image with more contrast is judged** as by other thresholds.
* `Classifier.contrast_matters`: a window that is accepted, and is rejected with twice the contrast.
-/

namespace HaarDetection

variable {k : ℕ} {answer answer' : Query → Except Fault ℝ} {x y : ℕ}

/-- The node whose threshold is divided. -/
noncomputable def Node.forContrast (k : ℕ) (n : Node ℝ) : Node ℝ :=
  { n with threshold := n.threshold / k }

/-- The tree with the thresholds of all nodes divided. -/
noncomputable def Tree.forContrast (k : ℕ) (tree : Tree ℝ) : Tree ℝ := tree.map (·.forContrast k)

/-- The stage with its threshold multiplied, and with those of all nodes divided. -/
noncomputable def Stage.forContrast (k : ℕ) (s : Stage ℝ) : Stage ℝ :=
  { s with threshold := s.threshold * k, trees := s.trees.map (Tree.forContrast k) }

/-- **The cascade with the thresholds of all stages multiplied**, and with those of all nodes divided. -/
noncomputable def Cascade.forContrast (k : ℕ) (c : Cascade ℝ) : Cascade ℝ :=
  { c with stages := c.stages.map (·.forContrast k) }

/-- The classifier with these thresholds. -/
noncomputable def Classifier.forContrast (k : ℕ) (cl : Classifier ℝ) : Classifier ℝ :=
  { cl with cascade := cl.cascade.forContrast k }

/-- **All thresholds are zero**, those of the stages and those of the nodes. -/
def Cascade.Unbiased (c : Cascade ℝ) : Prop :=
  ∀ s ∈ c.stages, s.threshold = 0 ∧ ∀ n ∈ s.nodes, n.threshold = 0

namespace Multiplies

theorem trace_weightedSum (h : Multiplies k answer answer') (r : FeatureRect ℝ) (tilted : Bool) :
    (r.weightedSum tilted x y).trace answer' =
      ((r.weightedSum tilted x y).trace answer).map ((k : ℝ) * ·) := by
  have hkind : (r.query tilted x y).kind ≠ .squares := by
    cases tilted with
    | true => exact nofun
    | false => exact nofun
  unfold FeatureRect.weightedSum
  simp only
  split
  · simp only [Probe.trace, h (r.query tilted x y), QueryKind.term_of_ne hkind, Int.cast_natCast]
    cases answer (r.query tilted x y) with
    | error fault => rfl
    | ok v => simp [Trace.map, Functor.map, Except.map, mul_assoc]
  · rfl

theorem trace_addSums (h : Multiplies k answer answer') (tilted : Bool) (rects : List (FeatureRect ℝ))
    (total : ℝ) :
    (Feature.addSums tilted x y rects (k * total)).trace answer' =
      ((Feature.addSums tilted x y rects total).trace answer).map ((k : ℝ) * ·) := by
  induction rects generalizing total with
  | nil => rfl
  | cons r rest ih =>
    unfold Feature.addSums
    rw [Probe.trace_bind, Probe.trace_bind, h.trace_weightedSum, Trace.andThen_map, Trace.map_andThen]
    congr 1
    funext value
    rw [← mul_add]
    exact ih _

/-- **A feature is multiplied.** -/
theorem trace_sum (h : Multiplies k answer answer') (f : Feature ℝ) :
    (f.sum x y).trace answer' = ((f.sum x y).trace answer).map ((k : ℝ) * ·) := by
  have hsum := h.trace_addSums (x := x) (y := y) f.tilted f.rects 0
  rwa [mul_zero, ← Scalar.zero_real] at hsum

variable (hk : 0 < k)
include hk

/-- **A node compares a multiple** as another one compares the feature itself. -/
theorem trace_choose (h : Multiplies k answer answer') (n : Node ℝ) :
    (n.choose x y).trace answer' = ((n.forContrast k).choose x y).trace answer := by
  have hk' : (0 : ℝ) < k := Nat.cast_pos.2 hk
  unfold Node.choose
  rw [Probe.trace_bind, Probe.trace_bind, h.trace_sum, Trace.andThen_map]
  congr 1
  funext value
  have hlt : Scalar.lt (k * value) n.threshold = Scalar.lt value (n.forContrast k).threshold :=
    decide_eq_decide.2 (lt_div_iff₀' hk').symm
  simp only [Probe.trace, hlt]
  rfl

theorem trace_walk (h : Multiplies k answer answer') (tree : Tree ℝ) (steps index : ℕ) :
    (tree.walk x y steps index).trace answer' =
      ((Tree.forContrast k tree).walk x y steps index).trace answer := by
  induction steps generalizing index with
  | zero => rfl
  | succ steps ih =>
    unfold Tree.walk
    simp only [Tree.forContrast, List.getElem?_map]
    cases tree[index]? with
    | none => rfl
    | some n =>
      -- the same branch is taken, so both walks go on from the same place
      simp only [Option.map_some]
      rw [Probe.trace_bind, Probe.trace_bind, h.trace_choose hk]
      congr 1
      funext branch
      cases branch.child with
      | none => rfl
      | some child => exact ih child

theorem trace_addVotes (h : Multiplies k answer answer') (trees : List (Tree ℝ)) (total : ℝ) :
    (Stage.addVotes x y trees total).trace answer' =
      (Stage.addVotes x y (trees.map (Tree.forContrast k)) total).trace answer := by
  induction trees generalizing total with
  | nil => rfl
  | cons t rest ih =>
    have hlength : (Tree.forContrast k t).length = t.length := List.length_map _
    simp only [List.map_cons, Stage.addVotes, Tree.evaluate, hlength]
    rw [Probe.trace_bind, Probe.trace_bind, h.trace_walk hk]
    congr 1
    funext value
    exact ih _

/-- **A stage compares what does not grow** with a multiple. -/
theorem trace_classify (h : Multiplies k answer answer') (s : Stage ℝ) (deviation : ℝ) :
    (s.classify x y (k * deviation)).trace answer' =
      ((s.forContrast k).classify x y deviation).trace answer := by
  unfold Stage.classify Stage.sum
  rw [Probe.trace_bind, Probe.trace_bind, h.trace_addVotes hk, ← mul_assoc]
  rfl

/-- **What some stages make of answers that are multiplied.** -/
theorem trace_firstRejecting (h : Multiplies k answer answer') (stages : List (Stage ℝ))
    (deviation : ℝ) (index : ℕ) :
    (Cascade.firstRejecting x y (k * deviation) index stages).trace answer' =
      (Cascade.firstRejecting x y deviation index (stages.map (·.forContrast k))).trace answer := by
  induction stages generalizing index with
  | nil => rfl
  | cons s rest ih =>
    simp only [List.map_cons, Cascade.firstRejecting]
    rw [Probe.trace_bind, Probe.trace_bind, h.trace_classify hk]
    congr 1
    funext accepted
    cases accepted with
    | true => exact ih _
    | false => rfl

end Multiplies

namespace Amplified

variable {p p' : Pixels} {w : Rect} (h : Amplified k p p') (hk : 0 < k)
include h

theorem windowSum (kind : QueryKind) :
    Classifier.windowSum kind p' w = kind.term k * Classifier.windowSum kind p w := h.pixelSum _

include hk

theorem not_constant (hw : ¬w.Constant p) : ¬w.Constant p' := by
  rintro ⟨v, hv⟩
  refine hw ⟨v / k, fun c hc => ?_⟩
  rw [← hv c hc, h.pixel, Nat.mul_div_cancel_left _ hk]

/-- **The deviation of a window** that is not constant is multiplied. -/
theorem deviationOn (hw : ¬w.Constant p) :
    Classifier.deviationOn ℝ p' w = k * Classifier.deviationOn ℝ p w := by
  have hvariance : Classifier.variance w.area (Classifier.windowSum .sum p' w : ℝ)
        (Classifier.windowSum .squares p' w) =
      (k : ℝ) ^ 2 * Classifier.variance w.area (Classifier.windowSum .sum p w : ℝ)
        (Classifier.windowSum .squares p w) := by
    rw [Classifier.variance_real, Classifier.variance_real, h.windowSum, h.windowSum]
    simp only [QueryKind.term]
    push_cast
    ring
  rw [Classifier.deviationOn_real hw, Classifier.deviationOn_real (h.not_constant hk hw), hvariance,
    Real.sqrt_mul (sq_nonneg _), Real.sqrt_sq (Nat.cast_nonneg k)]

end Amplified

theorem Cascade.rescale_forContrast (c : Cascade ℝ) (scale : Float32) (inverseArea : ℝ) :
    (c.forContrast k).rescale scale inverseArea = (c.rescale scale inverseArea).forContrast k := by
  simp only [Cascade.rescale, Cascade.forContrast, Stage.rescale, Stage.forContrast, Tree.rescale,
    Tree.forContrast, List.map_map, Function.comp_def]
  rfl

theorem Node.forContrast_of_zero {n : Node ℝ} (h : n.threshold = 0) : n.forContrast k = n := by
  unfold Node.forContrast
  rw [h, zero_div, ← h]

/-- **Where all thresholds are zero**, none of them changes. -/
theorem Cascade.forContrast_of_unbiased {c : Cascade ℝ} (h : c.Unbiased) : c.forContrast k = c := by
  have htree : ∀ s ∈ c.stages, ∀ t ∈ s.trees, Tree.forContrast k t = t := by
    intro s hs t ht
    refine (List.map_congr_left fun n hn => ?_).trans (List.map_id t)
    exact Node.forContrast_of_zero ((h s hs).2 n (List.mem_flatten.2 ⟨t, ht, hn⟩))
  have hstage : ∀ s ∈ c.stages, s.forContrast k = s := by
    intro s hs
    have htrees : s.trees.map (Tree.forContrast k) = s.trees :=
      (List.map_congr_left (htree s hs)).trans (List.map_id s.trees)
    unfold Stage.forContrast
    rw [htrees, (h s hs).1, zero_mul, ← (h s hs).1]
  have hstages : c.stages.map (·.forContrast k) = c.stages :=
    (List.map_congr_left hstage).trans (List.map_id c.stages)
  unfold Cascade.forContrast
  rw [hstages]

namespace Classifier

variable {p p' : Pixels} {w : Rect} {cl : Classifier ℝ}

/-- The other thresholds are there at every scale. -/
theorem foldl_setScale_forContrast (c : Cascade ℝ) (earlier : List Float32) :
    earlier.foldl setScale (ofCascade (c.forContrast k)) =
      (earlier.foldl setScale (ofCascade c)).forContrast k := by
  obtain ⟨scale, hscale⟩ := exists_foldl_setScale (α := ℝ) earlier
  rw [hscale, hscale]
  unfold atScale
  simp only [Cascade.rescale_forContrast]
  rfl

/-- **An image with more contrast is judged** as the image is by other thresholds. -/
theorem trace_rejectingStage_amplified (h : Amplified k p p') (hk : 0 < k) (hw : ¬w.Constant p)
    (cl : Classifier ℝ) :
    (cl.rejectingStage p'.size w).trace ((IntegralImage.ofPixels p').source ℝ).answer =
      ((cl.forContrast k).rejectingStage p.size w).trace
        ((IntegralImage.ofPixels p).source ℝ).answer := by
  have hposition : (cl.forContrast k).position? p.size w = cl.position? p.size w := rfl
  unfold rejectingStage
  rw [h.size_eq, hposition]
  cases hpos : cl.position? p.size w with
  | none => rfl
  | some position =>
    -- the deviation that the stages get is multiplied, and so are all answers
    obtain ⟨hin, -⟩ := inImage_of_position? hpos
    have hin' : w.InImage p'.size := h.size_eq.symm ▸ hin
    simp only
    rw [Probe.trace_bind_of_ok (trace_deviation_ofPixels hin),
      Probe.trace_bind_of_ok (trace_deviation_ofPixels hin'), h.deviationOn hk hw,
      (h.multiplies hk).trace_firstRejecting hk]
    rfl

/-- **What contrast does to a verdict**, when numbers are not rounded. Take an image and one with `k`
times its contrast, and a window that is not of constant intensity. The deviation of the window and all
features are multiplied with `k`. The window is judged in the image with more contrast as it is in the
other one by the cascade with the thresholds of all nodes divided by `k` and those of all stages
multiplied with it, at the same scale and with the same faults. So it is judged the same in both images
when all thresholds are zero. -/
theorem contrast_verdict (hk : 0 < k) (h : Amplified k p p') (hw : ¬w.Constant p) (c : Cascade ℝ)
    (earlier : List Float32) (hcl : cl = earlier.foldl setScale (ofCascade c)) :
    (w.InImage p.size → ∃ d : ℝ, 0 < d ∧
      ((deviation w).run ((IntegralImage.ofPixels p).source ℝ)).result = .ok d ∧
      ((deviation w).run ((IntegralImage.ofPixels p').source ℝ)).result = .ok (k * d)) ∧
    (∀ (f : Feature ℝ) (x y : ℕ),
      ((f.sum x y).run ((IntegralImage.ofPixels p').source ℝ)).result =
        ((k : ℝ) * ·) <$> ((f.sum x y).run ((IntegralImage.ofPixels p).source ℝ)).result) ∧
    (cl.rejectingStage p'.size w).run ((IntegralImage.ofPixels p').source ℝ) =
      ((earlier.foldl setScale (ofCascade (c.forContrast k))).rejectingStage p.size w).run
        ((IntegralImage.ofPixels p).source ℝ) ∧
    (c.Unbiased → (cl.rejectingStage p'.size w).run ((IntegralImage.ofPixels p').source ℝ) =
      (cl.rejectingStage p.size w).run ((IntegralImage.ofPixels p).source ℝ)) := by
  have hjudge : (cl.rejectingStage p'.size w).run ((IntegralImage.ofPixels p').source ℝ) =
      ((earlier.foldl setScale (ofCascade (c.forContrast k))).rejectingStage p.size w).run
        ((IntegralImage.ofPixels p).source ℝ) := by
    rw [Probe.run_eq_trace, Probe.run_eq_trace, trace_rejectingStage_amplified h hk hw,
      foldl_setScale_forContrast, hcl]
  refine ⟨?_, ?_, hjudge, ?_⟩
  · intro hin
    have hin' : w.InImage p'.size := h.size_eq.symm ▸ hin
    refine ⟨deviationOn ℝ p w, ?_, ?_, ?_⟩
    · rw [deviationOn_real hw]
      exact Real.sqrt_pos.2 (variance_pos hw)
    · rw [Probe.run_result]
      exact resultOn_deviation_ofPixels hin
    · rw [Probe.run_result, ← h.deviationOn hk hw]
      exact resultOn_deviation_ofPixels hin'
  · intro f x y
    simp only [Probe.run_eq_trace, (h.multiplies hk).trace_sum]
    rfl
  · intro hc
    rw [hjudge, Cascade.forContrast_of_unbiased hc, hcl]

/-- What a stage with one node makes of a window. -/
theorem resultOn_oneNode {v : View ℝ} {f : Feature ℝ} {value : ℝ} (h : f.valueIn v = .ok value)
    (threshold nodeThreshold left right deviation : ℝ) :
    (Cascade.firstRejecting v.x v.y deviation 0 [⟨threshold, none, none,
      [[⟨nodeThreshold, ⟨left, none⟩, ⟨right, none⟩, f⟩]]⟩]).resultOn v.answer =
      .ok (if threshold * deviation ≤ if value < nodeThreshold then left else right then none
        else some 0) := by
  unfold Feature.valueIn at h
  have hchoose : (Node.choose ⟨nodeThreshold, ⟨left, none⟩, ⟨right, none⟩, f⟩ v.x v.y).resultOn
      v.answer = .ok ⟨if value < nodeThreshold then left else right, none⟩ := by
    unfold Node.choose
    rw [Probe.resultOn_bind, h]
    change Except.ok (if decide (value < nodeThreshold) = true then _ else _) = _
    by_cases hlt : value < nodeThreshold <;> simp [hlt]
  set vote := if value < nodeThreshold then left else right
  have htree : (Tree.evaluate [⟨nodeThreshold, ⟨left, none⟩, ⟨right, none⟩, f⟩] v.x v.y).resultOn
      v.answer = .ok vote := by
    change (Probe.bind _ _).resultOn v.answer = _
    rw [Probe.resultOn_bind, hchoose]
    rfl
  have hsum : (Stage.addVotes v.x v.y [[⟨nodeThreshold, ⟨left, none⟩, ⟨right, none⟩, f⟩]]
      Scalar.zero).resultOn v.answer = .ok vote := by
    unfold Stage.addVotes
    rw [Probe.resultOn_bind, htree, Scalar.zero_real]
    exact congrArg Except.ok (zero_add vote)
  unfold Cascade.firstRejecting Stage.classify Stage.sum
  rw [Probe.resultOn_bind, Probe.resultOn_bind, hsum]
  change (if decide (threshold * deviation ≤ vote) = true then _ else _ : Probe ℝ _).resultOn _ = _
  by_cases hle : threshold * deviation ≤ vote <;> simp [hle, Cascade.firstRejecting]

/-- Two columns of pixels, a black one and one beside it. -/
def columns : Pixels := ⟨⟨2, 2⟩, ⟨#[0, 2, 0, 2]⟩, by decide⟩

/-- The same columns with twice the contrast. -/
def strongColumns : Pixels := ⟨⟨2, 2⟩, ⟨#[0, 4, 0, 4]⟩, by decide⟩

theorem columns_amplified : Amplified 2 columns strongColumns where
  size_eq := rfl
  pixel_eq := by decide +kernel

theorem columns_not_constant : ¬(⟨0, 0, 2, 2⟩ : Rect).Constant columns := by
  rintro ⟨v, hv⟩
  have hleft := hv (0, 0) (by decide)
  have hright := hv (1, 0) (by decide)
  have hne : columns.pixel 0 0 ≠ columns.pixel 1 0 := by decide +kernel
  exact hne (hleft.trans hright.symm)

theorem columns_inImage : (⟨0, 0, 2, 2⟩ : Rect).InImage columns.size :=
  ⟨by decide, by decide, by decide, by decide⟩

theorem deviationOn_columns : deviationOn ℝ columns ⟨0, 0, 2, 2⟩ = 1 := by
  have hsum : windowSum .sum columns ⟨0, 0, 2, 2⟩ = 4 := by decide +kernel
  have hsquares : windowSum .squares columns ⟨0, 0, 2, 2⟩ = 8 := by decide +kernel
  have harea : (⟨0, 0, 2, 2⟩ : Rect).area = 4 := rfl
  rw [deviationOn_real columns_not_constant, variance_real, hsum, hsquares, harea]
  norm_num

/-- A feature that compares the right column of a window with the left one. -/
noncomputable def step : Feature ℝ :=
  ⟨false, ⟨⟨0, 0, 1, 2⟩, -1, ⟨0, 0, 1, 2⟩, -1⟩, [⟨⟨1, 0, 1, 2⟩, 1, ⟨1, 0, 1, 2⟩, 1⟩]⟩

/-- A cascade for windows of two pixels a side the only stage of which has the threshold one. -/
noncomputable def stepCascade : Cascade ℝ :=
  ⟨⟨2, 2⟩, [⟨1, none, none, [[⟨0, ⟨-1, none⟩, ⟨1, none⟩, step⟩]]⟩]⟩

theorem stepCascade_accepted : stepCascade.Accepted := by
  refine singleNode_accepted rfl (by decide) rfl ?_
  intro r hr
  simp only [Feature.rects, step, List.mem_cons, List.not_mem_nil, or_false] at hr
  rcases hr with rfl | rfl
  · exact ⟨by decide, _, rfl⟩
  · exact ⟨by decide, _, rfl⟩

/-- The value of the feature at scale one. -/
theorem step_valueOn (p : Pixels) (inverseArea : ℝ) :
    ∃ weight, (step.rescale 1 inverseArea).valueOn p 0 0 =
      (⟨.sum, 0, 0, 1, 2⟩ : Query).pixelSum p * weight +
        (⟨.sum, 1, 0, 1, 2⟩ : Query).pixelSum p * inverseArea := by
  have hleft : Region.scale ⟨0, 0, 1, 2⟩ 1 = ⟨0, 0, 1, 2⟩ := by decide +kernel
  have hright : Region.scale ⟨1, 0, 1, 2⟩ 1 = ⟨1, 0, 1, 2⟩ := by decide +kernel
  refine ⟨(step.rescale 1 inverseArea).reference.scaledWeight, ?_⟩
  change (Scalar.zero + (((Region.scale ⟨0, 0, 1, 2⟩ 1).queryAt false 0 0).pixelSum p : ℝ) * _) +
    (((Region.scale ⟨1, 0, 1, 2⟩ 1).queryAt false 0 0).pixelSum p : ℝ) * (1 * inverseArea) = _
  rw [hleft, hright, Scalar.zero_real, zero_add, one_mul]
  rfl

/-- **What the cascade makes of two columns:** it accepts them when their deviation is at most one. -/
theorem stepCascade_verdict {p : Pixels} (hsize : p.size = ⟨2, 2⟩)
    (hleft : (⟨.sum, 0, 0, 1, 2⟩ : Query).pixelSum p = 0)
    (hright : 0 ≤ (⟨.sum, 1, 0, 1, 2⟩ : Query).pixelSum p) :
    ((ofCascade stepCascade).rejectingStage p.size ⟨0, 0, 2, 2⟩).resultOn
        ((IntegralImage.ofPixels p).source ℝ).answer =
      .ok (if deviationOn ℝ p ⟨0, 0, 2, 2⟩ ≤ 1 then none else some 0) := by
  set inverseArea : ℝ := Scalar.ofSingle (inverseAreaAt ⟨2, 2⟩ 1) with ha
  have hw : (⟨0, 0, 2, 2⟩ : Rect).InImage p.size := by
    rw [hsize]
    exact ⟨by decide, by decide, by decide, by decide⟩
  have hfits : (⟨0, 0, 2, 2⟩ : Rect).size.Fits (ofCascade stepCascade).windowSize := by
    change Size.Fits _ (Size.scale ⟨2, 2⟩ 1)
    decide +kernel
  have hin : (step.rescale 1 inverseArea).InImage p.size 0 0 := by
    refine Feature.inImage_of_inside (w := ⟨0, 0, 2, 2⟩) hw ?_
    refine (Feature.forall_rects_rescale fun r => r.Inside false _).2 ?_
    intro r hr
    simp only [Feature.rects, step, List.mem_cons, List.not_mem_nil, or_false] at hr
    rcases hr with rfl | rfl
    · decide +kernel
    · decide +kernel
  have hpos : 0 ≤ inverseArea := by
    have : 0 ≤ singleValue (inverseAreaAt ⟨2, 2⟩ 1) := by decide +kernel
    exact Rat.cast_nonneg.2 this
  have hvalue : ¬(step.rescale 1 inverseArea).valueOn p 0 0 < 0 := by
    obtain ⟨weight, hvalue⟩ := step_valueOn p inverseArea
    rw [hvalue, hleft, not_lt]
    have hright' : (0 : ℝ) ≤ (⟨.sum, 1, 0, 1, 2⟩ : Query).pixelSum p := Int.cast_nonneg hright
    simpa using mul_nonneg hright' hpos
  have hverdict := resultOn_oneNode (Feature.valueIn_ofPixels hin) 1 0 (-1) 1
    (deviationOn ℝ p ⟨0, 0, 2, 2⟩)
  rw [if_neg hvalue, one_mul] at hverdict
  unfold rejectingStage
  rw [position?_of_inImage hw hfits]
  simp only
  rw [Probe.resultOn_bind, resultOn_deviation_ofPixels hw]
  exact hverdict

/-- **Contrast matters.** The cascade accepts two columns of pixels, and rejects them with twice the
contrast. -/
theorem contrast_matters : stepCascade.Accepted ∧ Amplified 2 columns strongColumns ∧
    (⟨0, 0, 2, 2⟩ : Rect).InImage columns.size ∧
    (⟨0, 0, 2, 2⟩ : Rect).size.Fits (ofCascade stepCascade).windowSize ∧
    ¬(⟨0, 0, 2, 2⟩ : Rect).Constant columns ∧
    (((ofCascade stepCascade).rejectingStage columns.size ⟨0, 0, 2, 2⟩).run
      ((IntegralImage.ofPixels columns).source ℝ)).result = .ok none ∧
    (((ofCascade stepCascade).rejectingStage strongColumns.size ⟨0, 0, 2, 2⟩).run
      ((IntegralImage.ofPixels strongColumns).source ℝ)).result = .ok (some 0) := by
  have hdeviation : deviationOn ℝ strongColumns ⟨0, 0, 2, 2⟩ = 2 := by
    rw [columns_amplified.deviationOn two_pos columns_not_constant, deviationOn_columns]
    norm_num
  refine ⟨stepCascade_accepted, columns_amplified, columns_inImage, ?_, columns_not_constant, ?_, ?_⟩
  · change Size.Fits _ (Size.scale ⟨2, 2⟩ 1)
    decide +kernel
  · rw [Probe.run_result, stepCascade_verdict rfl (by decide +kernel) (by decide +kernel),
      deviationOn_columns, if_pos le_rfl]
  · rw [Probe.run_result, stepCascade_verdict rfl (by decide +kernel) (by decide +kernel),
      hdeviation, if_neg (by norm_num)]

/-- The columns with twice the contrast are judged as the columns are by other thresholds. -/
theorem contrast_verdict_columns : 0 < 2 ∧ Amplified 2 columns strongColumns ∧
    ¬(⟨0, 0, 2, 2⟩ : Rect).Constant columns ∧
    (∃ d : ℝ, 0 < d ∧
      ((deviation ⟨0, 0, 2, 2⟩).run ((IntegralImage.ofPixels columns).source ℝ)).result = .ok d ∧
      ((deviation ⟨0, 0, 2, 2⟩).run ((IntegralImage.ofPixels strongColumns).source ℝ)).result =
        .ok (2 * d)) ∧
    (((([2, 1] : List Float32).foldl setScale (ofCascade stepCascade)).rejectingStage
        strongColumns.size ⟨0, 0, 2, 2⟩).run ((IntegralImage.ofPixels strongColumns).source ℝ)) =
      ((([2, 1] : List Float32).foldl setScale (ofCascade (stepCascade.forContrast 2))).rejectingStage
        columns.size ⟨0, 0, 2, 2⟩).run ((IntegralImage.ofPixels columns).source ℝ) := by
  obtain ⟨hdeviation, -, hjudge, -⟩ := contrast_verdict two_pos columns_amplified columns_not_constant
    stepCascade [2, 1] rfl
  exact ⟨two_pos, columns_amplified, columns_not_constant, hdeviation columns_inImage, hjudge⟩

end Classifier

end HaarDetection
