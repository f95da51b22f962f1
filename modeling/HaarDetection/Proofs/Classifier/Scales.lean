import HaarDetection.Proofs.Cascade.Stump

/-!
# Classifiers that had many scales

A classifier keeps what it has worked out for its scale, and works it out again when the scale changes.
All of that is made from what the cascade was trained with and from the scale. So what is left of the
scales before the last one is nothing, and what was trained is left as it was.

* `Cascade.rescale_unscaled`: a cascade is scaled from what it was trained as.
* `Classifier.afterScales_keeps`: **no scale changes what was trained.**
* `Classifier.afterScales_last`: **only the last scale counts.**
-/

namespace HaarDetection

variable {α : Type} [Scalar α] (s : Float32) (i : α)

theorem Feature.rescale_unscaled (f : Feature α) : f.unscaled.rescale s i = f.rescale s i := by
  simp only [Feature.rescale, Feature.unscaled, FeatureRect.rescaleRegion, List.map_map,
    Function.comp_def]
  rfl

theorem Node.rescale_unscaled (n : Node α) : n.unscaled.rescale s i = n.rescale s i := by
  simp only [Node.rescale, Node.unscaled, Feature.rescale_unscaled]

theorem Stage.rescale_unscaled (st : Stage α) : st.unscaled.rescale s i = st.rescale s i := by
  simp only [Stage.rescale, Stage.unscaled, Tree.rescale, List.map_map, Function.comp_def,
    Node.rescale_unscaled]

/-- **A cascade is scaled from what it was trained as**, whatever scale it has. -/
theorem Cascade.rescale_unscaled (c : Cascade α) : c.unscaled.rescale s i = c.rescale s i := by
  simp only [Cascade.rescale, Cascade.unscaled, List.map_map, Function.comp_def,
    Stage.rescale_unscaled]

theorem Cascade.hasTilted_rescale (c : Cascade α) : (c.rescale s i).hasTilted = c.hasTilted := by
  unfold Cascade.hasTilted
  rw [Cascade.features_rescale, List.any_map]
  rfl

theorem not_zero_of_pos {x : Float32} (h : Float32.lt 0 x = true) :
    ¬∃ z, x.toModel.unpack = .zero z := by
  rintro ⟨z, hz⟩
  have hx : FiniteSingle x ∧ singleValue x = 0 := by
    rw [FiniteSingle, singleValue, hz]
    exact ⟨trivial, rfl⟩
  have h0 : FiniteSingle 0 ∧ singleValue 0 = 0 := ⟨trivial, rfl⟩
  have hlt := (lt_single_iff h0.1 hx.1).1 h
  rw [h0.2, hx.2] at hlt
  exact lt_irrefl 0 hlt

namespace Classifier

/-- To scale a cascade is to scale it from what it was trained as. -/
theorem atScale_unscaled (c : Cascade α) (scale : Float32) :
    atScale c.unscaled scale = atScale c scale := by
  simp only [atScale, Cascade.rescale_unscaled]
  rfl

/-- **The classifier of a cascade after some scales**, that were set one after another. -/
def afterScales (c : Cascade α) (scales : List Float32) : Classifier α :=
  scales.foldl setScale (ofCascade c)

/-- **No scale changes what was trained:** no region and weight, no threshold, value or link of a node,
no threshold and link of a stage, and not whether there are tilted features. -/
theorem afterScales_keeps (c : Cascade α) (scales : List Float32) :
    (afterScales c scales).cascade.unscaled = c.unscaled ∧
      (afterScales c scales).cascade.hasTilted = c.hasTilted := by
  obtain ⟨scale, hscale⟩ := exists_foldl_setScale (α := α) scales
  rw [afterScales, hscale, cascade_atScale]
  exact ⟨Cascade.unscaled_rescale scale _ c, Cascade.hasTilted_rescale scale _ c⟩

/-- **Only the last scale counts**, if it is above zero. A classifier of a cascade that has been scaled
somehow, and that had whatever scales before, is the one of the cascade as it was trained, set to this
scale once: with this scale, and with the window, the regions and the weights that come of it. All the
while nothing that was trained changes. -/
theorem afterScales_last (c : Cascade α) (earlier : List Float32) {last : Float32}
    (hpos : Float32.lt 0 last = true) :
    afterScales c (earlier ++ [last]) = (ofCascade c.unscaled).setScale last ∧
    afterScales c (earlier ++ [last]) =
      { cascade := c.unscaled.rescale last (Scalar.ofSingle (inverseAreaAt c.window last))
        scale := last
        inverseArea := inverseAreaAt c.window last } ∧
    (afterScales c (earlier ++ [last])).windowSize = c.window.scale last ∧
    ∀ scales, (afterScales c scales).cascade.unscaled = c.unscaled ∧
      (afterScales c scales).cascade.hasTilted = c.hasTilted := by
  have hnot := not_zero_of_pos hpos
  have hlast : afterScales c (earlier ++ [last]) = atScale c last := by
    obtain ⟨scale, hscale⟩ := exists_foldl_setScale (α := α) earlier
    rw [afterScales, List.foldl_append, hscale]
    exact setScale_of_not_zero hnot
  have hfresh : (ofCascade c.unscaled).setScale last = atScale c last := by
    rw [← atScale_unscaled c last]
    exact setScale_of_not_zero hnot
  rw [hlast, hfresh]
  refine ⟨rfl, ?_, rfl, afterScales_keeps c⟩
  rw [Cascade.rescale_unscaled]
  rfl

/-- A classifier that was larger, stayed so, and shrank before it got its last scale. -/
theorem afterScales_last_edge : Float32.lt 0 1.5 = true ∧
    afterScales edge [2, 2, 0.5, 1.5] = (ofCascade edge.unscaled).setScale 1.5 := by
  have hpos : Float32.lt 0 1.5 = true := by decide +kernel
  exact ⟨hpos, (afterScales_last edge [2, 2, 0.5] hpos).1⟩

end Classifier

end HaarDetection
