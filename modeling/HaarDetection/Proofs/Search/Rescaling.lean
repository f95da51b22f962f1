import HaarDetection.Classifier
import HaarDetection.Proofs.Cascade.Queries

/-!
# Classifiers from scale to scale

A search keeps one classifier and scales it again and again. What it was scaled to before leaves no
trace, as all regions and weights are computed from those that the cascade was trained with.

* `Cascade.rescale_rescale`: scaling twice is scaling once.
* `Cascade.unscaled_rescale`: scaling leaves what was trained.
* `Classifier.setScale_of_not_zero`: **a classifier at another scale is a fresh one at that scale.**
* `Classifier.exists_foldl_setScale`: a classifier that had many scales is at one of them.
* `Classifier.admitted_of_position`: the queries for scaled regions have coordinates of 32 bits.
* `Classifier.rejectingStage_keeps`: what it takes for a window to be judged.
-/

namespace HaarDetection

variable {α : Type}

variable [Scalar α] (s s' : Float32) (i i' : α)

theorem Feature.rescale_rescale (f : Feature α) :
    (f.rescale s i).rescale s' i' = f.rescale s' i' := by
  simp only [Feature.rescale, FeatureRect.rescaleRegion, List.map_map, Function.comp_def]
  rfl

theorem Node.rescale_rescale (n : Node α) : (n.rescale s i).rescale s' i' = n.rescale s' i' := by
  simp only [Node.rescale, Feature.rescale_rescale]

theorem Tree.rescale_rescale (t : Tree α) :
    (Tree.rescale s i t).rescale s' i' = Tree.rescale s' i' t := by
  simp only [Tree.rescale, List.map_map, Function.comp_def, Node.rescale_rescale]

theorem Stage.rescale_rescale (st : Stage α) :
    (st.rescale s i).rescale s' i' = st.rescale s' i' := by
  simp only [Stage.rescale, List.map_map, Function.comp_def, Tree.rescale_rescale]

/-- **Scaling twice is scaling once.** -/
theorem Cascade.rescale_rescale (c : Cascade α) :
    (c.rescale s i).rescale s' i' = c.rescale s' i' := by
  simp only [Cascade.rescale, List.map_map, Function.comp_def, Stage.rescale_rescale]

theorem Feature.unscaled_rescale (f : Feature α) : (f.rescale s i).unscaled = f.unscaled := by
  simp only [Feature.unscaled, Feature.rescale, List.map_map, Function.comp_def]
  rfl

theorem Node.unscaled_rescale (n : Node α) : (n.rescale s i).unscaled = n.unscaled := by
  simp only [Node.unscaled, Node.rescale, Feature.unscaled_rescale]

theorem Stage.unscaled_rescale (st : Stage α) : (st.rescale s i).unscaled = st.unscaled := by
  simp only [Stage.unscaled, Stage.rescale, Tree.rescale, List.map_map, Function.comp_def,
    Node.unscaled_rescale]

/-- **Scaling leaves what was trained.** -/
theorem Cascade.unscaled_rescale (c : Cascade α) : (c.rescale s i).unscaled = c.unscaled := by
  simp only [Cascade.unscaled, Cascade.rescale, List.map_map, Function.comp_def,
    Stage.unscaled_rescale]

namespace Classifier

variable {c : Cascade α} {s₀ scale : Float32} {image : Size} {window : Rect} {P : Query → Prop}

theorem cascade_atScale (c : Cascade α) (scale : Float32) : (atScale c scale).cascade =
    c.rescale scale (Scalar.ofSingle (inverseAreaAt c.window scale)) := rfl

theorem atScale_atScale : atScale (atScale c s₀).cascade scale = atScale c scale := by
  simp only [atScale, Cascade.rescale_rescale]
  rfl

/-- **A classifier at another scale** is a fresh one at that scale, unless this is a zero. -/
theorem setScale_of_not_zero (h0 : ¬∃ z, scale.toModel.unpack = .zero z) :
    (atScale c s₀).setScale scale = atScale c scale := by
  unfold setScale
  split
  · -- the classifier has been left as it is, which it may be if the scales are the same bit by bit
    rename_i heq
    rcases eq_of_beq_single heq with h | ⟨hz, -⟩
    · rw [h]; rfl
    · exact absurd hz h0
  · exact atScale_atScale

theorem setScale_atScale (h0 : singleValue scale ≠ 0) :
    (atScale c s₀).setScale scale = atScale c scale := by
  refine setScale_of_not_zero ?_
  rintro ⟨z, hz⟩
  exact h0 (by rw [singleValue, hz]; rfl)

/-- Whatever the scale, the classifier is that of the cascade at some scale. -/
theorem exists_setScale (c : Cascade α) (s₀ scale : Float32) :
    ∃ s₁, (atScale c s₀).setScale scale = atScale c s₁ := by
  unfold setScale
  split
  · exact ⟨s₀, rfl⟩
  · exact ⟨scale, atScale_atScale⟩

/-- **Whatever scales a classifier had**, it is that of the cascade at some scale. The scale hangs on
the earlier ones only, not on the cascade. -/
theorem exists_foldl_setScale (earlier : List Float32) :
    ∃ s, ∀ c : Cascade α, earlier.foldl setScale (ofCascade c) = atScale c s := by
  induction earlier using List.reverseRecOn with
  | nil => exact ⟨1, fun _ => rfl⟩
  | append_singleton ss s' ih =>
    obtain ⟨s, hs⟩ := ih
    simp only [List.foldl_append, hs, List.foldl_cons, List.foldl_nil, setScale]
    by_cases heq : (s' == s) = true
    · exact ⟨s, fun c => if_pos heq⟩
    · exact ⟨s', fun c => (if_neg heq).trans atScale_atScale⟩

omit [Scalar α] in
/-- **A window with a position** lies in the image, and has room for the classifier. -/
theorem position?_eq_some {cl : Classifier α} {x y : ℕ} (h : cl.position? image window = some (x, y)) :
    window.left = x ∧ window.top = y ∧ window.right ≤ image.width.toNat ∧
      window.bottom ≤ image.height.toNat ∧ window.size.Fits cl.windowSize := by
  unfold position? at h
  split at h
  · rename_i hw
    obtain ⟨h1, h2, h3, h4, h5⟩ := hw
    simp only [Option.some.injEq, Prod.mk.injEq] at h
    exact ⟨by omega, by omega, h3, h4, h5⟩
  · cases h

/-- **The scaled regions of a window with a position** have coordinates of 32 bits, whatever the scale
is. -/
theorem admitted_of_position {x y : ℕ} {r : Region} {tilted : Bool} (hr : r.Inside tilted c.window)
    (hpos : (atScale c scale).position? image window = some (x, y))
    (hP : P ((r.scale scale).queryAt tilted x y)) : (r.scale scale).Admitted P x y tilted := by
  obtain ⟨hl, ht, hright, hbottom, hfits⟩ := position?_eq_some hpos
  obtain ⟨hx, hy⟩ := hr.scale_corner_le scale
  have hw : (c.window.scale scale).width.toNat ≤ window.width.toNat := UInt32.le_iff_toNat_le.1 hfits.1
  have hh : (c.window.scale scale).height.toNat ≤ window.height.toNat :=
    UInt32.le_iff_toNat_le.1 hfits.2
  have hiw := image.width.toNat_lt
  have hih := image.height.toNat_lt
  rw [Rect.right, hl] at hright
  rw [Rect.bottom, ht] at hbottom
  refine ⟨?_, ?_, hP⟩
  · change x + (r.scale scale).x.toNat < 2 ^ 32
    omega
  · change y + (r.scale scale).y.toNat < 2 ^ 32
    omega

/-- The queries for the pixels of a window at `(x, y)`, and for their squares. -/
def windowQuery (kind : QueryKind) (window : Rect) (x y : ℕ) : Query :=
  ⟨kind, x, y, window.width.toNat, window.height.toNat⟩

theorem toNat_toUInt32 {z : Int32} {n : ℕ} (h : z.toInt = n) : z.toUInt32.toNat = n := by
  rw [Int32.toNat_toUInt32_of_le (Int32.le_iff_toInt_le.2 (by rw [h]; exact Int.natCast_nonneg n)),
    Int32.toNatClampNeg, h, Int.toNat_natCast]

theorem deviation_keeps {x y : ℕ} (hx : window.left = x) (hy : window.top = y)
    (hsum : P (windowQuery .sum window x y)) (hsquares : P (windowQuery .squares window x y)) :
    (deviation (α := α) window).Keeps P fun _ => True := by
  unfold deviation
  split
  · trivial
  · simp only [toNat_toUInt32 hx, toNat_toUInt32 hy]
    exact ⟨hsum, fun _ => ⟨hsquares, fun _ => trivial⟩⟩

/-- **What it takes for a window to be judged:** that its own queries and those for all scaled
regions are admitted. -/
theorem rejectingStage_keeps (hc : c.Accepted) {cl : Classifier α} {inverseArea : α}
    (hcl : cl.cascade = c.rescale scale inverseArea)
    (h : ∀ x y, cl.position? image window = some (x, y) →
      P (windowQuery .sum window x y) ∧ P (windowQuery .squares window x y) ∧
        ∀ f ∈ c.features, ∀ r ∈ f.rects, (r.region.scale scale).Admitted P x y f.tilted) :
    (cl.rejectingStage image window).Keeps P fun _ => True := by
  unfold rejectingStage
  split
  · trivial
  · rename_i x y hpos
    obtain ⟨hsum, hsquares, hregions⟩ := h x y hpos
    obtain ⟨hx, hy, -⟩ := position?_eq_some hpos
    refine (deviation_keeps hx hy hsum hsquares).bind ?_
    intro deviation _
    rw [hcl]
    exact hc.firstRejecting_keeps hregions deviation 0

theorem accepts_keeps (hc : c.Accepted)
    (h : ∀ x y, (atScale c scale).position? image window = some (x, y) →
      P (windowQuery .sum window x y) ∧ P (windowQuery .squares window x y) ∧
        ∀ f ∈ c.features, ∀ r ∈ f.rects, (r.region.scale scale).Admitted P x y f.tilted) :
    ((atScale c scale).accepts image window).Keeps P fun _ => True :=
  (rejectingStage_keeps hc (cascade_atScale c scale) h).bind fun _ _ => trivial

end Classifier

end HaarDetection
