import HaarDetection.Proofs.Cascade.Documents
import HaarDetection.Proofs.Cascade.Stump

/-!
# Saving and loading

The text of a cascade is that of its definition, which leaves out what the features were scaled to. So
what is loaded from it is the cascade as it was trained, unless a node has a number that is not finite:
constructors do not look at those, and documents cannot hold them.

* `Cascade.NodesFinite`: the numbers of the nodes are finite.
* `Cascade.InMemory`: a cascade of lists that can be held in memory.
* `Cascade.representable_iff`: what an accepted cascade needs besides to be written.
* `Cascade.toText_congr`: **the text does not depend on the scale.**
* `Cascade.ofText_toText`: **the text of a cascade is read back as the cascade.**
-/

namespace HaarDetection

namespace Cascade

/-- **The numbers of the nodes are finite.** -/
def NodesFinite (c : Cascade Float) : Prop :=
  ∀ s ∈ c.stages, ∀ n ∈ s.nodes,
    n.threshold.isFinite = true ∧ n.left.value.isFinite = true ∧ n.right.value.isFinite = true

/-- A cascade of lists that can be held in memory, where no list is longer than integers with a sign
can count. -/
structure InMemory (c : Cascade Float) : Prop where
  stages : c.stages.length ≤ 2 ^ 63
  trees : ∀ s ∈ c.stages, ∀ t ∈ s.trees, t.length ≤ 2 ^ 63

end Cascade

theorem LinkBetween.fits {first count : ℕ} {n : ℤ} (h : LinkBetween first count n)
    (hc : count ≤ 2 ^ 63) : Numeral.FitsWord n := by
  unfold LinkBetween at h
  unfold Numeral.FitsWord
  omega

/-- A node that is well formed can be written when its numbers are finite. -/
theorem NodeDefinition.WellFormed.representable_iff {d : NodeDefinition} {window : Size}
    {place size : ℕ} (h : d.WellFormed window place size) (hsize : size ≤ 2 ^ 63) :
    d.Representable ↔
      d.threshold.isFinite = true ∧ d.leftValue.isFinite = true ∧ d.rightValue.isFinite = true := by
  have hweights : ∀ x ∈ d.feature.numbers, x.isFinite = true := by
    simp only [FeatureDefinition.numbers, List.forall_mem_map]
    exact fun r hr => (h.feature.rects r hr).weight_finite
  constructor
  · rintro ⟨hnumbers, -, -⟩
    simp only [numbers, List.forall_mem_cons] at hnumbers
    exact ⟨hnumbers.1, hnumbers.2.1, hnumbers.2.2.1⟩
  · rintro ⟨hthreshold, hleft, hright⟩
    refine ⟨?_, h.left.fits hsize, h.right.fits hsize⟩
    simp only [numbers, List.forall_mem_cons]
    exact ⟨hthreshold, hleft, hright, hweights⟩

namespace Cascade

variable {c c' : Cascade Float}

/-- **What an accepted cascade needs besides to be written.** -/
theorem representable_iff (h : c.Accepted) (hmem : c.InMemory) :
    (∀ s ∈ (CascadeDefinition.ofCascade c).stages, s.Representable) ↔ c.NodesFinite := by
  have hwell := (accepted_iff.1 h).stages
  simp only [CascadeDefinition.ofCascade, List.forall_mem_map, List.length_map] at hwell ⊢
  refine forall₂_congr fun s hs => ?_
  -- weights and links are fine already, as the constructors have looked at them
  have hnode : ∀ t ∈ s.trees, ∀ n ∈ t, (NodeDefinition.ofNode n).Representable ↔
      n.threshold.isFinite = true ∧ n.left.value.isFinite = true ∧ n.right.value.isFinite = true := by
    intro t ht n hn
    obtain ⟨i, hi⟩ := List.mem_iff_getElem?.1 hn
    have hnodes := (hwell s hs).nodes _ (List.mem_map_of_mem ht) i (.ofNode n)
      (by rw [List.getElem?_map, hi]; rfl)
    rw [List.length_map] at hnodes
    exact hnodes.representable_iff (hmem.trees s hs t ht)
  simp only [Stage.nodes, List.mem_flatten]
  constructor
  · rintro ⟨-, -, -, hnodes⟩ n ⟨t, ht, hn⟩
    simp only [StageDefinition.ofStage, List.forall_mem_map] at hnodes
    exact (hnode t ht n hn).1 (hnodes t ht n hn)
  · intro hfinite
    refine ⟨(hwell s hs).threshold_finite, (hwell s hs).parent.fits hmem.stages,
      (hwell s hs).next.fits hmem.stages, ?_⟩
    simp only [StageDefinition.ofStage, List.forall_mem_map]
    exact fun t ht n hn => (hnode t ht n hn).2 (hfinite n ⟨t, ht, hn⟩)

/-- **The text does not depend on the scale.** -/
theorem toText_congr (h : c'.unscaled = c.unscaled) : c'.toText = c.toText := by
  have hdef : CascadeDefinition.ofCascade c' = CascadeDefinition.ofCascade c := by
    rw [← CascadeDefinition.ofCascade_unscaled c', h, CascadeDefinition.ofCascade_unscaled]
  rw [toText, hdef, toText]

theorem hasTilted_unscaled (c : Cascade Float) : c.unscaled.hasTilted = c.hasTilted := by
  rw [Bool.eq_iff_iff, CascadeDefinition.hasTilted_iff, CascadeDefinition.hasTilted_iff,
    CascadeDefinition.ofCascade_unscaled]

/-- The definition that is read is the one that was written. -/
theorem read?_toText (c : Cascade Float) : (Json.read? c.toText).bind CascadeDefinition.ofJson? =
    CascadeDefinition.ofJson? (CascadeDefinition.ofCascade c).toJson := by
  rw [toText, Json.read?_text (CascadeDefinition.documents.wellFormed _), Option.bind_some]

/-- What is loaded is the cascade of a definition that can be written. -/
theorem of_ofText {text : String} (h : ofText text = .ok c) :
    (CascadeDefinition.ofCascade c).build = .ok c ∧
      ∀ s ∈ (CascadeDefinition.ofCascade c).stages, s.Representable := by
  unfold ofText at h
  split at h
  · cases h
  · rename_i d hd
    split at h
    · cases h
    · rename_i c' hbuild
      cases h
      obtain ⟨-, hread, -⟩ := (CascadeDefinition.builds.ok_iff d c).1 hbuild
      obtain ⟨json, -, hjson⟩ := Option.bind_eq_some_iff.1 hd
      rw [hread]
      exact ⟨hbuild, CascadeDefinition.documents.sound json d hjson⟩

/-- **A definition that can be written is read back** from the text of its cascade. -/
theorem ofText_toText_of_representable
    (hnumbers : ∀ x ∈ (CascadeDefinition.ofCascade c).numbers, Survives x)
    (hrep : ∀ s ∈ (CascadeDefinition.ofCascade c).stages, s.Representable)
    (hbuild : (CascadeDefinition.ofCascade c).build = .ok c') : ofText c.toText = .ok c' := by
  have hread := (CascadeDefinition.documents.read_iff _ hnumbers _).2 ⟨hrep, rfl⟩
  unfold ofText
  rw [read?_toText, hread]
  simp only [hbuild]

/-- **The text of a cascade is read back as the cascade** as it was trained, if the numbers of the nodes
are finite, and is refused otherwise. It does not depend on the scale. What is taken for granted is that
the finite numbers of this cascade, one by one, are read as what they were written for. -/
theorem ofText_toText (h : c.Accepted) (hmem : c.InMemory)
    (hnumbers : ∀ x ∈ (CascadeDefinition.ofCascade c).numbers, x.isFinite = true → reread? x = some x) :
    ((∃ c', ofText c.toText = .ok c') ↔ c.NodesFinite) ∧
      (c.NodesFinite → ofText c.toText = .ok c.unscaled ∧ c.unscaled.hasTilted = c.hasTilted) ∧
      (¬c.NodesFinite → ofText c.toText = .error .malformed) ∧
      (∀ c' : Cascade Float, c'.unscaled = c.unscaled → c'.toText = c.toText) ∧
      (∀ scale, (Classifier.atScale c scale).cascade.toText = c.toText) ∧
      ∀ text, ofText text = .ok c → ofText c.toText = .ok c := by
  have hloaded : c.NodesFinite → ofText c.toText = .ok c.unscaled := fun hfinite =>
    ofText_toText_of_representable hnumbers ((representable_iff h hmem).2 hfinite) h.build
  have hrefused : ¬c.NodesFinite → ofText c.toText = .error .malformed := by
    intro hfinite
    have hnone : CascadeDefinition.ofJson? (CascadeDefinition.ofCascade c).toJson = none := by
      refine Option.eq_none_iff_forall_ne_some.2 fun d hd => hfinite ?_
      exact (representable_iff h hmem).1 ((CascadeDefinition.documents.read_iff _ hnumbers d).1 hd).1
    unfold ofText
    rw [read?_toText, hnone]
  refine ⟨⟨?_, fun hfinite => ⟨_, hloaded hfinite⟩⟩, fun hfinite => ⟨hloaded hfinite, c.hasTilted_unscaled⟩,
    hrefused, fun c' => toText_congr, fun scale => toText_congr (unscaled_rescale _ _ c), ?_⟩
  · rintro ⟨c', hc'⟩
    by_contra hfinite
    rw [hrefused hfinite] at hc'
    cases hc'
  · intro text htext
    obtain ⟨hbuild, hrep⟩ := of_ofText htext
    exact ofText_toText_of_representable hnumbers hrep hbuild

/-- A cascade of two stages, linked to each other, which begins with a tree of two nodes. -/
def linkedPair : Cascade Float :=
  let bright : Feature Float := ⟨false, plainRect ⟨3, 7, 14, 4⟩ (-1), [plainRect ⟨3, 9, 14, 2⟩ 2]⟩
  let slanted : Feature Float := ⟨true, plainRect ⟨6, 1, 4, 4⟩ (-1), [plainRect ⟨6, 1, 2, 2⟩ 4]⟩
  ⟨⟨20, 20⟩,
    [⟨0.8, none, some 1,
      [[⟨0.004, ⟨0.03, some 1⟩, ⟨0.83, none⟩, bright⟩, ⟨0.01, ⟨-0.5, none⟩, ⟨0.5, none⟩, slanted⟩]]⟩,
    ⟨-0.25, some 0, none, [[⟨1e-7, ⟨-1, none⟩, ⟨1, none⟩, bright⟩]]⟩]⟩

/-- A cascade whose node has no number to compare with. -/
def undecided : Cascade Float :=
  ⟨⟨2, 2⟩, [oneNodeStage (0 / 0) (-1) 1
    ⟨false, plainRect ⟨0, 0, 1, 1⟩ (-1), [plainRect ⟨1, 0, 1, 1⟩ 1]⟩]⟩

/-- The one is read back, at whatever scale it is written. The other one is accepted, but not read. -/
theorem ofText_toText_linkedPair :
    (linkedPair.Accepted ∧ linkedPair.NodesFinite ∧
      ofText (Classifier.atScale linkedPair 2).cascade.toText = .ok linkedPair) ∧
      undecided.Accepted ∧ ¬undecided.NodesFinite ∧ ofText undecided.toText = .error .malformed := by
  have hlinked : linkedPair.Accepted := by
    refine CascadeDefinition.build_accepted (d := CascadeDefinition.ofCascade linkedPair) ?_
    decide +kernel
  have hundecided : undecided.Accepted := by
    refine CascadeDefinition.build_accepted (d := CascadeDefinition.ofCascade undecided) ?_
    decide +kernel
  have hnumbers : ∀ x ∈ (CascadeDefinition.ofCascade linkedPair).numbers,
      x.isFinite = true → reread? x = some x := by
    decide +kernel
  have hnumbers' : ∀ x ∈ (CascadeDefinition.ofCascade undecided).numbers,
      x.isFinite = true → reread? x = some x := by
    decide +kernel
  have hfinite : linkedPair.NodesFinite := by
    unfold NodesFinite
    decide +kernel
  have hnan : ¬undecided.NodesFinite := by
    unfold NodesFinite
    decide +kernel
  obtain ⟨-, hloaded, -, -, hscale, -⟩ := ofText_toText hlinked ⟨by decide, by decide⟩ hnumbers
  obtain ⟨-, -, hrefused, -⟩ := ofText_toText hundecided ⟨by decide, by decide⟩ hnumbers'
  refine ⟨⟨hlinked, hfinite, ?_⟩, hundecided, hnan, hrefused hnan⟩
  rw [hscale 2]
  exact (hloaded hfinite).1

end Cascade

end HaarDetection
