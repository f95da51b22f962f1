import HaarDetection.Proofs.Cascade.Accepted
import HaarDetection.Proofs.Cascade.Builders

/-!
# Loading a definition

A definition is loaded when it is well formed, and only then. The cascade has the values of the
definition, and has passed all constructors.

* `Region.sums_in_words`: the sums that are compared with the sides of a window do not overflow.
* `CascadeDefinition.build_accepted`, `Cascade.Accepted.build`: what is loaded is accepted, and what is
  accepted can be loaded from its definition.
* `CascadeDefinition.build_iff_wellFormed`: **loading accepts exactly the well-formed definitions.**
-/

namespace HaarDetection

/-- **The sums that are compared with the sides of a window** are right in 64 bits. -/
theorem Region.sums_in_words (r : Region) :
    (r.x.toUInt64 + r.width.toUInt64).toNat = r.x.toNat + r.width.toNat ∧
      (r.y.toUInt64 + r.height.toUInt64).toNat = r.y.toNat + r.height.toNat ∧
      (r.y.toUInt64 + r.width.toUInt64 + r.height.toUInt64).toNat =
        r.y.toNat + r.width.toNat + r.height.toNat := by
  have hx := r.x.toNat_lt
  have hy := r.y.toNat_lt
  have hw := r.width.toNat_lt
  have hh := r.height.toNat_lt
  simp only [UInt64.toNat_add, UInt32.toNat_toUInt64]
  omega

/-- A feature is accepted when its definition is sound. -/
theorem Feature.accepted_iff {f : Feature Float} :
    (Feature.build f.tilted f.rects = .ok f ∧
      ∀ r ∈ f.rects, ∃ r', FeatureRect.build r.region r.weight = .ok r') ↔
        (FeatureDefinition.ofFeature f).Sound := by
  simp only [Feature.build_ok_iff, FeatureRect.build_ok_iff, FeatureDefinition.Sound,
    RectDefinition.Sound, FeatureDefinition.ofFeature, RectDefinition.ofRect, List.forall_mem_map,
    List.length_map, and_true, exists_and_left, exists_eq]
  exact and_comm

/-- So is a stage with all of its features. -/
theorem Stage.accepted_iff {s : Stage Float} :
    ((∃ s', Stage.build s.threshold s.trees = .ok s') ∧
      ∀ f ∈ s.features, Feature.build f.tilted f.rects = .ok f ∧
        ∀ r ∈ f.rects, ∃ r', FeatureRect.build r.region r.weight = .ok r') ↔
        (StageDefinition.ofStage s).Sound := by
  simp only [Stage.build_ok_iff, treesChecked_iff, Feature.accepted_iff, exists_and_left, exists_eq,
    and_true]
  constructor
  · rintro ⟨⟨hfinite, hne, htne, hlinked⟩, hfeatures⟩
    refine ⟨?_, hfinite, hne, htne, hlinked, linkNumber_intOfLink _, linkNumber_intOfLink _⟩
    simp only [StageDefinition.ofStage, List.forall_mem_map]
    intro t ht n hn
    have hf := hfeatures n.feature (List.mem_map.2 ⟨n, List.mem_flatten.2 ⟨t, ht, hn⟩, rfl⟩)
    exact ⟨hf, linkNumber_intOfLink _, linkNumber_intOfLink _⟩
  · rintro ⟨hnodes, hfinite, hne, htne, hlinked, -, -⟩
    refine ⟨⟨hfinite, hne, htne, hlinked⟩, ?_⟩
    intro f hf
    obtain ⟨n, hn, rfl⟩ := List.mem_map.1 hf
    obtain ⟨t, ht, hnt⟩ := List.mem_flatten.1 hn
    simp only [StageDefinition.ofStage, List.forall_mem_map] at hnodes
    exact (hnodes t ht n hnt).1

/-- **A cascade is accepted when its definition is well formed.** -/
theorem Cascade.accepted_iff {c : Cascade Float} :
    c.Accepted ↔ (CascadeDefinition.ofCascade c).WellFormed := by
  have hstages : c.Accepted ↔ Cascade.build c.window c.stages = .ok c ∧
      ∀ s ∈ c.stages, (StageDefinition.ofStage s).Sound := by
    simp only [← Stage.accepted_iff]
    constructor
    · rintro ⟨hbuilt, hstages, hfeatures, hrects⟩
      refine ⟨hbuilt, fun s hs => ⟨hstages s hs, fun f hf => ?_⟩⟩
      have hf' := List.mem_flatMap.2 ⟨s, hs, hf⟩
      exact ⟨hfeatures f hf', hrects f hf'⟩
    · rintro ⟨hbuilt, hstages⟩
      refine ⟨hbuilt, fun s hs => (hstages s hs).1, fun f hf => ?_, fun f hf => ?_⟩
      all_goals obtain ⟨s, hs, hfs⟩ := List.mem_flatMap.1 hf
      · exact ((hstages s hs).2 f hfs).1
      · exact ((hstages s hs).2 f hfs).2
  rw [hstages, Cascade.build_ok_iff]
  simp only [Stage.checked_iff]
  constructor
  · rintro ⟨⟨⟨hw, hh, hne, hin⟩, -⟩, hsound⟩
    refine ⟨hw, hh, by simpa [CascadeDefinition.ofCascade] using hne, ?_⟩
    simp only [CascadeDefinition.ofCascade, List.forall_mem_map, List.length_map]
    exact fun s hs => StageDefinition.wellFormed_iff.2 ⟨hsound s hs, hin s hs⟩
  · rintro ⟨hw, hh, hne, hwell⟩
    simp only [CascadeDefinition.ofCascade, List.forall_mem_map, List.length_map,
      StageDefinition.wellFormed_iff] at hwell
    exact ⟨⟨⟨hw, hh, by simpa [CascadeDefinition.ofCascade] using hne,
      fun s hs => (hwell s hs).2⟩, trivial⟩, fun s hs => (hwell s hs).1⟩

/-- What is loaded is accepted. -/
theorem CascadeDefinition.build_accepted {d : CascadeDefinition} {c : Cascade Float}
    (h : d.build = .ok c) : c.Accepted := by
  obtain ⟨hwell, hread, -⟩ := (CascadeDefinition.builds.ok_iff d c).1 h
  rw [Cascade.accepted_iff, hread]
  exact hwell

section Unscaled

@[simp] theorem RectDefinition.ofRect_unscaled (r : FeatureRect Float) : ofRect r.unscaled = ofRect r :=
  rfl

@[simp] theorem FeatureDefinition.ofFeature_unscaled (f : Feature Float) :
    ofFeature f.unscaled = ofFeature f := by
  simp [ofFeature, Feature.unscaled, Feature.rects]

@[simp] theorem NodeDefinition.ofNode_unscaled (n : Node Float) : ofNode n.unscaled = ofNode n := by
  simp [ofNode, Node.unscaled]

@[simp] theorem StageDefinition.ofStage_unscaled (s : Stage Float) : ofStage s.unscaled = ofStage s := by
  simp [ofStage, Stage.unscaled]

/-- The definition of a cascade says nothing of what it was scaled to. -/
@[simp] theorem CascadeDefinition.ofCascade_unscaled (c : Cascade Float) :
    ofCascade c.unscaled = ofCascade c := by
  simp [ofCascade, Cascade.unscaled]

@[simp] theorem FeatureRect.unscaled_unscaled (r : FeatureRect Float) :
    r.unscaled.unscaled = r.unscaled :=
  rfl

@[simp] theorem Feature.unscaled_unscaled (f : Feature Float) : f.unscaled.unscaled = f.unscaled := by
  simp [Feature.unscaled]

@[simp] theorem Node.unscaled_unscaled (n : Node Float) : n.unscaled.unscaled = n.unscaled := by
  simp [Node.unscaled]

@[simp] theorem Stage.unscaled_unscaled (s : Stage Float) : s.unscaled.unscaled = s.unscaled := by
  simp [Stage.unscaled]

@[simp] theorem Cascade.unscaled_unscaled (c : Cascade Float) : c.unscaled.unscaled = c.unscaled := by
  simp [Cascade.unscaled]

end Unscaled

/-- **What is accepted can be loaded from its definition,** as it was trained. -/
theorem Cascade.Accepted.build {c : Cascade Float} (h : c.Accepted) :
    (CascadeDefinition.ofCascade c).build = .ok c.unscaled :=
  (CascadeDefinition.builds.ok_iff _ _).2
    ⟨Cascade.accepted_iff.1 h, CascadeDefinition.ofCascade_unscaled c, c.unscaled_unscaled⟩

/-- Tilted features are told from the definition. -/
theorem CascadeDefinition.hasTilted_iff {c : Cascade Float} : c.hasTilted = true ↔
    ∃ s ∈ (ofCascade c).stages, ∃ t ∈ s.trees, ∃ n ∈ t, n.feature.tilted = true := by
  have hany : c.hasTilted =
      (ofCascade c).stages.any fun s => s.trees.any fun t => t.any fun n => n.feature.tilted := by
    simp only [Cascade.hasTilted, Cascade.features, Stage.features, Stage.nodes, ofCascade,
      StageDefinition.ofStage, NodeDefinition.ofNode, FeatureDefinition.ofFeature, List.any_flatMap,
      List.any_map, List.any_flatten, Function.comp_def]
  simp only [hany, List.any_eq_true]

/-- **Loading accepts exactly the well-formed definitions.** The cascade has the values of the
definition and nothing scaled, it has tilted features when the definition has, and the sums of what a
rectangle is given by are right in the 64 bits that they are computed in. -/
theorem CascadeDefinition.build_iff_wellFormed (d : CascadeDefinition) :
    ((∃ c, d.build = .ok c) ↔ d.WellFormed) ∧
      (∀ c, d.build = .ok c → d.Describes c ∧
        (c.hasTilted = true ↔ ∃ s ∈ d.stages, ∃ t ∈ s.trees, ∃ n ∈ t, n.feature.tilted = true)) ∧
      ∀ s ∈ d.stages, ∀ t ∈ s.trees, ∀ n ∈ t, ∀ r ∈ n.feature.rects,
        (r.region.x.toUInt64 + r.region.width.toUInt64).toNat =
            r.region.x.toNat + r.region.width.toNat ∧
          (r.region.y.toUInt64 + r.region.height.toUInt64).toNat =
            r.region.y.toNat + r.region.height.toNat ∧
          (r.region.y.toUInt64 + r.region.width.toUInt64 + r.region.height.toUInt64).toNat =
            r.region.y.toNat + r.region.width.toNat + r.region.height.toNat := by
  refine ⟨⟨?_, builds.total d⟩, ?_, fun _ _ _ _ _ _ r _ => r.region.sums_in_words⟩
  · rintro ⟨c, hc⟩
    exact ((builds.ok_iff d c).1 hc).1
  · intro c hc
    obtain ⟨-, hread, hplain⟩ := (builds.ok_iff d c).1 hc
    refine ⟨(describes_iff d c).2 ⟨hread, hplain⟩, ?_⟩
    rw [hasTilted_iff, hread]

/-- A definition of two stages, linked to each other. The root of the first one has a tilted child. -/
def linkedStages : CascadeDefinition :=
  let edge : FeatureDefinition := ⟨false, [⟨⟨0, 0, 1, 1⟩, -1⟩, ⟨⟨1, 0, 1, 1⟩, 1⟩]⟩
  let corner : FeatureDefinition := ⟨true, [⟨⟨2, 0, 2, 2⟩, -1⟩, ⟨⟨2, 0, 1, 1⟩, 1⟩]⟩
  ⟨⟨4, 4⟩, [⟨0, -1, 1, [[⟨0, -1, 1, 1, -1, edge⟩, ⟨0, -1, 1, -1, -1, corner⟩]]⟩,
    ⟨0, 0, -1, [[⟨0, -1, 1, -1, -1, edge⟩]]⟩]⟩

theorem linkedStages_loaded : linkedStages.WellFormed ∧
    ∃ c, linkedStages.build = .ok c ∧ linkedStages.Describes c ∧ c.hasTilted = true := by
  have hbuilt : ∃ c, linkedStages.build = .ok c := ⟨_, rfl⟩
  obtain ⟨hwell, hread, -⟩ := CascadeDefinition.build_iff_wellFormed linkedStages
  obtain ⟨c, hc⟩ := hbuilt
  obtain ⟨hdescribes, htilted⟩ := hread c hc
  exact ⟨hwell.1 ⟨c, hc⟩, c, hc, hdescribes, htilted.2 ⟨_, .head _, _, .head _, _, .tail _ (.head _), rfl⟩⟩

end HaarDetection
