import HaarDetection.Proofs.Cascade.WellFormed

/-!
# Accepted cascades

Rectangles, features, stages and cascades can be made by their constructors alone. A cascade that
there is has therefore been accepted by all of them.

* `Cascade.Accepted`: the constructors accept a cascade and its parts.
* `Cascade.Accepted.window_pos`, `linked`, `inside`, `nonempty`: **what that says of the parts.**
* `Cascade.Accepted.append`: stages after others.
-/

namespace HaarDetection

variable {α : Type} [Scalar α]

/-- **The constructors accept the cascade.** A rectangle may have been scaled since it was made,
and a stage may have got links. -/
structure Cascade.Accepted (c : Cascade α) : Prop where
  built : Cascade.build c.window c.stages = .ok c
  stages : ∀ s ∈ c.stages, ∃ s', Stage.build s.threshold s.trees = .ok s'
  features : ∀ f ∈ c.features, Feature.build f.tilted f.rects = .ok f
  rects : ∀ f ∈ c.features, ∀ r ∈ f.rects, ∃ r', FeatureRect.build r.region r.weight = .ok r'

namespace Cascade.Accepted

variable {c : Cascade α}

/-- The window has pixels. -/
theorem window_pos (h : c.Accepted) : 0 < c.window.width.toNat ∧ 0 < c.window.height.toNat := by
  obtain ⟨⟨hw, hh, -⟩, -⟩ := Cascade.build_ok_iff.1 h.built
  exact ⟨hw, hh⟩

/-- **The trees have nodes, and links that lead on in them.** -/
theorem linked (h : c.Accepted) {s : Stage α} (hs : s ∈ c.stages) {t : Tree α} (ht : t ∈ s.trees) :
    0 < t.length ∧ t.Linked := by
  obtain ⟨s', hs'⟩ := h.stages s hs
  obtain ⟨⟨-, -, htrees⟩, -⟩ := Stage.build_ok_iff.1 hs'
  exact Tree.check_ok_iff.1 (htrees t ht)

/-- **All regions lie in the window.** -/
theorem inside (h : c.Accepted) {f : Feature α} (hf : f ∈ c.features) {r : FeatureRect α}
    (hr : r ∈ f.rects) : r.region.Inside f.tilted c.window := by
  obtain ⟨⟨-, -, -, hstages⟩, -⟩ := Cascade.build_ok_iff.1 h.built
  obtain ⟨s, hs, hfs⟩ := List.mem_flatMap.1 hf
  exact (hstages s hs).2 f hfs r hr

/-- **All regions have pixels.** -/
theorem nonempty (h : c.Accepted) {f : Feature α} (hf : f ∈ c.features) {r : FeatureRect α}
    (hr : r ∈ f.rects) : r.region.Nonempty := by
  obtain ⟨r', hr'⟩ := h.rects f hf r hr
  obtain ⟨⟨hne, -⟩, -⟩ := FeatureRect.build_ok_iff.1 hr'
  exact hne

/-- **Stages can be put after others** for the same window. -/
theorem append {window : Size} {a b : List (Stage α)} (ha : (⟨window, a⟩ : Cascade α).Accepted)
    (hb : (⟨window, b⟩ : Cascade α).Accepted) : (⟨window, a ++ b⟩ : Cascade α).Accepted := by
  obtain ⟨⟨hw, hh, hne, hstages⟩, -⟩ := Cascade.build_ok_iff.1 ha.built
  obtain ⟨⟨-, -, -, hstages'⟩, -⟩ := Cascade.build_ok_iff.1 hb.built
  have hfeatures : (⟨window, a ++ b⟩ : Cascade α).features =
      (⟨window, a⟩ : Cascade α).features ++ (⟨window, b⟩ : Cascade α).features := List.flatMap_append
  refine ⟨Cascade.build_ok_iff.2 ⟨⟨hw, hh, List.append_ne_nil_of_left_ne_nil hne b, ?_⟩, rfl⟩, ?_, ?_, ?_⟩
  · -- a link to one of fewer stages is a link to one of all of them
    refine List.forall_mem_append.2 ⟨fun s hs => ⟨fun l hl => ?_, (hstages s hs).2⟩,
      fun s hs => ⟨fun l hl => ?_, (hstages' s hs).2⟩⟩
    · exact ((hstages s hs).1 l hl).trans_le (List.length_append ▸ Nat.le_add_right _ _)
    · exact ((hstages' s hs).1 l hl).trans_le (List.length_append ▸ Nat.le_add_left _ _)
  · exact List.forall_mem_append.2 ⟨ha.stages, hb.stages⟩
  · rw [hfeatures]
    exact List.forall_mem_append.2 ⟨ha.features, hb.features⟩
  · rw [hfeatures]
    exact List.forall_mem_append.2 ⟨ha.rects, hb.rects⟩

end Cascade.Accepted

end HaarDetection
