import HaarDetection.Proofs.Cascade.WellFormed

/-!
# What the constructors make of definitions

The constructors check a definition in pieces: a rectangle knows nothing of the window, a tree nothing
of the other stages. Here the pieces are put together, from the rectangles up to the cascade.

* `Builds`: **a constructor that reads back,** which accepts what is sound and makes of it what reads as
  it was given.
* `Builds.mapM`: lists are made like their elements.
* `RectDefinition.builds`, `FeatureDefinition.builds`, `NodeDefinition.builds`,
  `StageDefinition.builds`: the constructors of the parts.
* `CascadeDefinition.builds`: **the definitions of which a cascade is made are the well-formed ones.**
* `CascadeDefinition.describes_iff`: what describes a cascade reads as it does.
-/

namespace HaarDetection

section Builds

variable {ε β γ : Type} {build : β → Except ε γ} {Sound : β → Prop} {read : γ → β} {plain : γ → γ}
  {R : β → γ → Prop}

/-- **A constructor that reads back.** It accepts what is sound. What it makes reads as what it was made
of, with nothing scaled, and there is nothing else that it could have made. -/
structure Builds (build : β → Except ε γ) (Sound : β → Prop) (read : γ → β) (plain : γ → γ) :
    Prop where
  ok_iff : ∀ x y, build x = .ok y ↔ Sound x ∧ read y = x ∧ plain y = y
  total : ∀ x, Sound x → ∃ y, build x = .ok y

/-- A list is made of what is made of its elements. -/
theorem Builds.mapM (h : Builds build Sound read plain) :
    Builds (List.mapM build) (∀ x ∈ ·, Sound x) (List.map read) (List.map plain) where
  ok_iff xs := by
    induction xs with
    | nil =>
      intro ys
      simp only [List.mapM_nil, List.map_eq_nil_iff]
      constructor
      · intro h
        cases h
        simp
      · rintro ⟨-, rfl, -⟩
        rfl
    | cons x xs ih =>
      intro ys
      simp only [List.mapM_cons, bind_ok_iff, h.ok_iff, ih, List.forall_mem_cons]
      constructor
      · rintro ⟨y, ⟨hx, hread, hplain⟩, zs, ⟨hxs, hreads, hplains⟩, hys⟩
        cases hys
        simp only [List.map_cons]
        exact ⟨⟨hx, hxs⟩, by rw [hread, hreads], by rw [hplain, hplains]⟩
      · rintro ⟨⟨hx, hxs⟩, hreads, hplains⟩
        cases ys with
        | nil => cases hreads
        | cons y ys =>
          simp only [List.map_cons, List.cons.injEq] at hreads hplains
          exact ⟨y, ⟨hx, hreads.1, hplains.1⟩, ys, ⟨hxs, hreads.2, hplains.2⟩, rfl⟩
  total xs := by
    induction xs with
    | nil => exact fun _ => ⟨[], rfl⟩
    | cons x xs ih =>
      intro hxs
      obtain ⟨hx, hxs⟩ := List.forall_mem_cons.1 hxs
      obtain ⟨y, hy⟩ := h.total x hx
      obtain ⟨ys, hys⟩ := ih hxs
      refine ⟨y :: ys, ?_⟩
      rw [List.mapM_cons, hy]
      simp only [hys]
      rfl

/-- What describes the elements of a list, when it is what they read back as. -/
theorem forall₂_iff_map (h : ∀ x y, R x y ↔ read y = x ∧ plain y = y) (xs : List β) (ys : List γ) :
    List.Forall₂ R xs ys ↔ ys.map read = xs ∧ ys.map plain = ys := by
  induction ys generalizing xs with
  | nil => simp [eq_comm]
  | cons y ys ih =>
    cases xs with
    | nil => simp
    | cons x xs =>
      simp only [List.forall₂_cons, h, ih, List.map_cons, List.cons.injEq]
      tauto

end Builds

/-- A rectangle with pixels and a finite weight, wherever it lies. -/
def RectDefinition.Sound (d : RectDefinition) : Prop :=
  d.region.Nonempty ∧ Scalar.isFinite d.weight = true

theorem RectDefinition.builds : Builds build Sound ofRect FeatureRect.unscaled where
  ok_iff d r := by
    unfold build Sound
    rw [FeatureRect.build_ok_iff]
    refine and_congr_right fun _ => ?_
    obtain ⟨region, weight, scaledRegion, scaledWeight⟩ := r
    obtain ⟨region', weight'⟩ := d
    simp only [ofRect, FeatureRect.unscaled, FeatureRect.mk.injEq, RectDefinition.mk.injEq]
    constructor
    · rintro ⟨rfl, rfl, rfl, rfl⟩
      simp
    · rintro ⟨⟨rfl, rfl⟩, -, -, rfl, rfl⟩
      simp
  total d h := ⟨_, FeatureRect.build_ok_iff.2 ⟨h, rfl⟩⟩

theorem RectDefinition.describes_iff (d : RectDefinition) (r : FeatureRect Float) :
    d.Describes r ↔ ofRect r = d ∧ r.unscaled = r := by
  constructor
  · rintro ⟨hregion, hweight, hscaled, hscaledWeight⟩
    obtain ⟨region, weight, scaledRegion, scaledWeight⟩ := r
    dsimp only at hregion hweight hscaled hscaledWeight
    subst hregion hweight hscaled hscaledWeight
    exact ⟨rfl, rfl⟩
  · rintro ⟨rfl, hplain⟩
    exact ⟨rfl, rfl, (congrArg FeatureRect.scaledRegion hplain).symm,
      (congrArg FeatureRect.scaledWeight hplain).symm⟩

/-- A feature of two or three such rectangles. -/
def FeatureDefinition.Sound (d : FeatureDefinition) : Prop :=
  (∀ r ∈ d.rects, r.Sound) ∧ (d.rects.length = 2 ∨ d.rects.length = 3)

theorem Feature.unscaled_eq_iff {f : Feature Float} :
    f.unscaled = f ↔ f.rects.map (·.unscaled) = f.rects := by
  obtain ⟨tilted, reference, others⟩ := f
  simp [Feature.unscaled, Feature.rects]

theorem FeatureDefinition.builds : Builds build Sound ofFeature Feature.unscaled where
  ok_iff d f := by
    unfold build Sound
    simp only [bind_ok_iff, RectDefinition.builds.mapM.ok_iff, Feature.build_ok_iff,
      Feature.unscaled_eq_iff]
    obtain ⟨tilted, rects⟩ := d
    simp only [ofFeature, FeatureDefinition.mk.injEq]
    constructor
    · rintro ⟨rs, ⟨hsound, rfl, hplain⟩, hcount, rfl, rfl⟩
      exact ⟨⟨hsound, by simpa using hcount⟩, ⟨rfl, rfl⟩, hplain⟩
    · rintro ⟨⟨hsound, hcount⟩, ⟨rfl, rfl⟩, hplain⟩
      exact ⟨f.rects, ⟨hsound, rfl, hplain⟩, by simpa using hcount, rfl, rfl⟩
  total d h := by
    obtain ⟨rects, hrects⟩ := RectDefinition.builds.mapM.total _ h.1
    obtain ⟨-, hread, -⟩ := (RectDefinition.builds.mapM.ok_iff _ _).1 hrects
    have hlen : rects.length = 2 ∨ rects.length = 3 := by
      have := h.2
      rwa [← hread, List.length_map] at this
    cases rects with
    | nil => simp at hlen
    | cons reference others =>
      refine ⟨⟨d.tilted, reference, others⟩, ?_⟩
      unfold build
      rw [bind_ok_iff]
      exact ⟨_, hrects, Feature.build_ok_iff.2 ⟨hlen, rfl, rfl⟩⟩

theorem FeatureDefinition.describes_iff (d : FeatureDefinition) (f : Feature Float) :
    d.Describes f ↔ ofFeature f = d ∧ f.unscaled = f := by
  have hrects := forall₂_iff_map RectDefinition.describes_iff d.rects f.rects
  rw [Feature.unscaled_eq_iff]
  obtain ⟨tilted, rects⟩ := d
  simp only [ofFeature, FeatureDefinition.mk.injEq]
  constructor
  · rintro ⟨rfl, hr⟩
    have := hrects.1 hr
    tauto
  · rintro ⟨⟨rfl, hr⟩, hplain⟩
    exact ⟨rfl, hrects.2 ⟨hr, hplain⟩⟩

theorem linkBetween_intOfLink {first count : ℕ} {l : Option ℕ} :
    LinkBetween first count (intOfLink l) ↔ ∀ k ∈ l, first ≤ k ∧ k < count := by
  cases l with
  | none => simp [LinkBetween, intOfLink]
  | some k =>
    simp only [LinkBetween, intOfLink, Option.mem_def, Option.some.injEq, forall_eq']
    omega

theorem linkIs_iff {n : ℤ} {l : Option ℕ} : LinkIs n l ↔ intOfLink l = n := by
  unfold LinkIs
  cases l with
  | none => simp [intOfLink, eq_comm]
  | some k =>
    simp only [reduceCtorEq, and_false, Option.some.injEq, false_or, intOfLink]
    omega

/-- A number that stands for a link. -/
def LinkNumber (n : ℤ) : Prop := -1 ≤ n

theorem linkNumber_intOfLink (l : Option ℕ) : LinkNumber (intOfLink l) := by
  cases l with
  | none => exact le_rfl
  | some k => simp only [LinkNumber, intOfLink]; omega

theorem LinkBetween.number {first count : ℕ} {n : ℤ} (h : LinkBetween first count n) :
    LinkNumber n := by
  unfold LinkBetween at h
  unfold LinkNumber
  omega

theorem LinkNumber.exists_link {n : ℤ} (h : LinkNumber n) : ∃ l, linkOfInt n = .ok l := by
  simp only [linkOfInt_ok_iff]
  rcases h.eq_or_lt with rfl | hlt
  · exact ⟨none, rfl⟩
  · exact ⟨some n.toNat, by simp only [intOfLink]; omega⟩

/-- A node with such a feature, and numbers that stand for links. -/
def NodeDefinition.Sound (d : NodeDefinition) : Prop :=
  d.feature.Sound ∧ LinkNumber d.leftNode ∧ LinkNumber d.rightNode

theorem NodeDefinition.builds : Builds build Sound ofNode Node.unscaled where
  ok_iff d n := by
    unfold build Sound
    simp only [bind_ok_iff, FeatureDefinition.builds.ok_iff, linkOfInt_ok_iff]
    obtain ⟨threshold, leftValue, rightValue, leftNode, rightNode, feature⟩ := d
    obtain ⟨threshold', ⟨leftValue', left⟩, ⟨rightValue', right⟩, feature'⟩ := n
    simp only [ofNode, Node.unscaled, NodeDefinition.mk.injEq, Node.mk.injEq, true_and]
    constructor
    · rintro ⟨f, ⟨hsound, hread, hplain⟩, l, hl, r, hr, h⟩
      cases h
      subst hl hr
      exact ⟨⟨hsound, linkNumber_intOfLink _, linkNumber_intOfLink _⟩,
        ⟨rfl, rfl, rfl, rfl, rfl, hread⟩, hplain⟩
    · rintro ⟨⟨hsound, -⟩, ⟨rfl, rfl, rfl, rfl, rfl, hread⟩, hplain⟩
      exact ⟨_, ⟨hsound, hread, hplain⟩, _, rfl, _, rfl, rfl⟩
  total d h := by
    obtain ⟨hsound, hleft, hright⟩ := h
    obtain ⟨f, hf⟩ := FeatureDefinition.builds.total _ hsound
    obtain ⟨l, hl⟩ := hleft.exists_link
    obtain ⟨r, hr⟩ := hright.exists_link
    refine ⟨⟨d.threshold, ⟨d.leftValue, l⟩, ⟨d.rightValue, r⟩, f⟩, ?_⟩
    unfold build
    simp only [bind_ok_iff]
    exact ⟨f, hf, l, hl, r, hr, rfl⟩

theorem NodeDefinition.describes_iff (d : NodeDefinition) (n : Node Float) :
    d.Describes n ↔ ofNode n = d ∧ n.unscaled = n := by
  have hfeature := FeatureDefinition.describes_iff d.feature n.feature
  obtain ⟨threshold, leftValue, rightValue, leftNode, rightNode, feature⟩ := d
  obtain ⟨threshold', ⟨leftValue', left⟩, ⟨rightValue', right⟩, feature'⟩ := n
  simp only [ofNode, Node.unscaled, NodeDefinition.mk.injEq, Node.mk.injEq, true_and] at hfeature ⊢
  constructor
  · rintro ⟨h1, h2, h3, h4, h5, h6⟩
    obtain ⟨hread, hplain⟩ := hfeature.1 h6
    exact ⟨⟨h1, h2, h3, linkIs_iff.1 h4, linkIs_iff.1 h5, hread⟩, hplain⟩
  · rintro ⟨⟨h1, h2, h3, h4, h5, hread⟩, hplain⟩
    exact ⟨h1, h2, h3, linkIs_iff.2 h4, linkIs_iff.2 h5, hfeature.2 ⟨hread, hplain⟩⟩

/-- The links of a tree, as its definition has them. -/
theorem Tree.linked_iff {t : Tree Float} : t.Linked ↔
    ∀ i n, (t.map NodeDefinition.ofNode)[i]? = some n →
      LinkBetween (i + 1) t.length n.leftNode ∧ LinkBetween (i + 1) t.length n.rightNode := by
  have hnode : ∀ (i : ℕ) (n : Node Float), (∀ child ∈ n.children, i < child ∧ child < t.length) ↔
      LinkBetween (i + 1) t.length (intOfLink n.left.child) ∧
        LinkBetween (i + 1) t.length (intOfLink n.right.child) := by
    intro i n
    rw [linkBetween_intOfLink, linkBetween_intOfLink]
    simp only [Node.children, List.mem_append, Option.mem_toList, Option.mem_def, or_imp,
      Nat.add_one_le_iff]
    exact forall_and
  unfold Tree.Linked
  simp only [List.getElem?_map, Option.map_eq_some_iff, hnode]
  constructor
  · rintro h i n ⟨m, hm, rfl⟩
    exact h i m hm
  · intro h i n hn
    exact h i _ ⟨n, hn, rfl⟩

/-- A stage of such nodes, with a finite threshold, trees that are well formed and numbers that stand for
links. -/
structure StageDefinition.Sound (d : StageDefinition) : Prop where
  nodes : ∀ t ∈ d.trees, ∀ n ∈ t, n.Sound
  threshold_finite : d.threshold.isFinite = true
  trees_ne : d.trees ≠ []
  tree_ne : ∀ t ∈ d.trees, t ≠ []
  linked : ∀ t ∈ d.trees, ∀ (i : ℕ) (n : NodeDefinition), t[i]? = some n →
    LinkBetween (i + 1) t.length n.leftNode ∧ LinkBetween (i + 1) t.length n.rightNode
  parent : LinkNumber d.parent
  next : LinkNumber d.next

/-- The trees of a stage, as its definition has them. -/
theorem treesChecked_iff (trees : List (Tree Float)) : (trees ≠ [] ∧ ∀ t ∈ trees, t.check = .ok ()) ↔
    trees.map (List.map NodeDefinition.ofNode) ≠ [] ∧
      (∀ t ∈ trees.map (List.map NodeDefinition.ofNode), t ≠ []) ∧
      ∀ t ∈ trees.map (List.map NodeDefinition.ofNode), ∀ (i : ℕ) (n : NodeDefinition),
        t[i]? = some n → LinkBetween (i + 1) t.length n.leftNode ∧
          LinkBetween (i + 1) t.length n.rightNode := by
  simp only [Tree.check_ok_iff, Tree.linked_iff, List.forall_mem_map, List.length_map, ne_eq,
    List.map_eq_nil_iff, List.length_pos_iff, forall_and]

theorem StageDefinition.builds : Builds build Sound ofStage Stage.unscaled where
  ok_iff d s := by
    unfold build
    simp only [bind_ok_iff, NodeDefinition.builds.mapM.mapM.ok_iff, Stage.build_ok_iff,
      linkOfInt_ok_iff, treesChecked_iff]
    obtain ⟨threshold, parent, next, defs⟩ := d
    obtain ⟨threshold', parent', next', trees⟩ := s
    simp only [ofStage, Stage.unscaled, StageDefinition.mk.injEq, Stage.mk.injEq, true_and]
    constructor
    · rintro ⟨ts, ⟨hnodes, rfl, hplain⟩, st, ⟨⟨hfinite, hne, htne, hlinked⟩, rfl⟩, p, rfl, n, rfl, h⟩
      cases h
      exact ⟨⟨hnodes, hfinite, hne, htne, hlinked, linkNumber_intOfLink _, linkNumber_intOfLink _⟩,
        ⟨rfl, rfl, rfl, rfl⟩, hplain⟩
    · rintro ⟨⟨hnodes, hfinite, hne, htne, hlinked, -, -⟩, ⟨rfl, rfl, rfl, rfl⟩, hplain⟩
      exact ⟨trees, ⟨hnodes, rfl, hplain⟩, _, ⟨⟨hfinite, hne, htne, hlinked⟩, rfl⟩, _, rfl, _, rfl, rfl⟩
  total d h := by
    obtain ⟨trees, htrees⟩ := NodeDefinition.builds.mapM.mapM.total _ h.nodes
    obtain ⟨-, hread, -⟩ := (NodeDefinition.builds.mapM.mapM.ok_iff _ _).1 htrees
    obtain ⟨p, hp⟩ := h.parent.exists_link
    obtain ⟨n, hn⟩ := h.next.exists_link
    have hchecked := (treesChecked_iff trees).2 (by rw [hread]; exact ⟨h.trees_ne, h.tree_ne, h.linked⟩)
    refine ⟨⟨d.threshold, p, n, trees⟩, ?_⟩
    unfold build
    simp only [bind_ok_iff, Stage.build_ok_iff]
    exact ⟨trees, htrees, _, ⟨⟨h.threshold_finite, hchecked⟩, rfl⟩, p, hp, n, hn, rfl⟩

theorem StageDefinition.describes_iff (d : StageDefinition) (s : Stage Float) :
    d.Describes s ↔ ofStage s = d ∧ s.unscaled = s := by
  have htrees := forall₂_iff_map (forall₂_iff_map NodeDefinition.describes_iff) d.trees s.trees
  obtain ⟨threshold, parent, next, defs⟩ := d
  obtain ⟨threshold', parent', next', trees⟩ := s
  simp only [ofStage, Stage.unscaled, StageDefinition.mk.injEq, Stage.mk.injEq, true_and] at htrees ⊢
  constructor
  · rintro ⟨h1, h2, h3, h4⟩
    obtain ⟨hread, hplain⟩ := htrees.1 h4
    exact ⟨⟨h1, linkIs_iff.1 h2, linkIs_iff.1 h3, hread⟩, hplain⟩
  · rintro ⟨⟨h1, h2, h3, hread⟩, hplain⟩
    exact ⟨h1, linkIs_iff.2 h2, linkIs_iff.2 h3, htrees.2 ⟨hread, hplain⟩⟩

/-- Stages are made one by one. The place of a stage is there for the errors only. -/
theorem StageDefinition.buildAll_ok_iff {i : ℕ} {ds : List StageDefinition} {ss : List (Stage Float)} :
    buildAll i ds = .ok ss ↔ ds.mapM build = .ok ss := by
  induction ds generalizing i ss with
  | nil => exact Iff.rfl
  | cons d ds ih =>
    rw [List.mapM_cons, bind_ok_iff]
    unfold buildAll
    cases hd : d.build with
    | error e => exact ⟨nofun, nofun⟩
    | ok s =>
      simp only [Except.ok.injEq, exists_eq_left', bind_ok_iff, ← ih (i := i + 1)]
      cases buildAll (i + 1) ds with
      | error e => exact ⟨nofun, nofun⟩
      | ok rest => simp [Except.map, pure, Except.pure]

theorem linkBetween_iff {count : ℕ} {n : ℤ} : LinkBetween 0 count n ↔ LinkNumber n ∧ n < count := by
  unfold LinkBetween LinkNumber
  omega

theorem RectDefinition.wellFormed_iff {d : RectDefinition} {tilted : Bool} {window : Size} :
    d.WellFormed tilted window ↔ d.Sound ∧ d.region.Inside tilted window := by
  constructor
  · rintro ⟨hw, hh, hweight, hupright, htilted⟩
    refine ⟨⟨⟨hw, hh⟩, hweight⟩, ?_⟩
    unfold Region.Inside
    cases tilted with
    | true => exact htilted rfl
    | false => exact hupright rfl
  · rintro ⟨⟨⟨hw, hh⟩, hweight⟩, hin⟩
    refine ⟨hw, hh, hweight, ?_, ?_⟩
    · rintro rfl
      exact hin
    · rintro rfl
      exact hin

theorem FeatureDefinition.wellFormed_iff {d : FeatureDefinition} {window : Size} :
    d.WellFormed window ↔ d.Sound ∧ ∀ r ∈ d.rects, r.region.Inside d.tilted window := by
  constructor
  · rintro ⟨hcount, hrects⟩
    simp only [RectDefinition.wellFormed_iff] at hrects
    exact ⟨⟨fun r hr => (hrects r hr).1, hcount⟩, fun r hr => (hrects r hr).2⟩
  · rintro ⟨⟨hsound, hcount⟩, hin⟩
    exact ⟨hcount, fun r hr => RectDefinition.wellFormed_iff.2 ⟨hsound r hr, hin r hr⟩⟩

/-- **What a stage adds up to,** from what is checked of it alone and what is checked in its cascade. -/
theorem StageDefinition.wellFormed_iff {d : StageDefinition} {window : Size} {count : ℕ} :
    d.WellFormed window count ↔ d.Sound ∧ (d.parent < count ∧ d.next < count) ∧
      ∀ t ∈ d.trees, ∀ n ∈ t, ∀ r ∈ n.feature.rects, r.region.Inside n.feature.tilted window := by
  constructor
  · rintro ⟨hfinite, hne, htne, hnodes, hparent, hnext⟩
    have hnode : ∀ t ∈ d.trees, ∀ n ∈ t, ∃ i : ℕ, n.WellFormed window i t.length := by
      intro t ht n hn
      obtain ⟨i, hi⟩ := List.mem_iff_getElem?.1 hn
      exact ⟨i, hnodes t ht i n hi⟩
    obtain ⟨hparent, hparent'⟩ := linkBetween_iff.1 hparent
    obtain ⟨hnext, hnext'⟩ := linkBetween_iff.1 hnext
    refine ⟨⟨?_, hfinite, hne, htne, ?_, hparent, hnext⟩, ⟨hparent', hnext'⟩, ?_⟩
    · intro t ht n hn
      obtain ⟨i, hleft, hright, hfeature⟩ := hnode t ht n hn
      exact ⟨(FeatureDefinition.wellFormed_iff.1 hfeature).1, hleft.number, hright.number⟩
    · intro t ht i n hn
      obtain ⟨hleft, hright, -⟩ := hnodes t ht i n hn
      exact ⟨hleft, hright⟩
    · intro t ht n hn
      obtain ⟨i, -, -, hfeature⟩ := hnode t ht n hn
      exact (FeatureDefinition.wellFormed_iff.1 hfeature).2
  · rintro ⟨⟨hnodes, hfinite, hne, htne, hlinked, hparent, hnext⟩, ⟨hparent', hnext'⟩, hin⟩
    refine ⟨hfinite, hne, htne, ?_, linkBetween_iff.2 ⟨hparent, hparent'⟩,
      linkBetween_iff.2 ⟨hnext, hnext'⟩⟩
    intro t ht i n hi
    have hn : n ∈ t := List.mem_of_getElem? hi
    obtain ⟨hleft, hright⟩ := hlinked t ht i n hi
    exact ⟨hleft, hright,
      FeatureDefinition.wellFormed_iff.2 ⟨(hnodes t ht n hn).1, hin t ht n hn⟩⟩

/-- What is checked of a stage in its cascade, as the definition of the stage has it. -/
theorem Stage.checked_iff {s : Stage Float} {window : Size} {count : ℕ} :
    ((∀ l ∈ s.links, l < count) ∧ ∀ f ∈ s.features, ∀ r ∈ f.rects, r.region.Inside f.tilted window) ↔
      ((StageDefinition.ofStage s).parent < count ∧ (StageDefinition.ofStage s).next < count) ∧
        ∀ t ∈ (StageDefinition.ofStage s).trees, ∀ n ∈ t, ∀ r ∈ n.feature.rects,
          r.region.Inside n.feature.tilted window := by
  have hlink : ∀ l : Option ℕ, (∀ k ∈ l, k < count) ↔ intOfLink l < count := by
    intro l
    cases l with
    | none => simp only [intOfLink]; simp; omega
    | some k => simp [intOfLink]
  refine and_congr ?_ ?_
  · simp only [Stage.links, StageDefinition.ofStage, ← hlink, List.mem_append, Option.mem_toList, or_imp]
    exact forall_and
  · simp only [Stage.features, Stage.nodes, StageDefinition.ofStage, NodeDefinition.ofNode,
      FeatureDefinition.ofFeature, RectDefinition.ofRect, List.forall_mem_map, List.mem_flatten,
      forall_exists_index, and_imp]
    exact ⟨fun h t ht n hn => h n t ht hn, fun h n t ht hn => h t ht n hn⟩

/-- **The definitions that describe a cascade are the well-formed ones**, and what they describe reads as
they do. -/
theorem CascadeDefinition.builds : Builds build WellFormed ofCascade Cascade.unscaled where
  ok_iff d c := by
    unfold build
    simp only [bind_ok_iff, StageDefinition.buildAll_ok_iff, StageDefinition.builds.mapM.ok_iff,
      Cascade.build_ok_iff, Stage.checked_iff]
    obtain ⟨window, defs⟩ := d
    obtain ⟨window', stages⟩ := c
    simp only [ofCascade, Cascade.unscaled, CascadeDefinition.mk.injEq, Cascade.mk.injEq, true_and]
    constructor
    · rintro ⟨ss, ⟨hsound, rfl, hplain⟩, ⟨hw, hh, hne, hin⟩, rfl, rfl⟩
      -- stages are checked alone first, and then with their number and the window
      refine ⟨⟨hw, hh, by simpa using hne, ?_⟩, ⟨rfl, rfl⟩, hplain⟩
      simp only [List.forall_mem_map, List.length_map] at hsound ⊢
      exact fun s hs => StageDefinition.wellFormed_iff.2 ⟨hsound s hs, hin s hs⟩
    · rintro ⟨⟨hw, hh, hne, hstages⟩, ⟨rfl, rfl⟩, hplain⟩
      simp only [List.forall_mem_map, List.length_map, StageDefinition.wellFormed_iff] at hstages
      refine ⟨stages, ⟨?_, rfl, hplain⟩, ⟨hw, hh, by simpa using hne, ?_⟩, rfl, rfl⟩
      · simp only [List.forall_mem_map]
        exact fun s hs => (hstages s hs).1
      · exact fun s hs => (hstages s hs).2
  total d h := by
    have hstages := fun s hs => StageDefinition.wellFormed_iff.1 (h.stages s hs)
    obtain ⟨ss, hss⟩ := StageDefinition.builds.mapM.total d.stages fun s hs => (hstages s hs).1
    obtain ⟨-, hread, -⟩ := (StageDefinition.builds.mapM.ok_iff _ _).1 hss
    refine ⟨⟨d.window, ss⟩, ?_⟩
    unfold build
    simp only [bind_ok_iff, StageDefinition.buildAll_ok_iff, Cascade.build_ok_iff, Stage.checked_iff]
    refine ⟨ss, hss, ⟨h.width_pos, h.height_pos, ?_, ?_⟩, rfl⟩
    · rintro rfl
      exact h.stages_ne hread.symm
    · intro s hs
      have hmem : StageDefinition.ofStage s ∈ d.stages := hread ▸ List.mem_map_of_mem hs
      rw [← List.length_map (f := StageDefinition.ofStage), hread]
      exact (hstages _ hmem).2

theorem CascadeDefinition.describes_iff (d : CascadeDefinition) (c : Cascade Float) :
    d.Describes c ↔ ofCascade c = d ∧ c.unscaled = c := by
  have hstages := forall₂_iff_map StageDefinition.describes_iff d.stages c.stages
  obtain ⟨window, defs⟩ := d
  obtain ⟨window', stages⟩ := c
  simp only [ofCascade, Cascade.unscaled, CascadeDefinition.mk.injEq, Cascade.mk.injEq, true_and] at hstages ⊢
  constructor
  · rintro ⟨h1, h2⟩
    obtain ⟨hread, hplain⟩ := hstages.1 h2
    exact ⟨⟨h1, hread⟩, hplain⟩
  · rintro ⟨⟨h1, hread⟩, hplain⟩
    exact ⟨h1, hstages.2 ⟨hread, hplain⟩⟩

end HaarDetection
