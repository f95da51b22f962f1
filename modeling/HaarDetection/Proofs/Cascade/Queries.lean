import HaarDetection.Proofs.Cascade.Accepted
import HaarDetection.Proofs.Image.Traces

/-!
# What a cascade asks

The evaluation of a cascade at a position asks one query for each rectangle that it comes to, and
no well-formed tree leads it round.

* `Region.queryAt`: the query for the pixels of a region.
* `Tree.evaluate_keeps`: **a linked tree has a value**, whatever the answers are.
* `Cascade.Accepted.firstRejecting_keeps`: **what an accepted cascade keeps to** after it has been
  scaled.
-/

namespace HaarDetection

variable {α : Type} {P : Query → Prop} {x y : ℕ}

/-- The query for the pixels of a region, for a window at `(x, y)`. -/
def Region.queryAt (r : Region) (tilted : Bool) (x y : ℕ) : Query where
  kind := if tilted then .tilted else .sum
  x := x + r.x.toNat
  y := y + r.y.toNat
  width := r.width.toNat
  height := r.height.toNat

/-- The query for a region has coordinates of 32 bits, and is one of `P`. -/
def Region.Admitted (P : Query → Prop) (x y : ℕ) (r : Region) (tilted : Bool) : Prop :=
  (r.queryAt tilted x y).x < 2 ^ 32 ∧ (r.queryAt tilted x y).y < 2 ^ 32 ∧ P (r.queryAt tilted x y)

/-- The queries for all rectangles of a feature are admitted. -/
def Feature.Admitted (P : Query → Prop) (x y : ℕ) (f : Feature α) : Prop :=
  ∀ r ∈ f.rects, r.scaledRegion.Admitted P x y f.tilted

variable [Scalar α]

theorem FeatureRect.weightedSum_keeps {r : FeatureRect α} {tilted : Bool}
    (h : r.scaledRegion.Admitted P x y tilted) :
    (r.weightedSum tilted x y).Keeps P fun _ => True := by
  obtain ⟨hx, hy, hP⟩ := h
  unfold FeatureRect.weightedSum
  simp only
  rw [if_pos ⟨hx, hy⟩]
  exact ⟨hP, fun _ => trivial⟩

theorem Feature.addSums_keeps {tilted : Bool} {rects : List (FeatureRect α)}
    (h : ∀ r ∈ rects, r.scaledRegion.Admitted P x y tilted) (total : α) :
    (Feature.addSums tilted x y rects total).Keeps P fun _ => True := by
  induction rects generalizing total with
  | nil => trivial
  | cons r rest ih =>
    refine (FeatureRect.weightedSum_keeps (h r List.mem_cons_self)).bind ?_
    intro value _
    exact ih (fun r' hr' => h r' (List.mem_cons_of_mem _ hr')) _

theorem Node.choose_keeps {n : Node α} (h : n.feature.Admitted P x y) :
    (n.choose x y).Keeps P fun b => b = n.left ∨ b = n.right := by
  refine (Feature.addSums_keeps h _).bind ?_
  intro value _
  change (if _ then _ else _) = _ ∨ (if _ then _ else _) = _
  split <;> simp

/-- **The walk through a linked tree ends**, as every step leads on. -/
theorem Tree.walk_keeps {tree : Tree α} (hl : tree.Linked)
    (h : ∀ n ∈ tree, n.feature.Admitted P x y) {steps index : ℕ} (hi : index < tree.length)
    (hs : tree.length ≤ steps + index) :
    (Tree.walk tree x y steps index).Keeps P fun _ => True := by
  induction index, hi using hl.induction generalizing steps with
  | step index hi n hn ih =>
    obtain ⟨steps, rfl⟩ : ∃ k, steps = k + 1 := ⟨steps - 1, by omega⟩
    unfold Tree.walk
    rw [hn]
    refine (Node.choose_keeps (h n (List.mem_of_getElem? hn))).bind ?_
    intro branch hb
    cases hc : branch.child with
    | none => trivial
    | some child =>
      have hlt := (hl.child hn hb hc).1
      exact ih branch child hb hc (by omega)

/-- **A linked tree has a value**, whatever the answers are. -/
theorem Tree.evaluate_keeps {tree : Tree α} (h0 : 0 < tree.length) (hl : tree.Linked)
    (h : ∀ n ∈ tree, n.feature.Admitted P x y) :
    (tree.evaluate x y).Keeps P fun _ => True :=
  Tree.walk_keeps hl h h0 (by omega)

theorem Stage.addVotes_keeps {trees : List (Tree α)} (hl : ∀ t ∈ trees, 0 < t.length ∧ t.Linked)
    (h : ∀ t ∈ trees, ∀ n ∈ t, n.feature.Admitted P x y) (total : α) :
    (Stage.addVotes x y trees total).Keeps P fun _ => True := by
  induction trees generalizing total with
  | nil => trivial
  | cons t rest ih =>
    obtain ⟨h0, ht⟩ := hl t List.mem_cons_self
    refine (Tree.evaluate_keeps h0 ht (h t List.mem_cons_self)).bind ?_
    intro value _
    exact ih (fun t' ht' => hl t' (List.mem_cons_of_mem _ ht'))
      (fun t' ht' => h t' (List.mem_cons_of_mem _ ht')) _

theorem Stage.classify_keeps {s : Stage α} (hl : ∀ t ∈ s.trees, 0 < t.length ∧ t.Linked)
    (h : ∀ f ∈ s.features, f.Admitted P x y) (deviation : α) :
    (s.classify x y deviation).Keeps P fun _ => True := by
  refine (Stage.addVotes_keeps hl (fun t ht n hn => h _ ?_) _).bind fun value _ => trivial
  exact List.mem_map.2 ⟨n, List.mem_flatten.2 ⟨t, ht, hn⟩, rfl⟩

theorem Cascade.firstRejecting_keeps {stages : List (Stage α)}
    (hl : ∀ s ∈ stages, ∀ t ∈ s.trees, 0 < t.length ∧ t.Linked)
    (h : ∀ s ∈ stages, ∀ f ∈ s.features, f.Admitted P x y) (deviation : α) (index : ℕ) :
    (Cascade.firstRejecting x y deviation index stages).Keeps P fun _ => True := by
  induction stages generalizing index with
  | nil => trivial
  | cons s rest ih =>
    refine (Stage.classify_keeps (hl s List.mem_cons_self) (h s List.mem_cons_self) _).bind ?_
    intro accepted _
    split
    · exact ih (fun s' hs' => hl s' (List.mem_cons_of_mem _ hs'))
        (fun s' hs' => h s' (List.mem_cons_of_mem _ hs')) _
    · trivial

variable {scale : Float32} {inverseArea : α}

/-- The rectangles of a scaled feature have the scaled regions. -/
theorem Feature.forall_rects_rescale {f : Feature α} (Q : Region → Prop) :
    (∀ r ∈ (f.rescale scale inverseArea).rects, Q r.scaledRegion) ↔
      ∀ r ∈ f.rects, Q (r.region.scale scale) := by
  simp only [Feature.rects, Feature.rescale, FeatureRect.rescaleRegion, List.forall_mem_cons,
    List.forall_mem_map]

theorem Stage.features_rescale (s : Stage α) :
    (s.rescale scale inverseArea).features = s.features.map (·.rescale scale inverseArea) := by
  simp only [Stage.features, Stage.nodes, Stage.rescale, Tree.rescale, List.map_flatten, List.map_map,
    Function.comp_def, Node.rescale]

/-- **The features of a scaled cascade** are those of the cascade, scaled. -/
theorem Cascade.features_rescale (c : Cascade α) :
    (c.rescale scale inverseArea).features = c.features.map (·.rescale scale inverseArea) := by
  simp only [Cascade.features, Cascade.rescale, List.flatMap_map, List.map_flatMap,
    Stage.features_rescale]

theorem Cascade.forall_rects_rescale {c : Cascade α} (Q : Bool → Region → Prop) :
    (∀ f ∈ (c.rescale scale inverseArea).features, ∀ r ∈ f.rects, Q f.tilted r.scaledRegion) ↔
      ∀ f ∈ c.features, ∀ r ∈ f.rects, Q f.tilted (r.region.scale scale) := by
  rw [Cascade.features_rescale, List.forall_mem_map]
  exact forall₂_congr fun f _ => Feature.forall_rects_rescale (Q f.tilted)

theorem Tree.linked_rescale {tree : Tree α} (h : tree.Linked) :
    (tree.rescale scale inverseArea).Linked := by
  intro i n hn child hc
  simp only [Tree.rescale, List.getElem?_map, Option.map_eq_some_iff] at hn
  obtain ⟨n₀, hn₀, rfl⟩ := hn
  simpa [Tree.rescale] using h i n₀ hn₀ child hc

/-- **The trees of an accepted cascade** are linked at every scale. -/
theorem Cascade.Accepted.linked_rescale {c : Cascade α} (hc : c.Accepted) {s : Stage α}
    (hs : s ∈ (c.rescale scale inverseArea).stages) {t : Tree α} (ht : t ∈ s.trees) :
    0 < t.length ∧ t.Linked := by
  obtain ⟨s₀, hs₀, rfl⟩ := List.mem_map.1 hs
  obtain ⟨t₀, ht₀, rfl⟩ := List.mem_map.1 ht
  obtain ⟨h0, hl⟩ := hc.linked hs₀ ht₀
  exact ⟨by simpa [Tree.rescale] using h0, Tree.linked_rescale hl⟩

/-- The regions of an accepted cascade, once they are scaled, are admitted if they are by themselves. -/
theorem Cascade.admitted_rescale {c : Cascade α}
    (h : ∀ f ∈ c.features, ∀ r ∈ f.rects, (r.region.scale scale).Admitted P x y f.tilted) {s : Stage α}
    (hs : s ∈ (c.rescale scale inverseArea).stages) {f : Feature α} (hf : f ∈ s.features) :
    f.Admitted P x y := by
  have hscaled : ∀ f ∈ (c.rescale scale inverseArea).features, f.Admitted P x y :=
    (Cascade.forall_rects_rescale fun tilted r => r.Admitted P x y tilted).2 h
  exact hscaled f (List.mem_flatMap.2 ⟨s, hs, hf⟩)

/-- **What an accepted cascade keeps to** after it has been scaled: to the queries for its scaled
regions, and to having a result. -/
theorem Cascade.Accepted.firstRejecting_keeps {c : Cascade α} (hc : c.Accepted)
    (h : ∀ f ∈ c.features, ∀ r ∈ f.rects, (r.region.scale scale).Admitted P x y f.tilted)
    (deviation : α) (index : ℕ) :
    (Cascade.firstRejecting x y deviation index (c.rescale scale inverseArea).stages).Keeps P
      fun _ => True :=
  Cascade.firstRejecting_keeps (fun _ hs _ ht => hc.linked_rescale hs ht)
    (fun _ hs _ hf => Cascade.admitted_rescale h hs hf) _ _

end HaarDetection
