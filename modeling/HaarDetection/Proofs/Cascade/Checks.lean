import HaarDetection.Cascade.Definition
import HaarDetection.Proofs.Geometry.Regions

/-!
# What the constructors check

Every constructor checks what it is given and refuses it at the first thing that is wrong. So it
accepts exactly what passes all of its checks, whatever their order is.

* `bind_ok_iff`: what an action with a result is made of.
* `FeatureRect.build_ok_iff`, `Feature.build_ok_iff`, `Stage.build_ok_iff`, `Cascade.build_ok_iff`:
  **what the constructors accept**, and what they make of it.
* `Tree.Linked.induction`: induction along the links of a tree.
* `Tree.check_ok_iff`: **a tree is accepted** when it has nodes, and all links lead on in it.
* `linkOfInt_ok_iff`: a number is read as the link that it is written for.
-/

namespace HaarDetection

section Except

variable {ε β γ : Type}

/-- What an action with a result is made of. -/
theorem bind_ok_iff {x : Except ε β} {f : β → Except ε γ} {c : γ} :
    x >>= f = .ok c ↔ ∃ b, x = .ok b ∧ f b = .ok c := by
  cases x with
  | error e => exact ⟨nofun, nofun⟩
  | ok b => exact ⟨fun h => ⟨b, rfl, h⟩, fun ⟨_, rfl, h⟩ => h⟩

theorem ok_of_bind {x : Except ε β} {f : β → Except ε γ} {c : γ} (h : x >>= f = .ok c) :
    ∃ b, x = .ok b ∧ f b = .ok c :=
  bind_ok_iff.1 h

theorem ite_error_ok_iff {p : Prop} [Decidable p] {e : ε} {x : Except ε β} {b : β} :
    (if p then .error e else x) = .ok b ↔ ¬p ∧ x = .ok b := by
  split
  · rename_i h
    exact ⟨nofun, fun h' => absurd h h'.1⟩
  · rename_i h
    exact ⟨fun h' => ⟨h, h'⟩, And.right⟩

/-- A check in front of a result. -/
theorem check_ok_iff {x : Except ε Unit} {b c : β} :
    (x >>= fun _ => .ok b) = .ok c ↔ x = .ok () ∧ c = b := by
  rw [bind_ok_iff]
  constructor
  · rintro ⟨u, hx, hb⟩
    exact ⟨hx, (Except.ok.inj hb).symm⟩
  · rintro ⟨hx, rfl⟩
    exact ⟨(), hx, rfl⟩

end Except

theorem side_ne_zero {n : UInt32} : n ≠ 0 ↔ 0 < n.toNat := by
  rw [Nat.pos_iff_ne_zero, ne_eq, ne_eq, ← UInt32.toNat_inj]
  rfl

variable {α : Type}

/-- A rectangle is made when it has pixels and a finite weight. -/
theorem FeatureRect.build_ok_iff [Scalar α] {region : Region} {weight : α} {r : FeatureRect α} :
    FeatureRect.build region weight = .ok r ↔
      (region.Nonempty ∧ Scalar.isFinite weight = true) ∧ r = ⟨region, weight, region, weight⟩ := by
  unfold FeatureRect.build Region.Nonempty
  rw [ite_error_ok_iff, not_or, ← ne_eq, ← ne_eq, side_ne_zero, side_ne_zero,
    and_assoc (a := 0 < _ ∧ 0 < _), @eq_comm _ r]
  refine and_congr_right fun _ => ?_
  split
  · rename_i h
    simp [h]
  · rename_i h
    simp [h]

/-- A feature is made of two or three rectangles. -/
theorem Feature.build_ok_iff {tilted : Bool} {rects : List (FeatureRect α)} {f : Feature α} :
    Feature.build tilted rects = .ok f ↔
      (rects.length = 2 ∨ rects.length = 3) ∧ f.tilted = tilted ∧ f.rects = rects := by
  cases rects with
  | nil =>
    refine ⟨nofun, ?_⟩
    rintro ⟨h, -⟩
    simp at h
  | cons reference others =>
    obtain ⟨t, r, rs⟩ := f
    simp only [Feature.build, Feature.rects, List.length_cons, List.cons.injEq]
    split
    · rename_i h
      simp only [Except.ok.injEq, Feature.mk.injEq]
      constructor
      · rintro ⟨rfl, rfl, rfl⟩
        exact ⟨by omega, rfl, rfl, rfl⟩
      · rintro ⟨-, rfl, rfl, rfl⟩
        exact ⟨rfl, rfl, rfl⟩
    · rename_i h
      refine ⟨nofun, ?_⟩
      rintro ⟨h', -⟩
      omega

/-- All links of a tree lead on, and to a node of the tree. -/
def Tree.Linked (tree : Tree α) : Prop :=
  ∀ i n, tree[i]? = some n → ∀ child ∈ n.children, i < child ∧ child < tree.length

/-- The link of a branch of a linked tree leads on. -/
theorem Tree.Linked.child {tree : Tree α} (h : tree.Linked) {i : ℕ} {n : Node α} {b : Branch α}
    (hn : tree[i]? = some n) (hb : b = n.left ∨ b = n.right) {child : ℕ} (hc : b.child = some child) :
    i < child ∧ child < tree.length := by
  refine h i n hn child ?_
  rcases hb with rfl | rfl <;> simp [Node.children, hc]

/-- **Induction along the links of a linked tree:** what holds of a node if it holds of the nodes that
it leads to holds of all nodes. -/
theorem Tree.Linked.induction {tree : Tree α} (h : tree.Linked) {motive : ∀ i, i < tree.length → Prop}
    (step : ∀ i (hi : i < tree.length) n (hn : tree[i]? = some n),
      (∀ b child (hb : b = n.left ∨ b = n.right) (hchild : b.child = some child),
        motive child (h.child hn hb hchild).2) → motive i hi)
    (i : ℕ) (hi : i < tree.length) : motive i hi := by
  -- as links lead on, there are fewer nodes behind a child than behind its parent
  induction hrest : tree.length - i using Nat.strong_induction_on generalizing i with
  | h rest ih =>
    have hn : tree[i]? = some tree[i] := List.getElem?_eq_getElem hi
    refine step i hi _ hn fun b child hb hchild => ?_
    obtain ⟨hlt, hinside⟩ := h.child hn hb hchild
    exact ih _ (by omega) child hinside rfl

theorem Tree.firstBadLink?_eq_none_iff {size i : ℕ} {nodes : List (Node α)} :
    Tree.firstBadLink? size i nodes = none ↔
      ∀ j n, nodes[j]? = some n → ∀ child ∈ n.children, i + j < child ∧ child < size := by
  induction nodes generalizing i with
  | nil => simp [Tree.firstBadLink?]
  | cons n rest ih =>
    have hhead : (n.children.find? fun child => !linkAllowed i size child) = none ↔
        ∀ child ∈ n.children, i < child ∧ child < size := by
      simp [List.find?_eq_none, linkAllowed]
    unfold Tree.firstBadLink?
    split
    · rename_i child hsome
      refine ⟨nofun, ?_⟩
      intro h
      rw [hhead.2 (h 0 n rfl)] at hsome
      cases hsome
    · rename_i hnone
      rw [ih]
      constructor
      · intro h j m hm
        cases j with
        | zero =>
          cases hm
          exact hhead.1 hnone
        | succ j =>
          intro child hc
          have := h j m hm child hc
          omega
      · intro h j m hm child hc
        have := h (j + 1) m hm child hc
        omega

/-- **A tree is accepted** when it has nodes, and all links lead on in it. -/
theorem Tree.check_ok_iff {tree : Tree α} : tree.check = .ok () ↔ 0 < tree.length ∧ tree.Linked := by
  unfold Tree.check
  rw [ite_error_ok_iff, List.isEmpty_iff, ← ne_eq, ← List.length_pos_iff]
  refine and_congr_right fun _ => ?_
  have hlinked : Tree.firstBadLink? tree.length 0 tree = none ↔ tree.Linked := by
    unfold Tree.Linked
    rw [Tree.firstBadLink?_eq_none_iff]
    simp only [Nat.zero_add]
  rw [← hlinked]
  split
  · rename_i h
    simp [h]
  · rename_i h
    simp [h]

theorem Stage.checkTrees_ok_iff {i : ℕ} {trees : List (Tree α)} :
    Stage.checkTrees i trees = .ok () ↔ ∀ t ∈ trees, t.check = .ok () := by
  induction trees generalizing i with
  | nil => simp [Stage.checkTrees]
  | cons t rest ih =>
    unfold Stage.checkTrees
    rw [List.forall_mem_cons]
    split
    · rename_i h
      simp [h]
    · rename_i h
      simp [h, ih]

/-- A stage is made of trees when there are some, all are well formed and the threshold is finite. -/
theorem Stage.build_ok_iff [Scalar α] {threshold : α} {trees : List (Tree α)} {s : Stage α} :
    Stage.build threshold trees = .ok s ↔
      (Scalar.isFinite threshold = true ∧ trees ≠ [] ∧ ∀ t ∈ trees, t.check = .ok ()) ∧
        s = ⟨threshold, none, none, trees⟩ := by
  unfold Stage.build
  rw [ite_error_ok_iff, ite_error_ok_iff, check_ok_iff, Stage.checkTrees_ok_iff, List.isEmpty_iff,
    Bool.not_eq_true', Bool.not_eq_false, and_assoc, and_assoc]

theorem Cascade.checkFeatures_ok_iff {window : Size} {fs : List (Feature α)} :
    Cascade.checkFeatures window fs = .ok () ↔
      ∀ f ∈ fs, ∀ r ∈ f.rects, r.region.Inside f.tilted window := by
  have hnone : (fs.findSome? fun f => (f.rects.find? fun r =>
      !decide (r.region.Inside f.tilted window)).map (f.tilted, ·.region)) = none ↔
      ∀ f ∈ fs, ∀ r ∈ f.rects, r.region.Inside f.tilted window := by
    simp [List.findSome?_eq_none_iff, List.find?_eq_none]
  rw [← hnone]
  unfold Cascade.checkFeatures
  simp only
  split
  · rename_i h
    simp [h]
  · rename_i h
    simp [h]

theorem Cascade.checkStages_ok_iff {window : Size} {count i : ℕ} {stages : List (Stage α)} :
    Cascade.checkStages window count i stages = .ok () ↔
      ∀ s ∈ stages, (∀ l ∈ s.links, l < count) ∧
        ∀ f ∈ s.features, ∀ r ∈ f.rects, r.region.Inside f.tilted window := by
  induction stages generalizing i with
  | nil => simp [Cascade.checkStages]
  | cons s rest ih =>
    have hlinks : s.links.find? (count ≤ ·) = none ↔ ∀ l ∈ s.links, l < count := by
      simp [List.find?_eq_none]
    rw [List.forall_mem_cons, ← ih (i := i + 1), ← hlinks, ← Cascade.checkFeatures_ok_iff]
    simp only [Cascade.checkStages]
    split
    · rename_i h
      simp [h]
    · rename_i h
      split
      · rename_i h'
        simp [h']
      · rename_i h'
        simp [h, h']

/-- **A cascade is made** of stages when there are some, the window has pixels, all links lead to
stages and all regions lie in the window. -/
theorem Cascade.build_ok_iff {window : Size} {stages : List (Stage α)} {c : Cascade α} :
    Cascade.build window stages = .ok c ↔
      (0 < window.width.toNat ∧ 0 < window.height.toNat ∧ stages ≠ [] ∧
        ∀ s ∈ stages, (∀ l ∈ s.links, l < stages.length) ∧
          ∀ f ∈ s.features, ∀ r ∈ f.rects, r.region.Inside f.tilted window) ∧
        c = ⟨window, stages⟩ := by
  unfold Cascade.build
  rw [ite_error_ok_iff, ite_error_ok_iff, check_ok_iff, Cascade.checkStages_ok_iff, List.isEmpty_iff,
    not_or, ← ne_eq, ← ne_eq, side_ne_zero, side_ne_zero, and_assoc, and_assoc, and_assoc, and_assoc]

/-- **A number is read as the link that it is written for.** -/
theorem linkOfInt_ok_iff {n : ℤ} {l : Option ℕ} : linkOfInt n = .ok l ↔ n = intOfLink l := by
  unfold linkOfInt
  rcases lt_trichotomy n (-1) with hn | rfl | hn
  · rw [if_neg hn.ne, if_neg (by omega)]
    refine ⟨nofun, ?_⟩
    cases l with
    | none => exact fun h => absurd h hn.ne
    | some k => intro h; simp only [intOfLink] at h; omega
  · rw [if_pos rfl]
    cases l with
    | none => exact ⟨fun _ => rfl, fun _ => rfl⟩
    | some k => exact ⟨nofun, fun h => by simp only [intOfLink] at h; omega⟩
  · rw [if_neg hn.ne', if_pos (by omega), Except.ok.injEq]
    cases l with
    | none => exact ⟨nofun, fun h => absurd h hn.ne'⟩
    | some k =>
      simp only [intOfLink, Option.some.injEq]
      omega

end HaarDetection
