import HaarDetection.Proofs.Merge.Greedy

/-!
# Blocks in place of single elements

What happens to sorting and clustering if elements of a list are replaced by blocks that are not told
apart from them? The blocks stay together, and the clusters are those of the elements.

* `mergeSort_flatMap`: **sorting moves a block as a whole.**
* `Block`: a block that stands for an element when clusters are formed.
* `clusters_flatMap`: **the clusters of blocks** are those of the elements.
-/

namespace HaarDetection

section Blocks

variable {β γ : Type} {xs : List γ} {expand : γ → List β}

/-- A test that does not tell apart what is in a block chooses whole blocks. -/
theorem filter_flatMap_blocks {p : β → Bool} {q : γ → Bool}
    (h : ∀ x ∈ xs, ∀ b ∈ expand x, p b = q x) :
    (xs.flatMap expand).filter p = (xs.filter q).flatMap expand := by
  induction xs with
  | nil => rfl
  | cons x rest ih =>
    have hx := h x List.mem_cons_self
    rw [List.flatMap_cons, List.filter_append, ih fun y hy => h y (List.mem_cons_of_mem _ hy)]
    cases hq : q x
    · have hnone : (expand x).filter p = [] :=
        List.filter_eq_nil_iff.2 fun b hb => by rw [hx b hb, hq]; exact Bool.false_ne_true
      rw [hnone, List.nil_append, List.filter_cons_of_neg (by simp [hq])]
    · have hall : (expand x).filter p = expand x :=
        List.filter_eq_self.2 fun b hb => (hx b hb).trans hq
      rw [hall, List.filter_cons_of_pos hq, List.flatMap_cons]

variable {rep : γ → β}

/-- **Sorting moves a block as a whole,** to where it would move an element of the same rank. -/
theorem mergeSort_flatMap {le : β → β → Bool} (trans : ∀ a b c, le a b → le b c → le a c)
    (total : ∀ a b, le a b || le b a) (hrep : Function.Surjective rep)
    (h : ∀ x, ∀ b ∈ expand x, sameRank le (rep x) b = true) (xs : List γ) :
    (xs.flatMap expand).mergeSort le =
      (xs.mergeSort fun x y => le (rep x) (rep y)).flatMap expand := by
  have trans' : ∀ x y z, le (rep x) (rep y) → le (rep y) (rep z) → le (rep x) (rep z) :=
    fun _ _ _ => trans _ _ _
  have total' : ∀ x y, le (rep x) (rep y) || le (rep y) (rep x) := fun _ _ => total _ _
  have hrank : ∀ {x b}, b ∈ expand x → le (rep x) b = true ∧ le b (rep x) = true := fun hb =>
    Bool.and_eq_true_iff.1 (h _ _ hb)
  refine eq_of_pairwise_of_filter total (List.pairwise_mergeSort trans total _) ?_ ?_ ?_
  · refine List.pairwise_flatMap.2 ⟨fun x _ => ?_, ?_⟩
    · exact List.pairwise_of_forall_mem_list fun a ha b hb =>
        trans _ _ _ (hrank ha).2 (hrank hb).1
    · refine (List.pairwise_mergeSort trans' total' xs).imp ?_
      intro x y hxy a ha b hb
      exact trans _ _ _ (hrank ha).2 (trans _ _ _ hxy (hrank hb).1)
  · exact (List.mergeSort_perm _ _).trans ((List.mergeSort_perm _ _).symm.flatMap_right _)
  · intro c
    obtain ⟨z, rfl⟩ := hrep c
    have hsame : ∀ x, ∀ b ∈ expand x, sameRank le (rep z) b = sameRank le (rep z) (rep x) := by
      intro x b hb
      obtain ⟨hxb, hbx⟩ := hrank hb
      rw [Bool.eq_iff_iff, sameRank, sameRank, Bool.and_eq_true, Bool.and_eq_true]
      exact ⟨fun hle => ⟨trans _ _ _ hle.1 hbx, trans _ _ _ hxb hle.2⟩,
        fun hle => ⟨trans _ _ _ hle.1 hxb, trans _ _ _ hbx hle.2⟩⟩
    have hstable := mergeSort_filter trans' total' xs z
    rw [mergeSort_filter trans total, filter_flatMap_blocks fun x _ => hsame x,
      filter_flatMap_blocks fun x _ => hsame x]
    exact (congrArg (List.flatMap expand) hstable).symm

/-- **A block that stands for an element:** it is near to what the element is near to, the same is near
to it, and its first element takes all others. -/
structure Block (near : β → β → Bool) (a : β) (block : List β) : Prop where
  ne_nil : block ≠ []
  takes : ∀ b ∈ block, ∀ c, near b c = near a c
  taken : ∀ b ∈ block, ∀ c, near c b = near c a
  together : ∀ b ∈ block.tail, near a b = true

variable {near : β → β → Bool}

theorem Block.single (a : β) : Block near a [a] where
  ne_nil := List.cons_ne_nil _ _
  takes _ hb _ := by rw [List.mem_singleton.1 hb]
  taken _ hb _ := by rw [List.mem_singleton.1 hb]
  together := nofun

/-- **The clusters of blocks** are those of the elements, with the blocks in place of them. -/
theorem clusters_flatMap (h : ∀ x ∈ xs, Block near (rep x) (expand x)) :
    List.Forall₂ (fun group blocks => blocks.Perm (group.flatMap expand))
      (clusters (fun x y => near (rep x) (rep y)) xs) (clusters near (xs.flatMap expand)) := by
  fun_induction clusters (fun x y => near (rep x) (rep y)) xs with
  | case1 =>
    rw [List.flatMap_nil, clusters]
    exact .nil
  | case2 seed rest ih =>
    simp only [List.unattach_filter, List.unattach_attach] at ih
    obtain ⟨hseed, hrest⟩ := List.forall_mem_cons.1 h
    have ih' := ih fun x hx => hrest x (List.mem_filter.1 hx).1
    obtain ⟨b, bs, hexpand⟩ := List.exists_cons_of_ne_nil hseed.ne_nil
    have hb : b ∈ expand seed := hexpand ▸ List.mem_cons_self
    have hbs : ∀ b' ∈ bs, near b b' = true := by
      intro b' hb'
      rw [hseed.takes b hb]
      exact hseed.together b' (by rwa [hexpand])
    -- the first one of the block takes the others of the block, and otherwise whole blocks
    have hnear : ∀ x ∈ rest, ∀ b' ∈ expand x, near b b' = near (rep seed) (rep x) := by
      intro x hx b' hb'
      rw [hseed.takes b hb, (hrest x hx).taken b' hb']
    have hjoin : (bs ++ rest.flatMap expand).filter (near b) =
        bs ++ (rest.filter fun x => near (rep seed) (rep x)).flatMap expand := by
      rw [List.filter_append, List.filter_eq_self.2 hbs, filter_flatMap_blocks hnear]
    have hleft : (bs ++ rest.flatMap expand).filter (fun other => !near b other) =
        (rest.filter fun x => !near (rep seed) (rep x)).flatMap expand := by
      rw [List.filter_append, List.filter_eq_nil_iff.2 fun b' hb' => by simp [hbs b' hb'],
        List.nil_append, filter_flatMap_blocks fun x hx b' hb' => by rw [hnear x hx b' hb']]
    rw [List.flatMap_cons, hexpand, List.cons_append, clusters, hjoin, hleft]
    refine .cons ?_ ih'
    rw [List.flatMap_cons, hexpand, List.cons_append]
    refine .cons _ ((List.reverse_perm _).trans (.append_left _ ?_))
    exact (List.reverse_perm _).symm.flatMap_right _

/-- Two lists that go together with a third one go together. -/
theorem forall₂_common {α δ : Type} {R : α → β → Prop} {S : α → δ → Prop} {as : List α} {bs : List β}
    {ds : List δ} (h : List.Forall₂ R as bs) (h' : List.Forall₂ S as ds) :
    List.Forall₂ (fun b d => ∃ a, R a b ∧ S a d) bs ds := by
  induction h generalizing ds with
  | nil =>
    cases h'
    exact .nil
  | cons hab _ ih =>
    cases h' with
    | cons had hrest => exact .cons ⟨_, hab, had⟩ (ih hrest)

/-- Lists that go together are filtered and mapped to the same list, if the tests and values are the
same. -/
theorem map_filter_congr₂ {α δ : Type} {as : List α} {bs : List β} {p : α → Bool} {q : β → Bool}
    {f : α → δ} {f' : β → δ} (h : List.Forall₂ (fun a b => p a = q b ∧ f a = f' b) as bs) :
    (as.filter p).map f = (bs.filter q).map f' := by
  induction h with
  | nil => rfl
  | @cons a b as bs hab _ ih =>
    obtain ⟨htest, hvalue⟩ := hab
    rw [List.filter_cons, List.filter_cons, htest]
    split
    · rw [List.map_cons, List.map_cons, hvalue, ih]
    · exact ih

end Blocks

end HaarDetection
