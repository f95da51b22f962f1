import HaarDetection.Merge.Grouper
import HaarDetection.Proofs.Merge.Neighbors

/-!
# What a grouper leaves behind

A grouper that has been used before finds the same clusters as a fresh one. It takes its candidates
from the end of a list that it has sorted the other way round, which gives the clusters in the same
order as taking them from the front of one in descending order, as sorting is stable.

* `eq_of_pairwise_of_filter`: a sorted list is known from its classes of equal elements.
* `reverse_mergeSort_reverse`: **to sort upside down is to sort the other way round.**
* `Grouper.formAll_reverse`: the means of the clusters join those in the list.
* `Grouper.process_eq`: **whatever the lists of a grouper hold, its clusters are those of its
  thresholds**, and its lists are empty afterwards.
-/

namespace HaarDetection

section StableSort

variable {β : Type} {le : β → β → Bool} (trans : ∀ a b c, le a b → le b c → le a c)
  (total : ∀ a b, le a b || le b a)

/-- The elements that a sort takes for equal. -/
def sameRank (le : β → β → Bool) (a b : β) : Bool := le a b && le b a

include total in
theorem sameRank_self (a : β) : sameRank le a a = true := by simpa [sameRank] using total a a

include total in
/-- **A sorted list is known from its classes of equal elements.** -/
theorem eq_of_pairwise_of_filter {xs ys : List β} (hx : xs.Pairwise fun a b => le a b)
    (hy : ys.Pairwise fun a b => le a b) (hperm : xs.Perm ys)
    (h : ∀ c, xs.filter (sameRank le c) = ys.filter (sameRank le c)) : xs = ys := by
  induction xs generalizing ys with
  | nil => exact hperm.nil_eq
  | cons a xs ih =>
    cases ys with
    | nil => exact absurd hperm.eq_nil (List.cons_ne_nil _ _)
    | cons b ys =>
      -- each of the two heads comes before the other one
      have hab : sameRank le a b = true := by
        have hle := total a a
        have hle' := total b b
        simp only [Bool.or_self] at hle hle'
        rw [sameRank, Bool.and_eq_true]
        constructor
        · rcases List.mem_cons.1 (hperm.mem_iff.2 List.mem_cons_self) with heq | hmem
          · rwa [heq]
          · exact (List.pairwise_cons.1 hx).1 b hmem
        · rcases List.mem_cons.1 (hperm.mem_iff.1 List.mem_cons_self) with heq | hmem
          · rwa [heq]
          · exact (List.pairwise_cons.1 hy).1 a hmem
      obtain rfl : a = b := by
        have := h a
        rw [List.filter_cons_of_pos (sameRank_self total a), List.filter_cons_of_pos hab] at this
        exact (List.cons.inj this).1
      rw [ih hx.of_cons hy.of_cons hperm.cons_inv]
      intro c
      have := h c
      simp only [List.filter_cons] at this
      split at this
      · exact (List.cons.inj this).2
      · exact this

include trans total in
/-- **Sorting keeps the order of equal elements.** -/
theorem mergeSort_filter (xs : List β) (c : β) :
    (xs.mergeSort le).filter (sameRank le c) = xs.filter (sameRank le c) := by
  have hclass : (xs.filter (sameRank le c)).Pairwise fun a b => le a b := by
    refine List.pairwise_of_forall_mem_list ?_
    intro a ha b hb
    have ha' := (List.mem_filter.1 ha).2
    have hb' := (List.mem_filter.1 hb).2
    rw [sameRank, Bool.and_eq_true] at ha' hb'
    exact trans _ _ _ ha'.2 hb'.1
  have hsub := (List.sublist_mergeSort trans total hclass List.filter_sublist).filter (sameRank le c)
  simp only [List.filter_filter, Bool.and_self] at hsub
  exact (hsub.eq_of_length ((List.mergeSort_perm xs le).filter _).length_eq.symm).symm

include trans total in
/-- **To sort upside down is to sort the other way round.** -/
theorem reverse_mergeSort_reverse (xs : List β) :
    (xs.reverse.mergeSort fun a b => le b a).reverse = xs.mergeSort le := by
  have trans' : ∀ a b c, le b a → le c b → le c a := fun a b c hab hbc => trans c b a hbc hab
  have total' : ∀ a b, le b a || le a b := fun a b => total b a
  have hrank : ∀ c, sameRank (fun a b => le b a) c = sameRank le c := fun c => by
    funext a
    exact Bool.and_comm _ _
  refine eq_of_pairwise_of_filter total ?_ (List.pairwise_mergeSort trans total xs) ?_ ?_
  · exact List.pairwise_reverse.2 (List.pairwise_mergeSort trans' total' _)
  · exact ((List.reverse_perm _).trans (List.mergeSort_perm _ _)).trans
      ((List.reverse_perm xs).trans (List.mergeSort_perm xs le).symm)
  · intro c
    have h := mergeSort_filter trans' total' xs.reverse c
    rw [hrank] at h
    rw [List.filter_reverse, h, List.filter_reverse, List.reverse_reverse,
      mergeSort_filter trans total]

end StableSort

namespace Detection

theorem scaleAtLeast_trans (a b c : Detection) (hab : a.scaleAtLeast b) (hbc : b.scaleAtLeast c) :
    a.scaleAtLeast c := by
  simp only [scaleAtLeast, decide_eq_true_eq] at hab hbc ⊢
  exact hbc.trans hab

theorem scaleAtLeast_total (a b : Detection) : a.scaleAtLeast b || b.scaleAtLeast a := by
  simp only [scaleAtLeast, Bool.or_eq_true, decide_eq_true_eq]
  exact le_total _ _

end Detection

namespace Grouper

variable (g : Grouper) (seed : Detection)

/-- **What joins a cluster,** and what is left. -/
theorem gather_eq (candidates : List Detection) :
    gather seed candidates g =
      ({ g with
          cluster := g.cluster ++ (candidates.filter (g.grouping.near seed)).toArray },
        candidates.filter fun other => !g.grouping.near seed other) := by
  induction candidates generalizing g with
  | nil => simp [gather]
  | cons other rest ih =>
    unfold gather
    split
    · rename_i hnear
      simp [ih, hnear]
    · rename_i hfar
      simp [ih, hfar]

/-- Are there enough neighbors in a cluster for it to be reported? -/
def enough (grouping : Grouping) (cluster : List Detection) : Bool :=
  grouping.minNeighbors ≤ neighborCount cluster

/-- They are counted, while there are fewer than `2 ^ 32` of them. -/
theorem enough_iff {grouping : Grouping} {cluster : List Detection}
    (h : totalNeighbors cluster < 2 ^ 32) :
    enough grouping cluster = true ↔ grouping.minNeighbors.toNat ≤ totalNeighbors cluster := by
  rw [enough, decide_eq_true_iff, UInt32.le_iff_toNat_le, toNat_neighborCount h]

theorem addMean_means : g.addMean.means.toList =
    g.means.toList ++ (([g.cluster.toList].filter (enough g.grouping)).map mergeCluster) := by
  unfold addMean
  by_cases h : neighborCount g.cluster.toList < g.grouping.minNeighbors
  · have hnot : enough g.grouping g.cluster.toList = false := by
      simpa [enough] using h
    simp [h, hnot]
  · have hyes : enough g.grouping g.cluster.toList = true := by
      simpa [enough] using h
    simp [h, hyes]

theorem addMean_grouping : g.addMean.grouping = g.grouping := by
  unfold addMean
  split <;> rfl

/-- **The cluster of a seed** joins the others, and the candidates that are left keep their order. -/
theorem form_reverse (rest : List Detection) : ∃ g' : Grouper,
    form seed rest.reverse g =
        (g', (rest.filter fun other => !g.grouping.near seed other).reverse) ∧
      g'.grouping = g.grouping ∧
      g'.means.toList = g.means.toList ++
        ([seed :: (rest.filter (g.grouping.near seed)).reverse].filter (enough g.grouping)).map
          mergeCluster := by
  set gathered := (gather seed rest.reverse { g with cluster := #[seed] }).1 with hgathered
  have hgrouping : gathered.grouping = g.grouping := by rw [hgathered, gather_eq]
  have hcluster : gathered.cluster.toList =
      seed :: (rest.filter (g.grouping.near seed)).reverse := by
    simp [hgathered, gather_eq, List.filter_reverse]
  refine ⟨gathered.addMean, ?_, by rw [addMean_grouping, hgrouping], ?_⟩
  · simp only [form, hgathered, gather_eq, List.filter_reverse]
  · rw [addMean_means, hcluster, hgrouping, hgathered, gather_eq]

/-- **The means of the clusters join those in the list**, when the candidates are taken from the
end. -/
theorem formAll_reverse (grouping : Grouping) (hg : g.grouping = grouping) (xs : List Detection) :
    (formAll xs.reverse g).grouping = grouping ∧
      (formAll xs.reverse g).means.toList = g.means.toList ++
        ((clusters grouping.near xs).filter (enough grouping)).map mergeCluster := by
  fun_induction clusters grouping.near xs generalizing g with
  | case1 => simp [formAll, hg]
  | case2 seed rest ih =>
    simp only [List.unattach_filter, List.unattach_attach] at ih
    obtain ⟨g', hform, hgrouping, hmeans⟩ := form_reverse g seed rest
    rw [hg] at hform hgrouping hmeans
    obtain ⟨h1, h2⟩ := ih g' hgrouping
    rw [formAll, dif_neg (by simp)]
    simp only [List.reverse_cons, List.getLast_concat, List.dropLast_concat, hform]
    refine ⟨h1, ?_⟩
    rw [h2, hmeans, List.append_assoc, ← List.map_append, ← List.filter_append, List.singleton_append]

/-- **Whatever the lists of a grouper hold, its clusters are those of its thresholds**, and its lists
are empty afterwards. -/
theorem process_eq (detections : List Detection) :
    g.process detections = (g.grouping.merge detections, { grouping := g.grouping }) := by
  have hsort : (detections.mergeSort Detection.scaleAtLeast).reverse =
      detections.reverse.mergeSort fun a b => b.scaleAtLeast a := by
    rw [← reverse_mergeSort_reverse Detection.scaleAtLeast_trans Detection.scaleAtLeast_total,
      List.reverse_reverse]
  obtain ⟨hgrouping, hmeans⟩ := formAll_reverse { g with means := #[] } g.grouping rfl
    (detections.mergeSort Detection.scaleAtLeast)
  rw [hsort] at hgrouping hmeans
  simp only [process, hgrouping, hmeans]
  rfl

end Grouper

end HaarDetection
