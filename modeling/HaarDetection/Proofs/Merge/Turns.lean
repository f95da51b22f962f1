import HaarDetection.Proofs.Merge.Grouper

/-!
# The turns of a grouper

A grouper forms one group after the other: in a turn of its loop the last candidate takes all others near
to it. For this it adds up areas in 64 bits, when it looks for what is near, and then the neighbors of
the group in 32 bits. A sum that does not fit wraps around here; a program made to check its sums stops
instead, and gives no result. So it gives this result as long as the sums of all turns fit.

* `Grouper.turn`, `Grouper.turn_reverse`: **one turn of the loop**, which forms one group.
* `Grouper.turns_reverse`: the loop ends with an empty list, after as many turns as there are groups.
* `Grouper.TurnFits`, `Grouper.Fits`: the sums of one turn, and of all turns, fit in their words.
* `Grouper.fits_iff`: **when the sums fit**, for rectangles of which no two areas are too large.
-/

namespace HaarDetection

namespace Grouper

variable (g : Grouper)

/-- The candidates before the loop, the largest one at the end, and the grouper without any means. -/
def start (detections : List Detection) : List Detection × Grouper :=
  (detections.reverse.mergeSort fun a b => b.scaleAtLeast a, { g with means := #[] })

/-- The candidates before the loop are in descending order, read from the end. -/
theorem start_eq (detections : List Detection) : g.start detections =
    ((detections.mergeSort Detection.scaleAtLeast).reverse, { g with means := #[] }) := by
  rw [start, ← reverse_mergeSort_reverse Detection.scaleAtLeast_trans Detection.scaleAtLeast_total,
    List.reverse_reverse]

/-- **One turn of the loop:** the last candidate forms a group. -/
def turn (state : List Detection × Grouper) : List Detection × Grouper :=
  if h : state.1 = [] then state
  else (form (state.1.getLast h) state.1.dropLast state.2).swap

/-- Without candidates nothing happens. -/
theorem turns_nil (k : ℕ) : turn^[k] ([], g) = ([], g) :=
  Function.iterate_fixed (show turn ([], g) = ([], g) from dif_pos rfl) k

/-- **What is left after a turn**, of candidates in descending order from the end. -/
theorem turn_reverse (seed : Detection) (rest : List Detection) : ∃ g' : Grouper,
    form seed rest.reverse g =
        (g', (rest.filter fun other => !g.grouping.near seed other).reverse) ∧
      turn ((seed :: rest).reverse, g) =
        ((rest.filter fun other => !g.grouping.near seed other).reverse, g') ∧
      g'.grouping = g.grouping := by
  obtain ⟨g', hform, hgrouping, -⟩ := form_reverse g seed rest
  exact ⟨g', hform, by simp [turn, hform], hgrouping⟩

/-- **The loop ends**, after as many turns as there are groups. -/
theorem turns_reverse (grouping : Grouping) (hg : g.grouping = grouping) (xs : List Detection) :
    turn^[(clusters grouping.near xs).length] (xs.reverse, g) = ([], formAll xs.reverse g) := by
  fun_induction clusters grouping.near xs generalizing g with
  | case1 => simp [formAll]
  | case2 seed rest ih =>
    simp only [List.unattach_filter, List.unattach_attach] at ih ⊢
    obtain ⟨g', hform, hturn, hgrouping⟩ := turn_reverse g seed rest
    rw [hg] at hform hturn hgrouping
    rw [List.length_cons, Function.iterate_succ_apply, hturn, ih g' hgrouping,
      formAll.eq_def (seed :: rest).reverse, dif_neg (by simp)]
    simp only [List.reverse_cons, List.getLast_concat, List.dropLast_concat, hform]

/-- **The sums of one turn fit** in their words. -/
structure TurnFits (state : List Detection × Grouper) : Prop where
  /-- The area of the seed and that of any other candidate have a sum of 64 bits. -/
  areas : ∀ seed ∈ state.1.getLast?, ∀ other ∈ state.1.dropLast,
    seed.rect.area + other.rect.area < 2 ^ 64
  /-- The numbers of neighbors of the group have a sum of 32 bits. -/
  neighbors : ∀ seed ∈ state.1.getLast?,
    totalNeighbors (seed :: state.1.dropLast.filter (state.2.grouping.near seed)) < 2 ^ 32

/-- **The sums of all turns fit** in their words: nothing wraps around. -/
def Fits (detections : List Detection) : Prop := ∀ k, TurnFits (turn^[k] (g.start detections))

variable {g} {detections : List Detection}

theorem turnFits_nil : TurnFits ([], g) := ⟨nofun, nofun⟩

/-- The sums of the turn of a seed. -/
theorem turnFits_reverse_iff {seed : Detection} {rest : List Detection} :
    TurnFits ((seed :: rest).reverse, g) ↔
      (∀ other ∈ rest, seed.rect.area + other.rect.area < 2 ^ 64) ∧
        totalNeighbors (seed :: rest.filter (g.grouping.near seed)) < 2 ^ 32 := by
  have hlast : (seed :: rest).reverse.getLast? = some seed := by simp
  have hdrop : (seed :: rest).reverse.dropLast = rest.reverse := by simp
  have htotal : totalNeighbors (seed :: rest.reverse.filter (g.grouping.near seed)) =
      totalNeighbors (seed :: rest.filter (g.grouping.near seed)) := by
    rw [List.filter_reverse]
    exact totalNeighbors_perm ((List.reverse_perm _).cons _)
  constructor
  · rintro ⟨hareas, hneighbors⟩
    simp only [hlast, hdrop, Option.mem_some_iff, forall_eq', List.mem_reverse] at hareas hneighbors
    exact ⟨hareas, htotal ▸ hneighbors⟩
  · rintro ⟨hareas, hneighbors⟩
    constructor
    · simpa only [hlast, hdrop, Option.mem_some_iff, forall_eq', List.mem_reverse] using hareas
    · simpa only [hlast, hdrop, Option.mem_some_iff, forall_eq', htotal] using hneighbors

/-- The turns of candidates in descending order from the end. -/
theorem turnFits_iterate_iff (grouping : Grouping) (hg : g.grouping = grouping) {xs : List Detection}
    (hareas : xs.Pairwise fun a b => a.rect.area + b.rect.area < 2 ^ 64) :
    (∀ k, TurnFits (turn^[k] (xs.reverse, g))) ↔
      ∀ group ∈ clusters grouping.near xs, totalNeighbors group < 2 ^ 32 := by
  -- along the clusters: a turn forms one, and what is left goes on with a grouper that has one mean more
  fun_induction clusters grouping.near xs generalizing g with
  | case1 =>
    refine iff_of_true (fun k => ?_) (fun _ hgroup => absurd hgroup List.not_mem_nil)
    rw [List.reverse_nil, turns_nil]
    exact turnFits_nil
  | case2 seed rest ih =>
    simp only [List.unattach_filter, List.unattach_attach] at ih ⊢
    obtain ⟨g', -, hturn, hgrouping⟩ := turn_reverse g seed rest
    rw [hg] at hturn hgrouping
    obtain ⟨hseed, hrest⟩ := List.pairwise_cons.1 hareas
    have hfirst : TurnFits ((seed :: rest).reverse, g) ↔
        totalNeighbors (seed :: (rest.filter (grouping.near seed)).reverse) < 2 ^ 32 := by
      rw [turnFits_reverse_iff, hg, totalNeighbors_perm ((List.reverse_perm _).cons _)]
      exact and_iff_right hseed
    have hlater := ih hgrouping (hrest.sublist List.filter_sublist)
    rw [← Nat.and_forall_add_one, List.forall_mem_cons, ← hlater, ← hfirst]
    simp only [Function.iterate_zero_apply, Function.iterate_succ_apply, hturn]

/-- **When the sums fit.** If the areas of any two detections have a sum of 64 bits, then only the
neighbors matter: each group has to stand for fewer than `2 ^ 32` windows. -/
theorem fits_iff (hareas : detections.Pairwise fun a b => a.rect.area + b.rect.area < 2 ^ 64) :
    g.Fits detections ↔
      ∀ group ∈ g.grouping.clustersOf detections, totalNeighbors group < 2 ^ 32 := by
  have hsymm : ∀ {a b : Detection}, a.rect.area + b.rect.area < 2 ^ 64 →
      b.rect.area + a.rect.area < 2 ^ 64 := fun h => Nat.add_comm _ _ ▸ h
  rw [Fits, start_eq]
  exact turnFits_iterate_iff (g := { g with means := #[] }) g.grouping rfl
    (((List.mergeSort_perm _ _).pairwise_iff hsymm).2 hareas)

end Grouper

end HaarDetection
