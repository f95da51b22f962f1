import HaarDetection.Proofs.Merge.Turns

/-!
# Greedy clustering

What a grouper makes of some detections is what the greedy strategy makes of them: they are ordered by
descending scale, and again and again the first one that is left takes all others near to it.

* `DescendingOrder`: a list of detections, ordered by descending scale.
* `Greedy`: **the groups of the greedy strategy.**
* `Greedy.flatten_perm`, `Greedy.apart`, `Greedy.seeds_sublist`: nothing gets lost or is taken twice, and
  no seed is near to an earlier one.
* `Grouper.process_greedy`: **a grouper reports the greedy groups** with enough neighbors, whatever it
  has processed before.
-/

namespace HaarDetection

/-- **A list of detections, ordered by descending scale.** Detections of equal scale keep their order. -/
structure DescendingOrder (detections ordered : List Detection) : Prop where
  perm : ordered.Perm detections
  descending : ordered.Pairwise fun a b => a.scaleAtLeast b
  stable : ∀ d, ordered.filter (sameRank Detection.scaleAtLeast d) =
    detections.filter (sameRank Detection.scaleAtLeast d)

namespace DescendingOrder

variable {detections ordered ordered' : List Detection}

/-- There is one such order, which is found by sorting. -/
theorem mergeSort (detections : List Detection) :
    DescendingOrder detections (detections.mergeSort Detection.scaleAtLeast) where
  perm := List.mergeSort_perm _ _
  descending :=
    List.pairwise_mergeSort Detection.scaleAtLeast_trans Detection.scaleAtLeast_total _
  stable := mergeSort_filter Detection.scaleAtLeast_trans Detection.scaleAtLeast_total _

/-- There is no other. -/
theorem unique (h : DescendingOrder detections ordered) (h' : DescendingOrder detections ordered') :
    ordered = ordered' :=
  eq_of_pairwise_of_filter Detection.scaleAtLeast_total h.descending h'.descending
    (h.perm.trans h'.perm.symm) fun d => (h.stable d).trans (h'.stable d).symm

end DescendingOrder

/-- **The groups of the greedy strategy:** the first element takes all others near to it, then the first
one of those that are left does so, until none is left. -/
inductive Greedy {β : Type} (near : β → β → Bool) : List β → List (List β) → Prop
  /-- Nothing is left. -/
  | done : Greedy near [] []
  /-- The first element is a seed. -/
  | seed {seed : β} {rest group : List β} {groups : List (List β)}
    (hgroup : group.Perm (rest.filter (near seed)))
    (hrest : Greedy near (rest.filter fun other => !near seed other) groups) :
    Greedy near (seed :: rest) ((seed :: group) :: groups)

/-- The first elements of some groups. -/
def seeds {β : Type} (groups : List (List β)) : List β := groups.filterMap List.head?

namespace Greedy

variable {β : Type} {near : β → β → Bool} {xs : List β} {groups : List (List β)}

theorem clusters (near : β → β → Bool) (xs : List β) : Greedy near xs (clusters near xs) := by
  fun_induction HaarDetection.clusters near xs with
  | case1 => exact .done
  | case2 seed rest ih =>
    simp only [List.unattach_filter, List.unattach_attach] at ih
    exact .seed (List.reverse_perm _) ih

/-- **Every element is in one group.** -/
theorem flatten_perm (h : Greedy near xs groups) : groups.flatten.Perm xs := by
  induction h with
  | done => exact .nil
  | seed hgroup hrest ih =>
    rw [List.flatten_cons, List.cons_append]
    exact (hgroup.append ih).cons _ |>.trans ((List.filter_append_perm _ _).cons _)

/-- No group is empty. -/
theorem ne_nil (h : Greedy near xs groups) : ∀ group ∈ groups, group ≠ [] := by
  induction h with
  | done => exact fun _ hg => absurd hg List.not_mem_nil
  | seed hgroup hrest ih => exact List.forall_mem_cons.2 ⟨List.cons_ne_nil _ _, ih⟩

/-- The seeds are in order. -/
theorem seeds_sublist (h : Greedy near xs groups) : (seeds groups).Sublist xs := by
  induction h with
  | done => exact .slnil
  | seed hgroup hrest ih => exact (ih.trans List.filter_sublist).cons_cons _

/-- **No seed is near to an earlier one.** -/
theorem apart (h : Greedy near xs groups) :
    (seeds groups).Pairwise fun a b => near a b = false := by
  induction h with
  | done => exact .nil
  | @seed seed rest group groups hgroup hrest ih =>
    refine .cons ?_ ih
    intro other hother
    simpa using (List.mem_filter.1 (hrest.seeds_sublist.subset hother)).2

/-- **A seed comes first** of its group, and before everything in the groups after it. -/
theorem seed_first {R : β → β → Prop} (h : Greedy near xs groups) (hR : xs.Pairwise R) :
    (∀ group ∈ groups, ∀ seed ∈ group.head?, ∀ other ∈ group.tail, R seed other) ∧
      (seeds groups).Pairwise R := by
  refine ⟨?_, hR.sublist h.seeds_sublist⟩
  induction h with
  | done => exact fun _ hg => absurd hg List.not_mem_nil
  | seed hgroup hrest ih =>
    refine List.forall_mem_cons.2 ⟨?_, ih (hR.of_cons.sublist List.filter_sublist)⟩
    rintro _ ⟨⟩ other hother
    exact (List.pairwise_cons.1 hR).1 other (List.mem_filter.1 (hgroup.mem_iff.1 hother)).1

end Greedy

namespace Grouper

variable (g : Grouper)

/-- **What a grouper makes of some detections:** the groups, and a detection for each one with enough
neighbors. -/
structure Groups (detections : List Detection) (groups : List (List Detection)) : Prop where
  /-- The groups are greedy, and their seeds are in order. -/
  greedy : ∃ ordered, DescendingOrder detections ordered ∧ Greedy g.grouping.near ordered groups ∧
    (seeds groups).Sublist ordered
  /-- The loop empties the list of candidates. What it has collected then is what is reported. -/
  emptied : ∃ g', turn^[groups.length] (g.start detections) = ([], g') ∧
    g'.means.toList = (g.process detections).1
  /-- Every detection is in one group. -/
  perm : groups.flatten.Perm detections
  ne_nil : ∀ group ∈ groups, group ≠ []
  /-- No seed is near to an earlier one. -/
  apart : (seeds groups).Pairwise fun a b => g.grouping.near a b = false
  reported : (g.process detections).1 = (groups.filter (enough g.grouping)).map mergeCluster
  neighbors : (g.process detections).1.map (·.neighbors.toNat) =
    (groups.filter (enough g.grouping)).map totalNeighbors
  /-- The numbers of neighbors have 32 bits, so the groups with enough neighbors are counted right. -/
  bounded : ∀ group ∈ groups, totalNeighbors group < 2 ^ 32 ∧
    (enough g.grouping group = true ↔ g.grouping.minNeighbors.toNat ≤ totalNeighbors group)

/-- The groups are the clusters. -/
theorem groups_clustersOf {detections : List Detection} (hcount : totalNeighbors detections < 2 ^ 32) :
    g.Groups detections (g.grouping.clustersOf detections) := by
  set ordered := detections.mergeSort Detection.scaleAtLeast with hordered
  have horder : DescendingOrder detections ordered := .mergeSort detections
  have hgreedy : Greedy g.grouping.near ordered (g.grouping.clustersOf detections) := .clusters _ _
  have hperm := hgreedy.flatten_perm.trans horder.perm
  have hbound : ∀ group ∈ g.grouping.clustersOf detections, totalNeighbors group < 2 ^ 32 :=
    fun group hgroup => (totalNeighbors_le_of_mem hperm hgroup).trans_lt hcount
  have hreported : (g.process detections).1 =
      ((g.grouping.clustersOf detections).filter (enough g.grouping)).map mergeCluster := by
    rw [process_eq]
    rfl
  refine ⟨⟨ordered, horder, hgreedy, hgreedy.seeds_sublist⟩, ?_, hperm, hgreedy.ne_nil, hgreedy.apart,
    hreported, ?_, fun group hgroup => ⟨hbound group hgroup, enough_iff (hbound group hgroup)⟩⟩
  · refine ⟨_, g.start_eq detections ▸ turns_reverse { g with means := #[] } g.grouping rfl ordered, ?_⟩
    have hcandidates : ordered.reverse = (g.start detections).1 := by rw [start_eq]
    rw [hcandidates]
    rfl
  · rw [hreported, List.map_map]
    exact List.map_congr_left fun group hgroup =>
      toNat_neighborCount (hbound group (List.mem_filter.1 hgroup).1)

/-- A grouper after some earlier calls, each of which has left some means that nobody has asked for. -/
def after (earlier : List (List Detection × Array Detection)) : Grouper :=
  earlier.foldl (fun g call => { (g.process call.1).2 with means := call.2 }) g

theorem after_grouping (earlier : List (List Detection × Array Detection)) :
    (g.after earlier).grouping = g.grouping := by
  induction earlier generalizing g with
  | nil => rfl
  | cons call rest ih =>
    refine (ih _).trans ?_
    simp only [process_eq]

/-- The grouper with another number of neighbors that a group needs. -/
def withMinNeighbors (n : UInt32) : Grouper :=
  { g with grouping := { g.grouping with minNeighbors := n } }

/-- **To ask for more neighbors** is to filter what is reported. -/
theorem process_withMinNeighbors {n : UInt32} (hn : g.grouping.minNeighbors ≤ n)
    (detections : List Detection) :
    ((g.withMinNeighbors n).process detections).1 =
      (g.process detections).1.filter fun d => n ≤ d.neighbors := by
  simp only [process_eq, Grouping.merge, List.filter_map, List.filter_filter, withMinNeighbors]
  congr 1
  refine List.filter_congr ?_
  intro group _
  have hneighbors : (mergeCluster group).neighbors = neighborCount group := rfl
  rw [Bool.eq_iff_iff]
  simp only [Function.comp_apply, Bool.and_eq_true, decide_eq_true_eq, hneighbors]
  exact ⟨fun h => ⟨h, UInt32.le_trans hn h⟩, fun h => h.1⟩

/-- **Clustering is greedy, and loses nothing.** Take detections that stand for fewer than `2 ^ 32`
windows. A grouper makes greedy groups of them and empties its list of candidates. If no group is left
out, then what is reported stands for as many windows as the detections. To ask for more neighbors only
filters what is reported. What the grouper has processed before does not matter. The neighbors are added
up without an overflow, and so are the areas, unless those of two rectangles are too large together;
how much these overlap is then told from the sum that has wrapped around. -/
theorem process_greedy (detections : List Detection) (hcount : totalNeighbors detections < 2 ^ 32) :
    (∃ groups, g.Groups detections groups ∧
      ((∀ group ∈ groups, enough g.grouping group = true) →
        totalNeighbors (g.process detections).1 = totalNeighbors detections)) ∧
    (∀ n, g.grouping.minNeighbors ≤ n → ((g.withMinNeighbors n).process detections).1 =
      (g.process detections).1.filter fun d => n ≤ d.neighbors) ∧
    (∀ earlier, (g.after earlier).process detections = g.process detections) ∧
    (∀ g' : Grouper, g'.grouping = g.grouping → g'.process detections = g.process detections) ∧
    ((detections.Pairwise fun a b => a.rect.area + b.rect.area < 2 ^ 64) → g.Fits detections) := by
  have hsame : ∀ g' : Grouper, g'.grouping = g.grouping →
      g'.process detections = g.process detections := by
    intro g' hg'
    rw [process_eq, process_eq, hg']
  have hgroups := g.groups_clustersOf hcount
  refine ⟨⟨_, hgroups, ?_⟩, fun n hn => g.process_withMinNeighbors hn detections,
    fun earlier => hsame _ (g.after_grouping earlier), hsame,
    fun hareas => (fits_iff hareas).2 fun group hgroup => (hgroups.bounded group hgroup).1⟩
  intro hall
  rw [totalNeighbors, hgroups.neighbors, List.filter_eq_self.2 hall, ← totalNeighbors_flatten]
  exact totalNeighbors_perm hgroups.perm

/-- Two windows next to each other, and one far away. -/
def crowd : List Detection :=
  [.ofWindow ⟨10, 10, 24, 24⟩ 1, .ofWindow ⟨100, 100, 24, 24⟩ 1, .ofWindow ⟨12, 10, 24, 24⟩ 1.5]

/-- They are grouped by a fresh grouper, and by one that has grouped them before. What is reported stands
for all three, and nothing wraps around. -/
theorem process_greedy_crowd : totalNeighbors crowd < 2 ^ 32 ∧
    (∃ groups, ({} : Grouper).Groups crowd groups) ∧
    totalNeighbors (({} : Grouper).process crowd).1 = 3 ∧
    (({} : Grouper).after [(crowd, crowd.toArray)]).process crowd = ({} : Grouper).process crowd ∧
    ({} : Grouper).Fits crowd := by
  have hcount : totalNeighbors crowd < 2 ^ 32 := by decide
  obtain ⟨⟨groups, hgroups, hall⟩, -, hafter, -, hfits⟩ := process_greedy {} crowd hcount
  -- a group that is not empty has the one neighbor that it needs
  have henough : ∀ group ∈ groups, enough ({} : Grouping) group = true := by
    intro group hgroup
    obtain ⟨d, hd⟩ := List.exists_mem_of_ne_nil _ (hgroups.ne_nil group hgroup)
    have hmem : d ∈ crowd := hgroups.perm.mem_iff.1 (List.mem_flatten.2 ⟨group, hgroup, hd⟩)
    have hone : 1 ≤ d.neighbors.toNat := (by decide : ∀ d ∈ crowd, 1 ≤ d.neighbors.toNat) d hmem
    exact (hgroups.bounded group hgroup).2.2 (hone.trans (neighbors_le_totalNeighbors hd))
  exact ⟨hcount, ⟨groups, hgroups⟩, hall henough, hafter _, hfits (by decide)⟩

end Grouper

end HaarDetection
