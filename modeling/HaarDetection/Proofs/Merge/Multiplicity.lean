import HaarDetection.Proofs.Geometry.Overlap
import HaarDetection.Proofs.Merge.Averages
import HaarDetection.Proofs.Merge.Blocks
import HaarDetection.Proofs.Merge.Scales

/-!
# Neighbors are multiplicities

A detection counts as often as it has neighbors. Hence it can be replaced by as many copies of it with
one neighbor each. The copies stay together when candidates are sorted, and join the same group, as each
of them overlaps the others completely; the sums over the group do not change.

* `Detection.copies`: the windows that a detection stands for.
* `SameSums`: two groups with equal sums. `SameSums.rect_eq` and `SameSums.mean_eq`: **they have the same
  mean**, as far as their sums are exact.
* `clustersOf_copies`: **the groups with copies in place of a detection** have the sums of the groups
  without.
* `Grouper.process_copies`: **neighbors are multiplicities.**
-/

namespace HaarDetection

/-- **The windows that a detection stands for**, with one neighbor each. -/
def Detection.copies (d : Detection) : List Detection :=
  List.replicate d.neighbors.toNat { d with neighbors := 1 }

theorem Detection.eq_of_mem_copies {d e : Detection} (h : e ∈ d.copies) :
    e = { d with neighbors := 1 } := List.eq_of_mem_replicate h

section Sums

variable {xs ys : List Detection}

theorem isUndefined_real (x : ℝ) : Scalar.isUndefined x = false := rfl

theorem combine_real (op : ℝ → ℝ → ℝ) (a b : ℝ) : combine op a b = some (op a b) := rfl

/-- **The sum of scales in exact arithmetic.** It is indeterminate if one of the scales is. -/
theorem addScales_real (ds : List Detection) (total : ℝ) : addScales ds total =
    if ∀ d ∈ ds, d.scale.single?.isSome then some (total + weightedSum (fun d => (d.scaleValue : ℝ)) ds)
    else none := by
  induction ds generalizing total with
  | nil => simp [addScales, weightedSum]
  | cons d rest ih =>
    rw [addScales, isUndefined_real, if_neg Bool.false_ne_true]
    cases hs : d.scale.single? with
    | none => simp [hs]
    | some s =>
      have hvalue : (Scalar.ofSingle s : ℝ) = d.scaleValue := by
        rw [Detection.scaleValue, hs]
        rfl
      simp only [Option.bind_eq_bind, Option.bind_some, combine_real, ih, hvalue, Scalar.ofNat_real,
        weightedSum_cons, List.forall_mem_cons, hs, Option.isSome_some, true_and, add_assoc]

/-- A mean is known from its coordinates and its scale. -/
theorem Mean.ext_of {α : Type} {m m' : Mean α} (h : ∀ c : Coordinate, c.ofMean m = c.ofMean m')
    (hscale : m.scale = m'.scale) : m = m' := by
  obtain ⟨x, y, width, height, scale⟩ := m
  obtain ⟨x', y', width', height', scale'⟩ := m'
  obtain rfl : x = x' := h .left
  obtain rfl : y = y' := h .top
  obtain rfl : width = width' := h .width
  obtain rfl : height = height' := h .height
  obtain rfl : scale = scale' := hscale
  rfl

/-- A rounded mean is known from its rounded coordinates. -/
theorem Mean.rect_congr {m m' : Mean Float}
    (h : ∀ c : Coordinate, nearestWithin c.least c.greatest (c.ofMean m) =
      nearestWithin c.least c.greatest (c.ofMean m')) : m.rect = m'.rect := by
  have hx := congrArg Int32.ofInt (h .left)
  have hy := congrArg Int32.ofInt (h .top)
  have hwidth := congrArg (fun z => UInt32.ofNat z.toNat) (h .width)
  have hheight := congrArg (fun z => UInt32.ofNat z.toNat) (h .height)
  rw [Mean.rect, Mean.rect, Rect.mk.injEq]
  exact ⟨hx, hy, hwidth, hheight⟩

/-- **Two groups with equal sums**, each detection counted as often as it has neighbors. -/
structure SameSums (xs ys : List Detection) : Prop where
  neighbors : totalNeighbors xs = totalNeighbors ys
  sum : ∀ c : Coordinate, c.sum xs = c.sum ys
  scale : weightedSum (fun d => (d.scaleValue : ℝ)) xs = weightedSum (fun d => (d.scaleValue : ℝ)) ys
  determinate : (∀ d ∈ xs, d.scale.single?.isSome) ↔ ∀ d ∈ ys, d.scale.single?.isSome

namespace SameSums

theorem of_perm (h : xs.Perm ys) : SameSums xs ys where
  neighbors := totalNeighbors_perm h
  sum _ := weightedSum_perm _ h
  scale := weightedSum_perm _ h
  determinate := forall_congr' fun _ => by rw [h.mem_iff]

theorem symm (h : SameSums xs ys) : SameSums ys xs :=
  ⟨h.neighbors.symm, fun c => (h.sum c).symm, h.scale.symm, h.determinate.symm⟩

theorem trans {zs : List Detection} (h : SameSums xs ys) (h' : SameSums ys zs) : SameSums xs zs :=
  ⟨h.neighbors.trans h'.neighbors, fun c => (h.sum c).trans (h'.sum c), h.scale.trans h'.scale,
    h.determinate.trans h'.determinate⟩

theorem append {xs' ys' : List Detection} (h : SameSums xs ys) (h' : SameSums xs' ys') :
    SameSums (xs ++ xs') (ys ++ ys') where
  neighbors := by rw [totalNeighbors_append, totalNeighbors_append, h.neighbors, h'.neighbors]
  sum c := by
    have hsum : c.sum xs + c.sum xs' = c.sum ys + c.sum ys' := by rw [h.sum, h'.sum]
    rwa [Coordinate.sum, Coordinate.sum, weightedSum_append, weightedSum_append]
  scale := by rw [weightedSum_append, weightedSum_append, h.scale, h'.scale]
  determinate := by rw [List.forall_mem_append, List.forall_mem_append, h.determinate, h'.determinate]

/-- Blocks with equal sums can take each other's places. -/
theorem flatMap {γ : Type} {expand expand' : γ → List Detection}
    (h : ∀ x, SameSums (expand x) (expand' x)) (items : List γ) :
    SameSums (items.flatMap expand) (items.flatMap expand') := by
  induction items with
  | nil => exact .of_perm .nil
  | cons x rest ih => exact (h x).append ih

/-- **A detection counts as often as it has neighbors.** -/
theorem copies {d : Detection} (hneighbors : 1 ≤ d.neighbors) : SameSums d.copies [d] where
  neighbors := by simp [totalNeighbors, Detection.copies]
  sum c := by simp [Coordinate.sum, weightedSum, Detection.copies, mul_comm]
  scale := by simp [weightedSum, Detection.copies, Detection.scaleValue, mul_comm]
  determinate := by
    rw [Detection.copies, List.forall_mem_replicate,
      or_iff_right (Nat.ne_of_gt (UInt32.le_iff_toNat_le.1 hneighbors)), List.forall_mem_singleton]

theorem neighborCount_eq (h : SameSums xs ys) : neighborCount xs = neighborCount ys := by
  rw [HaarDetection.neighborCount_eq, HaarDetection.neighborCount_eq, h.neighbors]

/-- **They have the same mean** in exact arithmetic. -/
theorem mean_eq (h : SameSums xs ys) : (Mean.ofCluster xs : Mean ℝ) = Mean.ofCluster ys := by
  refine Mean.ext_of (fun c => ?_) ?_
  · rw [Coordinate.ofMean_ofCluster_real, Coordinate.ofMean_ofCluster_real, h.sum, h.neighborCount_eq]
  · simp only [Mean.ofCluster, addScales_real, h.determinate, h.scale, h.neighborCount_eq]

/-- **They have the same mean rectangle** in double precision, if their sums are exact. -/
theorem rect_eq (h : SameSums xs ys) (hcount : totalNeighbors xs < 2 ^ 32) (hxs : ExactSums xs)
    (hys : ExactSums ys) : (mergeCluster xs).rect = (mergeCluster ys).rect := by
  have hsmall : totalNeighbors xs ≤ 2 ^ 53 := hcount.le.trans (by norm_num)
  refine Mean.rect_congr fun c => ?_
  rw [Coordinate.ofMean_ofCluster, Coordinate.ofMean_ofCluster, ← h.neighborCount_eq,
    toNat_neighborCount hcount]
  have hsum := Coordinate.holds_sum (hys c) (h.neighbors ▸ hsmall)
  rw [← h.sum] at hsum
  refine nearestWithin_div_congr (Coordinate.holds_sum (hxs c) hsmall) hsum (holds_ofNat hsmall) ?_ _ _
  intro hzero
  -- without any neighbor the sum is zero, too
  obtain ⟨hlo, hhi⟩ := Coordinate.sum_between (c := c) fun d (_ : d ∈ xs) => c.ofRect_mem d.rect
  rw [Nat.cast_eq_zero] at hzero
  rw [hzero, Nat.cast_zero, mul_zero] at hlo hhi
  exact_mod_cast le_antisymm hhi hlo

end SameSums

end Sums

section Copies

variable (g : Grouping) {d : Detection} {block : List Detection}

/-- What stands at a place of a list, a block if the place is a hole. -/
def fill (block : List Detection) : Option Detection → List Detection
  | none => block
  | some d => [d]

theorem flatMap_fill (before after block : List Detection) :
    (before.map some ++ none :: after.map some).flatMap (fill block) = before ++ (block ++ after) := by
  have hsome : ∀ ds : List Detection, (ds.map some).flatMap (fill block) = ds := by
    intro ds
    rw [List.flatMap_map]
    exact List.flatMap_singleton' ds
  rw [List.flatMap_append, List.flatMap_cons, hsome, hsome, fill]

/-- **The clusters of a list with a hole**, filled by a block that stands for a detection. -/
theorem clustersOf_fill (hblock : Block g.near d block)
    (hrank : ∀ b ∈ block, sameRank Detection.scaleAtLeast d b = true) (items : List (Option Detection)) :
    List.Forall₂ (fun group filled => filled.Perm (group.flatMap (fill block)))
      (clusters (fun x y => g.near (x.getD d) (y.getD d))
        (items.mergeSort fun x y => (x.getD d).scaleAtLeast (y.getD d)))
      (g.clustersOf (items.flatMap (fill block))) := by
  have hfill : ∀ x, ∀ b ∈ fill block x, sameRank Detection.scaleAtLeast (x.getD d) b = true := by
    intro x b hb
    cases x with
    | none => exact hrank b hb
    | some e =>
      rw [List.mem_singleton.1 hb]
      exact sameRank_self Detection.scaleAtLeast_total e
  have hblocks : ∀ x : Option Detection, Block g.near (x.getD d) (fill block x) := by
    intro x
    cases x with
    | none => exact hblock
    | some e => exact Block.single e
  rw [Grouping.clustersOf, mergeSort_flatMap Detection.scaleAtLeast_trans Detection.scaleAtLeast_total
    (fun b => ⟨some b, rfl⟩) hfill]
  exact clusters_flatMap fun x _ => hblocks x

/-- **Copies stand for a detection:** each of them overlaps the others completely. -/
theorem block_copies (harea : 0 < d.rect.area) (hneighbors : 1 ≤ d.neighbors)
    (hiou : Float32.le g.minIou 1 = true) : Block g.near d d.copies where
  ne_nil := by
    rw [Detection.copies, Ne, List.replicate_eq_nil_iff]
    exact Nat.ne_of_gt (UInt32.le_iff_toNat_le.1 hneighbors)
  takes b hb c := by rw [Detection.eq_of_mem_copies hb]; rfl
  taken b hb c := by rw [Detection.eq_of_mem_copies hb]; rfl
  together b hb := by
    rw [Detection.eq_of_mem_copies (List.mem_of_mem_tail hb), Grouping.near, Rect.iou_self harea]
    exact hiou

/-- **The groups with copies in place of a detection** have the sums of the groups without. -/
theorem clustersOf_copies (harea : 0 < d.rect.area) (hneighbors : 1 ≤ d.neighbors)
    (hiou : Float32.le g.minIou 1 = true) (before after : List Detection) :
    List.Forall₂ SameSums (g.clustersOf (before ++ (d.copies ++ after)))
      (g.clustersOf (before ++ d :: after)) := by
  have hrank : ∀ b ∈ d.copies, sameRank Detection.scaleAtLeast d b = true := by
    intro b hb
    rw [Detection.eq_of_mem_copies hb]
    exact sameRank_self Detection.scaleAtLeast_total d
  have hcopies := clustersOf_fill g (block_copies g harea hneighbors hiou) hrank
    (before.map some ++ none :: after.map some)
  have hsingle := clustersOf_fill g (.single d)
    (List.forall_mem_singleton.2 (sameRank_self Detection.scaleAtLeast_total d))
    (before.map some ++ none :: after.map some)
  rw [flatMap_fill] at hcopies hsingle
  refine (forall₂_common hcopies hsingle).imp ?_
  rintro xs ys ⟨group, hxs, hys⟩
  have hfill : ∀ x, SameSums (fill d.copies x) (fill [d] x) := by
    intro x
    cases x with
    | none => exact .copies hneighbors
    | some e => exact .of_perm .rfl
  exact (SameSums.of_perm hxs).trans ((SameSums.flatMap hfill group).trans (SameSums.of_perm hys).symm)

end Copies

/-- **The means of the groups that are reported**, before they are rounded. -/
def Grouping.means (α : Type) [Scalar α] (g : Grouping) (detections : List Detection) :
    List (Mean α) :=
  ((g.clustersOf detections).filter (Grouper.enough g)).map Mean.ofCluster

namespace Grouper

variable (g : Grouper)

/-- What fits with copies in place of a detection fits without: there are fewer areas to add up. -/
theorem pairwise_areas_of_copies {before after : List Detection} {d : Detection}
    (hneighbors : 1 ≤ d.neighbors) (h : (before ++ (d.copies ++ after)).Pairwise fun a b =>
      a.rect.area + b.rect.area < 2 ^ 64) :
    (before ++ d :: after).Pairwise fun a b => a.rect.area + b.rect.area < 2 ^ 64 := by
  obtain ⟨n, hn⟩ : ∃ n, d.neighbors.toNat = n + 1 :=
    Nat.exists_eq_add_of_le' (UInt32.le_iff_toNat_le.1 hneighbors)
  have hcopies : d.copies.map (·.rect) = d.rect :: List.replicate n d.rect := by
    rw [Detection.copies, hn, List.map_replicate, List.replicate_succ]
  have hsub : ((before ++ d :: after).map (·.rect)).Sublist
      ((before ++ (d.copies ++ after)).map (·.rect)) := by
    simp only [List.map_append, List.map_cons, hcopies, List.cons_append]
    exact ((List.sublist_append_right _ _).cons_cons _).append_left _
  have hrects : ((before ++ (d.copies ++ after)).map (·.rect)).Pairwise fun r r' =>
      r.area + r'.area < 2 ^ 64 := List.pairwise_map.2 h
  exact List.pairwise_map.1 (hrects.sublist hsub)

/-- Copies in place of a detection stand for as many windows. -/
theorem totalNeighbors_copies (before after : List Detection) {d : Detection}
    (hneighbors : 1 ≤ d.neighbors) :
    totalNeighbors (before ++ (d.copies ++ after)) = totalNeighbors (before ++ d :: after) := by
  have hcopies := (SameSums.copies hneighbors).neighbors
  rw [← List.singleton_append (l := after)]
  simp only [totalNeighbors_append, hcopies]

/-- **Neighbors are multiplicities.** Take a detection that has pixels and some neighbors, among others
before and after it, and put as many copies of it with one neighbor each in its place. Let the numbers
of neighbors add up to less than `2 ^ 32`, and the coordinates within each group to less than `2 ^ 53`.
Then a grouper reports the same rectangles with the same numbers of neighbors as before, in the same
order, and the scales are the same in exact arithmetic. This holds even if the areas of two copies wrap
around when they are added up, and nothing does, with the copies or without, if no two areas among them
are too large together. -/
theorem process_copies (before after : List Detection) {d : Detection} (harea : 0 < d.rect.area)
    (hneighbors : 1 ≤ d.neighbors) (hiou : Float32.le g.grouping.minIou 1 = true)
    (hcount : totalNeighbors (before ++ d :: after) < 2 ^ 32)
    (hsums : ∀ group ∈ g.grouping.clustersOf (before ++ d :: after), ExactSums group)
    (hsums' : ∀ group ∈ g.grouping.clustersOf (before ++ (d.copies ++ after)), ExactSums group) :
    (g.process (before ++ (d.copies ++ after))).1.map (fun e => (e.rect, e.neighbors)) =
        (g.process (before ++ d :: after)).1.map (fun e => (e.rect, e.neighbors)) ∧
      g.grouping.means ℝ (before ++ (d.copies ++ after)) =
        g.grouping.means ℝ (before ++ d :: after) ∧
      ((before ++ (d.copies ++ after)).Pairwise (fun a b => a.rect.area + b.rect.area < 2 ^ 64) →
        g.Fits (before ++ (d.copies ++ after)) ∧ g.Fits (before ++ d :: after)) := by
  have hsame := clustersOf_copies g.grouping harea hneighbors hiou before after
  have henough : ∀ {xs ys}, SameSums xs ys → enough g.grouping xs = enough g.grouping ys := by
    intro xs ys h
    rw [enough, enough, h.neighborCount_eq]
  have hbounded : ∀ group ∈ g.grouping.clustersOf (before ++ d :: after),
      totalNeighbors group < 2 ^ 32 := fun group hgroup =>
    ((g.groups_clustersOf hcount).bounded group hgroup).1
  refine ⟨?_, map_filter_congr₂ (hsame.imp fun xs ys h => ⟨henough h, h.mean_eq⟩), ?_⟩
  · have hbound : ∀ group ∈ g.grouping.clustersOf (before ++ d :: after),
        ExactSums group ∧ totalNeighbors group < 2 ^ 32 := fun group hgroup =>
      ⟨hsums group hgroup, hbounded group hgroup⟩
    have hcopies : List.Forall₂ (fun ys xs => ExactSums xs ∧ SameSums xs ys)
        (g.grouping.clustersOf (before ++ d :: after))
        (g.grouping.clustersOf (before ++ (d.copies ++ after))) :=
      .flip ((List.forall₂_and_left _ _).2 ⟨hsums', hsame⟩)
    have hboth := ((List.forall₂_and_left _ _).2 ⟨hbound, hcopies⟩).flip
    rw [process_eq, process_eq, Grouping.merge, Grouping.merge, List.map_map, List.map_map]
    refine map_filter_congr₂ (hboth.imp ?_)
    rintro xs ys ⟨⟨hys, hlt⟩, hxs, h⟩
    rw [← h.neighbors] at hlt
    exact ⟨henough h, Prod.ext (h.rect_eq hlt hxs hys) h.neighborCount_eq⟩
  · intro hareas
    have hgroups := g.groups_clustersOf ((totalNeighbors_copies before after hneighbors).trans_lt hcount)
    exact ⟨(fits_iff hareas).2 fun group hgroup => (hgroups.bounded group hgroup).1,
      (fits_iff (pairwise_areas_of_copies hneighbors hareas)).2 hbounded⟩

/-- A window that is found three times, next to another one and after one far away. -/
theorem process_copies_pair :
    let lone : Detection := ⟨⟨200, 200, 66, 66⟩, .ofSingle 2.75, 1⟩
    let found : Detection := ⟨⟨-3, -8, 24, 24⟩, .ofSingle 1, 3⟩
    let other : Detection := ⟨⟨-5, -6, 24, 26⟩, .ofSingle 1, 1⟩
    0 < found.rect.area ∧ 1 ≤ found.neighbors ∧ Float32.le ({} : Grouping).minIou 1 = true ∧
      totalNeighbors [lone, found, other] < 2 ^ 32 ∧
      (∀ group ∈ ({} : Grouping).clustersOf [lone, found, other], ExactSums group) ∧
      (∀ group ∈ ({} : Grouping).clustersOf ([lone] ++ (found.copies ++ [other])), ExactSums group) ∧
      (({} : Grouper).process ([lone] ++ (found.copies ++ [other]))).1.map
          (fun e => (e.rect, e.neighbors)) =
        (({} : Grouper).process [lone, found, other]).1.map (fun e => (e.rect, e.neighbors)) ∧
      ({} : Grouper).Fits ([lone] ++ (found.copies ++ [other])) ∧
      ({} : Grouper).Fits [lone, found, other] := by
  intro lone found other
  have harea : 0 < found.rect.area := by decide
  have hneighbors : 1 ≤ found.neighbors := by decide
  have hiou : Float32.le ({} : Grouping).minIou 1 = true := by decide +kernel
  have hcount : totalNeighbors [lone, found, other] < 2 ^ 32 := by decide
  have hsums := ({} : Grouping).exactSums_of_natAbs [lone, found, other]
    fun c => by cases c <;> decide +kernel
  have hsums' := ({} : Grouping).exactSums_of_natAbs ([lone] ++ (found.copies ++ [other]))
    fun c => by cases c <;> decide +kernel
  obtain ⟨hsame, -, hfits⟩ :=
    process_copies {} [lone] [other] harea hneighbors hiou hcount hsums hsums'
  exact ⟨harea, hneighbors, hiou, hcount, hsums, hsums', hsame, hfits (by decide)⟩

end Grouper

end HaarDetection
