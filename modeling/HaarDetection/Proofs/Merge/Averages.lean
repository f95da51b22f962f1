import HaarDetection.Proofs.Merge.Greedy
import HaarDetection.Proofs.Number.NearestInteger

/-!
# The mean rectangle of a group

Each coordinate of the mean rectangle is the mean of that coordinate over the group, a detection counted
as often as it has neighbors, rounded to an integer. While the sums stay below `2 ^ 53` double precision
holds them exactly, and only their quotient is rounded.

* `Coordinate`: the four numbers that a rectangle is made of.
* `weightedSum`, `Coordinate.sum`, `Coordinate.mean`: sums and means with neighbors as weights.
* `ExactSums`: **what double precision can add up exactly.**
* `Coordinate.holds_mean`: the mean in double precision.
* `Coordinate.Averaged`: **a coordinate of the mean rectangle.**
* `Grouper.process_averages`: **what a grouper reports of a group** has such coordinates.
-/

namespace HaarDetection

/-- The numbers that a rectangle is made of. -/
inductive Coordinate
  | left
  | top
  | width
  | height
deriving DecidableEq

section WeightedSum

variable {R : Type} [Semiring R] {xs ys : List Detection}

/-- **The sum of some values of detections**, each counted as often as the detection has neighbors. -/
def weightedSum (value : Detection → R) (ds : List Detection) : R :=
  (ds.map fun d => value d * d.neighbors.toNat).sum

variable (value : Detection → R)

theorem weightedSum_append (xs ys : List Detection) :
    weightedSum value (xs ++ ys) = weightedSum value xs + weightedSum value ys := by
  simp [weightedSum]

theorem weightedSum_cons (d : Detection) (ds : List Detection) :
    weightedSum value (d :: ds) = value d * d.neighbors.toNat + weightedSum value ds := by
  simp [weightedSum]

theorem weightedSum_perm (h : xs.Perm ys) : weightedSum value xs = weightedSum value ys :=
  (h.map _).sum_eq

/-- In exact arithmetic the sum that is added up from the left is this one. -/
theorem weightedTotal_real (value : Detection → ℝ) (ds : List Detection) :
    weightedTotal value ds = weightedSum value ds := by
  simp only [weightedTotal, Scalar.sum_real, Scalar.ofNat_real, weightedSum]

theorem weightedTotal_concat {α : Type} [Scalar α] (value : Detection → α) (xs : List Detection)
    (d : Detection) : weightedTotal value (xs ++ [d]) =
      weightedTotal value xs + value d * Scalar.ofNat d.neighbors.toNat := by
  simp [weightedTotal, Scalar.sum]

end WeightedSum

namespace Coordinate

variable (c : Coordinate) {group : List Detection}

/-- A coordinate of a rectangle. -/
def ofRect : Coordinate → Rect → ℤ
  | left, r => r.left
  | top, r => r.top
  | width, r => r.width.toNat
  | height, r => r.height.toNat

/-- A coordinate of a mean before it is rounded. -/
def ofMean {α : Type} : Coordinate → Mean α → α
  | left, m => m.x
  | top, m => m.y
  | width, m => m.width
  | height, m => m.height

/-- The least number that a rectangle can hold. -/
def least : Coordinate → ℤ
  | left | top => -0x80000000
  | width | height => 0

/-- The greatest number that a rectangle can hold. -/
def greatest : Coordinate → ℤ
  | left | top => 0x7fffffff
  | width | height => 0xffffffff

theorem ofRect_mem (r : Rect) : c.least ≤ c.ofRect r ∧ c.ofRect r ≤ c.greatest := by
  have hx := And.intro r.x.le_toInt r.x.toInt_lt
  have hy := And.intro r.y.le_toInt r.y.toInt_lt
  have hwidth := r.width.toNat_lt
  have hheight := r.height.toNat_lt
  cases c <;> simp only [ofRect, least, greatest, Rect.left, Rect.top] <;> omega

/-- **A rectangle is known from its coordinates.** -/
theorem rect_ext {a b : Rect} (h : ∀ c : Coordinate, c.ofRect a = c.ofRect b) : a = b := by
  obtain ⟨x, y, w, h'⟩ := a
  obtain ⟨x', y', w', h''⟩ := b
  obtain rfl : x = x' := Int32.toInt_inj.1 (h left)
  obtain rfl : y = y' := Int32.toInt_inj.1 (h top)
  obtain rfl : w = w' := UInt32.toNat_inj.1 (Int.ofNat_inj.1 (h width))
  obtain rfl : h' = h'' := UInt32.toNat_inj.1 (Int.ofNat_inj.1 (h height))
  rfl

theorem toNat_ofNat_toNat {z : ℤ} (hlo : 0 ≤ z) (hhi : z ≤ 0xffffffff) :
    ((UInt32.ofNat z.toNat).toNat : ℤ) = z := by
  have hlt : z.toNat < UInt32.size := (by omega : z.toNat < 2 ^ 32)
  rw [UInt32.toNat_ofNat_of_lt' hlt, Int.toNat_of_nonneg hlo]

/-- A coordinate of a rounded mean is the rounded coordinate. -/
theorem ofRect_rect {α : Type} [Scalar α] (m : Mean α)
    (hlo : c.least ≤ Scalar.nearestWithin c.least c.greatest (c.ofMean m))
    (hhi : Scalar.nearestWithin c.least c.greatest (c.ofMean m) ≤ c.greatest) :
    c.ofRect m.rect = Scalar.nearestWithin c.least c.greatest (c.ofMean m) := by
  cases c <;> simp only [least, greatest, ofMean] at hlo hhi ⊢
  · exact Int32.toInt_ofInt_of_le (by omega) (by omega)
  · exact Int32.toInt_ofInt_of_le (by omega) (by omega)
  · exact toNat_ofNat_toNat hlo hhi
  · exact toNat_ofNat_toNat hlo hhi

theorem ofMean_ofCluster {α : Type} [Scalar α] (group : List Detection) :
    c.ofMean (Mean.ofCluster group : Mean α) =
      weightedTotal (fun d => Scalar.ofInt (c.ofRect d.rect)) group /
        Scalar.ofNat (neighborCount group).toNat := by
  cases c <;> rfl

/-- The sum of a coordinate over some detections. -/
def sum (ds : List Detection) : ℤ := weightedSum (fun d => c.ofRect d.rect) ds

/-- **The mean of a coordinate** over some detections, each counted as often as it has neighbors. -/
def mean (ds : List Detection) : ℚ := c.sum ds / totalNeighbors ds

variable {c}

/-- A coordinate of some detections that double precision can add up exactly: the terms and the running
sums stay below `2 ^ 53`. -/
structure ExactSum (c : Coordinate) (ds : List Detection) : Prop where
  term : ∀ d ∈ ds, (c.ofRect d.rect * d.neighbors.toNat).natAbs < 2 ^ 53
  running : ∀ part, part <+: ds → (c.sum part).natAbs < 2 ^ 53

theorem ExactSum.of_append {xs ys : List Detection} (h : c.ExactSum (xs ++ ys)) : c.ExactSum xs :=
  ⟨fun d hd => h.term d (List.mem_append_left _ hd),
    fun part hpart => h.running part (hpart.trans (List.prefix_append _ _))⟩

/-- **The sum of a coordinate is exact** in double precision. -/
theorem holds_sum (h : c.ExactSum group) (hcount : totalNeighbors group ≤ 2 ^ 53) :
    Holds (weightedTotal (fun d => Scalar.ofInt (c.ofRect d.rect)) group) (c.sum group) := by
  induction group using List.reverseRecOn with
  | nil =>
    have hzero : Holds (Scalar.zero : Float) ((0 : ℤ) : ℚ) := holds_ofInt (by decide)
    exact hzero
  | append_singleton xs d ih =>
    rw [totalNeighbors_append] at hcount
    have hd : totalNeighbors [d] = d.neighbors.toNat := rfl
    have hxs := ih h.of_append (by omega)
    have hvalue : (c.ofRect d.rect).natAbs ≤ 2 ^ 53 := by
      have := c.ofRect_mem d.rect
      cases c <;> simp only [least, greatest] at this <;> omega
    have hterm : Holds (Scalar.ofInt (c.ofRect d.rect) * Scalar.ofNat d.neighbors.toNat)
        (c.ofRect d.rect * d.neighbors.toNat : ℤ) :=
      (holds_ofInt hvalue).mul (holds_ofNat (by omega)) (by push_cast; rfl)
        (h.term d (List.mem_append_right _ List.mem_cons_self)).le
    rw [weightedTotal_concat]
    refine hxs.add hterm ?_ (h.running _ (List.prefix_refl _)).le
    rw [sum, sum, weightedSum_append, weightedSum_cons]
    simp [weightedSum]

/-- A sum of weighted values within bounds. -/
theorem sum_between {lo hi : ℤ} (h : ∀ d ∈ group, lo ≤ c.ofRect d.rect ∧ c.ofRect d.rect ≤ hi) :
    lo * totalNeighbors group ≤ c.sum group ∧ c.sum group ≤ hi * totalNeighbors group := by
  induction group with
  | nil => simp [sum, weightedSum, totalNeighbors]
  | cons d rest ih =>
    obtain ⟨hlo, hhi⟩ := ih fun d' hd' => h d' (List.mem_cons_of_mem _ hd')
    obtain ⟨hd, hd'⟩ := h d List.mem_cons_self
    have hn : (0 : ℤ) ≤ d.neighbors.toNat := Int.natCast_nonneg _
    rw [sum, weightedSum_cons, totalNeighbors_cons]
    push_cast
    rw [mul_add, mul_add]
    exact ⟨add_le_add (mul_le_mul_of_nonneg_right hd hn) hlo,
      add_le_add (mul_le_mul_of_nonneg_right hd' hn) hhi⟩

/-- **The mean is between the bounds** of a group. -/
theorem mean_between {lo hi : ℤ} (hpos : 0 < totalNeighbors group)
    (h : ∀ d ∈ group, lo ≤ c.ofRect d.rect ∧ c.ofRect d.rect ≤ hi) :
    (lo : ℚ) ≤ c.mean group ∧ c.mean group ≤ hi := by
  obtain ⟨hlo, hhi⟩ := sum_between h
  have hn : (0 : ℚ) < totalNeighbors group := by exact_mod_cast hpos
  rw [mean, le_div_iff₀ hn, div_le_iff₀ hn]
  exact ⟨by exact_mod_cast hlo, by exact_mod_cast hhi⟩

/-- **The mean in double precision** is nearest to the exact one. -/
theorem holds_mean (h : c.ExactSum group) (hpos : 0 < totalNeighbors group)
    (hcount : totalNeighbors group < 2 ^ 32) :
    ∃ q, Holds (c.ofMean (Mean.ofCluster group)) q ∧ Nearest .binary64 (c.mean group) q := by
  have hsmall : totalNeighbors group ≤ 2 ^ 53 := hcount.le.trans (by norm_num)
  rw [ofMean_ofCluster, toNat_neighborCount hcount]
  have hn : (totalNeighbors group : ℚ) ≠ 0 := by exact_mod_cast hpos.ne'
  refine (holds_sum h hsmall).div (holds_ofNat hsmall) hn (n := 2 ^ 53) le_rfl ?_
  have hsum : |(c.sum group : ℚ)| ≤ ((2 ^ 53 : ℕ) : ℚ) := by
    rw [← Int.cast_abs, Int.abs_eq_natAbs, Int.cast_natCast]
    exact_mod_cast (h.running _ (List.prefix_refl _)).le
  have hone : (1 : ℚ) ≤ |(totalNeighbors group : ℚ)| := by
    rw [Nat.abs_cast]
    exact_mod_cast hpos
  rw [abs_div]
  exact (div_le_self (abs_nonneg _) hone).trans hsum

/-- Detections whose coordinates add up to less than `2 ^ 53`, whatever their signs. -/
theorem exactSum_of_natAbs (h : weightedSum (fun d => (c.ofRect d.rect).natAbs) group < 2 ^ 53) :
    c.ExactSum group := by
  have habs : ∀ part : List Detection,
      (c.sum part).natAbs ≤ weightedSum (fun d => (c.ofRect d.rect).natAbs) part := by
    intro part
    induction part with
    | nil => rfl
    | cons d rest ih =>
      rw [sum, weightedSum_cons, weightedSum_cons]
      refine (Int.natAbs_add_le _ _).trans (Nat.add_le_add ?_ ih)
      rw [Int.natAbs_mul, Int.natAbs_natCast]
      rfl
  have hle : ∀ {part : List Detection}, part.Sublist group → (c.sum part).natAbs < 2 ^ 53 := by
    intro part hpart
    exact (habs part).trans_lt (((hpart.map _).sum_le_sum fun _ _ => Nat.zero_le _).trans_lt h)
  refine ⟨fun d hd => ?_, fun part hpart => hle hpart.sublist⟩
  have hd := hle (List.singleton_sublist.2 hd)
  simpa [sum, weightedSum] using hd

/-- The least and the greatest value of a coordinate in a group. -/
theorem exists_bounds (c : Coordinate) (hne : group ≠ []) :
    ∃ least ∈ group, ∃ greatest ∈ group, ∀ d ∈ group,
      c.ofRect least.rect ≤ c.ofRect d.rect ∧ c.ofRect d.rect ≤ c.ofRect greatest.rect := by
  have hfin : group.toFinset.Nonempty := List.toFinset_nonempty_iff _ |>.2 hne
  obtain ⟨least, hleast, hmin⟩ := group.toFinset.exists_min_image (fun d => c.ofRect d.rect) hfin
  obtain ⟨greatest, hgreatest, hmax⟩ :=
    group.toFinset.exists_max_image (fun d => c.ofRect d.rect) hfin
  simp only [List.mem_toFinset] at hleast hmin hgreatest hmax
  exact ⟨least, hleast, greatest, hgreatest, fun d hd => ⟨hmin d hd, hmax d hd⟩⟩

/-- **The mean rectangle in double precision:** the exact mean of a coordinate is rounded to a double, and
that to an integer. -/
theorem ofRect_mergeCluster (h : c.ExactSum group) (hpos : 0 < totalNeighbors group)
    (hcount : totalNeighbors group < 2 ^ 32) :
    ∃ q : ℚ, Holds (c.ofMean (Mean.ofCluster group)) q ∧ Nearest .binary64 (c.mean group) q ∧
      c.ofRect (mergeCluster group).rect = nearestInt q := by
  obtain ⟨q, hq, hnear⟩ := holds_mean h hpos hcount
  refine ⟨q, hq, hnear, ?_⟩
  -- the bounds of what a rectangle can hold are doubles, so that rounding does not cross them
  have hgrid : OnGrid .binary64 c.least ∧ OnGrid .binary64 c.greatest :=
    ⟨(grid_int (by cases c <;> decide)).1, (grid_int (by cases c <;> decide)).1⟩
  obtain ⟨hlo, hhi⟩ := mean_between hpos fun d _ => c.ofRect_mem d.rect
  have hqlo := hnear.le_of_ge hgrid.1 hlo
  have hqhi := hnear.le_of_le hgrid.2 hhi
  obtain ⟨hle, hge⟩ : c.least ≤ nearestInt (q : ℝ) ∧ nearestInt (q : ℝ) ≤ c.greatest :=
    nearestInt_between (by exact_mod_cast hqlo) (by exact_mod_cast hqhi)
  have heq : Scalar.nearestWithin c.least c.greatest (c.ofMean (Mean.ofCluster group : Mean Float)) =
      nearestInt q := (nearestWithin_of_holds hq _ _).trans (clamp_eq hle hge)
  rw [← heq]
  exact c.ofRect_rect _ (heq ▸ hle) (heq ▸ hge)

/-- While the sum is below `2 ^ 52`, the exact mean is rounded. -/
theorem ofRect_mergeCluster_of_small (h : c.ExactSum group) (hpos : 0 < totalNeighbors group)
    (hcount : totalNeighbors group < 2 ^ 32) (hsmall : (c.sum group).natAbs < 2 ^ 52) :
    c.ofRect (mergeCluster group).rect = nearestInt (c.mean group) := by
  obtain ⟨q, -, hnear, heq⟩ := ofRect_mergeCluster h hpos hcount
  rw [heq, nearestInt_of_nearest hnear hpos (hcount.le.trans (by norm_num)) hsmall]
  rfl

/-- From `2 ^ 52` on it can be another integer: the mean of these two is less than `2 ^ 30 + 1 / 2`. -/
example : (mergeCluster [⟨⟨2 ^ 30, 0, 24, 24⟩, .ofSingle 1, 2 ^ 21 + 1⟩,
    ⟨⟨2 ^ 30 + 1, 0, 24, 24⟩, .ofSingle 1, 2 ^ 21⟩]).rect.left = 2 ^ 30 + 1 := by decide +kernel

/-- The mean in exact arithmetic, over the number of neighbors as it is counted. -/
theorem ofMean_ofCluster_real (c : Coordinate) (group : List Detection) :
    c.ofMean (Mean.ofCluster group : Mean ℝ) = (c.sum group / (neighborCount group).toNat : ℚ) := by
  rw [ofMean_ofCluster, weightedTotal_real, Scalar.ofNat_real, sum, weightedSum, weightedSum]
  push_cast
  simp only [List.map_map, Function.comp_def]
  push_cast
  rfl

/-- The mean in exact arithmetic. -/
theorem ofMean_real (c : Coordinate) (hcount : totalNeighbors group < 2 ^ 32) :
    c.ofMean (Mean.ofCluster group : Mean ℝ) = c.mean group := by
  rw [ofMean_ofCluster_real, toNat_neighborCount hcount, mean]

/-- **The mean rectangle in exact arithmetic:** the mean of a coordinate is rounded to an integer. -/
theorem ofRect_real (c : Coordinate) (hpos : 0 < totalNeighbors group)
    (hcount : totalNeighbors group < 2 ^ 32) :
    c.ofRect (Mean.ofCluster group : Mean ℝ).rect = nearestInt (c.mean group) := by
  obtain ⟨hlo, hhi⟩ := mean_between hpos fun d _ => c.ofRect_mem d.rect
  obtain ⟨hle, hge⟩ : c.least ≤ nearestInt (c.mean group : ℝ) ∧
      nearestInt (c.mean group : ℝ) ≤ c.greatest :=
    nearestInt_between (by exact_mod_cast hlo) (by exact_mod_cast hhi)
  have heq : Scalar.nearestWithin c.least c.greatest (c.ofMean (Mean.ofCluster group : Mean ℝ)) =
      nearestInt (c.mean group) := by
    rw [ofMean_real c hcount]
    exact clamp_eq hle hge
  rw [← heq]
  exact c.ofRect_rect _ (heq ▸ hle) (heq ▸ hge)

/-- **A coordinate of the mean rectangle of a group**, in exact arithmetic and in double precision. -/
structure Averaged (c : Coordinate) (group : List Detection) : Prop where
  /-- In exact arithmetic it is the mean, rounded to the nearest integer. -/
  exact : c.ofRect (Mean.ofCluster group : Mean ℝ).rect = nearestInt (c.mean group)
  /-- In double precision the mean is rounded to a double and then to an integer, which the rectangle
  can hold. -/
  rounded : ∃ q : ℚ, Holds (c.ofMean (Mean.ofCluster group)) q ∧ Nearest .binary64 (c.mean group) q ∧
    c.ofRect (mergeCluster group).rect = nearestInt q
  /-- That is the same integer, while the sum is below `2 ^ 52`. -/
  nearest : (c.sum group).natAbs < 2 ^ 52 →
    c.ofRect (mergeCluster group).rect = nearestInt (c.mean group)
  /-- It is between the least and the greatest value in the group. -/
  between : ∃ least ∈ group, ∃ greatest ∈ group,
    (∀ d ∈ group, c.ofRect least.rect ≤ c.ofRect d.rect ∧ c.ofRect d.rect ≤ c.ofRect greatest.rect) ∧
    ∀ mean ∈ [(mergeCluster group).rect, (Mean.ofCluster group : Mean ℝ).rect],
      c.ofRect least.rect ≤ c.ofRect mean ∧ c.ofRect mean ≤ c.ofRect greatest.rect

/-- **Coordinates are averaged**, while their sums are exact. -/
theorem averaged (h : c.ExactSum group) (hpos : 0 < totalNeighbors group)
    (hcount : totalNeighbors group < 2 ^ 32) : c.Averaged group := by
  obtain ⟨q, hq, hnear, heq⟩ := ofRect_mergeCluster h hpos hcount
  have hexact := ofRect_real c hpos hcount
  refine ⟨hexact, ⟨q, hq, hnear, heq⟩, ofRect_mergeCluster_of_small h hpos hcount, ?_⟩
  have hne : group ≠ [] := by
    rintro rfl
    exact lt_irrefl _ hpos
  obtain ⟨least, hleast, greatest, hgreatest, hbounds⟩ := exists_bounds c hne
  obtain ⟨hlo, hhi⟩ := mean_between hpos hbounds
  have hgrid : ∀ d : Detection, OnGrid .binary64 (c.ofRect d.rect) := by
    intro d
    have := c.ofRect_mem d.rect
    refine (grid_int ?_).1
    cases c <;> simp only [Coordinate.least, Coordinate.greatest] at this <;> omega
  refine ⟨least, hleast, greatest, hgreatest, hbounds, ?_⟩
  simp only [List.forall_mem_cons, heq, hexact]
  refine ⟨nearestInt_between ?_ ?_, nearestInt_between ?_ ?_, nofun⟩
  · exact_mod_cast hnear.le_of_ge (hgrid least) hlo
  · exact_mod_cast hnear.le_of_le (hgrid greatest) hhi
  · exact_mod_cast hlo
  · exact_mod_cast hhi

end Coordinate

/-- **Detections that double precision can add up exactly:** the sums of their coordinates stay below
`2 ^ 53`. -/
def ExactSums (ds : List Detection) : Prop := ∀ c : Coordinate, c.ExactSum ds

/-- Groups can be added up exactly, if the coordinates of all detections together add up to less than
`2 ^ 53`, whatever their signs. -/
theorem Grouping.exactSums_of_natAbs (g : Grouping) (detections : List Detection)
    (h : ∀ c : Coordinate, weightedSum (fun d => (c.ofRect d.rect).natAbs) detections < 2 ^ 53) :
    ∀ group ∈ g.clustersOf detections, ExactSums group := by
  intro group hgroup c
  have hperm : (g.clustersOf detections).flatten.Perm detections :=
    (Greedy.clusters _ _).flatten_perm.trans (List.mergeSort_perm _ _)
  refine Coordinate.exactSum_of_natAbs (lt_of_le_of_lt ?_ (h c))
  rw [← weightedSum_perm _ hperm]
  exact ((List.sublist_flatten_of_mem hgroup).map _).sum_le_sum fun _ _ => Nat.zero_le _

/-- A mean of equal rectangles is that rectangle. -/
theorem Coordinate.Averaged.eq_of_forall {group : List Detection} {r : Rect}
    (h : ∀ c : Coordinate, c.Averaged group) (hr : ∀ d ∈ group, d.rect = r) :
    (mergeCluster group).rect = r ∧ (Mean.ofCluster group : Mean ℝ).rect = r := by
  have hmean : ∀ mean ∈ [(mergeCluster group).rect, (Mean.ofCluster group : Mean ℝ).rect],
      mean = r := by
    intro mean hmean
    refine Coordinate.rect_ext fun c => ?_
    obtain ⟨least, hleast, greatest, hgreatest, -, hbetween⟩ := (h c).between
    have hle := hbetween mean hmean
    rw [hr least hleast, hr greatest hgreatest] at hle
    exact le_antisymm hle.2 hle.1
  exact ⟨hmean _ List.mem_cons_self, hmean _ (List.mem_cons_of_mem _ List.mem_cons_self)⟩

namespace Grouper

variable (g : Grouper)

/-- **What a grouper reports of a group.** It reports one detection for each group with enough
neighbors. Take a group whose detections have a neighbor each at least, fewer than `2 ^ 32` together, and
coordinates whose sums stay below `2 ^ 53`. In exact arithmetic the coordinates of the detection that
stands for it are the means of those of the group, rounded to the nearest integers, halves away from zero.
In double precision only the quotients are rounded before. Either way they are between the least and the
greatest ones in the group, and equal rectangles have that rectangle as their mean. -/
theorem process_averages (detections : List Detection) :
    (g.process detections).1 =
      ((g.grouping.clustersOf detections).filter (enough g.grouping)).map mergeCluster ∧
    ∀ group ∈ g.grouping.clustersOf detections, (∀ d ∈ group, 1 ≤ d.neighbors) →
      totalNeighbors group < 2 ^ 32 → ExactSums group →
      (mergeCluster group).neighbors.toNat = totalNeighbors group ∧
      (∀ c : Coordinate, c.Averaged group) ∧
      ∀ r, (∀ d ∈ group, d.rect = r) →
        (mergeCluster group).rect = r ∧ (Mean.ofCluster group : Mean ℝ).rect = r := by
  refine ⟨by rw [process_eq]; rfl, ?_⟩
  intro group hgroup hneighbors hcount hsums
  obtain ⟨d, hd⟩ := List.exists_mem_of_ne_nil _ ((Greedy.clusters _ _).ne_nil group hgroup)
  have hpos : 0 < totalNeighbors group :=
    (UInt32.le_iff_toNat_le.1 (hneighbors d hd)).trans (neighbors_le_totalNeighbors hd)
  have haveraged : ∀ c : Coordinate, c.Averaged group := fun c =>
    Coordinate.averaged (hsums c) hpos hcount
  exact ⟨toNat_neighborCount hcount, haveraged, fun r hr => Coordinate.Averaged.eq_of_forall haveraged hr⟩

/-- Two windows that overlap, one of them found three times. -/
def pair : List Detection := [⟨⟨-3, -8, 24, 24⟩, .ofSingle 1, 3⟩, ⟨⟨-5, -6, 24, 26⟩, .ofSingle 1, 1⟩]

/-- They are averaged, and halves are rounded away from zero. -/
theorem process_averages_pair : pair ∈ ({} : Grouping).clustersOf pair ∧
    (∀ d ∈ pair, 1 ≤ d.neighbors) ∧ totalNeighbors pair < 2 ^ 32 ∧ ExactSums pair ∧
    (∀ c : Coordinate, c.Averaged pair) ∧ (mergeCluster pair).rect = ⟨-4, -8, 24, 25⟩ := by
  have hsort : pair.mergeSort Detection.scaleAtLeast = pair :=
    List.mergeSort_of_pairwise (by decide +kernel)
  have hnear : ({} : Grouping).near ⟨⟨-3, -8, 24, 24⟩, .ofSingle 1, 3⟩
      ⟨⟨-5, -6, 24, 26⟩, .ofSingle 1, 1⟩ = true := by decide +kernel
  have hgroup : pair ∈ ({} : Grouping).clustersOf pair := by
    rw [Grouping.clustersOf, hsort]
    simp [pair, clusters, hnear]
  have hneighbors : ∀ d ∈ pair, 1 ≤ d.neighbors := by decide
  have hcount : totalNeighbors pair < 2 ^ 32 := by decide
  have hsums : ExactSums pair := fun c =>
    Coordinate.exactSum_of_natAbs (by cases c <;> decide +kernel)
  obtain ⟨-, haveraged, -⟩ := (process_averages {} pair).2 pair hgroup hneighbors hcount hsums
  exact ⟨hgroup, hneighbors, hcount, hsums, haveraged, by decide +kernel⟩

end Grouper

end HaarDetection
