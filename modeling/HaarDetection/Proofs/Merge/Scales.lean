import HaarDetection.Proofs.Merge.Greedy
import HaarDetection.Proofs.Number.Convert
import HaarDetection.Proofs.Number.TotalOrder

/-!
# The scales of averaged detections

A grouper forms its groups by descending scale of their seeds, but reports a group with its mean scale.
The mean lies between the scales of the group, so it can be far below that of the seed, and below the
mean of a later group.

* `Detection.Scaled`: a detection at a finite scale above zero.
* `addScales_within`, `mergeCluster_scale`: **the mean scale lies between those of the group**, if the
  group stands for `2 ^ 29` windows at most.
* `Grouper.process_scales`: **in which order scales are reported.** Two groups are reported by descending
  scale if everything in the first one is as large as the seed of the second one.
* `Grouper.smaller_scale_first`: two groups that are not.
-/

namespace HaarDetection

namespace Detection

/-- **A detection at a finite scale above zero**, which stands for some windows. -/
structure Scaled (d : Detection) : Prop where
  scale : ∃ s, d.scale = .ofSingle s ∧ FiniteSingle s ∧ 0 < singleValue s
  neighbors : 1 ≤ d.neighbors

/-- The scale as a rational, zero if it is not a finite number. -/
def scaleValue (d : Detection) : ℚ :=
  match d.scale.single? with
  | some s => singleValue s
  | none => 0

variable {d e : Detection} {s : Float32}

theorem scaleValue_eq (h : d.scale = .ofSingle s) : d.scaleValue = singleValue s := by
  rw [scaleValue, h, RawSingle.single?_ofSingle]

theorem Scaled.scaleValue_pos (h : d.Scaled) : 0 < d.scaleValue := by
  obtain ⟨s, hs, -, hpos⟩ := h.scale
  rw [scaleValue_eq hs]
  exact hpos

theorem Scaled.onGrid (h : d.Scaled) : OnGrid .binary32 d.scaleValue := by
  obtain ⟨s, hs, hf, -⟩ := h.scale
  rw [scaleValue_eq hs]
  exact hf.onGrid

theorem Scaled.lt (h : d.Scaled) : d.scaleValue < 2 ^ 128 := by
  obtain ⟨s, hs, hf, -⟩ := h.scale
  rw [scaleValue_eq hs]
  exact (abs_lt.1 hf.abs_lt).2

/-- **The order of detections** is that of their scales. -/
theorem Scaled.scaleAtLeast_iff (hd : d.Scaled) (he : e.Scaled) :
    d.scaleAtLeast e = true ↔ e.scaleValue ≤ d.scaleValue := by
  obtain ⟨s, hs, hf, hpos⟩ := hd.scale
  obtain ⟨t, ht, hf', hpos'⟩ := he.scale
  rw [scaleValue_eq hs, scaleValue_eq ht, scaleAtLeast, hs, ht, decide_eq_true_iff]
  exact totalKey_le_iff hf' hpos' hf hpos

end Detection

theorem combine_eq_some {op : Float → Float → Float} {a b : Float}
    (ha : Scalar.isUndefined a = false) (hb : Scalar.isUndefined b = false)
    (hop : Scalar.isUndefined (op a b) = false) : combine op a b = some (op a b) := by
  simp [combine, ha, hb, hop]

section Mean

variable {lo hi : ℚ} {cluster : List Detection} (hlo : OnGrid .binary32 lo)
  (hhi : OnGrid .binary32 hi) (h0 : 0 ≤ lo) (hlt : hi < 2 ^ 128)
  (hcluster : ∀ d ∈ cluster, d.Scaled ∧ lo ≤ d.scaleValue ∧ d.scaleValue ≤ hi)
include hlo hhi h0 hlt hcluster

/-- **The weighted sum of scales** lies between the multiples of the bounds. -/
theorem addScales_within {n : ℕ} {total : Float} (htotal : Within total (lo * n) (hi * n))
    (hn : n + totalNeighbors cluster ≤ 2 ^ 29) : ∃ sum, addScales cluster total = some sum ∧
      Within sum (lo * (n + totalNeighbors cluster : ℕ)) (hi * (n + totalNeighbors cluster : ℕ)) := by
  induction cluster generalizing n total with
  | nil => exact ⟨total, rfl, htotal⟩
  | cons d rest ih =>
    obtain ⟨hd, hle, hge⟩ := hcluster d List.mem_cons_self
    obtain ⟨s, hs, hf, hpos⟩ := hd.scale
    have hvalue := Detection.scaleValue_eq hs
    set k := d.neighbors.toNat with hk
    rw [totalNeighbors_cons, ← hk] at hn ⊢
    have hcount : Holds (Scalar.ofNat k) k := holds_ofNat (by omega)
    -- the product is exact, as the scale has 24 bits and the weight 29
    have hterm : Holds (widen s * Scalar.ofNat k) (singleValue s * k) :=
      (holds_widen hf).mul_of_grid hcount (onGrid_mul_nat hf.onGrid (by omega)) (by positivity)
        (mul_nat_lt (abs_lt.1 hf.abs_lt).2 (by omega))
    have hspan : Within (widen s * Scalar.ofNat k) (lo * k) (hi * k) :=
      ⟨_, hterm, mul_le_mul_of_nonneg_right (hvalue ▸ hle) (Nat.cast_nonneg _),
        mul_le_mul_of_nonneg_right (hvalue ▸ hge) (Nat.cast_nonneg _)⟩
    have hcast (q : ℚ) : q * n + q * k = q * (n + k : ℕ) := by
      push_cast
      ring
    have hnext : Within (total + widen s * Scalar.ofNat k) (lo * (n + k : ℕ)) (hi * (n + k : ℕ)) := by
      rw [← hcast, ← hcast]
      refine htotal.add hspan ?_ ?_ (by positivity) ?_
      · rw [hcast]; exact onGrid_mul_nat hlo (by omega)
      · rw [hcast]; exact onGrid_mul_nat hhi (by omega)
      · rw [hcast]; exact mul_nat_lt hlt (by omega)
    obtain ⟨sum, hsum, hwithin⟩ := ih (fun d' hd' => hcluster d' (List.mem_cons_of_mem _ hd')) hnext
      (by omega)
    refine ⟨sum, ?_, by rwa [← Nat.add_assoc]⟩
    have hproduct : combine (· * ·) (Scalar.ofSingle s) (Scalar.ofNat k) =
        some (widen s * Scalar.ofNat k) :=
      combine_eq_some (holds_widen hf).isUndefined hcount.isUndefined hterm.isUndefined
    have htotal' : combine (· + ·) total (widen s * Scalar.ofNat k) =
        some (total + widen s * Scalar.ofNat k) :=
      combine_eq_some htotal.isUndefined hterm.isUndefined hnext.isUndefined
    simp only [addScales, htotal.isUndefined, hs, RawSingle.single?_ofSingle, ← hk, Bool.false_eq_true,
      if_false, Option.bind_eq_bind, Option.bind_some, hproduct, htotal', hsum]

/-- **The mean scale lies between the bounds.** -/
theorem mergeCluster_scale (hpos : 0 < totalNeighbors cluster)
    (hn : totalNeighbors cluster ≤ 2 ^ 29) : ∃ s, (mergeCluster cluster).scale = .ofSingle s ∧
      FiniteSingle s ∧ lo ≤ singleValue s ∧ singleValue s ≤ hi := by
  have hzero : Within (Scalar.zero : Float) (lo * (0 : ℕ)) (hi * (0 : ℕ)) :=
    ⟨0, holds_ofNat (n := 0) (by decide), by simp, by simp⟩
  obtain ⟨sum, hsum, hwithin⟩ := addScales_within hlo hhi h0 hlt hcluster hzero (by omega)
  rw [Nat.zero_add] at hwithin
  have hcount : Holds (Scalar.ofNat (totalNeighbors cluster)) (totalNeighbors cluster) :=
    holds_ofNat (by omega)
  have hrange : hi < 2 ^ exponentRange .binary64 := by simpa using mul_nat_lt (n := 1) hlt (by norm_num)
  have hmean := hwithin.div hcount hpos hlo.double hhi.double h0 hrange
  refine ⟨_, ?_, hmean.narrow hlo hhi h0 hlt⟩
  have hquotient : combine (· / ·) sum (Scalar.ofNat (totalNeighbors cluster)) =
      some (sum / Scalar.ofNat (totalNeighbors cluster)) :=
    combine_eq_some hwithin.isUndefined hcount.isUndefined hmean.isUndefined
  have hwords : (neighborCount cluster).toNat = totalNeighbors cluster :=
    toNat_neighborCount (hn.trans_lt (by norm_num))
  simp only [mergeCluster, Mean.ofCluster, hwords, hsum, Option.bind_some, hquotient, Option.map_some]
  rfl

end Mean

/-- **The scales of a group** of which all detections are scaled, the first one as its seed. -/
structure MeanBetween (group : List Detection) (least seed : Detection) : Prop where
  least_mem : least ∈ group
  seed_mem : seed ∈ group.head?
  least_le : ∀ d ∈ group, least.scaleValue ≤ d.scaleValue
  le_seed : ∀ d ∈ group, d.scaleValue ≤ seed.scaleValue
  /-- The mean scale is a finite number. -/
  finite : ∃ s, (mergeCluster group).scale = .ofSingle s ∧ FiniteSingle s
  least_le_mean : least.scaleValue ≤ (mergeCluster group).scaleValue
  mean_le_seed : (mergeCluster group).scaleValue ≤ seed.scaleValue

/-- **The mean scale of a group** lies between the least one and that of the seed, if the seed is the
largest. -/
theorem exists_meanBetween {group : List Detection} {seed : Detection} (hseed : seed ∈ group.head?)
    (hscaled : ∀ d ∈ group, d.Scaled) (hle : ∀ d ∈ group, d.scaleValue ≤ seed.scaleValue)
    (hn : totalNeighbors group ≤ 2 ^ 29) : ∃ least, MeanBetween group least seed := by
  have hmem : seed ∈ group := List.mem_of_mem_head? hseed
  obtain ⟨least, hleast, hmin⟩ := group.toFinset.exists_min_image Detection.scaleValue
    ⟨seed, List.mem_toFinset.2 hmem⟩
  simp only [List.mem_toFinset] at hleast hmin
  have hpos : 0 < totalNeighbors group :=
    (UInt32.le_iff_toNat_le.1 (hscaled seed hmem).neighbors).trans (neighbors_le_totalNeighbors hmem)
  obtain ⟨s, hs, hf, hlo, hhi⟩ := mergeCluster_scale (hscaled least hleast).onGrid
    (hscaled seed hmem).onGrid (hscaled least hleast).scaleValue_pos.le (hscaled seed hmem).lt
    (fun d hd => ⟨hscaled d hd, hmin d hd, hle d hd⟩) hpos hn
  have hvalue := Detection.scaleValue_eq hs
  exact ⟨least, hleast, hseed, hmin, hle, ⟨s, hs, hf⟩, hvalue ▸ hlo, hvalue ▸ hhi⟩

namespace Grouper

variable (g : Grouper)

/-- **In which order scales are reported.** The seeds of the groups are in descending order of their
scales, and each of them is the largest of its group. The mean scale of a group lies between the least
one and that of the seed. Hence it is not below that of a later group while the first group has no scale
below that of the seed of the later one. -/
theorem process_scales {detections : List Detection} (hscaled : ∀ d ∈ detections, d.Scaled)
    (hcount : totalNeighbors detections ≤ 2 ^ 29) :
    ∃ groups, g.Groups detections groups ∧
      ((seeds groups).Pairwise fun a b => b.scaleValue ≤ a.scaleValue) ∧
      (∀ group ∈ groups, ∃ least seed, MeanBetween group least seed) ∧
      ((groups.Pairwise fun a b => ∀ d ∈ a, ∀ seed ∈ b.head?, seed.scaleValue ≤ d.scaleValue) →
        (g.process detections).1.Pairwise fun d e => e.scaleValue ≤ d.scaleValue) := by
  have hgroups := g.groups_clustersOf (hcount.trans_lt (by norm_num))
  set groups := g.grouping.clustersOf detections
  have hmem : ∀ group ∈ groups, ∀ d ∈ group, d ∈ detections := fun group hgroup d hd =>
    hgroups.perm.mem_iff.1 (List.mem_flatten.2 ⟨group, hgroup, hd⟩)
  obtain ⟨ordered, horder, hgreedy, -⟩ := hgroups.greedy
  have hR : ordered.Pairwise fun a b => b.scaleValue ≤ a.scaleValue := by
    refine horder.descending.imp_of_mem ?_
    intro a b ha hb hab
    exact ((hscaled a (horder.perm.mem_iff.1 ha)).scaleAtLeast_iff
      (hscaled b (horder.perm.mem_iff.1 hb))).1 hab
  obtain ⟨hfirst, hseeds⟩ := hgreedy.seed_first hR
  have hmean : ∀ group ∈ groups, ∃ least seed, MeanBetween group least seed := by
    intro group hgroup
    obtain ⟨seed, rest, rfl⟩ := List.exists_cons_of_ne_nil (hgroups.ne_nil group hgroup)
    have hle : ∀ d ∈ seed :: rest, d.scaleValue ≤ seed.scaleValue :=
      List.forall_mem_cons.2 ⟨le_rfl, hfirst _ hgroup seed rfl⟩
    obtain ⟨least, hbetween⟩ := exists_meanBetween rfl
      (fun d hd => hscaled d (hmem _ hgroup d hd)) hle
      ((totalNeighbors_le_of_mem hgroups.perm hgroup).trans hcount)
    exact ⟨least, seed, hbetween⟩
  refine ⟨groups, hgroups, hseeds, hmean, ?_⟩
  intro hapart
  rw [hgroups.reported, List.pairwise_map]
  refine (hapart.sublist List.filter_sublist).imp_of_mem ?_
  intro a b ha hb hab
  obtain ⟨least, _, hfirst⟩ := hmean a (List.mem_filter.1 ha).1
  obtain ⟨_, seed, hlater⟩ := hmean b (List.mem_filter.1 hb).1
  exact hlater.mean_le_seed.trans
    ((hab least hfirst.least_mem seed hlater.seed_mem).trans hfirst.least_le_mean)

/-- A window at a positive scale is scaled. -/
theorem scaled_ofWindow (rect : Rect) {s : Float32} {m : ℕ} {e : ℤ} (hm : 0 < m)
    (hs : s.toModel.unpack = .finite .positive m e hm) :
    (Detection.ofWindow rect s).Scaled := by
  have hfinite : FiniteSingle s := by
    rcases known_single s with hc | ⟨t, ht⟩ | ht
    · exact hc
    · rw [ht] at hs; cases hs
    · rw [ht] at hs; cases hs
  refine ⟨⟨s, rfl, hfinite, ?_⟩, UInt32.le_refl _⟩
  rw [singleValue, hs]
  exact finite_pos e hm

theorem mergeSort_crowd : crowd.mergeSort Detection.scaleAtLeast =
    [.ofWindow ⟨12, 10, 24, 24⟩ 1.5, .ofWindow ⟨10, 10, 24, 24⟩ 1, .ofWindow ⟨100, 100, 24, 24⟩ 1] := by
  have hsame : (Detection.ofWindow ⟨10, 10, 24, 24⟩ 1).scaleAtLeast (.ofWindow ⟨100, 100, 24, 24⟩ 1) =
      true := by decide +kernel
  have hlarger : (Detection.ofWindow ⟨10, 10, 24, 24⟩ 1).scaleAtLeast
      (.ofWindow ⟨12, 10, 24, 24⟩ 1.5) = false := by decide +kernel
  simp [crowd, List.mergeSort, hsame, hlarger]

/-- The windows next to each other in a crowd are a group, the larger one first, and the window far away
is another one. -/
theorem groups_crowd {groups : List (List Detection)} (h : ({} : Grouper).Groups crowd groups) :
    groups = [[.ofWindow ⟨12, 10, 24, 24⟩ 1.5, .ofWindow ⟨10, 10, 24, 24⟩ 1],
      [.ofWindow ⟨100, 100, 24, 24⟩ 1]] := by
  obtain ⟨ordered, horder, hgreedy, -⟩ := h.greedy
  rw [horder.unique (.mergeSort crowd), mergeSort_crowd] at hgreedy
  have hnear : ({} : Grouping).near (.ofWindow ⟨12, 10, 24, 24⟩ 1.5) (.ofWindow ⟨10, 10, 24, 24⟩ 1) =
      true := by decide +kernel
  have hfar : ({} : Grouping).near (.ofWindow ⟨12, 10, 24, 24⟩ 1.5) (.ofWindow ⟨100, 100, 24, 24⟩ 1) =
      false := by decide +kernel
  cases hgreedy with
  | seed hfirst hrest =>
    simp only [List.filter_cons, hnear, hfar, List.filter_nil] at hfirst hrest
    cases hrest with
    | seed hsecond hrest =>
      cases hrest
      rw [List.perm_nil.1 hsecond, List.perm_singleton.1 hfirst]

/-- The windows of a crowd are reported with scales between theirs. Both windows of the first group are
as large as the one of the second group, so the first mean is, too. -/
theorem process_scales_crowd : (∀ d ∈ crowd, d.Scaled) ∧ totalNeighbors crowd ≤ 2 ^ 29 ∧
    (∃ groups, ({} : Grouper).Groups crowd groups ∧
      ∀ group ∈ groups, ∃ least seed, MeanBetween group least seed) ∧
    (({} : Grouper).process crowd).1.Pairwise fun d e => e.scaleValue ≤ d.scaleValue := by
  have hone : (1 : Float32).toModel.unpack = .finite .positive (2 ^ 23) (-23) (by decide) := rfl
  have hlarger : (1.5 : Float32).toModel.unpack = .finite .positive (3 * 2 ^ 22) (-23) (by decide) := rfl
  have hscaled : ∀ d ∈ crowd, d.Scaled := by
    simp only [crowd, List.forall_mem_cons]
    exact ⟨scaled_ofWindow _ _ hone, scaled_ofWindow _ _ hone, scaled_ofWindow _ _ hlarger, nofun⟩
  have hcount : totalNeighbors crowd ≤ 2 ^ 29 := by decide
  obtain ⟨groups, hgroups, -, hmean, hordered⟩ := process_scales {} hscaled hcount
  refine ⟨hscaled, hcount, ⟨groups, hgroups, hmean⟩, hordered ?_⟩
  have hvalue (rect : Rect) (s : Float32) : (Detection.ofWindow rect s).scaleValue = singleValue s :=
    Detection.scaleValue_eq rfl
  have hle : (1 : ℚ) ≤ singleValue 1.5 := by
    rw [singleValue, hlarger]
    norm_num [value, signed]
  simp [groups_crowd hgroups, hvalue, one_single.2, hle]

/-- A large window, a middling one far away, and a small one inside of the large one. -/
def nested : List Detection :=
  [.ofWindow ⟨0, 0, 72, 72⟩ 3, .ofWindow ⟨200, 200, 66, 66⟩ 2.75, .ofWindow ⟨12, 12, 48, 48⟩ 2]

theorem nested_scaled : ∀ d ∈ nested, d.Scaled := by
  have hlarge : (3 : Float32).toModel.unpack = .finite .positive (3 * 2 ^ 22) (-22) (by decide) := rfl
  have hmiddling : (2.75 : Float32).toModel.unpack =
      .finite .positive (11 * 2 ^ 20) (-22) (by decide) := rfl
  have hsmall : (2 : Float32).toModel.unpack = .finite .positive (2 ^ 23) (-22) (by decide) := rfl
  simp only [nested, List.forall_mem_cons]
  exact ⟨scaled_ofWindow _ _ hlarge, scaled_ofWindow _ _ hmiddling, scaled_ofWindow _ _ hsmall, nofun⟩

/-- The small window joins the large one. -/
theorem process_nested : (({} : Grouper).process nested).1 =
    [⟨⟨6, 6, 60, 60⟩, .ofSingle 2.5, 2⟩, ⟨⟨200, 200, 66, 66⟩, .ofSingle 2.75, 1⟩] := by
  have hsort : nested.mergeSort Detection.scaleAtLeast = nested :=
    List.mergeSort_of_pairwise (by decide +kernel)
  have hfar : ({} : Grouping).near (.ofWindow ⟨0, 0, 72, 72⟩ 3) (.ofWindow ⟨200, 200, 66, 66⟩ 2.75) =
      false := by decide +kernel
  have hnear : ({} : Grouping).near (.ofWindow ⟨0, 0, 72, 72⟩ 3) (.ofWindow ⟨12, 12, 48, 48⟩ 2) =
      true := by decide +kernel
  have hclusters : ({} : Grouping).clustersOf nested =
      [[.ofWindow ⟨0, 0, 72, 72⟩ 3, .ofWindow ⟨12, 12, 48, 48⟩ 2],
        [.ofWindow ⟨200, 200, 66, 66⟩ 2.75]] := by
    rw [Grouping.clustersOf, hsort]
    simp [nested, clusters, hfar, hnear]
  rw [process_eq, Grouping.merge, hclusters]
  decide +kernel

/-- **The larger scale comes last.** The mean of the first two windows is at a smaller scale than the
window far away. -/
theorem smaller_scale_first : (∀ d ∈ nested, d.Scaled) ∧
    Float32.le 0 ({} : Grouping).minIou = true ∧ Float32.le ({} : Grouping).minIou 1 = true ∧
    ¬(({} : Grouper).process nested).1.Pairwise fun d e => e.scaleValue ≤ d.scaleValue := by
  refine ⟨nested_scaled, by decide +kernel, by decide +kernel, ?_⟩
  have hfirst : (2.5 : Float32).toModel.unpack = .finite .positive (5 * 2 ^ 21) (-22) (by decide) := rfl
  have hlast : (2.75 : Float32).toModel.unpack = .finite .positive (11 * 2 ^ 20) (-22) (by decide) := rfl
  rw [process_nested]
  intro h
  have hle := (List.pairwise_cons.1 h).1 _ List.mem_cons_self
  simp only [Detection.scaleValue, RawSingle.single?_ofSingle, singleValue, hfirst, hlast, value,
    signed] at hle
  norm_num at hle

end Grouper

end HaarDetection
