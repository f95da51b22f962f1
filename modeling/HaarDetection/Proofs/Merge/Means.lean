import HaarDetection.Proofs.Geometry.Regions
import HaarDetection.Proofs.Merge.Averages

/-!
# Where averaged detections lie

The mean rectangle of a cluster has its corner and its size rounded one by one. Each of them is
within the bounds of the windows, but the edges of the mean can leave the image by a pixel.

* `clusters_mem`: clusters are not empty, and made of what there was to cluster.
* `roundedMean`: the mean of some numbers, a half rounded up.
* `Coordinate.ofRect_mergeCluster_nat`: **the mean of a coordinate** of windows with one neighbor each.
* `mergeCluster_left`, `mergeCluster_width` and so on: **the mean rectangle** has rounded means.
* `mergeCluster_inImage_iff`: **when the mean rectangle lies in the image.**
-/

namespace HaarDetection

theorem clusters_mem {β : Type} {near : β → β → Bool} {xs : List β} :
    ∀ cluster ∈ clusters near xs, cluster ≠ [] ∧ ∀ d ∈ cluster, d ∈ xs := by
  fun_induction clusters near xs with
  | case1 => simp
  | case2 seed rest ih =>
    simp only [List.unattach_filter, List.unattach_attach] at ih
    intro cluster hc
    rcases List.mem_cons.1 hc with rfl | hc
    · refine ⟨List.cons_ne_nil _ _, ?_⟩
      intro d hd
      simp only [List.mem_cons, List.mem_reverse, List.mem_filter] at hd ⊢
      tauto
    · obtain ⟨hne, hmem⟩ := ih cluster hc
      exact ⟨hne, fun d hd => List.mem_cons_of_mem _ (List.mem_filter.1 (hmem d hd)).1⟩

/-- **The mean of some numbers,** a half rounded up. -/
def roundedMean (xs : List ℕ) : ℕ := (2 * xs.sum + xs.length) / (2 * xs.length)

section RoundedMean

variable {β : Type} {xs : List β} {v w : β → ℕ} {b : ℕ}

theorem sum_map_le (h : ∀ x ∈ xs, v x ≤ b) : (xs.map v).sum ≤ xs.length * b := by
  have := List.sum_le_card_nsmul (xs.map v) b (by simpa using h)
  simpa using this

/-- Two means that are rounded one by one exceed the bound of their sum by one at most. -/
theorem roundedMean_add_le (hne : xs ≠ []) (h : ∀ x ∈ xs, v x + w x ≤ b) :
    roundedMean (xs.map v) + roundedMean (xs.map w) ≤ b + 1 := by
  have hlen := List.length_pos_iff.2 hne
  have hsum : (xs.map v).sum + (xs.map w).sum ≤ xs.length * b := by
    rw [← List.sum_map_add]
    exact sum_map_le h
  have hv : roundedMean (xs.map v) * (2 * xs.length) ≤ 2 * (xs.map v).sum + xs.length := by
    simpa [roundedMean] using Nat.div_mul_le_self (2 * (xs.map v).sum + xs.length) (2 * xs.length)
  have hw : roundedMean (xs.map w) * (2 * xs.length) ≤ 2 * (xs.map w).sum + xs.length := by
    simpa [roundedMean] using Nat.div_mul_le_self (2 * (xs.map w).sum + xs.length) (2 * xs.length)
  by_contra hlt
  push Not at hlt
  have := Nat.mul_le_mul_right (2 * xs.length) (show b + 2 ≤ _ from hlt)
  rw [Nat.add_mul] at this
  nlinarith

end RoundedMean

/-- **The mean of a coordinate that is not negative,** over windows with one neighbor each. -/
theorem Coordinate.ofRect_mergeCluster_nat (c : Coordinate) {cluster : List Detection}
    {n : Detection → ℕ} {b : ℕ} (hne : cluster ≠ []) (hcount : cluster.length < 2 ^ 32)
    (hn : ∀ d ∈ cluster, c.ofRect d.rect = n d ∧ d.neighbors = 1) (hle : ∀ d ∈ cluster, n d ≤ b)
    (hb : cluster.length * (b + 1) ≤ 2 ^ 52) :
    c.ofRect (mergeCluster cluster).rect = roundedMean (cluster.map n) := by
  have hlen := List.length_pos_iff.2 hne
  have htotal := totalNeighbors_of_one fun d hd => (hn d hd).2
  have hbound := sum_map_le hle
  rw [Nat.mul_succ] at hb
  have hsum : c.sum cluster = ((cluster.map n).sum : ℕ) := by
    rw [Coordinate.sum, weightedSum, Nat.cast_list_sum, List.map_map]
    refine congrArg List.sum (List.map_congr_left fun d hd => ?_)
    obtain ⟨hvalue, hone⟩ := hn d hd
    rw [hvalue, hone, UInt32.toNat_one, Nat.cast_one, mul_one]
    rfl
  have hexact : c.ExactSum cluster := by
    refine Coordinate.exactSum_of_natAbs ?_
    have hnat : (cluster.map fun d => (c.ofRect d.rect).natAbs * d.neighbors.toNat) =
        cluster.map n := by
      refine List.map_congr_left fun d hd => ?_
      obtain ⟨hvalue, hone⟩ := hn d hd
      rw [hvalue, hone, UInt32.toNat_one, Int.natAbs_natCast, mul_one]
    rw [weightedSum]
    simp only [Nat.cast_id, hnat]
    omega
  rw [Coordinate.ofRect_mergeCluster_of_small hexact (by omega) (by omega) (by omega), Coordinate.mean,
    hsum, htotal, roundedMean, List.length_map, Int.cast_natCast]
  exact nearestInt_natCast_div _ hlen

/-- Coordinates of windows of an image, as natural numbers. -/
theorem inImage_nat {r : Rect} {image : Size} (h : r.InImage image) :
    r.left = r.left.toNat ∧ r.top = r.top.toNat ∧
      r.left.toNat + r.width.toNat ≤ image.width.toNat ∧
      r.top.toNat + r.height.toNat ≤ image.height.toNat := by
  obtain ⟨h1, h2, h3, h4⟩ := h
  unfold Rect.right at h3
  unfold Rect.bottom at h4
  omega

section MeanRect

variable {cluster : List Detection} {image : Size} (hne : cluster ≠ []) (hcount : cluster.length < 2 ^ 32)
  (hin : ∀ d ∈ cluster, d.rect.InImage image ∧ d.neighbors = 1)
include hne hcount hin

theorem mergeCluster_left (hw : cluster.length * (image.width.toNat + 1) ≤ 2 ^ 52) :
    (mergeCluster cluster).rect.left = roundedMean (cluster.map fun d => d.rect.left.toNat) := by
  refine Coordinate.left.ofRect_mergeCluster_nat hne hcount
    (fun d hd => ⟨(inImage_nat (hin d hd).1).1, (hin d hd).2⟩) (fun d hd => ?_) hw
  have := inImage_nat (hin d hd).1
  omega

theorem mergeCluster_top (hh : cluster.length * (image.height.toNat + 1) ≤ 2 ^ 52) :
    (mergeCluster cluster).rect.top = roundedMean (cluster.map fun d => d.rect.top.toNat) := by
  refine Coordinate.top.ofRect_mergeCluster_nat hne hcount
    (fun d hd => ⟨(inImage_nat (hin d hd).1).2.1, (hin d hd).2⟩) (fun d hd => ?_) hh
  have := inImage_nat (hin d hd).1
  omega

theorem mergeCluster_width (hw : cluster.length * (image.width.toNat + 1) ≤ 2 ^ 52) :
    (mergeCluster cluster).rect.width.toNat =
      roundedMean (cluster.map fun d => d.rect.width.toNat) := by
  refine Int.ofNat_inj.1 (Coordinate.width.ofRect_mergeCluster_nat hne hcount
    (fun d hd => ⟨rfl, (hin d hd).2⟩) (fun d hd => ?_) hw)
  have := inImage_nat (hin d hd).1
  omega

theorem mergeCluster_height (hh : cluster.length * (image.height.toNat + 1) ≤ 2 ^ 52) :
    (mergeCluster cluster).rect.height.toNat =
      roundedMean (cluster.map fun d => d.rect.height.toNat) := by
  refine Int.ofNat_inj.1 (Coordinate.height.ofRect_mergeCluster_nat hne hcount
    (fun d hd => ⟨rfl, (hin d hd).2⟩) (fun d hd => ?_) hh)
  have := inImage_nat (hin d hd).1
  omega

/-- **When the mean rectangle lies in the image.** It never begins before the image, and never ends
more than a pixel behind it. -/
theorem mergeCluster_inImage_iff (hw : cluster.length * (image.width.toNat + 1) ≤ 2 ^ 52)
    (hh : cluster.length * (image.height.toNat + 1) ≤ 2 ^ 52) :
    let mean := (mergeCluster cluster).rect
    0 ≤ mean.left ∧ 0 ≤ mean.top ∧ mean.right ≤ image.width.toNat + 1 ∧
      mean.bottom ≤ image.height.toNat + 1 ∧
      (mean.InImage image ↔
        roundedMean (cluster.map fun d => d.rect.left.toNat) +
            roundedMean (cluster.map fun d => d.rect.width.toNat) ≤ image.width.toNat ∧
          roundedMean (cluster.map fun d => d.rect.top.toNat) +
            roundedMean (cluster.map fun d => d.rect.height.toNat) ≤ image.height.toNat) := by
  intro mean
  have hl : mean.left = _ := mergeCluster_left hne hcount hin hw
  have ht : mean.top = _ := mergeCluster_top hne hcount hin hh
  have hr : mean.right = _ := congrArg₂ (· + ·) hl
    (congrArg Nat.cast (mergeCluster_width hne hcount hin hw))
  have hb : mean.bottom = _ := congrArg₂ (· + ·) ht
    (congrArg Nat.cast (mergeCluster_height hne hcount hin hh))
  have hx := roundedMean_add_le (v := fun d => d.rect.left.toNat) (w := fun d => d.rect.width.toNat)
    hne fun d hd => (inImage_nat (hin d hd).1).2.2.1
  have hy := roundedMean_add_le (v := fun d => d.rect.top.toNat) (w := fun d => d.rect.height.toNat)
    hne fun d hd => (inImage_nat (hin d hd).1).2.2.2
  unfold Rect.InImage
  rw [hl, ht, hr, hb]
  omega

end MeanRect

end HaarDetection
