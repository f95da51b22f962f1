import Mathlib
import HaarDetection.Merge.Cluster

/-!
# Counting neighbors

A detection stands for as many windows as it has neighbors. A grouper adds up the neighbors of a cluster
in 32 bits, which is their number while that is less than `2 ^ 32`.

* `totalNeighbors`: the number of windows that some detections stand for.
* `neighborCount_eq`: **the sum in 32 bits** is that number, modulo `2 ^ 32`.
* `totalNeighbors_flatten`, `totalNeighbors_le_of_mem`: the neighbors of some groups.
* `totalNeighbors_of_one`: windows stand for themselves.
-/

namespace HaarDetection

variable {ds ds' : List Detection} {groups : List (List Detection)}

/-- **The number of windows that some detections stand for.** -/
def totalNeighbors (ds : List Detection) : ℕ := (ds.map (·.neighbors.toNat)).sum

@[simp]
theorem totalNeighbors_nil : totalNeighbors [] = 0 := rfl

@[simp]
theorem totalNeighbors_cons (d : Detection) (ds : List Detection) :
    totalNeighbors (d :: ds) = d.neighbors.toNat + totalNeighbors ds := List.sum_cons

theorem totalNeighbors_append (xs ys : List Detection) :
    totalNeighbors (xs ++ ys) = totalNeighbors xs + totalNeighbors ys := by
  simp [totalNeighbors]

theorem totalNeighbors_perm (h : ds.Perm ds') : totalNeighbors ds = totalNeighbors ds' :=
  (h.map _).sum_eq

theorem totalNeighbors_flatten (groups : List (List Detection)) :
    totalNeighbors groups.flatten = (groups.map totalNeighbors).sum := by
  rw [totalNeighbors, List.map_flatten, List.sum_flatten, List.map_map]
  rfl

/-- A detection stands for no more windows than all of them. -/
theorem neighbors_le_totalNeighbors {d : Detection} (hd : d ∈ ds) :
    d.neighbors.toNat ≤ totalNeighbors ds :=
  List.single_le_sum (fun _ _ => Nat.zero_le _) _ (List.mem_map_of_mem hd)

/-- A group stands for no more windows than all of them. -/
theorem totalNeighbors_le_of_mem (h : groups.flatten.Perm ds) {group : List Detection}
    (hgroup : group ∈ groups) : totalNeighbors group ≤ totalNeighbors ds := by
  rw [← totalNeighbors_perm h, totalNeighbors_flatten]
  exact List.single_le_sum (fun _ _ => Nat.zero_le _) _ (List.mem_map_of_mem hgroup)

/-- Detections with one neighbor each stand for themselves. -/
theorem totalNeighbors_of_one (h : ∀ d ∈ ds, d.neighbors = 1) : totalNeighbors ds = ds.length := by
  have hone : ds.map (·.neighbors.toNat) = List.replicate ds.length 1 := by
    refine List.eq_replicate_iff.2 ⟨List.length_map _, ?_⟩
    simpa using fun d hd => congrArg UInt32.toNat (h d hd)
  rw [totalNeighbors, hone, List.sum_replicate, smul_eq_mul, mul_one]

theorem foldl_neighbors (ds : List Detection) (start : UInt32) :
    ds.foldl (· + ·.neighbors) start = start + UInt32.ofNat (totalNeighbors ds) := by
  -- what has been added up so far may be any word, as it comes from the detections before
  induction ds generalizing start with
  | nil => exact (UInt32.add_zero start).symm
  | cons d rest ih =>
    rw [List.foldl_cons, ih, totalNeighbors_cons, UInt32.ofNat_add, UInt32.ofNat_toNat,
      UInt32.add_assoc]

/-- **The sum of neighbors in 32 bits** wraps around at `2 ^ 32`. -/
theorem neighborCount_eq (ds : List Detection) :
    neighborCount ds = UInt32.ofNat (totalNeighbors ds) :=
  (foldl_neighbors ds 0).trans (UInt32.zero_add _)

/-- It is exact below. -/
theorem toNat_neighborCount (h : totalNeighbors ds < 2 ^ 32) :
    (neighborCount ds).toNat = totalNeighbors ds := by
  rw [neighborCount_eq, UInt32.toNat_ofNat_of_lt' h]

end HaarDetection
