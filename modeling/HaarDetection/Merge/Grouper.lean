import HaarDetection.Merge.Cluster

/-!
# Clustering with lists that are used again

A grouper clusters one list of detections after the other. For this it has two lists of its own,
which it uses again and again: the cluster that is being formed, and the means of the clusters that
have been formed.

* `Grouper.gather`: what is near to a seed joins the cluster.
* `Grouper.formAll`: clusters are formed until nothing is left.
* `Grouper.process`: the means of the clusters of some detections.
-/

namespace HaarDetection

/-- A grouping at work. -/
structure Grouper where
  grouping : Grouping := {}
  /-- The cluster that is being formed, its seed first. -/
  cluster : Array Detection := #[]
  /-- The means of the clusters that have been formed and have enough neighbors. -/
  means : Array Detection := #[]

namespace Grouper

/-- Goes through some candidates: those near to a seed join the cluster, and the others are left. -/
def gather (seed : Detection) : List Detection → Grouper → Grouper × List Detection
  | [], g => (g, [])
  | other :: rest, g =>
    if g.grouping.near seed other then
      gather seed rest { g with cluster := g.cluster.push other }
    else
      let (g, left) := gather seed rest g
      (g, other :: left)

/-- The mean of the cluster joins the others, if the cluster has enough neighbors. -/
def addMean (g : Grouper) : Grouper :=
  if neighborCount g.cluster.toList < g.grouping.minNeighbors then g
  else { g with means := g.means.push (mergeCluster g.cluster.toList) }

/-- Forms the cluster of a seed. Gives the candidates that are left, too. -/
def form (seed : Detection) (candidates : List Detection) (g : Grouper) :
    Grouper × List Detection :=
  let (g, left) := gather seed candidates { g with cluster := #[seed] }
  (g.addMean, left)

theorem gather_length_le (seed : Detection) (candidates : List Detection) (g : Grouper) :
    (gather seed candidates g).2.length ≤ candidates.length := by
  induction candidates generalizing g with
  | nil => exact Nat.le_refl _
  | cons other rest ih =>
    unfold gather
    split
    · exact Nat.le_succ_of_le (ih _)
    · exact Nat.succ_le_succ (ih _)

/-- Forms clusters as long as there are candidates. The last candidate is the next seed. -/
def formAll (candidates : List Detection) (g : Grouper) : Grouper :=
  if h : candidates = [] then g
  else
    let formed := form (candidates.getLast h) candidates.dropLast g
    formAll formed.2 formed.1
termination_by candidates.length
decreasing_by
  have hlen := List.length_pos_iff.mpr h
  have hle := gather_length_le (candidates.getLast h) candidates.dropLast
    { g with cluster := #[candidates.getLast h] }
  rw [List.length_dropLast] at hle
  exact Nat.lt_of_le_of_lt hle (Nat.sub_lt hlen Nat.one_pos)

/-- **The means of the clusters of some detections**, that of the largest scale first, and the grouper
afterwards. The candidates are kept in the order of their scales, the largest one at the end. -/
def process (g : Grouper) (detections : List Detection) : List Detection × Grouper :=
  let candidates := detections.reverse.mergeSort fun a b => b.scaleAtLeast a
  let g := formAll candidates { g with means := #[] }
  (g.means.toList, { g with cluster := #[], means := #[] })

end Grouper

end HaarDetection
