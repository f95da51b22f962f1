import HaarDetection.Proofs.Cascade.Queries

/-!
# Evaluating a cascade

On an image that answers every query a cascade comes to its verdict without faults. Which queries it
asks hangs on the answers: a tree asks for the nodes that its walk visits, and no stage is evaluated
after the one that rejects the window.

* `Sight`: an image that answers every query, seen from a position.
* `Feature.valueAt`, `Node.taken`: what a feature comes to, and which way a node is left.
* `Tree.Walks`: **a walk through a tree**, with the nodes that it visits and the value that it ends
  with.
* `Tree.walks_visited`: a linked tree has one, which `Tree.visited` and `Tree.valueAt` compute.
* `Stage.trace_classify`: **the trace of a stage.**
* `Cascade.trace_firstRejecting`: **the trace of some stages** goes up to the first one that rejects.
-/

namespace HaarDetection

variable {α : Type}

/-- **An image that answers every query**, and the position of a window. -/
structure Sight (α : Type) where
  answer : Query → α
  x : ℕ
  y : ℕ

/-- The answers as those of an image without faults. -/
def Sight.answers (v : Sight α) (q : Query) : Except Fault α := .ok (v.answer q)

/-- The queries for the rectangles of a feature, for a window at `(x, y)`. -/
def Feature.queries (f : Feature α) (x y : ℕ) : List Query :=
  f.rects.map fun r => r.scaledRegion.queryAt f.tilted x y

/-- The queries for all rectangles of some nodes. -/
def Sight.queries (v : Sight α) (nodes : List (Node α)) : List Query :=
  nodes.flatMap fun n => n.feature.queries v.x v.y

theorem Sight.length_queries (v : Sight α) (nodes : List (Node α)) :
    (v.queries nodes).length = (nodes.map (·.feature.rects.length)).sum := by
  simp [Sight.queries, Feature.queries, List.length_flatMap]

/-- The regions of a feature have coordinates of 32 bits when the window is at `(x, y)`. -/
abbrev Feature.Addressable (f : Feature α) (x y : ℕ) : Prop := f.Admitted (fun _ => True) x y

/-- **A stage that can be evaluated** for a window at `(x, y)`: all walks through its trees end, and its
regions have coordinates of 32 bits. -/
structure Stage.Sound (s : Stage α) (x y : ℕ) : Prop where
  linked : ∀ t ∈ s.trees, 0 < t.length ∧ t.Linked
  addressable : ∀ f ∈ s.features, f.Addressable x y

namespace Tree

/-- **A walk through a tree** from the node at a place on, where every node is left by the branch that
`take` tells: which nodes it visits, and which value it ends with. -/
inductive Walks (tree : Tree α) (take : Node α → Branch α) : ℕ → List (Node α) → α → Prop
  /-- The branch leads nowhere, and its value is that of the walk. -/
  | ends {index : ℕ} {node : Node α} (hn : tree[index]? = some node)
    (hb : (take node).child = none) : Walks tree take index [node] (take node).value
  /-- The branch leads to another node, where the walk goes on. -/
  | goesOn {index child : ℕ} {node : Node α} {visited : List (Node α)} {value : α}
    (hn : tree[index]? = some node) (hb : (take node).child = some child)
    (rest : Walks tree take child visited value) : Walks tree take index (node :: visited) value

variable {tree : Tree α} {take : Node α → Branch α}

/-- The nodes that are visited from a place on, `steps` of them at most. -/
def visitedFrom (tree : Tree α) (take : Node α → Branch α) : (steps index : ℕ) → List (Node α)
  | 0, _ => []
  | steps + 1, index =>
    match tree[index]? with
    | none => []
    | some node =>
      match (take node).child with
      | none => [node]
      | some child => node :: visitedFrom tree take steps child

theorem length_visitedFrom (tree : Tree α) (take : Node α → Branch α) (steps index : ℕ) :
    (tree.visitedFrom take steps index).length ≤ steps := by
  induction steps generalizing index with
  | zero => rfl
  | succ steps ih =>
    unfold visitedFrom
    split
    · exact Nat.zero_le _
    · split
      · exact Nat.succ_le_succ (Nat.zero_le _)
      · exact Nat.succ_le_succ (ih _)

/-- The value of a walk is that of the branch by which it leaves the last node. -/
theorem Walks.getLast? {index : ℕ} {visited : List (Node α)} {value : α}
    (h : tree.Walks take index visited value) :
    visited.getLast?.map (fun n => (take n).value) = some value := by
  induction h with
  | ends => rfl
  | goesOn hn hb rest ih =>
    cases rest with
    | ends => exact ih
    | goesOn => exact ih

/-- **A linked tree has a walk** from each of its nodes. -/
theorem exists_walks (hl : tree.Linked) (htake : ∀ n, take n = n.left ∨ take n = n.right)
    (steps : ℕ) {index : ℕ} (hi : index < tree.length) (hs : tree.length ≤ steps + index) :
    ∃ value, tree.Walks take index (tree.visitedFrom take steps index) value := by
  induction index, hi using hl.induction generalizing steps with
  | step index hi n hn ih =>
    obtain ⟨steps, rfl⟩ : ∃ k, steps = k + 1 := ⟨steps - 1, by omega⟩
    unfold visitedFrom
    rw [hn]
    simp only
    cases hb : (take n).child with
    | none => exact ⟨_, .ends hn hb⟩
    | some child =>
      have hlt := (hl.child hn (htake n) hb).1
      obtain ⟨value, hwalk⟩ := ih _ child (htake n) hb steps (by omega)
      exact ⟨value, .goesOn hn hb hwalk⟩

end Tree

variable [Scalar α] (v : Sight α)

/-- **The value of a feature.** -/
def Feature.valueAt (f : Feature α) : α :=
  f.rects.foldl
    (fun sum r => sum + v.answer (r.scaledRegion.queryAt f.tilted v.x v.y) * r.scaledWeight)
    Scalar.zero

/-- **The branch by which a node is left.** -/
def Node.taken (n : Node α) : Branch α :=
  if Scalar.lt (n.feature.valueAt v) n.threshold then n.left else n.right

/-- The nodes that are visited in a tree. -/
def Tree.visited (tree : Tree α) : List (Node α) := tree.visitedFrom (·.taken v) tree.length 0

/-- The value of a tree: that of the branch by which the last node is left. -/
def Tree.valueAt (tree : Tree α) : α :=
  match (tree.visited v).getLast? with
  | some n => (n.taken v).value
  | none => Scalar.zero

/-- The nodes that are visited in the trees of a stage. -/
def Stage.visited (s : Stage α) : List (Node α) := s.trees.flatMap (·.visited v)

/-- The sum of the values of all trees. -/
def Stage.total (s : Stage α) : α :=
  s.trees.foldl (fun total tree => total + tree.valueAt v) Scalar.zero

/-- **Does the sum reach the threshold**, times the deviation of the window? -/
def Stage.passes (deviation : α) (s : Stage α) : Bool :=
  Scalar.le (s.threshold * deviation) (s.total v)

/-- **The first of some stages that does not let the window pass.** -/
def Cascade.rejecting (deviation : α) (stages : List (Stage α)) : Option ℕ :=
  stages.findIdx? (!·.passes v deviation)

/-- The stages that are evaluated when one of them rejects, or none: those up to it, or all. -/
def Cascade.evaluated : Option ℕ → List (Stage α) → List (Stage α)
  | none, stages => stages
  | some k, stages => stages.take (k + 1)

variable {v}

namespace Feature

theorem trace_addSums {tilted : Bool} {rects : List (FeatureRect α)}
    (h : ∀ r ∈ rects, r.scaledRegion.Admitted (fun _ => True) v.x v.y tilted) (total : α) :
    (addSums tilted v.x v.y rects total).trace v.answers =
      ⟨.ok (rects.foldl (fun sum r =>
          sum + v.answer (r.scaledRegion.queryAt tilted v.x v.y) * r.scaledWeight) total),
        rects.map fun r => r.scaledRegion.queryAt tilted v.x v.y⟩ := by
  induction rects generalizing total with
  | nil => rfl
  | cons r rest ih =>
    obtain ⟨hx, hy, -⟩ := h r List.mem_cons_self
    have hr : (r.weightedSum tilted v.x v.y).trace v.answers =
        ⟨.ok (v.answer (r.scaledRegion.queryAt tilted v.x v.y) * r.scaledWeight),
          [r.scaledRegion.queryAt tilted v.x v.y]⟩ := by
      unfold FeatureRect.weightedSum
      simp only
      rw [if_pos ⟨hx, hy⟩]
      rfl
    unfold addSums
    rw [Probe.trace_bind_of_ok hr, ih fun r' hr' => h r' (List.mem_cons_of_mem _ hr')]
    rfl

/-- **The trace of a feature.** -/
theorem trace_sum {f : Feature α} (h : f.Addressable v.x v.y) :
    (f.sum v.x v.y).trace v.answers = ⟨.ok (f.valueAt v), f.queries v.x v.y⟩ :=
  trace_addSums h _

end Feature

theorem Node.trace_choose {n : Node α} (h : n.feature.Addressable v.x v.y) :
    (n.choose v.x v.y).trace v.answers = ⟨.ok (n.taken v), n.feature.queries v.x v.y⟩ := by
  unfold Node.choose
  rw [Probe.trace_bind_of_ok (Feature.trace_sum h)]
  simp [Probe.trace, Node.taken]

theorem Node.taken_cases (v : Sight α) (n : Node α) : n.taken v = n.left ∨ n.taken v = n.right := by
  unfold Node.taken
  split <;> simp

namespace Tree

variable {tree : Tree α}

/-- The queries of a walk are those of the nodes that it visits. -/
theorem Walks.trace {index : ℕ} {visited : List (Node α)} {value : α}
    (hw : tree.Walks (·.taken v) index visited value)
    (h : ∀ n ∈ tree, n.feature.Addressable v.x v.y) {steps : ℕ} (hs : visited.length ≤ steps) :
    (walk tree v.x v.y steps index).trace v.answers = ⟨.ok value, v.queries visited⟩ := by
  induction hw generalizing steps with
  | ends hn hb =>
    obtain ⟨steps, rfl⟩ : ∃ n, steps = n + 1 := ⟨steps - 1, by simp at hs; omega⟩
    unfold walk
    rw [hn]
    simp only
    rw [Probe.trace_bind_of_ok (Node.trace_choose (h _ (List.mem_of_getElem? hn))), hb]
    simp [Probe.trace, Sight.queries]
  | goesOn hn hb rest ih =>
    obtain ⟨steps, rfl⟩ : ∃ n, steps = n + 1 := ⟨steps - 1, by simp at hs; omega⟩
    unfold walk
    rw [hn]
    simp only
    rw [Probe.trace_bind_of_ok (Node.trace_choose (h _ (List.mem_of_getElem? hn))), hb]
    simp only
    rw [ih (Nat.le_of_succ_le_succ hs)]
    rfl

/-- **A linked tree has a walk**, which visits the nodes of `visited` and ends with `valueAt`. -/
theorem walks_visited (h0 : 0 < tree.length) (hl : tree.Linked) :
    tree.Walks (·.taken v) 0 (tree.visited v) (tree.valueAt v) := by
  obtain ⟨value, hw⟩ := exists_walks hl (Node.taken_cases v) tree.length h0 (by omega)
  have hvalue : tree.valueAt v = value := by
    have hlast := hw.getLast?
    unfold valueAt visited
    cases hv : (visitedFrom tree (·.taken v) tree.length 0).getLast? with
    | none => simp [hv] at hlast
    | some n => simpa [hv] using hlast
  rw [hvalue]
  exact hw

/-- **The trace of a tree.** -/
theorem trace_evaluate (h0 : 0 < tree.length) (hl : tree.Linked)
    (h : ∀ n ∈ tree, n.feature.Addressable v.x v.y) :
    (tree.evaluate v.x v.y).trace v.answers =
      ⟨.ok (tree.valueAt v), v.queries (tree.visited v)⟩ :=
  (walks_visited h0 hl).trace h (length_visitedFrom tree _ _ _)

end Tree

namespace Stage

theorem trace_addVotes {trees : List (Tree α)} (hl : ∀ t ∈ trees, 0 < t.length ∧ t.Linked)
    (h : ∀ t ∈ trees, ∀ n ∈ t, n.feature.Addressable v.x v.y) (total : α) :
    (addVotes v.x v.y trees total).trace v.answers =
      ⟨.ok (trees.foldl (fun total tree => total + tree.valueAt v) total),
        v.queries (trees.flatMap (·.visited v))⟩ := by
  induction trees generalizing total with
  | nil => rfl
  | cons t rest ih =>
    obtain ⟨h0, ht⟩ := hl t List.mem_cons_self
    unfold addVotes
    rw [Probe.trace_bind_of_ok (Tree.trace_evaluate h0 ht (h t List.mem_cons_self)),
      ih (fun t' ht' => hl t' (List.mem_cons_of_mem _ ht'))
        (fun t' ht' => h t' (List.mem_cons_of_mem _ ht'))]
    simp [Sight.queries]

/-- **The trace of a stage.** -/
theorem trace_classify {s : Stage α} (h : s.Sound v.x v.y) (deviation : α) :
    (s.classify v.x v.y deviation).trace v.answers =
      ⟨.ok (s.passes v deviation), v.queries (s.visited v)⟩ := by
  have hsum := trace_addVotes h.linked (v := v) (fun t ht n hn =>
    h.addressable n.feature (List.mem_map.2 ⟨n, List.mem_flatten.2 ⟨t, ht, hn⟩, rfl⟩)) Scalar.zero
  unfold classify Stage.sum
  rw [Probe.trace_bind_of_ok hsum]
  simp [Probe.trace, passes, total, visited]

end Stage

namespace Cascade

omit [Scalar α] in
theorem evaluated_succ (s : Stage α) (stages : List (Stage α)) (verdict : Option ℕ) :
    evaluated (verdict.map (· + 1)) (s :: stages) = s :: evaluated verdict stages := by
  cases verdict <;> rfl

omit [Scalar α] in
theorem mem_of_mem_evaluated {s : Stage α} {stages : List (Stage α)} {verdict : Option ℕ}
    (h : s ∈ evaluated verdict stages) : s ∈ stages := by
  cases verdict with
  | none => exact h
  | some k => exact List.mem_of_mem_take h

theorem rejecting_eq_none {deviation : α} {stages : List (Stage α)} :
    rejecting v deviation stages = none ↔ ∀ s ∈ stages, s.passes v deviation = true := by
  simp [rejecting]

/-- **The first stage that rejects** is the least one that does. -/
theorem rejecting_eq_some {deviation : α} {stages : List (Stage α)} {k : ℕ} :
    rejecting v deviation stages = some k ↔ ∃ h : k < stages.length,
      stages[k].passes v deviation = false ∧
        ∀ j, (hj : j < k) → stages[j].passes v deviation = true := by
  simp [rejecting, List.findIdx?_eq_some_iff_getElem]

theorem rejecting_append {deviation : α} (stages later : List (Stage α)) :
    rejecting v deviation (stages ++ later) =
      (rejecting v deviation stages).or
        ((rejecting v deviation later).map (· + stages.length)) :=
  List.findIdx?_append

/-- **Stages after the one that rejects** do not matter. -/
theorem rejecting_congr {deviation : α} {stages stages' : List (Stage α)} {k : ℕ}
    (h : rejecting v deviation stages = some k) (htake : stages'.take (k + 1) = stages.take (k + 1)) :
    rejecting v deviation stages' = some k := by
  have hk : rejecting v deviation (stages.take (k + 1)) = some k := by
    unfold rejecting at h ⊢
    rw [List.findIdx?_take, h]
    simp [Option.guard]
  rw [← List.take_append_drop (k + 1) stages', rejecting_append, htake, hk]
  rfl

/-- **The trace of some stages** goes up to the first one that rejects. -/
theorem trace_firstRejecting {stages : List (Stage α)} (h : ∀ s ∈ stages, s.Sound v.x v.y)
    (deviation : α) (index : ℕ) :
    (firstRejecting v.x v.y deviation index stages).trace v.answers =
      ⟨.ok ((rejecting v deviation stages).map (· + index)),
        v.queries ((evaluated (rejecting v deviation stages) stages).flatMap (·.visited v))⟩ := by
  induction stages generalizing index with
  | nil => rfl
  | cons s rest ih =>
    have hs := Stage.trace_classify (h s List.mem_cons_self) deviation
    have hrest := ih (fun s' hs' => h s' (List.mem_cons_of_mem _ hs')) (index + 1)
    unfold firstRejecting
    rw [Probe.trace_bind_of_ok hs, rejecting, List.findIdx?_cons]
    cases s.passes v deviation with
    | false => simp [Probe.trace, evaluated]
    | true =>
      rw [if_pos rfl, hrest]
      simp [rejecting, evaluated_succ, Sight.queries, Function.comp_def, Nat.add_comm,
        Nat.add_left_comm]

end Cascade

end HaarDetection
