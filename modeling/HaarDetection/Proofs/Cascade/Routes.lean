import HaarDetection.Proofs.Cascade.Checks
import HaarDetection.Proofs.Image.Traces

/-!
# Routes through trees

The nodes of a tree are kept in a list and lead to each other by their places in it. As all links of an
accepted tree lead on, a walk through it comes to an end, whichever branches it takes, and the tree
stands for one without links, where shared nodes are there several times.

* `Tree.Route`, `Tree.Journey`: the places that a walk visits, and what it ends with.
* `Tree.exists_journey`, `Tree.Route.unique`: **there is one walk for all decisions.**
* `Tree.Route.trace`: the trace of the walk with the decisions that an image leads to.
* `DecisionTree`, `Tree.Unfolds`: trees without links, and the one that a tree stands for.
* `Tree.walk_of_unfolds`: it has the same value.
* `Tree.evaluate_journey`: **an accepted tree is left by a branch that leads nowhere**, as is the tree that
  it stands for.
-/

namespace HaarDetection

variable {α : Type}

/-- **A decision tree without links.** -/
inductive DecisionTree (α : Type)
  | leaf (value : α)
  | node (threshold : α) (feature : Feature α) (left right : DecisionTree α)

/-- **The value of a tree without links**, for a window at `(x, y)`. -/
def DecisionTree.evaluate [Scalar α] (x y : ℕ) : DecisionTree α → Probe α α
  | .leaf value => .done value
  | .node threshold feature left right =>
    (feature.sum x y).bind fun value =>
      if Scalar.lt value threshold then left.evaluate x y else right.evaluate x y

/-- **What a branch leads to** in a tree when every link is followed: a leaf with its value, or the node
at the place of its link with what both of the node's branches lead to. -/
inductive Branch.Unfolds (tree : Tree α) : Branch α → DecisionTree α → Prop
  | leaf {b : Branch α} (hb : b.child = none) : Unfolds tree b (.leaf b.value)
  | node {b : Branch α} {index : ℕ} {n : Node α} {left right : DecisionTree α}
    (hb : b.child = some index) (hn : tree[index]? = some n) (hleft : Unfolds tree n.left left)
    (hright : Unfolds tree n.right right) :
    Unfolds tree b (.node n.threshold n.feature left right)

namespace Tree

/-- **What a tree stands for** from the node at a place on. -/
def Unfolds (tree : Tree α) (index : ℕ) (t : DecisionTree α) : Prop :=
  ∃ n left right, tree[index]? = some n ∧ n.left.Unfolds tree left ∧ n.right.Unfolds tree right ∧
    t = .node n.threshold n.feature left right

/-- **A route through a tree** from the node at a place on: which places it visits, and what it ends
with. By which branch the node at a place is left is told by `way`, or that there is a fault. -/
inductive Route (tree : Tree α) (way : ℕ → Node α → Except Fault (Branch α)) :
    ℕ → List ℕ → Except Fault α → Prop
  /-- The branch leads nowhere, and its value is that of the route. -/
  | ends {index : ℕ} {n : Node α} {b : Branch α} (hn : tree[index]? = some n)
    (hway : way index n = .ok b) (hb : b.child = none) : Route tree way index [index] (.ok b.value)
  /-- The branch leads to another node, from which the route goes on. -/
  | goesOn {index child : ℕ} {n : Node α} {b : Branch α} {places : List ℕ} {result : Except Fault α}
    (hn : tree[index]? = some n) (hway : way index n = .ok b) (hb : b.child = some child)
    (rest : Route tree way child places result) : Route tree way index (index :: places) result
  /-- There is a fault before the node is left. -/
  | stops {index : ℕ} {n : Node α} {fault : Fault} (hn : tree[index]? = some n)
    (hway : way index n = .error fault) : Route tree way index [index] (.error fault)

/-- Nodes are left by their own branches. -/
def OwnBranches (way : ℕ → Node α → Except Fault (Branch α)) : Prop :=
  ∀ index n b, way index n = .ok b → b = n.left ∨ b = n.right

/-- **A route that is as it should be:** it begins at the root, leads on from place to place in the
tree, visits no more places than there are nodes, and ends at the last one with the value of a branch
that leads nowhere or with a fault of the node. -/
structure Journey (tree : Tree α) (way : ℕ → Node α → Except Fault (Branch α)) (places : List ℕ)
    (result : Except Fault α) : Prop where
  route : tree.Route way 0 places result
  first : places.head? = some 0
  increasing : places.Pairwise (· < ·)
  inside : ∀ index ∈ places, index < tree.length
  length_le : places.length ≤ tree.length
  last : ∃ index n, places.getLast? = some index ∧ tree[index]? = some n ∧
    ((∃ b, way index n = .ok b ∧ b.child = none ∧ result = .ok b.value) ∨
      ∃ fault, way index n = .error fault ∧ result = .error fault)

section Routes

variable {tree : Tree α} {way : ℕ → Node α → Except Fault (Branch α)} {index : ℕ} {places : List ℕ}
  {result : Except Fault α}

theorem Route.head? (h : tree.Route way index places result) : places.head? = some index := by
  cases h <;> rfl

/-- **A route through a linked tree leads on.** -/
theorem Route.leads_on (h : tree.Route way index places result) (hl : tree.Linked)
    (hway : OwnBranches way) : places.Pairwise (· < ·) ∧
      (∀ place ∈ places, index ≤ place ∧ place < tree.length) ∧
      index + places.length ≤ tree.length := by
  induction h with
  | ends hn _ _ =>
    have hi := (List.getElem?_eq_some_iff.1 hn).1
    exact ⟨List.pairwise_singleton _ _, by simpa using hi, hi⟩
  | stops hn _ =>
    have hi := (List.getElem?_eq_some_iff.1 hn).1
    exact ⟨List.pairwise_singleton _ _, by simpa using hi, hi⟩
  | @goesOn index child n b places result hn hb hchild rest ih =>
    have hi := (List.getElem?_eq_some_iff.1 hn).1
    obtain ⟨hlt, -⟩ := hl.child hn (hway index n b hb) hchild
    obtain ⟨hincreasing, hinside, hlength⟩ := ih
    refine ⟨List.pairwise_cons.2 ⟨?_, hincreasing⟩, ?_, ?_⟩
    · intro place hplace
      exact hlt.trans_le (hinside place hplace).1
    · intro place hplace
      rcases List.mem_cons.1 hplace with rfl | hplace
      · exact ⟨le_rfl, hi⟩
      · exact ⟨hlt.le.trans (hinside place hplace).1, (hinside place hplace).2⟩
    · rw [List.length_cons]
      omega

/-- **What a route is made of** depends on how its first node is left. -/
theorem route_iff {n : Node α} (hn : tree[index]? = some n) : tree.Route way index places result ↔
    (∃ fault, way index n = .error fault ∧ places = [index] ∧ result = .error fault) ∨
    (∃ b, way index n = .ok b ∧ b.child = none ∧ places = [index] ∧ result = .ok b.value) ∨
    ∃ b child rest, way index n = .ok b ∧ b.child = some child ∧ places = index :: rest ∧
      tree.Route way child rest result := by
  constructor
  · intro h
    cases h with
    | ends hn' hway hb =>
      obtain rfl := Option.some.inj (hn.symm.trans hn')
      exact .inr (.inl ⟨_, hway, hb, rfl, rfl⟩)
    | goesOn hn' hway hb rest =>
      obtain rfl := Option.some.inj (hn.symm.trans hn')
      exact .inr (.inr ⟨_, _, _, hway, hb, rfl, rest⟩)
    | stops hn' hway =>
      obtain rfl := Option.some.inj (hn.symm.trans hn')
      exact .inl ⟨_, hway, rfl, rfl⟩
  · rintro (⟨fault, hway, rfl, rfl⟩ | ⟨b, hway, hb, rfl, rfl⟩ | ⟨b, child, rest, hway, hb, rfl, h⟩)
    · exact .stops hn hway
    · exact .ends hn hway hb
    · exact .goesOn hn hway hb h

/-- **There is one route only** for the same decisions. -/
theorem Route.unique (h : tree.Route way index places result) {places' : List ℕ}
    {result' : Except Fault α} (h' : tree.Route way index places' result') :
    places' = places ∧ result' = result := by
  induction h generalizing places' result' with
  | ends hn hway hb => simpa [route_iff hn, hway, hb] using h'
  | stops hn hway => simpa [route_iff hn, hway] using h'
  | @goesOn index child _ _ _ _ hn hway hb _ ih =>
    obtain ⟨rest', rfl, hrest⟩ :
        ∃ rest', places' = index :: rest' ∧ tree.Route way child rest' result' := by
      simpa [route_iff hn, hway, hb] using h'
    obtain ⟨rfl, rfl⟩ := ih hrest
    exact ⟨rfl, rfl⟩

/-- **What a route ends with** is decided at the last place. -/
theorem Route.last (h : tree.Route way index places result) :
    ∃ place n, places.getLast? = some place ∧ tree[place]? = some n ∧
      ((∃ b, way place n = .ok b ∧ b.child = none ∧ result = .ok b.value) ∨
        ∃ fault, way place n = .error fault ∧ result = .error fault) := by
  induction h with
  | ends hn hb hchild => exact ⟨_, _, rfl, hn, .inl ⟨_, hb, hchild, rfl⟩⟩
  | stops hn hfault => exact ⟨_, _, rfl, hn, .inr ⟨_, hfault, rfl⟩⟩
  | goesOn hn hb hchild rest ih =>
    obtain ⟨place, n, hlast, h⟩ := ih
    refine ⟨place, n, ?_, h⟩
    rw [List.getLast?_cons, hlast]
    rfl

/-- **From every node of a linked tree there is a route.** -/
theorem exists_route (hl : tree.Linked) (hway : OwnBranches way) {index : ℕ}
    (hi : index < tree.length) : ∃ places result, tree.Route way index places result := by
  induction index, hi using hl.induction with
  | step index hi n hn ih =>
    cases hb : way index n with
    | error fault => exact ⟨_, _, .stops hn hb⟩
    | ok b =>
      cases hchild : b.child with
      | none => exact ⟨_, _, .ends hn hb hchild⟩
      | some child =>
        obtain ⟨places, result, hroute⟩ := ih b child (hway index n b hb) hchild
        exact ⟨_, _, .goesOn hn hb hchild hroute⟩

/-- **There is a walk for all decisions**, through a tree that has nodes. -/
theorem exists_journey (h0 : 0 < tree.length) (hl : tree.Linked) (hway : OwnBranches way) :
    ∃ places result, tree.Journey way places result := by
  obtain ⟨places, result, hroute⟩ := exists_route hl hway h0
  obtain ⟨hincreasing, hinside, hlength⟩ := hroute.leads_on hl hway
  exact ⟨places, result, hroute, hroute.head?, hincreasing, fun i hi => (hinside i hi).2,
    by omega, hroute.last⟩

end Routes

variable [Scalar α] {tree : Tree α}

section Traces

variable {answer : Query → Except Fault α} {x y : ℕ}

/-- **The decisions that an image leads to**, for a window at `(x, y)`. -/
def wayOn (answer : Query → Except Fault α) (x y : ℕ) : ℕ → Node α → Except Fault (Branch α) :=
  fun _ n => ((n.choose x y).trace answer).result

/-- The queries that the node at a place asks. -/
def askedAt (tree : Tree α) (answer : Query → Except Fault α) (x y index : ℕ) : List Query :=
  match tree[index]? with
  | some n => ((n.choose x y).trace answer).asked
  | none => []

theorem ownBranches_wayOn (answer : Query → Except Fault α) (x y : ℕ) :
    OwnBranches (wayOn answer x y) := by
  intro index n b hb
  have hyields : (n.choose x y).Yields fun b => b = n.left ∨ b = n.right := by
    refine (Probe.Yields.trivial (n.feature.sum x y)).bind fun value _ => ?_
    change (if _ then _ else _) = _ ∨ (if _ then _ else _) = _
    split <;> simp
  exact hyields.trace hb

/-- A walk goes on with the branch by which its first node is left. -/
theorem trace_walk_succ {index : ℕ} {n : Node α} (hn : tree[index]? = some n) (steps : ℕ) :
    (walk tree x y (steps + 1) index).trace answer =
      ((n.choose x y).trace answer).andThen fun b =>
        (match b.child with
          | none => .done b.value
          | some child => walk tree x y steps child : Probe α α).trace answer := by
  rw [walk, hn]
  exact Probe.trace_bind _ _

/-- **The trace of a walk** is that of its nodes. -/
theorem Route.trace {index : ℕ} {places : List ℕ} {result : Except Fault α}
    (h : tree.Route (wayOn answer x y) index places result) {steps : ℕ} (hs : places.length ≤ steps) :
    (walk tree x y steps index).trace answer =
      ⟨result, places.flatMap (tree.askedAt answer x y)⟩ := by
  obtain ⟨steps, rfl⟩ : ∃ k, steps = k + 1 :=
    ⟨steps - 1, by have := List.length_pos_of_mem (List.mem_of_mem_head? h.head?); omega⟩
  induction h generalizing steps with
  | ends hn hway hb =>
    rw [wayOn] at hway
    rw [trace_walk_succ hn, Trace.andThen, hway]
    simp [hb, Probe.trace, askedAt, hn]
  | stops hn hway =>
    rw [wayOn] at hway
    rw [trace_walk_succ hn, Trace.andThen, hway]
    simp [askedAt, hn]
  | goesOn hn hway hb rest ih =>
    rw [wayOn] at hway
    rw [trace_walk_succ hn, Trace.andThen, hway]
    obtain ⟨steps, rfl⟩ : ∃ k, steps = k + 1 :=
      ⟨steps - 1, by
        have := List.length_pos_of_mem (List.mem_of_mem_head? rest.head?)
        rw [List.length_cons] at hs
        omega⟩
    simp only [hb, ih steps (Nat.le_of_succ_le_succ hs)]
    simp [askedAt, hn]

end Traces

end Tree

section Unfolding

variable {tree : Tree α}

theorem Branch.unfolds_iff {b : Branch α} {t : DecisionTree α} : b.Unfolds tree t ↔
    b.child = none ∧ t = .leaf b.value ∨ ∃ index, b.child = some index ∧ tree.Unfolds index t := by
  constructor
  · rintro (hb | ⟨hb, hn, hleft, hright⟩)
    · exact .inl ⟨hb, rfl⟩
    · exact .inr ⟨_, hb, _, _, _, hn, hleft, hright, rfl⟩
  · rintro (⟨hb, rfl⟩ | ⟨index, hb, n, left, right, hn, hleft, hright, rfl⟩)
    · exact .leaf hb
    · exact .node hb hn hleft hright

theorem Branch.Unfolds.unique {b : Branch α} {t t' : DecisionTree α} (h : b.Unfolds tree t)
    (h' : b.Unfolds tree t') : t = t' := by
  induction h generalizing t' with
  | leaf hb =>
    cases h' with
    | leaf => rfl
    | node hb' => rw [hb] at hb'; cases hb'
  | node hb hn _ _ ihl ihr =>
    cases h' with
    | leaf hb' => rw [hb] at hb'; cases hb'
    | node hb' hn' hleft hright =>
      obtain rfl := Option.some.inj (hb.symm.trans hb')
      obtain rfl := Option.some.inj (hn.symm.trans hn')
      rw [ihl hleft, ihr hright]

namespace Tree

/-- A tree stands for one tree without links only. -/
theorem Unfolds.unique {index : ℕ} {t t' : DecisionTree α} (h : tree.Unfolds index t)
    (h' : tree.Unfolds index t') : t = t' := by
  obtain ⟨n, left, right, hn, hleft, hright, rfl⟩ := h
  obtain ⟨n', left', right', hn', hleft', hright', rfl⟩ := h'
  obtain rfl := Option.some.inj (hn.symm.trans hn')
  rw [hleft.unique hleft', hright.unique hright']

/-- **A linked tree stands for one without links** from each of its nodes on. -/
theorem exists_unfolds (hl : tree.Linked) {index : ℕ} (hi : index < tree.length) :
    ∃ t, tree.Unfolds index t := by
  induction index, hi using hl.induction with
  | step index hi n hn ih =>
    have hbranch : ∀ b : Branch α, b = n.left ∨ b = n.right → ∃ t, b.Unfolds tree t := by
      intro b hb
      cases hchild : b.child with
      | none => exact ⟨_, .leaf hchild⟩
      | some child =>
        obtain ⟨t, ht⟩ := ih b child hb hchild
        exact ⟨t, Branch.unfolds_iff.2 (.inr ⟨child, hchild, ht⟩)⟩
    obtain ⟨left, hleft⟩ := hbranch _ (.inl rfl)
    obtain ⟨right, hright⟩ := hbranch _ (.inr rfl)
    exact ⟨_, n, left, right, hn, hleft, hright, rfl⟩

variable [Scalar α]

/-- **A walk has the value of the tree without links.** It asks the same queries, whatever the answers
are. -/
theorem walk_of_unfolds (hl : tree.Linked) (x y : ℕ) {steps index : ℕ} (hi : index < tree.length)
    (hs : tree.length ≤ steps + index) {t : DecisionTree α} (ht : tree.Unfolds index t) :
    walk tree x y steps index = t.evaluate x y := by
  induction index, hi using hl.induction generalizing steps t with
  | step index hi n hn ih =>
    obtain ⟨steps, rfl⟩ : ∃ k, steps = k + 1 := ⟨steps - 1, by omega⟩
    obtain ⟨n', left, right, hn', hleft, hright, rfl⟩ := ht
    obtain rfl := Option.some.inj (hn.symm.trans hn')
    have hbranch : ∀ b u, b = n.left ∨ b = n.right → b.Unfolds tree u →
        (match b.child with
          | none => .done b.value
          | some child => walk tree x y steps child) = u.evaluate x y := by
      intro b u hb hu
      rcases Branch.unfolds_iff.1 hu with ⟨hchild, rfl⟩ | ⟨child, hchild, hu⟩
      · rw [hchild]
        rfl
      · rw [hchild]
        have hlt := (hl.child hn hb hchild).1
        exact ih b child hb hchild (by omega) hu
    rw [walk, hn]
    simp only
    rw [Node.choose, Probe.bind_assoc, DecisionTree.evaluate]
    congr 1
    funext value
    -- both trees compare the value with the same threshold
    by_cases hlt : Scalar.lt value n.threshold = true
    · rw [Probe.bind, if_pos hlt, if_pos hlt]
      exact hbranch _ _ (.inl rfl) hleft
    · rw [Probe.bind, if_neg hlt, if_neg hlt]
      exact hbranch _ _ (.inr rfl) hright

/-- **An accepted tree is left by a branch that leads nowhere.** Whichever branches its nodes are left
by, there is one walk only. It begins at the root, visits places of the tree in growing order, no more
than there are nodes, and ends with the value of the branch by which the last one is left, which leads
nowhere, or with the fault of a node. The tree is evaluated by this walk on every image and at every
position, and has the value of the one tree that it stands for when all links are followed. -/
theorem evaluate_journey (h : tree.check = .ok ()) :
    (∀ way, OwnBranches way → ∃ places result, tree.Journey way places result ∧
      ∀ places' result', tree.Route way 0 places' result' → places' = places ∧ result' = result) ∧
    (∀ answer x y, ∃ places, tree.Journey (wayOn answer x y) places
        ((tree.evaluate x y).trace answer).result ∧
      ((tree.evaluate x y).trace answer).asked = places.flatMap (tree.askedAt answer x y)) ∧
    ∃ t, (∀ t', tree.Unfolds 0 t' ↔ t' = t) ∧ ∀ x y, tree.evaluate x y = t.evaluate x y := by
  obtain ⟨h0, hl⟩ := check_ok_iff.1 h
  refine ⟨fun way hway => ?_, fun answer x y => ?_, ?_⟩
  · obtain ⟨places, result, hjourney⟩ := exists_journey h0 hl hway
    exact ⟨places, result, hjourney, fun places' result' h' => hjourney.route.unique h'⟩
  · obtain ⟨places, result, hjourney⟩ := exists_journey h0 hl (ownBranches_wayOn answer x y)
    have htrace := hjourney.route.trace hjourney.length_le
    refine ⟨places, ?_, ?_⟩ <;> rw [evaluate, htrace]
    exact hjourney
  · obtain ⟨t, ht⟩ := exists_unfolds hl h0
    refine ⟨t, fun t' => ⟨fun ht' => ht'.unique ht, ?_⟩, fun x y => walk_of_unfolds hl x y h0 le_rfl ht⟩
    rintro rfl
    exact ht

/-- A tree in which two nodes lead to the same one. All nodes compare two neighboring pixels. -/
def diamond : Tree Float :=
  let feature : Feature Float := ⟨false, ⟨⟨0, 0, 1, 1⟩, -1, ⟨0, 0, 1, 1⟩, -1⟩,
    [⟨⟨1, 0, 1, 1⟩, 1, ⟨1, 0, 1, 1⟩, 1⟩]⟩
  [⟨0, ⟨0, some 1⟩, ⟨0, some 2⟩, feature⟩, ⟨0, ⟨0.25, none⟩, ⟨0, some 3⟩, feature⟩,
    ⟨1, ⟨0, some 3⟩, ⟨0.5, none⟩, feature⟩, ⟨0, ⟨0.75, none⟩, ⟨1, none⟩, feature⟩]

/-- In the dark it is left at the shared node by the right branch. -/
theorem evaluate_journey_diamond : diamond.check = .ok () ∧
    (∃ places, diamond.Journey (wayOn (fun _ => .ok 0) 0 0) places (.ok 1)) ∧
    ∃ t, diamond.Unfolds 0 t ∧ ((t.evaluate 0 0).trace fun _ => .ok 0).result = .ok 1 := by
  have hcheck : diamond.check = .ok () := rfl
  have hvalue : ((diamond.evaluate 0 0).trace fun _ => .ok 0).result = .ok 1 := by decide +kernel
  obtain ⟨-, hjourney, t, ht, hsame⟩ := evaluate_journey hcheck
  obtain ⟨places, hplaces, -⟩ := hjourney (fun _ => .ok 0) 0 0
  refine ⟨hcheck, ⟨places, ?_⟩, t, (ht t).2 rfl, ?_⟩
  · rwa [hvalue] at hplaces
  · rwa [hsame] at hvalue

end Tree

end Unfolding

end HaarDetection
