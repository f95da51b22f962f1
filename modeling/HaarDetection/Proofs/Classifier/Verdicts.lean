import HaarDetection.Proofs.Search.Rescaling

/-!
# What a verdict hangs on

A cascade sees an image from a position, and sees nothing of it but the values of its features and the
deviation of the window. Two views in which these are the same lead to the same verdict.

* `Probe.resultOn`: what a probe comes to on some answers.
* `View`: an image, as it is seen from a position.
* `Feature.resultOn_addSums`: **the value of a feature** whose queries are answered.
* `Classifier.trace_deviation`: the deviation of a window whose queries are answered.
* `Cascade.firstRejecting_congr`: **where all features have the same values, the same stage rejects.**
* `Classifier.rejectingStage_congr`: the same for the windows of a classifier.
-/

namespace HaarDetection

variable {α β γ : Type}

namespace Probe

/-- **What a probe comes to** when its queries are answered by `answer`. -/
def resultOn (p : Probe α β) (answer : Query → Except Fault α) : Except Fault β :=
  (p.trace answer).result

theorem run_result (p : Probe α β) (image : Source α) :
    (p.run image).result = p.resultOn image.answer := by
  rw [run_eq_trace, resultOn]

@[simp]
theorem resultOn_done (answer : Query → Except Fault α) (b : β) :
    (Probe.done b : Probe α β).resultOn answer = .ok b := rfl

theorem resultOn_ask {answer : Query → Except Fault α} {q : Query} {v : α} (h : answer q = .ok v)
    (next : α → Probe α β) : (Probe.ask q next).resultOn answer = (next v).resultOn answer := by
  unfold resultOn
  simp only [Probe.trace, h]

theorem resultOn_bind (p : Probe α β) (f : β → Probe α γ) (answer : Query → Except Fault α) :
    (p.bind f).resultOn answer = p.resultOn answer >>= fun b => (f b).resultOn answer := by
  unfold resultOn
  rw [trace_bind]
  unfold Trace.andThen
  cases (p.trace answer).result <;> rfl

end Probe

/-- **A view of an image:** the answers to all queries, and the position of a window. -/
structure View (α : Type) where
  answer : Query → Except Fault α
  x : ℕ
  y : ℕ

variable [Scalar α] {v w : View α}

namespace FeatureRect

theorem resultOn_weightedSum {r : FeatureRect α} {tilted : Bool} {value : α}
    (h : r.scaledRegion.Admitted (fun q => v.answer q = .ok value) v.x v.y tilted) :
    (r.weightedSum tilted v.x v.y).resultOn v.answer = .ok (value * r.scaledWeight) := by
  obtain ⟨hx, hy, hv⟩ := h
  unfold weightedSum
  simp only
  rw [if_pos ⟨hx, hy⟩]
  exact Probe.resultOn_ask hv _

end FeatureRect

namespace Feature

/-- **The weighted sums of some rectangles** whose queries are answered, added up. -/
theorem resultOn_addSums {tilted : Bool} {rects : List (FeatureRect α)} {value : FeatureRect α → α}
    (h : ∀ r ∈ rects,
      r.scaledRegion.Admitted (fun q => v.answer q = .ok (value r)) v.x v.y tilted) (total : α) :
    (addSums tilted v.x v.y rects total).resultOn v.answer =
      .ok (rects.foldl (fun sum r => sum + value r * r.scaledWeight) total) := by
  induction rects generalizing total with
  | nil => rfl
  | cons r rest ih =>
    unfold addSums
    rw [Probe.resultOn_bind, FeatureRect.resultOn_weightedSum (h r List.mem_cons_self)]
    exact ih (fun r' hr' => h r' (List.mem_cons_of_mem _ hr')) _

/-- The value of a feature in a view. -/
def valueIn (f : Feature α) (v : View α) : Except Fault α := (f.sum v.x v.y).resultOn v.answer

theorem valueIn_eq {f : Feature α} {value : FeatureRect α → α}
    (h : ∀ r ∈ f.rects,
      r.scaledRegion.Admitted (fun q => v.answer q = .ok (value r)) v.x v.y f.tilted) :
    f.valueIn v =
      .ok (f.rects.foldl (fun sum r => sum + value r * r.scaledWeight) Scalar.zero) :=
  resultOn_addSums h _

end Feature

theorem Node.choose_congr {n : Node α} (h : n.feature.valueIn v = n.feature.valueIn w) :
    (n.choose v.x v.y).resultOn v.answer = (n.choose w.x w.y).resultOn w.answer := by
  unfold Node.choose
  rw [Probe.resultOn_bind, Probe.resultOn_bind]
  unfold Feature.valueIn at h
  rw [h]
  rfl

/-- A walk goes the same way through a tree. -/
theorem Tree.walk_congr {tree : Tree α} (h : ∀ n ∈ tree, n.feature.valueIn v = n.feature.valueIn w)
    (steps index : ℕ) :
    (Tree.walk tree v.x v.y steps index).resultOn v.answer =
      (Tree.walk tree w.x w.y steps index).resultOn w.answer := by
  induction steps generalizing index with
  | zero => rfl
  | succ steps ih =>
    unfold Tree.walk
    cases hn : tree[index]? with
    | none => rfl
    | some n =>
      simp only
      rw [Probe.resultOn_bind, Probe.resultOn_bind,
        Node.choose_congr (h n (List.mem_of_getElem? hn))]
      congr 1
      funext branch
      cases branch.child with
      | none => rfl
      | some child => exact ih child

theorem Stage.addVotes_congr {trees : List (Tree α)}
    (h : ∀ t ∈ trees, ∀ n ∈ t, n.feature.valueIn v = n.feature.valueIn w) (total : α) :
    (Stage.addVotes v.x v.y trees total).resultOn v.answer =
      (Stage.addVotes w.x w.y trees total).resultOn w.answer := by
  induction trees generalizing total with
  | nil => rfl
  | cons t rest ih =>
    unfold Stage.addVotes
    rw [Probe.resultOn_bind, Probe.resultOn_bind]
    unfold Tree.evaluate
    rw [Tree.walk_congr (h t List.mem_cons_self)]
    congr 1
    funext value
    exact ih (fun t' ht' => h t' (List.mem_cons_of_mem _ ht')) _

theorem Stage.classify_congr {s : Stage α}
    (h : ∀ f ∈ s.features, f.valueIn v = f.valueIn w) (deviation : α) :
    (s.classify v.x v.y deviation).resultOn v.answer =
      (s.classify w.x w.y deviation).resultOn w.answer := by
  unfold Stage.classify Stage.sum
  rw [Probe.resultOn_bind, Probe.resultOn_bind, Stage.addVotes_congr]
  · rfl
  · intro t ht n hn
    exact h _ (List.mem_map.2 ⟨n, List.mem_flatten.2 ⟨t, ht, hn⟩, rfl⟩)

/-- **Where all features have the same values, the same stage rejects**, or the same fault is met. -/
theorem Cascade.firstRejecting_congr {stages : List (Stage α)}
    (h : ∀ s ∈ stages, ∀ f ∈ s.features, f.valueIn v = f.valueIn w) (deviation : α) (index : ℕ) :
    (Cascade.firstRejecting v.x v.y deviation index stages).resultOn v.answer =
      (Cascade.firstRejecting w.x w.y deviation index stages).resultOn w.answer := by
  induction stages generalizing index with
  | nil => rfl
  | cons s rest ih =>
    unfold Cascade.firstRejecting
    rw [Probe.resultOn_bind, Probe.resultOn_bind, Stage.classify_congr (h s List.mem_cons_self)]
    congr 1
    funext accepted
    cases accepted with
    | true => exact ih (fun s' hs' => h s' (List.mem_cons_of_mem _ hs')) _
    | false => rfl

namespace Classifier

/-- **The variance of some pixels**, from their number, their sum and the sum of their squares. -/
def variance (area : ℕ) (sum squares : α) : α :=
  squares / Scalar.ofNat area - sum / Scalar.ofNat area * (sum / Scalar.ofNat area)

/-- The deviation that belongs to a variance. -/
def deviationOf (area : ℕ) (sum squares : α) : α :=
  if area = 0 then Scalar.one
  else if Scalar.lt Scalar.zero (variance area sum squares) then
    Scalar.sqrt (variance area sum squares)
  else Scalar.one

/-- The queries for the deviation of a window. -/
def deviationQueries (window : Rect) : List Query :=
  if window.area = 0 then []
  else [windowQuery .sum window window.left.toNat window.top.toNat,
    windowQuery .squares window window.left.toNat window.top.toNat]

/-- **The deviation of a window** whose queries are answered. -/
theorem trace_deviation {answer : Query → Except Fault α} {window : Rect} {sum squares : α}
    (hx : window.left = window.left.toNat) (hy : window.top = window.top.toNat)
    (hsum : answer (windowQuery .sum window window.left.toNat window.top.toNat) = .ok sum)
    (hsquares : answer (windowQuery .squares window window.left.toNat window.top.toNat) = .ok squares) :
    (deviation window).trace answer =
      ⟨.ok (deviationOf window.area sum squares), deviationQueries window⟩ := by
  unfold windowQuery at hsum hsquares
  unfold deviation deviationOf deviationQueries
  split
  · rfl
  · simp only [toNat_toUInt32 hx, toNat_toUInt32 hy, Probe.trace, hsum, hsquares]
    rfl

/-- **Windows that look the same are judged the same.** -/
theorem rejectingStage_congr {c : Classifier α} {image image' : Size} {window window' : Rect}
    (hv : c.position? image window = some (v.x, v.y))
    (hw : c.position? image' window' = some (w.x, w.y))
    (hdev : (deviation window).resultOn v.answer = (deviation window').resultOn w.answer)
    (h : ∀ f ∈ c.cascade.features, f.valueIn v = f.valueIn w) :
    (c.rejectingStage image window).resultOn v.answer =
      (c.rejectingStage image' window').resultOn w.answer := by
  unfold rejectingStage
  rw [hv, hw]
  simp only
  rw [Probe.resultOn_bind, Probe.resultOn_bind, hdev]
  congr 1
  funext deviation
  exact Cascade.firstRejecting_congr
    (fun s hs f hf => h f (List.mem_flatMap.2 ⟨s, hs, hf⟩)) deviation 0

end Classifier

end HaarDetection
