import HaarDetection.Proofs.Search.Rescaling

/-!
# Cascades of a single node

The smallest cascades that there are. One of them, which looks at one region only and accepts no
window, is good for telling which regions a search can be led to.

* `oneNodeStage`: a stage with a single node.
* `singleNode_accepted`: when the constructors accept a cascade of a single node.
* `stump`: the cascade of a region.
* `stump_rejects`: it rejects every window, whatever the image is.
* `stump_asks`: **it asks for its region** at every position at which it judges a window.
* `edge`: a cascade that accepts what does not get darker to the right.
-/

namespace HaarDetection

/-- The rectangle of a region, as trained. -/
def plainRect (r : Region) (weight : Float) : FeatureRect Float := ⟨r, weight, r, weight⟩

/-- A stage of threshold zero with one node. -/
def oneNodeStage (threshold left right : Float) (f : Feature Float) : Stage Float :=
  ⟨0, none, none, [[⟨threshold, ⟨left, none⟩, ⟨right, none⟩, f⟩]]⟩

/-- The stage of a feature that votes minus one, whatever the feature is. -/
def stumpStage (f : Feature Float) : Stage Float := oneNodeStage 0 (-1) (-1) f

/-- **The cascade of a region,** which its feature takes twice. It rejects all windows. -/
def stump (window : Size) (tilted : Bool) (r : Region) : Cascade Float :=
  ⟨window, [stumpStage ⟨tilted, plainRect r 1, [plainRect r 1]⟩]⟩

/-- A cascade for windows of two pixels a side, which compares the two upper pixels. -/
def edge : Cascade Float :=
  ⟨⟨2, 2⟩, [oneNodeStage (-1) (-1) 1
    ⟨false, plainRect ⟨0, 0, 1, 1⟩ (-1), [plainRect ⟨1, 0, 1, 1⟩ 1]⟩]⟩

open Float.Model (UnpackedFloat)
open Float.Model.UnpackedFloat

variable {window : Size} {tilted : Bool} {r : Region} {scale : Float32}

theorem plainRect_build {weight : Float} (hne : r.Nonempty) (hw : Scalar.isFinite weight = true) :
    FeatureRect.build (plainRect r weight).region (plainRect r weight).weight =
      .ok (plainRect r weight) :=
  FeatureRect.build_ok_iff.2 ⟨⟨hne, hw⟩, rfl⟩

/-- **The constructors accept a cascade of one node** when its feature can be made and its
rectangles lie in the window. -/
theorem singleNode_accepted {α : Type} [Scalar α] {threshold nodeThreshold left right : α}
    {f : Feature α} (hthreshold : Scalar.isFinite threshold = true)
    (hw : 0 < window.width.toNat ∧ 0 < window.height.toNat)
    (hf : Feature.build f.tilted f.rects = .ok f)
    (hr : ∀ q ∈ f.rects, q.region.Inside f.tilted window ∧
      ∃ q', FeatureRect.build q.region q.weight = .ok q') :
    (⟨window, [⟨threshold, none, none, [[⟨nodeThreshold, ⟨left, none⟩, ⟨right, none⟩, f⟩]]⟩]⟩ :
      Cascade α).Accepted := by
  set s : Stage α := ⟨threshold, none, none, [[⟨nodeThreshold, ⟨left, none⟩, ⟨right, none⟩, f⟩]]⟩
  have hstage : s.features = [f] ∧ s.links = [] := ⟨rfl, rfl⟩
  have hcascade : (⟨window, [s]⟩ : Cascade α).features = [f] := rfl
  have hcheck : Tree.check [⟨nodeThreshold, ⟨left, none⟩, ⟨right, none⟩, f⟩] = .ok () := rfl
  refine ⟨Cascade.build_ok_iff.2 ⟨⟨hw.1, hw.2, List.cons_ne_nil _ _, ?_⟩, rfl⟩, ?_, ?_, ?_⟩
  · simp only [List.forall_mem_singleton, hstage.1, hstage.2]
    exact ⟨nofun, fun q hq => (hr q hq).1⟩
  · simp only [List.forall_mem_singleton]
    refine ⟨_, Stage.build_ok_iff.2 ⟨⟨hthreshold, List.cons_ne_nil _ _, ?_⟩, rfl⟩⟩
    exact fun t ht => List.mem_singleton.1 ht ▸ hcheck
  · rw [hcascade, List.forall_mem_singleton]
    exact hf
  · rw [hcascade, List.forall_mem_singleton]
    exact fun q hq => (hr q hq).2

theorem stump_accepted (hw : 0 < window.width.toNat ∧ 0 < window.height.toNat)
    (hr : r.Inside tilted window) (hne : r.Nonempty) : (stump window tilted r).Accepted := by
  refine singleNode_accepted rfl hw rfl ?_
  intro q hq
  obtain rfl : q = plainRect r 1 := by simpa [Feature.rects] using hq
  exact ⟨hr, _, plainRect_build hne rfl⟩

theorem edge_accepted : edge.Accepted := by
  refine singleNode_accepted rfl (by decide) rfl ?_
  intro q hq
  simp only [Feature.rects, List.mem_cons, List.not_mem_nil, or_false] at hq
  rcases hq with rfl | rfl
  · exact ⟨by decide, _, plainRect_build ⟨by decide, by decide⟩ rfl⟩
  · exact ⟨by decide, _, plainRect_build ⟨by decide, by decide⟩ rfl⟩

/-- Minus one is below any multiple of zero that is a number. -/
theorem zero_mul_le (x : Float) : Scalar.le ((0 : Float) * x) (Scalar.zero + -1) = false := by
  have hone : (Scalar.zero + -1 : Float).toModel.unpack = .finite .negative (2 ^ 52) (-52) (by decide) :=
    rfl
  have hzero : (0 : Float).toModel.unpack = .zero .positive := rfl
  have hmul : ((0 : Float) * x).toModel.unpack =
      repack .binary64 (UnpackedFloat.mul .binary64 (0 : Float).toModel.unpack x.toModel.unpack) := rfl
  change decide (UnpackedFloat.le _ _ = true) = false
  rw [decide_eq_false_iff_not, hone, hmul, hzero]
  cases x.toModel.unpack with
  | notANumber => simp [UnpackedFloat.mul, repack_notANumber, UnpackedFloat.le, UnpackedFloat.compare]
  | infinity s => simp [UnpackedFloat.mul, repack_notANumber, UnpackedFloat.le, UnpackedFloat.compare]
  | zero s =>
    rw [UnpackedFloat.mul, repack, pack, unpack_packedZero]
    simp [UnpackedFloat.le, UnpackedFloat.compare]
  | finite s m e h =>
    rw [UnpackedFloat.mul, repack, pack, unpack_packedZero]
    simp [UnpackedFloat.le, UnpackedFloat.compare]

/-- At every scale there is one such stage, whose feature takes the scaled region. -/
theorem stump_stages (window : Size) (tilted : Bool) (r : Region) (scale : Float32) :
    ∃ f, (Classifier.atScale (stump window tilted r) scale).cascade.stages = [stumpStage f] ∧
      f.tilted = tilted ∧ f.reference.scaledRegion = r.scale scale :=
  ⟨_, rfl, rfl, rfl⟩

/-- The stage rejects every window. -/
theorem stumpStage_rejects (f : Feature Float) (x y : ℕ) (deviation : Float) :
    (Cascade.firstRejecting x y deviation 0 [stumpStage f]).Yields (· = some 0) := by
  refine Probe.Yields.bind (Q := (· = false)) ?_ (by rintro b rfl; rfl)
  refine Probe.Yields.bind (Q := (· = Scalar.zero + -1)) ?_ (by rintro v rfl; exact zero_mul_le _)
  refine Probe.Yields.bind (Q := (· = -1)) ?_ (by rintro v rfl; rfl)
  refine Probe.Yields.bind (Q := (· = ⟨-1, none⟩)) ?_ (by rintro b rfl; rfl)
  refine (Probe.Yields.trivial _).bind ?_
  intro v _
  change (if _ then _ else _) = _
  split <;> rfl

/-- The stage asks for the reference rectangle of its feature. -/
theorem stumpStage_asks {f : Feature Float} {x y : ℕ} {answer : Query → Except Fault Float}
    (h : f.reference.scaledRegion.Admitted (fun _ => True) x y f.tilted) (deviation : Float) :
    f.reference.scaledRegion.queryAt f.tilted x y ∈
      ((Cascade.firstRejecting x y deviation 0 [stumpStage f]).trace answer).asked := by
  have hfirst : f.reference.scaledRegion.queryAt f.tilted x y ∈
      ((f.reference.weightedSum f.tilted x y).trace answer).asked := by
    have hq : f.reference.query f.tilted x y = f.reference.scaledRegion.queryAt f.tilted x y := rfl
    unfold FeatureRect.weightedSum
    simp only
    rw [hq, if_pos ⟨h.1, h.2.1⟩]
    simp only [Probe.trace]
    split <;> exact List.mem_cons_self
  -- whatever comes after, this was asked before
  iterate 6 apply Probe.mem_asked_bind
  exact hfirst

/-- **It rejects every window.** -/
theorem stump_rejects (image : Size) (w : Rect) :
    ((Classifier.atScale (stump window tilted r) scale).accepts image w).Yields (· = false) := by
  refine Probe.Yields.bind (Q := (· = some 0)) ?_ (by rintro b rfl; rfl)
  obtain ⟨f, hstages, -⟩ := stump_stages window tilted r scale
  unfold Classifier.rejectingStage
  rw [hstages]
  split
  · rfl
  · exact (Probe.Yields.trivial _).bind fun deviation _ => stumpStage_rejects _ _ _ _

/-- **It asks for its region** at every position at which it judges a window. -/
theorem stump_asks {image : Size} {answer : Query → Except Fault Float} {w : Rect} {x y : ℕ} {b : Bool}
    (hpos : (Classifier.atScale (stump window tilted r) scale).position? image w = some (x, y))
    (hadm : (r.scale scale).Admitted (fun _ => True) x y tilted)
    (h : (((Classifier.atScale (stump window tilted r) scale).accepts image w).trace answer).result =
      .ok b) :
    (r.scale scale).queryAt tilted x y ∈
      (((Classifier.atScale (stump window tilted r) scale).accepts image w).trace answer).asked := by
  obtain ⟨stage, qs, hstage⟩ := Probe.result_of_bind h
  have hres : ((((Classifier.atScale (stump window tilted r) scale).rejectingStage image w)).trace
      answer).result = .ok stage := by rw [hstage]
  apply Probe.mem_asked_bind
  obtain ⟨f, hstages, ht, hregion⟩ := stump_stages window tilted r scale
  unfold Classifier.rejectingStage at hres ⊢
  rw [hpos, hstages] at hres ⊢
  simp only at hres ⊢
  obtain ⟨dev, qs', hdev⟩ := Probe.result_of_bind hres
  rw [Probe.trace_bind_of_ok hdev]
  rw [← hregion, ← ht] at hadm
  have hmem := @stumpStage_asks f x y answer hadm dev
  rw [hregion, ht] at hmem
  exact List.mem_append_right _ hmem

end HaarDetection
