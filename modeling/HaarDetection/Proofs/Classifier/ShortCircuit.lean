import HaarDetection.Proofs.Cascade.Evaluation
import HaarDetection.Proofs.Cascade.Stump
import HaarDetection.Proofs.Classifier.PixelSums

/-!
# Short-circuit evaluation

A classifier evaluates one stage after the other and stops at the first one that rejects the window.
What it costs to judge a window are the queries for the deviation and those for the rectangles of the
nodes that the trees of the evaluated stages come to.

* `Classifier.sight`, `Classifier.deviationAt`: a window as its classifier sees it, and its deviation.
* `Classifier.trace_rejectingStage`: **the trace of a verdict**, for a window with a position.
* `Classifier.Judged`: what a window is judged to be, and what this costs.
* `Classifier.short_circuit`: **windows out of the image and windows that are too small are rejected
  without a query, all others are judged.** Stages after the one that rejects do not matter.
-/

namespace HaarDetection

namespace Classifier

variable {α : Type}

/-- A window, seen from its position in an image that answers every query. -/
def sight (answer : Query → α) (w : Rect) : Sight α := ⟨answer, w.left.toNat, w.top.toNat⟩

/-- The number of queries for the deviation of a window. -/
def deviationCost (w : Rect) : ℕ := if w.area = 0 then 0 else 2

theorem length_deviationQueries (w : Rect) : (deviationQueries w).length = deviationCost w := by
  unfold deviationQueries deviationCost
  split <;> rfl

variable [Scalar α]

/-- **The deviation of a window** in an image that answers every query. -/
def deviationAt (answer : Query → α) (w : Rect) : α :=
  deviationOf w.area (answer (windowQuery .sum w w.left.toNat w.top.toNat))
    (answer (windowQuery .squares w w.left.toNat w.top.toNat))

variable {c : Cascade α} {cl : Classifier α} {image : Size} {answer : Query → α} {w : Rect}
  {scale : Float32}

theorem trace_deviation_sight (h : w.InImage image) :
    (deviation w).trace (sight answer w).answers =
      ⟨.ok (deviationAt answer w), deviationQueries w⟩ := by
  obtain ⟨hx, hy, -⟩ := h.position
  exact trace_deviation hx hy rfl rfl

/-- **Stages of an accepted cascade can be evaluated** for every window with a position, whatever the
scale is. -/
theorem sound_of_position (hc : c.Accepted) {stages : List (Stage α)} (hsub : stages ⊆ c.stages)
    {x y : ℕ} (hpos : (atScale c scale).position? image w = some (x, y)) :
    ∀ s ∈ (atScale ⟨c.window, stages⟩ scale).cascade.stages, s.Sound x y := by
  intro s hs
  rw [cascade_atScale] at hs
  have hs' : s ∈ (c.rescale scale (Scalar.ofSingle (inverseAreaAt c.window scale))).stages :=
    List.map_subset _ hsub hs
  refine ⟨fun t ht => hc.linked_rescale hs' ht, fun f hf => ?_⟩
  refine Cascade.admitted_rescale (fun f hf r hr => ?_) hs' hf
  exact admitted_of_position (hc.inside hf hr) hpos trivial

/-- **The first stage that does not let a window pass.** -/
def rejectingAt (cl : Classifier α) (answer : Query → α) (w : Rect) : Option ℕ :=
  Cascade.rejecting (sight answer w) (deviationAt answer w) cl.cascade.stages

/-- The stages that are evaluated for a window. -/
def evaluatedAt (cl : Classifier α) (answer : Query → α) (w : Rect) : List (Stage α) :=
  Cascade.evaluated (cl.rejectingAt answer w) cl.cascade.stages

/-- All nodes that are visited for a window. -/
def visitedAt (cl : Classifier α) (answer : Query → α) (w : Rect) : List (Node α) :=
  (cl.evaluatedAt answer w).flatMap (·.visited (sight answer w))

/-- **The trace of a verdict**, for a window in the image with room for the classifier. -/
theorem trace_rejectingStage (hw : w.InImage image) (hfits : w.size.Fits cl.windowSize)
    (hs : ∀ s ∈ cl.cascade.stages, s.Sound w.left.toNat w.top.toNat) :
    (cl.rejectingStage image w).trace (sight answer w).answers =
      ⟨.ok (cl.rejectingAt answer w),
        deviationQueries w ++ (sight answer w).queries (cl.visitedAt answer w)⟩ := by
  have hstages : (Cascade.firstRejecting w.left.toNat w.top.toNat (deviationAt answer w) 0
      cl.cascade.stages).trace (sight answer w).answers = _ :=
    Cascade.trace_firstRejecting (v := sight answer w) hs (deviationAt answer w) 0
  unfold rejectingStage
  rw [position?_of_inImage hw hfits]
  simp only
  rw [Probe.trace_bind_of_ok (trace_deviation_sight hw), hstages]
  simp [rejectingAt, visitedAt, evaluatedAt]

omit [Scalar α] in
theorem position?_eq_none (h : ¬(w.InImage image ∧ w.size.Fits cl.windowSize)) :
    cl.position? image w = none := by
  cases hpos : cl.position? image w with
  | none => rfl
  | some xy =>
    obtain ⟨hw, hfits, -⟩ := inImage_of_position? (x := xy.1) (y := xy.2) hpos
    exact absurd ⟨hw, hfits⟩ h

/-- **What a window is judged to be**, and what this costs. -/
structure Judged (cl : Classifier α) (image : Source α) (answer : Query → α) (w : Rect)
    (verdict : Option ℕ) : Prop where
  /-- The deviation takes two queries, or none for a window without pixels. -/
  deviation : (deviation w).run image = ⟨.ok (deviationAt answer w), deviationCost w⟩
  /-- The verdict takes as many more as there are rectangles in the nodes that are visited. -/
  rejectingStage : (cl.rejectingStage image.size w).run image =
    ⟨.ok verdict, deviationCost w + ((cl.visitedAt answer w).map (·.feature.rects.length)).sum⟩
  accepts : (cl.accepts image.size w).run image =
    ⟨.ok verdict.isNone,
      deviationCost w + ((cl.visitedAt answer w).map (·.feature.rects.length)).sum⟩
  /-- Stages are evaluated up to the one that rejects. -/
  evaluated : cl.evaluatedAt answer w = Cascade.evaluated verdict cl.cascade.stages
  /-- The nodes that are visited in a tree are those of a walk through it. -/
  walks : ∀ s ∈ Cascade.evaluated verdict cl.cascade.stages, ∀ t ∈ s.trees,
    t.Walks (·.taken (sight answer w)) 0 (t.visited (sight answer w)) (t.valueAt (sight answer w))
  accepted_iff : verdict = none ↔
    ∀ s ∈ cl.cascade.stages, s.passes (sight answer w) (deviationAt answer w) = true
  rejected_iff : ∀ k, verdict = some k ↔ ∃ h : k < cl.cascade.stages.length,
    cl.cascade.stages[k].passes (sight answer w) (deviationAt answer w) = false ∧
      ∀ j, (hj : j < k) →
        cl.cascade.stages[j].passes (sight answer w) (deviationAt answer w) = true

/-- The trace of a verdict of the classifier of some stages of an accepted cascade. -/
theorem trace_atScale (answer : Query → α) (hc : c.Accepted) {stages : List (Stage α)}
    (hsub : stages ⊆ c.stages) (hw : w.InImage image)
    (hfits : w.size.Fits (atScale c scale).windowSize) :
    ((atScale ⟨c.window, stages⟩ scale).rejectingStage image w).trace (sight answer w).answers =
      ⟨.ok ((atScale ⟨c.window, stages⟩ scale).rejectingAt answer w), deviationQueries w ++
        (sight answer w).queries ((atScale ⟨c.window, stages⟩ scale).visitedAt answer w)⟩ :=
  trace_rejectingStage hw hfits (sound_of_position hc hsub (position?_of_inImage hw hfits))

/-- **A window that is judged.** -/
theorem judged_atScale (hc : c.Accepted) {image : Source α}
    (htotal : image.answer = (sight answer w).answers) (hw : w.InImage image.size)
    (hfits : w.size.Fits (atScale c scale).windowSize) :
    (atScale c scale).Judged image answer w ((atScale c scale).rejectingAt answer w) := by
  have htrace := trace_atScale answer hc (List.Subset.refl _) hw hfits
  have hlength : (deviationQueries w ++
      (sight answer w).queries ((atScale c scale).visitedAt answer w)).length = deviationCost w +
        (((atScale c scale).visitedAt answer w).map (·.feature.rects.length)).sum := by
    rw [List.length_append, length_deviationQueries, Sight.length_queries]
  refine ⟨?_, ?_, ?_, rfl, ?_, Cascade.rejecting_eq_none, fun k => Cascade.rejecting_eq_some⟩
  · rw [Probe.run_eq_trace, htotal, trace_deviation_sight hw, length_deviationQueries]
  · rw [Probe.run_eq_trace, htotal, htrace, ← hlength]
  · rw [Probe.run_eq_trace, htotal, accepts, Probe.trace_bind_of_ok htrace, ← hlength]
    simp [Probe.trace]
  · intro s hs t ht
    obtain ⟨h0, hl⟩ := (sound_of_position hc (List.Subset.refl _) (position?_of_inImage hw hfits) s
      (Cascade.mem_of_mem_evaluated hs)).linked t ht
    exact Tree.walks_visited h0 hl

/-- **A window that is not judged** counts as rejected by the first stage. -/
theorem trace_of_not_inImage (h : ¬(w.InImage image ∧ w.size.Fits cl.windowSize))
    (answers : Query → Except Fault α) :
    (cl.rejectingStage image w).trace answers = ⟨.ok (some 0), []⟩ := by
  unfold rejectingStage
  rw [position?_eq_none h]
  rfl

/-- **Stages after the one that rejects** can be replaced, added or removed. -/
theorem trace_rejectingStage_congr {c' : Cascade α} (hc : c.Accepted) (hc' : c'.Accepted)
    (hwindow : c'.window = c.window) {k : ℕ}
    (hk : (((atScale c scale).rejectingStage image w).trace (sight answer w).answers).result =
      .ok (some k))
    (htake : c'.stages.take (k + 1) = c.stages.take (k + 1)) :
    ((atScale c' scale).rejectingStage image w).trace (sight answer w).answers =
      ((atScale c scale).rejectingStage image w).trace (sight answer w).answers := by
  have hsize : (atScale c' scale).windowSize = (atScale c scale).windowSize :=
    congrArg (Size.scale · scale) hwindow
  have hstages : (atScale c' scale).cascade.stages.take (k + 1) =
      (atScale c scale).cascade.stages.take (k + 1) := by
    simp only [cascade_atScale, Cascade.rescale, ← List.map_take, htake, hwindow]
  by_cases h : w.InImage image ∧ w.size.Fits (atScale c scale).windowSize
  · obtain ⟨hw, hfits⟩ := h
    have htrace := trace_atScale answer hc (List.Subset.refl _) hw hfits
    have htrace' := trace_atScale answer hc' (List.Subset.refl _) hw (hsize ▸ hfits)
    rw [htrace] at hk
    have hrej : (atScale c scale).rejectingAt answer w = some k := Except.ok.inj hk
    have hrej' : (atScale c' scale).rejectingAt answer w = some k :=
      Cascade.rejecting_congr hrej hstages
    rw [htrace, htrace', visitedAt, visitedAt, evaluatedAt, evaluatedAt, hrej, hrej']
    simp only [Cascade.evaluated, hstages]
  · rw [trace_of_not_inImage h, trace_of_not_inImage (hsize ▸ h)]

/-- **Some stages after others:** the first ones decide, or else the later ones do. -/
theorem result_append (hc : c.Accepted) {a b : List (Stage α)} (hab : c.stages = a ++ b) :
    ∃ va vb,
      (((atScale ⟨c.window, a⟩ scale).rejectingStage image w).trace
        (sight answer w).answers).result = .ok va ∧
      (((atScale ⟨c.window, b⟩ scale).rejectingStage image w).trace
        (sight answer w).answers).result = .ok vb ∧
      (((atScale c scale).rejectingStage image w).trace
        (sight answer w).answers).result = .ok (va.or (vb.map (· + a.length))) := by
  by_cases h : w.InImage image ∧ w.size.Fits (atScale c scale).windowSize
  · obtain ⟨hw, hfits⟩ := h
    have ha : a ⊆ c.stages := hab ▸ List.subset_append_left a b
    have hb : b ⊆ c.stages := hab ▸ List.subset_append_right a b
    have happend : (atScale c scale).cascade.stages =
        (atScale ⟨c.window, a⟩ scale).cascade.stages ++
          (atScale ⟨c.window, b⟩ scale).cascade.stages := by
      simp only [cascade_atScale, Cascade.rescale, ← List.map_append, ← hab]
    have hlength : (atScale ⟨c.window, a⟩ scale).cascade.stages.length = a.length := by
      simp only [cascade_atScale, Cascade.rescale, List.length_map]
    refine ⟨_, _, congrArg Trace.result (trace_atScale answer hc ha hw hfits),
      congrArg Trace.result (trace_atScale answer hc hb hw hfits), ?_⟩
    rw [trace_atScale answer hc (List.Subset.refl _) hw hfits]
    simp only [rejectingAt, happend, Cascade.rejecting_append, hlength]
  · -- none of the three judges the window
    have hno (stages : List (Stage α)) :
        ¬(w.InImage image ∧ w.size.Fits (atScale ⟨c.window, stages⟩ scale).windowSize) := h
    have hresult := fun stages =>
      congrArg Trace.result (trace_of_not_inImage (hno stages) (sight answer w).answers)
    exact ⟨some 0, some 0, hresult a, hresult b, hresult c.stages⟩

/-- **Short-circuit evaluation.** Take an accepted cascade, at whatever scale its classifier has come to
be, and an image that answers every query. A window that leaves the image or is too small is rejected by
the first stage without a query. Every other window is judged. Stages after the one that rejects can be
replaced, added or removed. If some stages are put in front of others, then these decide, or else the
others do. -/
theorem short_circuit (hc : c.Accepted) (earlier : List Float32)
    (hcl : cl = earlier.foldl setScale (ofCascade c)) (image : Source α)
    (htotal : ∀ q, image.answer q = .ok (answer q)) (w : Rect) :
    (¬(w.InImage image.size ∧ w.size.Fits cl.windowSize) →
      (cl.rejectingStage image.size w).run image = ⟨.ok (some 0), 0⟩ ∧
      (cl.accepts image.size w).run image = ⟨.ok false, 0⟩) ∧
    (w.InImage image.size ∧ w.size.Fits cl.windowSize →
      ∃ verdict, cl.Judged image answer w verdict) ∧
    (∀ k, ((cl.rejectingStage image.size w).run image).result = .ok (some k) →
      ∀ c' : Cascade α, c'.Accepted → c'.window = c.window →
        c'.stages.take (k + 1) = c.stages.take (k + 1) →
        ((earlier.foldl setScale (ofCascade c')).rejectingStage image.size w).trace image.answer =
          (cl.rejectingStage image.size w).trace image.answer) ∧
    ∀ a b, c.stages = a ++ b → ∃ va vb,
      (((earlier.foldl setScale (ofCascade ⟨c.window, a⟩)).rejectingStage image.size w).run
        image).result = .ok va ∧
      (((earlier.foldl setScale (ofCascade ⟨c.window, b⟩)).rejectingStage image.size w).run
        image).result = .ok vb ∧
      ((cl.rejectingStage image.size w).run image).result = .ok (va.or (vb.map (· + a.length))) := by
  obtain ⟨scale, hscale⟩ := exists_foldl_setScale (α := α) earlier
  have hanswer : image.answer = (sight answer w).answers := funext htotal
  simp only [hcl, hscale, Probe.run_eq_trace]
  refine ⟨?_, ?_, ?_, ?_⟩
  · intro h
    have htrace := trace_of_not_inImage h image.answer
    refine ⟨by rw [htrace]; rfl, ?_⟩
    rw [accepts, Probe.trace_bind_of_ok htrace]
    rfl
  · rintro ⟨hw, hfits⟩
    exact ⟨_, judged_atScale hc hanswer hw hfits⟩
  · intro k hk c' hc' hwindow htake
    rw [hanswer] at hk ⊢
    exact trace_rejectingStage_congr hc hc' hwindow hk htake
  · intro a b hab
    rw [hanswer]
    exact result_append hc hab

/-- An image of nine pixels, the sums over which grow from left to right. -/
def rising : Source Float := ⟨⟨3, 3⟩, fun q => .ok (Scalar.ofNat q.x)⟩

/-- A cascade of three stages, of which the second one rejects all windows. -/
def screen : Cascade Float :=
  ⟨⟨2, 2⟩, edge.stages ++ ((stump ⟨2, 2⟩ false ⟨0, 0, 1, 1⟩).stages ++ edge.stages)⟩

theorem screen_accepted : screen.Accepted :=
  edge_accepted.append ((stump_accepted (by decide) (by decide) ⟨by decide, by decide⟩).append
    edge_accepted)

/-- A window that sticks out of the image, and one that is judged: the first stage lets it pass, and the
second one rejects it, with two queries for the deviation and two for each of the two stages. The last
stage can be left out. The first stage alone accepts the window, and the others alone reject it with
the first one of them. -/
theorem short_circuit_screen :
    let classifier (c : Cascade Float) := [2, 1].foldl setScale (ofCascade c)
    let verdict (c : Cascade Float) := (classifier c).rejectingStage ⟨3, 3⟩ ⟨1, 1, 2, 2⟩
    screen.Accepted ∧ (∀ q, rising.answer q = .ok (Scalar.ofNat q.x)) ∧
    ((classifier screen).rejectingStage ⟨3, 3⟩ ⟨2, 1, 2, 2⟩).run rising = ⟨.ok (some 0), 0⟩ ∧
    (classifier screen).Judged rising (fun q => Scalar.ofNat q.x) ⟨1, 1, 2, 2⟩ (some 1) ∧
    (verdict screen).run rising = ⟨.ok (some 1), 6⟩ ∧
    (verdict ⟨⟨2, 2⟩, screen.stages.take 2⟩).trace rising.answer =
      (verdict screen).trace rising.answer ∧
    ((verdict ⟨⟨2, 2⟩, screen.stages.take 1⟩).run rising).result = .ok none ∧
    ((verdict ⟨⟨2, 2⟩, screen.stages.drop 1⟩).run rising).result = .ok (some 0) ∧
    ((verdict screen).run rising).result = .ok ((none : Option ℕ).or ((some 0).map (· + 1))) := by
  intro classifier verdict
  have h := short_circuit screen_accepted [2, 1] rfl rising (fun _ => rfl)
  obtain ⟨-, hjudged, hcongr, happend⟩ := h ⟨1, 1, 2, 2⟩
  have hresult : ((verdict screen).run rising).result = .ok (some 1) := by decide +kernel
  have hqueries : ((verdict screen).run rising).queries = 6 := by decide +kernel
  have hrun : (verdict screen).run rising = ⟨.ok (some 1), 6⟩ := by rw [← hresult, ← hqueries]
  obtain ⟨v, hv⟩ := hjudged ⟨⟨by decide, by decide, by decide, by decide⟩, by decide +kernel⟩
  have hverdict := congrArg Probe.Outcome.result hv.rejectingStage
  obtain rfl : v = some 1 := Except.ok.inj (hverdict.symm.trans hresult)
  have hfirst : ((verdict ⟨⟨2, 2⟩, screen.stages.take 1⟩).run rising).result = .ok none := by
    decide +kernel
  have hothers : ((verdict ⟨⟨2, 2⟩, screen.stages.drop 1⟩).run rising).result = .ok (some 0) := by
    decide +kernel
  obtain ⟨va, vb, ha, hb, hboth⟩ := happend (screen.stages.take 1) (screen.stages.drop 1) rfl
  obtain rfl : va = none := Except.ok.inj (ha.symm.trans hfirst)
  obtain rfl : vb = some 0 := Except.ok.inj (hb.symm.trans hothers)
  have hshort : (⟨⟨2, 2⟩, screen.stages.take 2⟩ : Cascade Float).Accepted :=
    edge_accepted.append (stump_accepted (by decide) (by decide) ⟨by decide, by decide⟩)
  refine ⟨screen_accepted, fun _ => rfl, ((h ⟨2, 1, 2, 2⟩).1 ?_).1, hv, hrun,
    hcongr 1 hresult _ hshort rfl rfl, hfirst, hothers, hboth⟩
  rintro ⟨⟨-, -, hright, -⟩, -⟩
  exact absurd hright (by decide)

end Classifier

end HaarDetection
