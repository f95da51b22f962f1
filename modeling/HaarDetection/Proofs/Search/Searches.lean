import HaarDetection.Proofs.Search.Scans

/-!
# Traces of searches

A search judges the windows of all scales, in order. It finds the accepted ones, and asks what has
to be asked for a window after what has to be asked for the windows before.

* `Detector.spots`: the windows of a search, with their scales.
* `Detector.Searchable`: a scale at which all windows can be judged.
* `Detector.trace_searchScales_all`, `Detector.trace_searchScales_single`: **the trace of a search
  that finds all windows, and of one that ends with the first.**
* `Detector.searchable_of_keeps`: where the queries for the windows are answered, the windows are
  judged.
-/

namespace HaarDetection

namespace Detector

open Classifier (atScale)

variable {c : Cascade Float} {options : Options} {image : Source Float} {scale s₀ : Float32}

/-- **The windows of a search**, scale by scale and row by row. -/
def spots (window : Size) (options : Options) (image : Size) (scales : List Float32) :
    List (Float32 × Rect) :=
  scales.flatMap fun s =>
    (windows image (window.scale s) (stepAt options.stepRatio s)).map fun w => (s, w)

/-- The verdict on a window at a scale, with the queries asked for it. -/
def verdict (c : Cascade Float) (image : Source Float) (spot : Float32 × Rect) : Trace Bool :=
  (atScale c spot.1).verdict image.size image.answer spot.2

/-- Is a window accepted? -/
def accepted (c : Cascade Float) (image : Source Float) (spot : Float32 × Rect) : Bool :=
  (verdict c image spot).holds

/-- The detections of the accepted windows. -/
def hits (c : Cascade Float) (image : Source Float) (ss : List (Float32 × Rect)) : List Detection :=
  (ss.filter (accepted c image)).map fun spot => .ofWindow spot.2 spot.1

/-- The queries asked for some windows. -/
def queries (c : Cascade Float) (image : Source Float) (ss : List (Float32 × Rect)) : List Query :=
  ss.flatMap fun spot => (verdict c image spot).asked

/-- A scale at which the window has room in the image, and all windows can be judged. -/
structure Searchable (c : Cascade Float) (options : Options) (image : Source Float)
    (scale : Float32) : Prop where
  ne_zero : singleValue scale ≠ 0
  image_fits : image.size.Fits (c.window.scale scale)
  judges : (atScale c scale).Judges image.size image.answer
    (windows image.size (c.window.scale scale) (stepAt options.stepRatio scale))

theorem spots_cons (window size : Size) (s : Float32) (scales : List Float32) :
    spots window options size (s :: scales) =
      spots window options size [s] ++ spots window options size scales := by
  simp [spots]

theorem hits_append (ss ss' : List (Float32 × Rect)) :
    hits c image (ss ++ ss') = hits c image ss ++ hits c image ss' := by
  simp [hits]

theorem queries_append (ss ss' : List (Float32 × Rect)) :
    queries c image (ss ++ ss') = queries c image ss ++ queries c image ss' := by
  simp [queries]

theorem hits_eq_nil_iff {ss : List (Float32 × Rect)} :
    hits c image ss = [] ↔ ss.any (accepted c image) = false := by
  simp [hits, List.filter_eq_nil_iff]

theorem hits_one (s : Float32) :
    hits c image (spots c.window options image.size [s]) =
      (atScale c s).hits image.size image.answer
        (windows image.size (c.window.scale s) (stepAt options.stepRatio s)) := by
  simp only [hits, spots, List.flatMap_singleton, List.filter_map, List.map_map]
  rfl

theorem queries_map (s : Float32) (ws : List Rect) :
    queries c image (ws.map fun w => (s, w)) =
      ws.flatMap fun w => ((atScale c s).verdict image.size image.answer w).asked := by
  simp only [queries, List.flatMap_map]
  rfl

/-- **The scan of a scale for all windows.** -/
theorem trace_scan_all (h : Searchable c options image scale) :
    ((atScale c scale).scan image.size options false).trace image.answer =
      ⟨.ok (hits c image (spots c.window options image.size [scale])),
        queries c image (spots c.window options image.size [scale])⟩ := by
  have hq : queries c image (spots c.window options image.size [scale]) =
      (windows image.size (c.window.scale scale) (stepAt options.stepRatio scale)).flatMap fun w =>
        ((atScale c scale).verdict image.size image.answer w).asked := by
    rw [← queries_map, spots, List.flatMap_singleton]
  rw [hits_one, hq]
  have hfit : image.size.Fits (atScale c scale).windowSize := h.image_fits
  unfold Classifier.scan
  rw [if_pos hfit]
  simp only [Bool.false_eq_true, if_false]
  split
  · exact Classifier.trace_findByRows h.judges []
  · exact Classifier.trace_findAll h.judges []

/-- **The scan of a scale for the first window.** -/
theorem trace_scan_first (h : Searchable c options image scale) :
    ((atScale c scale).scan image.size options true).trace image.answer =
      ⟨.ok (hits c image (spots c.window options image.size [scale])).head?.toList,
        queries c image (throughFirst (accepted c image)
          (spots c.window options image.size [scale]))⟩ := by
  have hq : queries c image (throughFirst (accepted c image)
      (spots c.window options image.size [scale])) =
      (throughFirst (fun w => ((atScale c scale).verdict image.size image.answer w).holds)
        (windows image.size (c.window.scale scale) (stepAt options.stepRatio scale))).flatMap fun w =>
          ((atScale c scale).verdict image.size image.answer w).asked := by
    rw [← queries_map, spots, List.flatMap_singleton, throughFirst_map]
    rfl
  rw [hits_one, hq]
  have hfit : image.size.Fits (atScale c scale).windowSize := h.image_fits
  unfold Classifier.scan
  rw [if_pos hfit]
  simp only [if_true]
  refine (Probe.trace_bind_of_ok (Classifier.trace_findFirst h.judges) _).trans ?_
  simp [Probe.trace]

variable {scales : List Float32}

/-- **The trace of a search for all windows**, from any scale of the classifier on. -/
theorem trace_searchScales_all (ho : stopsAtFirst options = false)
    (h : ∀ s ∈ scales, Searchable c options image s) (s₀ : Float32) (found : List Detection) :
    ∃ s₁, (searchScales options image.size scales (atScale c s₀) found).trace image.answer =
      ⟨.ok (atScale c s₁, .ok (found ++ hits c image (spots c.window options image.size scales))),
        queries c image (spots c.window options image.size scales)⟩ := by
  -- the classifier comes from the scale before, which leaves no trace
  induction scales generalizing s₀ found with
  | nil => exact ⟨s₀, by simp [searchScales, Probe.trace, hits, queries, spots]⟩
  | cons s rest ih =>
    have hs := h s List.mem_cons_self
    obtain ⟨s₁, hrest⟩ := ih (fun s' hs' => h s' (List.mem_cons_of_mem _ hs')) s
      (found ++ hits c image (spots c.window options image.size [s]))
    refine ⟨s₁, ?_⟩
    rw [spots_cons, hits_append, queries_append, ← List.append_assoc]
    simp only [searchScales, Probe.trace, Bool.false_eq_true, if_false, ho, Bool.false_and,
      Classifier.setScale_atScale hs.ne_zero]
    rw [Probe.trace_bind_of_ok (trace_scan_all hs), hrest]

/-- **The trace of a search for the first window.** -/
theorem trace_searchScales_single (ho : stopsAtFirst options = true)
    (h : ∀ s ∈ scales, Searchable c options image s) (s₀ : Float32) :
    ∃ s₁, (searchScales options image.size scales (atScale c s₀) []).trace image.answer =
      ⟨.ok (atScale c s₁, .ok (hits c image (spots c.window options image.size scales)).head?.toList),
        queries c image (throughFirst (accepted c image)
          (spots c.window options image.size scales))⟩ := by
  induction scales generalizing s₀ with
  | nil => exact ⟨s₀, by simp [searchScales, Probe.trace, hits, queries, spots, throughFirst]⟩
  | cons s rest ih =>
    have hs := h s List.mem_cons_self
    obtain ⟨s₁, hrest⟩ := ih (fun s' hs' => h s' (List.mem_cons_of_mem _ hs')) s
    rw [spots_cons, hits_append, throughFirst_append]
    simp only [searchScales, Probe.trace, Bool.false_eq_true, if_false, ho, Bool.true_and,
      Classifier.setScale_atScale hs.ne_zero, List.nil_append]
    rw [Probe.trace_bind_of_ok (trace_scan_first hs)]
    -- the search goes on to the next scale only without a hit
    cases hh : hits c image (spots c.window options image.size [s]) with
    | nil =>
      rw [hits_eq_nil_iff.1 hh, throughFirst_of_not_any (hits_eq_nil_iff.1 hh)]
      exact ⟨s₁, by simp [hrest, queries_append]⟩
    | cons d ds =>
      have hany : (spots c.window options image.size [s]).any (accepted c image) = true := by
        rw [← Bool.not_eq_false, ← hits_eq_nil_iff (c := c), hh]
        exact List.cons_ne_nil _ _
      exact ⟨s, by simp [hany, Probe.trace]⟩

/-- The cascade accepts no window at any scale. -/
def Rejects (c : Cascade Float) (image : Source Float) : Prop :=
  ∀ s w, ((atScale c s).accepts image.size w).Yields (· = false)

theorem Rejects.accepted (h : Rejects c image) (spot : Float32 × Rect) :
    accepted c image spot = false := by
  unfold Detector.accepted Trace.holds
  split
  · rename_i b hb
    exact (h spot.1 spot.2).trace hb
  · rfl

theorem Rejects.not_any (h : Rejects c image) (ss : List (Float32 × Rect)) :
    ss.any (Detector.accepted c image) = false := by
  simp [h.accepted]

theorem judges_of_scan (hrej : Rejects c image) (hfit : image.size.Fits (c.window.scale scale))
    {first : Bool} {ds : List Detection}
    (h : (((atScale c scale).scan image.size options first).trace image.answer).result = .ok ds) :
    (atScale c scale).Judges image.size image.answer
      (windows image.size (c.window.scale scale) (stepAt options.stepRatio scale)) := by
  have hfit' : image.size.Fits (atScale c scale).windowSize := hfit
  unfold Classifier.scan at h
  rw [if_pos hfit'] at h
  simp only at h
  split at h
  · obtain ⟨d, qs, hd⟩ := Probe.result_of_bind h
    exact Classifier.judges_of_findFirst (hrej scale) (congrArg Trace.result hd)
  · split at h
    · exact Classifier.judges_of_findByRows h
    · exact Classifier.judges_of_findAll h

/-- **A search without a fault that finds nothing** has judged the windows of all scales. -/
theorem searchable_of_result (hrej : Rejects c image)
    (hs : ∀ s ∈ scales, singleValue s ≠ 0 ∧ image.size.Fits (c.window.scale s)) {s₀ : Float32}
    {r : Classifier Float × Except SearchError (List Detection)}
    (h : ((searchScales options image.size scales (atScale c s₀) []).trace image.answer).result = .ok r) :
    ∀ s ∈ scales, Searchable c options image s := by
  induction scales generalizing s₀ with
  | nil => simp
  | cons s rest ih =>
    obtain ⟨hne, hfit⟩ := hs s List.mem_cons_self
    simp only [searchScales, Probe.trace, Bool.false_eq_true, if_false, List.nil_append,
      Classifier.setScale_atScale hne] at h
    obtain ⟨more, qs, hmore⟩ := Probe.result_of_bind h
    have hsearch : Searchable c options image s :=
      ⟨hne, hfit, judges_of_scan hrej hfit (by rw [hmore])⟩
    have hnil : hits c image (spots c.window options image.size [s]) = [] :=
      hits_eq_nil_iff.2 (hrej.not_any _)
    -- as nothing is found, a search for the first window goes on as one for all windows does
    have hempty : more = [] := by
      cases ho : stopsAtFirst options with
      | true =>
        rw [ho, trace_scan_first hsearch, hnil] at hmore
        simpa using (congrArg Trace.result hmore).symm
      | false =>
        rw [ho, trace_scan_all hsearch, hnil] at hmore
        simpa using (congrArg Trace.result hmore).symm
    subst hempty
    rw [Probe.trace_bind_of_ok hmore] at h
    simp only [List.isEmpty_nil, Bool.not_true, Bool.and_false, Bool.false_eq_true, if_false] at h
    intro s' hs'
    rcases List.mem_cons.1 hs' with rfl | hs'
    · exact hsearch
    · exact ih (fun t ht => hs t (List.mem_cons_of_mem _ ht)) h s' hs'

/-- **Where the queries for the windows are answered, the windows are judged**, and nothing else is
asked. -/
theorem searchable_of_keeps {P : Query → Prop} (hP : ∀ q, P q → ∃ v, image.answer q = .ok v)
    (hne : singleValue scale ≠ 0) (hfit : image.size.Fits (c.window.scale scale))
    (h : ∀ w ∈ windows image.size (c.window.scale scale) (stepAt options.stepRatio scale),
      ((atScale c scale).accepts image.size w).Keeps P fun _ => True) :
    Searchable c options image scale ∧
      ∀ spot ∈ spots c.window options image.size [scale], ∀ q ∈ (verdict c image spot).asked, P q := by
  refine ⟨⟨hne, hfit, ?_⟩, ?_⟩
  · intro w hw
    obtain ⟨b, hb, -, -⟩ := (h w hw).trace hP
    exact ⟨b, hb⟩
  · intro spot hspot
    rw [spots, List.flatMap_singleton] at hspot
    obtain ⟨w, hw, rfl⟩ := List.mem_map.1 hspot
    obtain ⟨-, -, -, hq⟩ := (h w hw).trace hP
    exact hq

end Detector

end HaarDetection
