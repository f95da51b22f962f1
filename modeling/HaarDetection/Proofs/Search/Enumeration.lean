import HaarDetection.Proofs.Cascade.Stump
import HaarDetection.Proofs.Search.Searches

/-!
# What a search finds

On an image that answers every query a search reports all accepted windows, and nothing else. For
this every window has to be judged, by a classifier that is as good as a fresh one.

* `Source.Total`: an image that answers every query.
* `Detector.Uses`: a detector with a cascade, whatever it has searched before.
* `Detector.found`, `Detector.asked`: what a search finds, and which queries it asks.
* `Detector.trace_search_all`, `trace_search_single`: **the trace of a search** for all windows, and of
  one for the first.
* `Detector.enumeration`: the accepted windows of all scales, from the options and the scales alone.
* `Detector.detect_default`: **a search without merging finds exactly these.**
-/

namespace HaarDetection

/-- An image that answers every query. -/
def Source.Total {α : Type} (image : Source α) : Prop := ∀ q, ∃ v, image.answer q = .ok v

namespace Detector

open Classifier (atScale)

variable {c : Cascade Float} {d : Detector} {image : Source Float} {scales : List Float32}
  {scale : Float32}

/-- **A detector with a cascade,** at the scale where the last search has left its classifier. -/
def Uses (d : Detector) (c : Cascade Float) : Prop := ∃ s, d.classifier = atScale c s

theorem Uses.window (h : d.Uses c) : d.classifier.cascade.window = c.window := by
  obtain ⟨s, hs⟩ := h
  rw [hs]
  rfl

/-- **The scales that it searches** are those for the windows of the cascade. -/
theorem Uses.visited (h : d.Uses c) {size : Size} (hs : d.scales size = .ok scales) :
    ∀ s ∈ scales, Visited c.window d.options size s := by
  intro s hmem
  have hv := visited_of_mem_scales hs hmem
  rwa [h.window] at hv

/-- **On an image that answers every query all windows can be judged.** -/
theorem searchable_of_total {options : Options} (hc : c.Accepted) (hi : image.size.Small)
    (ht : image.Total) (hv : Visited c.window options image.size scale) :
    Searchable c options image scale := by
  have hw := hv.scaledWindow hc.window_pos hi
  refine (searchable_of_keeps (P := fun _ => True) (fun q _ => ht q) hw.horizontal.scale_pos.ne'
    hv.image_fits ?_).1
  intro w _
  refine Classifier.accepts_keeps hc fun x y hpos => ⟨trivial, trivial, ?_⟩
  intro f hf r hr
  exact Classifier.admitted_of_position (hc.inside hf hr) hpos trivial

/-- What a detector finds. -/
def found (d : Detector) (image : Source Float) :
    Except Fault (Except SearchError (List Detection)) :=
  (d.detect image).map (·.2)

/-- The queries that a search asks, when nobody cancels it. -/
def asked (d : Detector) (image : Source Float) : List Query :=
  ((d.search image.size).trace image.answer).asked

theorem detect_eq_trace : d.detect image = ((d.search image.size).trace image.answer).result := by
  rw [detect, Probe.run_eq_trace]

/-- The trace of a search, from that of its scales. -/
theorem trace_search (hs : d.scales image.size = .ok scales) {classifier : Classifier Float}
    {found : List Detection} {qs : List Query}
    (h : (searchScales d.options image.size scales d.classifier []).trace image.answer =
      ⟨.ok (classifier, .ok found), qs⟩) :
    d.detect image = .ok ({ d with classifier }, .ok (merge d.options found)) ∧
      d.asked image = qs := by
  have ht : (d.search image.size).trace image.answer =
      ⟨.ok ({ d with classifier }, .ok (merge d.options found)), qs⟩ := by
    simp only [search, hs]
    rw [Probe.trace_bind_of_ok h]
    simp [Probe.trace, Except.map]
  rw [detect_eq_trace, asked, ht]
  exact ⟨rfl, rfl⟩

/-- **The modes that look at all windows.** -/
theorem trace_search_all (hd : d.Uses c) (hs : d.scales image.size = .ok scales)
    (h : ∀ s ∈ scales, Searchable c d.options image s) (ho : stopsAtFirst d.options = false) :
    (∃ d', d'.Uses c ∧ d.detect image =
      .ok (d', .ok (merge d.options (hits c image (spots c.window d.options image.size scales))))) ∧
      d.asked image = queries c image (spots c.window d.options image.size scales) := by
  obtain ⟨s₀, hd⟩ := hd
  obtain ⟨s₁, ht⟩ := trace_searchScales_all ho h s₀ []
  rw [← hd, List.nil_append] at ht
  obtain ⟨h1, h2⟩ := trace_search hs ht
  exact ⟨⟨_, ⟨s₁, rfl⟩, h1⟩, h2⟩

/-- **The mode that ends with the first accepted window.** -/
theorem trace_search_single (hd : d.Uses c) (hs : d.scales image.size = .ok scales)
    (h : ∀ s ∈ scales, Searchable c d.options image s) (ho : stopsAtFirst d.options = true) :
    (∃ d', d'.Uses c ∧ d.detect image =
      .ok (d', .ok (merge d.options
        (hits c image (spots c.window d.options image.size scales)).head?.toList))) ∧
      d.asked image = queries c image (throughFirst (accepted c image)
        (spots c.window d.options image.size scales)) := by
  obtain ⟨s₀, hd⟩ := hd
  obtain ⟨s₁, ht⟩ := trace_searchScales_single ho h s₀
  rw [← hd] at ht
  obtain ⟨h1, h2⟩ := trace_search hs ht
  exact ⟨⟨_, ⟨s₁, rfl⟩, h1⟩, h2⟩

/-- Does a fresh classifier, set to a scale, accept a window? -/
def freshAccepts (c : Cascade Float) (image : Source Float) (scale : Float32) (window : Rect) : Prop :=
  ((((Classifier.ofCascade c).setScale scale).accepts image.size window).run image).result = .ok true

instance (c : Cascade Float) (image : Source Float) (scale : Float32) (window : Rect) :
    Decidable (freshAccepts c image scale window) := by
  unfold freshAccepts; infer_instance

/-- The multiples of a step up to a last position. -/
def multiples (step last : ℕ) : List ℕ := (List.range (last + 1)).filter (step ∣ ·)

/-- **The accepted windows of all scales**: from the scales in order, for the rows of the grid from
above, and in a row from the left. -/
def enumeration (c : Cascade Float) (options : Options) (image : Source Float)
    (scales : List Float32) : List Detection :=
  scales.flatMap fun scale =>
    let size := c.window.scale scale
    let step := max 1 (options.stepRatio * scale).toUInt64.toNat
    (multiples step (image.size.height.toNat - size.height.toNat)).flatMap fun y =>
      (multiples step (image.size.width.toNat - size.width.toNat)).filterMap fun x =>
        let window : Rect := ⟨.ofNat x, .ofNat y, size.width, size.height⟩
        if freshAccepts c image scale window then some ⟨window, .ofSingle scale, 1⟩ else none

theorem setScale_ofCascade (h : singleValue scale ≠ 0) :
    (Classifier.ofCascade c).setScale scale = atScale c scale := Classifier.setScale_atScale h

theorem freshAccepts_iff (h : singleValue scale ≠ 0) {w : Rect} :
    freshAccepts c image scale w ↔ accepted c image (scale, w) = true := by
  rw [freshAccepts, setScale_ofCascade h, Probe.run_eq_trace]
  change (verdict c image (scale, w)).result = .ok true ↔ (verdict c image (scale, w)).holds = true
  unfold Trace.holds
  cases (verdict c image (scale, w)).result <;> simp

theorem filterMap_ite {β γ : Type} (p : β → Prop) [DecidablePred p] (f : β → γ) (xs : List β) :
    (xs.filterMap fun b => if p b then some (f b) else none) = (xs.filter fun b => p b).map f := by
  induction xs with
  | nil => rfl
  | cons x xs ih =>
    by_cases hx : p x
    · simp [hx, ih]
    · simp [hx, ih]

/-- The accepted windows of a search are those of the enumeration. -/
theorem hits_eq_enumeration {options : Options} (h : ∀ s ∈ scales, singleValue s ≠ 0) :
    hits c image (spots c.window options image.size scales) =
      enumeration c options image scales := by
  simp only [hits, spots, enumeration, List.filter_flatMap, List.map_flatMap]
  -- scale by scale, and row by row
  refine List.flatMap_congr ?_
  intro s hs
  have hstep := stepAt_pos options.stepRatio s
  simp only [windows_eq, List.map_flatMap, List.filter_flatMap, gridTo_eq_filter hstep]
  refine List.flatMap_congr ?_
  intro y _
  rw [filterMap_ite]
  simp only [List.map_map, List.filter_map, Function.comp_def, freshAccepts_iff (h s hs),
    Bool.decide_eq_true]
  rfl

/-- **A search without merging finds exactly the accepted windows.** The classifier is always scaled
for windows of the size that the schedule has checked, for which the image has room, and all windows
lie in the image. -/
theorem detect_default (hc : c.Accepted) (hd : d.Uses c) (ho : d.options.searchMode = .default)
    (hi : image.size.Small) (ht : image.Total) (hs : d.scales image.size = .ok scales) :
    d.found image = .ok (.ok (enumeration c d.options image scales)) ∧
      ∀ scale ∈ scales, Visited c.window d.options image.size scale ∧
        (∀ s₀, ((atScale c s₀).setScale scale).windowSize = c.window.scale scale) ∧
        ∀ w ∈ windows image.size (c.window.scale scale) (stepAt d.options.stepRatio scale),
          w.size = c.window.scale scale ∧ w.InImage image.size := by
  have hvisited : ∀ s ∈ scales, Visited c.window d.options image.size s := fun s hmem => by
    have := visited_of_mem_scales hs hmem
    rwa [hd.window] at this
  have hsearch : ∀ s ∈ scales, Searchable c d.options image s := fun s hmem =>
    searchable_of_total hc hi ht (hvisited s hmem)
  constructor
  · obtain ⟨⟨d', -, hdetect⟩, -⟩ := trace_search_all hd hs hsearch (by rw [stopsAtFirst, ho]; rfl)
    rw [found, hdetect, hits_eq_enumeration fun s hmem => (hsearch s hmem).ne_zero]
    simp [Except.map, merge, ho]
  · intro scale hmem
    have hv := hvisited scale hmem
    refine ⟨hv, ?_, ?_⟩
    · intro s₀
      rw [Classifier.setScale_atScale (hsearch scale hmem).ne_zero]
      rfl
    · intro w hw
      obtain ⟨x, y, -, -, hx, hy, rfl⟩ := (mem_windows (stepAt_pos _ _) hv.image_fits).1 hw
      exact ⟨rfl, gridWindow_inImage hi hx hy⟩

/-- The search for edges in images of a few pixels. -/
def edges : Detector :=
  ⟨.ofCascade edge, { searchMode := .default, scalingFactor := 1.5, stepRatio := 1 }⟩

/-- An image of three pixels a side, which are all black. -/
def darkness : Source Float := ⟨⟨3, 3⟩, fun _ => .ok 0⟩

/-- Where nothing gets darker, all windows are found. -/
theorem detect_default_darkness :
    edges.found darkness = .ok (.ok
      [.ofWindow ⟨0, 0, 3, 3⟩ 1.5, .ofWindow ⟨0, 0, 2, 2⟩ 1, .ofWindow ⟨1, 0, 2, 2⟩ 1,
        .ofWindow ⟨0, 1, 2, 2⟩ 1, .ofWindow ⟨1, 1, 2, 2⟩ 1]) := by
  have hd : edges.Uses edge := ⟨1, rfl⟩
  have hi : darkness.size.Small := ⟨by decide, by decide⟩
  have ht : darkness.Total := fun _ => ⟨0, rfl⟩
  have hs : edges.scales darkness.size = .ok [1.5, 1] := by decide +kernel
  rw [(detect_default edge_accepted hd rfl hi ht hs).1]
  decide +kernel

end Detector

end HaarDetection
