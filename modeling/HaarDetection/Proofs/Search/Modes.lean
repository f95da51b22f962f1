import HaarDetection.Image.Integral
import HaarDetection.Proofs.Search.Enumeration

/-!
# The modes of a search

What the modes do with the accepted windows differs, but which windows these are does not depend on
the mode, and not on whether the rows of the grid are searched at the same time.

* `Detector.inMode`: a detector with another mode.
* `Detector.found_inMode`: **all modes but the single one merge the same windows,** on any image.
* `Detector.modes_agree`: **what is found in each mode,** from what is found without merging.
-/

namespace HaarDetection

namespace Detector

variable {c : Cascade Float} {d : Detector} {image : Source Float} {scales : List Float32}

/-- The detector in another mode, with its rows searched at the same time or not. -/
def inMode (d : Detector) (mode : SearchMode) (parallel : Bool) : Detector :=
  { d with options := { d.options with searchMode := mode, parallel } }

@[simp]
theorem inMode_classifier (mode : SearchMode) (parallel : Bool) :
    (d.inMode mode parallel).classifier = d.classifier := rfl

@[simp]
theorem inMode_scales (mode : SearchMode) (parallel : Bool) (size : Size) :
    (d.inMode mode parallel).scales size = d.scales size := rfl

/-- The detections of a search are merged from those at its scales. -/
theorem found_eq (hs : d.scales image.size = .ok scales) :
    d.found image = (((searchScales d.options image.size scales d.classifier []).trace
      image.answer).result.map fun r => r.2.map (merge d.options)) := by
  simp only [found, detect_eq_trace, search, hs, Probe.trace_bind, Trace.andThen]
  cases ((searchScales d.options image.size scales d.classifier []).trace image.answer).result with
  | error fault => rfl
  | ok r => rfl

/-- What is found at the scales does not depend on the mode, but for the one that ends with the first
window. -/
theorem searchScales_inMode {mode : SearchMode} (h : mode ≠ .single) (parallel : Bool) (size : Size)
    (scales : List Float32) (c : Classifier Float) (found : List Detection) :
    searchScales (d.inMode mode parallel).options size scales c found =
      searchScales (d.inMode .default parallel).options size scales c found := by
  have hstop : stopsAtFirst (d.inMode mode parallel).options =
      stopsAtFirst (d.inMode .default parallel).options := by
    cases mode <;> first | rfl | exact absurd rfl h
  induction scales generalizing c found with
  | nil => rfl
  | cons s rest ih =>
    have hscan : ∀ first, (c.setScale s).scan size (d.inMode mode parallel).options first =
        (c.setScale s).scan size (d.inMode .default parallel).options first := fun first => rfl
    simp only [searchScales, hstop, hscan, ih]

/-- **What the modes merge** is what is found without merging. -/
theorem found_inMode {mode : SearchMode} (h : mode ≠ .single) (parallel : Bool) :
    (d.inMode mode parallel).found image = ((d.inMode .default parallel).found image).map
      (·.map (merge (d.inMode mode parallel).options)) := by
  cases hs : d.scales image.size with
  | error e =>
    have herror : ∀ m, (d.inMode m parallel).found image = .ok (.error e) := fun m => by
      simp only [found, detect_eq_trace, search, inMode_scales, hs]
      rfl
    rw [herror, herror]
    rfl
  | ok scales =>
    have hs' : ∀ m, (d.inMode m parallel).scales image.size = .ok scales := fun m => hs
    rw [found_eq (hs' mode), found_eq (hs' .default), searchScales_inMode h, inMode_classifier,
      inMode_classifier]
    cases ((searchScales (d.inMode .default parallel).options image.size scales d.classifier []).trace
      image.answer).result with
    | error fault => rfl
    | ok r =>
      obtain ⟨c, r⟩ := r
      cases r <;> rfl

theorem found_of_detect {d' : Detector} {ds : List Detection}
    (h : d.detect image = .ok (d', .ok ds)) : d.found image = .ok (.ok ds) := by
  rw [found, h]
  rfl

/-- **The modes agree.** Let `D` be what is found without merging when the windows are searched one
after the other. Then the other modes find what they make of `D`, in whichever way the rows are
searched. The search for a single window asks the queries of the windows up to the first accepted
one, which is the first of `D`, and those of all windows if there is none. -/
theorem modes_agree (hc : c.Accepted) (hd : d.Uses c) (hi : image.size.Small) (ht : image.Total)
    (hs : d.scales image.size = .ok scales) :
    ∃ D, (d.inMode .default false).found image = .ok (.ok D) ∧ ∀ parallel,
      (d.inMode .default parallel).found image = .ok (.ok D) ∧
      (d.inMode .single parallel).found image = .ok (.ok D.head?.toList) ∧
      (d.inMode .noOverlap parallel).found image = .ok (.ok (nonOverlapping D)) ∧
      (d.inMode .average parallel).found image = .ok (.ok (d.options.grouping.merge D)) ∧
      ((D = [] ∧ (d.inMode .single parallel).asked image = (d.inMode .default false).asked image) ∨
        ∃ before spot after,
          spots c.window d.options image.size scales = before ++ spot :: after ∧
          before.any (accepted c image) = false ∧ accepted c image spot = true ∧
          D.head? = some (.ofWindow spot.2 spot.1) ∧
          (d.inMode .default false).asked image =
            queries c image (before ++ [spot]) ++ queries c image after ∧
          (d.inMode .single parallel).asked image = queries c image (before ++ [spot])) := by
  have hsearch : ∀ mode parallel, ∀ s ∈ scales,
      Searchable c (d.inMode mode parallel).options image s := fun mode parallel s hmem => by
    have hv := visited_of_mem_scales (d := d.inMode mode parallel) hs hmem
    rw [Uses.window (d := d.inMode mode parallel) hd] at hv
    exact searchable_of_total hc hi ht hv
  -- the way in which the rows are searched does not matter for the windows
  have hdefault : ∀ parallel,
      (d.inMode .default parallel).found image =
        .ok (.ok (hits c image (spots c.window d.options image.size scales))) ∧
      (d.inMode .default parallel).asked image =
        queries c image (spots c.window d.options image.size scales) := by
    intro parallel
    obtain ⟨⟨d', -, h⟩, hq⟩ := trace_search_all (d := d.inMode .default parallel) hd hs
      (hsearch .default parallel) rfl
    exact ⟨found_of_detect h, hq⟩
  have hmerged : ∀ mode parallel, mode ≠ .single → (d.inMode mode parallel).found image =
      .ok (.ok (merge (d.inMode mode parallel).options
        (hits c image (spots c.window d.options image.size scales)))) := by
    intro mode parallel hmode
    rw [found_inMode hmode, (hdefault parallel).1]
    rfl
  have hfirst : ∀ parallel,
      (d.inMode .single parallel).found image =
        .ok (.ok (hits c image (spots c.window d.options image.size scales)).head?.toList) ∧
      (d.inMode .single parallel).asked image = queries c image (throughFirst (accepted c image)
        (spots c.window d.options image.size scales)) := by
    intro parallel
    obtain ⟨⟨d', -, h⟩, hq⟩ := trace_search_single (d := d.inMode .single parallel) hd hs
      (hsearch .single parallel) rfl
    exact ⟨found_of_detect h, hq⟩
  refine ⟨hits c image (spots c.window d.options image.size scales),
    (hdefault false).1, fun parallel => ⟨(hdefault parallel).1, (hfirst parallel).1,
    hmerged .noOverlap parallel (by decide), hmerged .average parallel (by decide), ?_⟩⟩
  rw [(hfirst parallel).2, (hdefault false).2]
  rcases throughFirst_cases (p := accepted c image) (spots c.window d.options image.size scales) with
    ⟨hany, heq⟩ | ⟨before, spot, after, hsplit, hbefore, hspot, heq⟩
  · exact .inl ⟨hits_eq_nil_iff.2 hany, by rw [heq]⟩
  · refine .inr ⟨before, spot, after, hsplit, hbefore, hspot, ?_, ?_, by rw [heq]⟩
    · rw [hsplit, hits_append, hits_eq_nil_iff.2 hbefore]
      simp [hits, hspot]
    · rw [← queries_append, hsplit]
      simp

/-- The mean of two windows. -/
theorem merge_pair {g : Grouping} {a b : Detection} (hscale : a.scaleAtLeast b = true)
    (hnear : g.near a b = true) (hcount : g.minNeighbors ≤ neighborCount [a, b]) :
    g.merge [a, b] = [mergeCluster [a, b]] := by
  have hsort : [a, b].mergeSort Detection.scaleAtLeast = [a, b] :=
    List.mergeSort_of_pairwise (by simpa using hscale)
  have hclusters : g.clustersOf [a, b] = [[a, b]] := by
    simp [Grouping.clustersOf, hsort, clusters, hnear]
  rw [Grouping.merge, hclusters]
  simp [hcount]

/-- A dark slope in an image of three pixels a side. -/
def slopePixels : Pixels := ⟨⟨3, 3⟩, ⟨#[10, 4, 4, 20, 10, 0, 0, 0, 0]⟩, by decide⟩

/-- The slope with nothing but zeros to be asked for beyond its borders. -/
def openSlope : Source Float :=
  let slope := (IntegralImage.ofPixels slopePixels).source Float
  ⟨slope.size, fun q => .ok ((slope.answer q).toOption.getD 0)⟩

/-- The two windows that are found on a slope have one mean. -/
theorem merge_slope : ({} : Grouping).merge [.ofWindow ⟨0, 0, 3, 3⟩ 1.5, .ofWindow ⟨1, 0, 2, 2⟩ 1] =
    [⟨⟨1, 0, 3, 3⟩, .ofSingle 1.25, 2⟩] := by
  rw [merge_pair (by decide +kernel) (by decide +kernel) (by decide +kernel)]
  decide +kernel

/-- On the slope two of five windows are found, the second one within the first one. The search for a
single window asks the first four of twenty queries, the second window is dropped when windows may not
overlap, and the two have one mean. -/
theorem modes_agree_slope :
    accepted edge openSlope (1, ⟨0, 0, 2, 2⟩) = false ∧
    (edges.inMode .default false).found openSlope =
      .ok (.ok [.ofWindow ⟨0, 0, 3, 3⟩ 1.5, .ofWindow ⟨1, 0, 2, 2⟩ 1]) ∧
    ∀ parallel,
      (edges.inMode .default parallel).found openSlope =
        .ok (.ok [.ofWindow ⟨0, 0, 3, 3⟩ 1.5, .ofWindow ⟨1, 0, 2, 2⟩ 1]) ∧
      (edges.inMode .single parallel).found openSlope = .ok (.ok [.ofWindow ⟨0, 0, 3, 3⟩ 1.5]) ∧
      (edges.inMode .noOverlap parallel).found openSlope = .ok (.ok [.ofWindow ⟨0, 0, 3, 3⟩ 1.5]) ∧
      (edges.inMode .average parallel).found openSlope =
        .ok (.ok [⟨⟨1, 0, 3, 3⟩, .ofSingle 1.25, 2⟩]) ∧
      (edges.inMode .single parallel).asked openSlope <+:
        (edges.inMode .default false).asked openSlope ∧
      ((edges.inMode .single parallel).asked openSlope).length = 4 ∧
      ((edges.inMode .default false).asked openSlope).length = 20 := by
  have hd : edges.Uses edge := ⟨1, rfl⟩
  have hi : openSlope.size.Small := ⟨by decide, by decide⟩
  have ht : openSlope.Total := fun q => ⟨_, rfl⟩
  have hs : edges.scales openSlope.size = .ok [1.5, 1] := by decide +kernel
  have hfound : (edges.inMode .default false).found openSlope =
      .ok (.ok [.ofWindow ⟨0, 0, 3, 3⟩ 1.5, .ofWindow ⟨1, 0, 2, 2⟩ 1]) := by decide +kernel
  obtain ⟨D, hD, h⟩ := modes_agree edge_accepted hd hi ht hs
  obtain rfl : D = [.ofWindow ⟨0, 0, 3, 3⟩ 1.5, .ofWindow ⟨1, 0, 2, 2⟩ 1] := by
    simpa using hD.symm.trans hfound
  have hdisjoint : nonOverlapping [.ofWindow ⟨0, 0, 3, 3⟩ 1.5, .ofWindow ⟨1, 0, 2, 2⟩ 1] =
      [.ofWindow ⟨0, 0, 3, 3⟩ 1.5] := by decide +kernel
  refine ⟨by decide +kernel, hfound, fun parallel => ?_⟩
  obtain ⟨hdefault, hsingle, hkept, hmean, hasked⟩ := h parallel
  refine ⟨hdefault, hsingle, hdisjoint ▸ hkept, ?_, ?_, ?_, by decide +kernel⟩
  · rw [hmean]
    exact congrArg (fun ds => Except.ok (Except.ok ds)) merge_slope
  · rcases hasked with ⟨hnone, -⟩ | ⟨before, spot, after, -, -, -, -, hall, hfirst⟩
    · cases hnone
    · rw [hall, hfirst]
      exact List.prefix_append _ _
  · cases parallel <;> decide +kernel

end Detector

end HaarDetection
