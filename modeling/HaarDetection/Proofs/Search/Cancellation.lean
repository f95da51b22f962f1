import HaarDetection.Proofs.Search.Sessions

/-!
# Cancelled searches

A search looks whether it has been cancelled before each scale, and nowhere else. So it either ends
there with an error, or its result is the one that it has when nobody cancels it.

* `Classifier.scan_steady`: the scan of a scale cannot be cancelled.
* `Detector.scanned`: the scales that a search gets to.
* `Detector.judged`: the windows that it judges there.
* `Detector.runFrom_searchScales`: **when a search of some scales ends early.**
* `Session.cancellation`: **cancellation is all or nothing.**
-/

namespace HaarDetection

open Classifier (atScale)
open Detector (edges darkness)

section Steady

variable {α : Type} [Scalar α] (x y : ℕ)

theorem FeatureRect.weightedSum_steady (r : FeatureRect α) (tilted : Bool) :
    (r.weightedSum tilted x y).Steady := by
  unfold FeatureRect.weightedSum
  simp only
  split
  · exact fun _ => trivial
  · trivial

theorem Feature.addSums_steady (tilted : Bool) (rects : List (FeatureRect α)) (total : α) :
    (Feature.addSums tilted x y rects total).Steady := by
  induction rects generalizing total with
  | nil => trivial
  | cons r rest ih => exact (r.weightedSum_steady x y tilted).bind fun value => ih _

theorem Node.choose_steady (n : Node α) : (n.choose x y).Steady :=
  Probe.Steady.bind (Feature.addSums_steady x y _ _ _) fun _ => True.intro

theorem Tree.walk_steady (tree : Tree α) (steps index : ℕ) : (tree.walk x y steps index).Steady := by
  induction steps generalizing index with
  | zero => trivial
  | succ steps ih =>
    unfold Tree.walk
    split
    · trivial
    · refine (Node.choose_steady x y _).bind fun branch => ?_
      split
      · trivial
      · exact ih _

theorem Stage.addVotes_steady (trees : List (Tree α)) (total : α) :
    (Stage.addVotes x y trees total).Steady := by
  induction trees generalizing total with
  | nil => trivial
  | cons tree rest ih => exact (Tree.walk_steady x y tree _ 0).bind fun value => ih _

theorem Stage.classify_steady (s : Stage α) (deviation : α) : (s.classify x y deviation).Steady :=
  Probe.Steady.bind (Stage.addVotes_steady x y _ _) fun _ => True.intro

theorem Cascade.firstRejecting_steady (stages : List (Stage α)) (deviation : α) (index : ℕ) :
    (Cascade.firstRejecting x y deviation index stages).Steady := by
  induction stages generalizing index with
  | nil => trivial
  | cons s rest ih =>
    refine (s.classify_steady x y deviation).bind fun accepted => ?_
    split
    · exact ih _
    · trivial

end Steady

namespace Classifier

variable {α : Type} [Scalar α] (cl : Classifier α) (size : Size)

theorem deviation_steady (window : Rect) : (deviation (α := α) window).Steady := by
  unfold deviation
  split
  · trivial
  · exact fun _ _ => trivial

theorem accepts_steady (window : Rect) : (cl.accepts size window).Steady := by
  refine Probe.Steady.bind ?_ fun stage => trivial
  unfold rejectingStage
  split
  · trivial
  · exact (deviation_steady window).bind fun deviation =>
      Cascade.firstRejecting_steady _ _ _ deviation 0

theorem findFirst_steady (ws : List Rect) : (cl.findFirst size ws).Steady := by
  induction ws with
  | nil => trivial
  | cons w ws ih =>
    refine (cl.accepts_steady size w).bind fun accepted => ?_
    split
    · trivial
    · exact ih

theorem findAll_steady (ws : List Rect) (found : List Detection) :
    (cl.findAll size ws found).Steady := by
  induction ws generalizing found with
  | nil => trivial
  | cons w ws ih =>
    refine (cl.accepts_steady size w).bind fun accepted => ?_
    split <;> exact ih _

theorem findByRows_steady (rows : List (List Rect)) (found : List Detection) :
    (cl.findByRows size rows found).Steady := by
  induction rows generalizing found with
  | nil => trivial
  | cons row rows ih => exact (cl.findAll_steady size row []).bind fun more => ih _

/-- **The scan of a scale cannot be cancelled.** -/
theorem scan_steady (options : Options) (firstOnly : Bool) :
    (cl.scan size options firstOnly).Steady := by
  unfold scan
  split
  · simp only
    split
    · exact (cl.findFirst_steady size _).bind fun found => trivial
    · split
      · exact cl.findByRows_steady size _ []
      · exact cl.findAll_steady size _ []
  · trivial

end Classifier

namespace Detector

variable {c : Cascade Float} {options : Options} {image : Source Float} {scales : List Float32}
  {scale : Float32}

/-- Does a search end at a scale, as it looks for a single window and accepts one there? -/
def endsAt (c : Cascade Float) (options : Options) (image : Source Float) (scale : Float32) : Bool :=
  stopsAtFirst options && (spots c.window options image.size [scale]).any (accepted c image)

/-- **The scales that a search gets to** when nobody cancels it. -/
def scanned (c : Cascade Float) (options : Options) (image : Source Float) (scales : List Float32) :
    List Float32 :=
  throughFirst (endsAt c options image) scales

/-- The windows of a scale that are judged: all of them, or those up to the first accepted one. -/
def judged (c : Cascade Float) (options : Options) (image : Source Float) (scale : Float32) :
    List (Float32 × Rect) :=
  if stopsAtFirst options then
    throughFirst (accepted c image) (spots c.window options image.size [scale])
  else spots c.window options image.size [scale]

/-- **The scan of a scale** asks for the windows that are judged. -/
theorem trace_scan (h : Searchable c options image scale) :
    ∃ more, ((atScale c scale).scan image.size options (stopsAtFirst options)).trace image.answer =
        ⟨.ok more, queries c image (judged c options image scale)⟩ ∧
      (stopsAtFirst options && !more.isEmpty) = endsAt c options image scale := by
  unfold judged endsAt
  cases ho : stopsAtFirst options with
  | false => exact ⟨_, trace_scan_all h, rfl⟩
  | true =>
    refine ⟨_, trace_scan_first h, ?_⟩
    cases hh : hits c image (spots c.window options image.size [scale]) with
    | nil => simp [hits_eq_nil_iff.1 hh]
    | cons d ds =>
      have hany : (spots c.window options image.size [scale]).any (accepted c image) = true := by
        rw [← Bool.not_eq_false, ← hits_eq_nil_iff, hh]
        exact List.cons_ne_nil _ _
      simp [hany]

/-- **A scale that has been begun is searched to its end,** be the search cancelled meanwhile or not. -/
theorem runFrom_searchFrom (h : Searchable c options image scale) {found : List Detection}
    (hf : stopsAtFirst options = true → found = []) (rest : List Float32) :
    ∃ found', (endsAt c options image scale = false → stopsAtFirst options = true → found' = []) ∧
      ∀ cancelled made, (searchFrom options image.size rest (atScale c scale) found).runFrom image.answer
          cancelled made =
        if endsAt c options image scale then
          ⟨.ok (atScale c scale, .ok found'),
            made + (queries c image (judged c options image scale)).length⟩
        else (searchScales options image.size rest (atScale c scale) found').runFrom image.answer
          cancelled (made + (queries c image (judged c options image scale)).length) := by
  obtain ⟨more, htrace, hends⟩ := trace_scan h
  have hcond : (stopsAtFirst options && !(found ++ more).isEmpty) = endsAt c options image scale := by
    rw [← hends]
    cases ho : stopsAtFirst options with
    | false => rfl
    | true => rw [hf ho, List.nil_append]
  refine ⟨found ++ more, ?_, ?_⟩
  · intro hnot ho
    rw [hnot, ho, Bool.true_and] at hcond
    simpa using hcond
  · intro cancelled made
    rw [searchFrom, Probe.runFrom_bind, ((atScale c scale).scan_steady _ _ _).runFrom, htrace]
    simp only [Probe.Outcome.andThen, hcond]
    split <;> rfl

/-- **When a search of some scales ends early.** It does if it has been cancelled when it is about to
begin the last scale that it would get to. -/
theorem runFrom_searchScales (h : ∀ s ∈ scales, Searchable c options image s) (n made : ℕ)
    (s₀ : Float32) {found : List Detection} (hf : stopsAtFirst options = true → found = []) :
    ((searchScales options image.size scales (atScale c s₀) found).runFrom image.answer
        (fun made => n ≤ made) made).result.map (·.2) =
      if scanned c options image scales ≠ [] ∧ n ≤ made + (queries c image
          ((scanned c options image scales).dropLast.flatMap (judged c options image))).length
      then .ok (.error .cancelled)
      else ((searchScales options image.size scales (atScale c s₀) found).runFrom image.answer
        (fun _ => false) made).result.map (·.2) := by
  induction scales generalizing made s₀ found with
  | nil => simp [scanned, throughFirst, searchScales, Probe.runFrom]
  | cons s rest ih =>
    have hs := h s List.mem_cons_self
    rw [runFrom_searchScales_cons, runFrom_searchScales_cons, Classifier.setScale_atScale hs.ne_zero,
      scanned, throughFirst]
    simp only [Bool.false_eq_true, if_false]
    by_cases hn : n ≤ made
    · -- it has been cancelled before the first of the scales, whichever is the last
      rw [if_pos (by simpa using hn), if_pos]
      · rfl
      · exact ⟨by split <;> simp, by omega⟩
    · rw [if_neg (by simpa using hn)]
      obtain ⟨found', hfound, hfrom⟩ := runFrom_searchFrom hs hf rest
      rw [hfrom, hfrom]
      cases hends : endsAt c options image s with
      | true =>
        simp only [if_true]
        rw [if_neg (by simpa [queries] using hn)]
      | false =>
        -- the queries of this scale are made now, so they count for the scales that follow
        simp only [Bool.false_eq_true, if_false]
        rw [ih (fun s' hs' => h s' (List.mem_cons_of_mem _ hs')) _ s (hfound hends), scanned]
        refine if_congr ?_ rfl rfl
        cases throughFirst (endsAt c options image) rest with
        | nil => simpa [queries] using hn
        | cons t ts =>
          simp only [ne_eq, List.cons_ne_nil, not_false_eq_true, true_and, List.dropLast_cons_of_ne_nil,
            List.flatMap_cons, queries_append, List.length_append]
          omega

theorem scanned_eq_nil_iff : scanned c options image scales = [] ↔ scales = [] := by
  cases scales with
  | nil => simp [scanned, throughFirst]
  | cons s rest =>
    rw [scanned, throughFirst]
    split <;> simp

/-- **The windows that a search judges,** scale by scale. -/
theorem judged_scanned (c : Cascade Float) (options : Options) (image : Source Float)
    (scales : List Float32) :
    (scanned c options image scales).flatMap (judged c options image) =
      if stopsAtFirst options then
        throughFirst (accepted c image) (spots c.window options image.size scales)
      else spots c.window options image.size scales := by
  unfold scanned judged endsAt
  cases ho : stopsAtFirst options with
  | false =>
    simp only [Bool.false_and, Bool.false_eq_true, if_false]
    rw [throughFirst_of_not_any (by simp)]
    simp [spots]
  | true =>
    simp only [Bool.true_and, if_true]
    induction scales with
    | nil => rfl
    | cons s rest ih =>
      rw [throughFirst, spots_cons _ _ s rest, throughFirst_append]
      split
      · rw [List.flatMap_singleton]
      · rename_i hnot
        rw [List.flatMap_cons, ih, throughFirst_of_not_any (by simpa using hnot)]

/-- **When a search ends early.** -/
theorem runFrom_search {d : Detector} (hd : d.Uses c) (hs : d.scales image.size = .ok scales)
    (h : ∀ s ∈ scales, Searchable c d.options image s) (n : ℕ) :
    ((d.search image.size).runFrom image.answer (fun made => n ≤ made) 0).result.map (·.2) =
      if scanned c d.options image scales ≠ [] ∧ n ≤ (queries c image
          ((scanned c d.options image scales).dropLast.flatMap (judged c d.options image))).length
      then .ok (.error .cancelled)
      else ((d.search image.size).runFrom image.answer (fun _ => false) 0).result.map (·.2) := by
  obtain ⟨s₀, hs₀⟩ := hd
  have hends := runFrom_searchScales h n 0 s₀ fun _ => rfl
  rw [Nat.zero_add, ← hs₀] at hends
  rw [result_search hs, result_search hs, hends]
  split <;> rfl

/-- **A search that nobody cancels** asks for the windows that are judged, and for no others. -/
theorem detect_of_searchable {d : Detector} (hd : d.Uses c)
    (hs : d.scales image.size = .ok scales)
    (h : ∀ s ∈ scales, Searchable c d.options image s) :
    ∃ d' ds, d.detect image = .ok (d', .ok ds) ∧ d.asked image =
      queries c image ((scanned c d.options image scales).flatMap (judged c d.options image)) := by
  rw [judged_scanned]
  cases ho : stopsAtFirst d.options with
  | false =>
    obtain ⟨⟨d', -, hdetect⟩, hasked⟩ := trace_search_all hd hs h ho
    exact ⟨d', _, hdetect, hasked⟩
  | true =>
    obtain ⟨⟨d', -, hdetect⟩, hasked⟩ := trace_search_single hd hs h ho
    exact ⟨d', _, hdetect, hasked⟩

end Detector

namespace Session

variable {c : Cascade Float} {image : Source Float} {s : Session}

/-- **Cancellation is all or nothing.** If there are no scales because of a size limit, a search says
so, whether it is cancelled or not. Otherwise it finds what it finds when nobody cancels it, unless it
has been cancelled when it is about to begin the last scale that it would get to: with the queries for
the scales before that, or earlier. A search without scales cannot be cancelled. -/
theorem cancellation (hc : c.Accepted) (hs : s.Serves c) (hi : image.size.Small) (ht : image.Total) :
    (∀ e, s.detector.scales image.size = .error e →
      ∀ moment times, s.answer image moment times = .ok (.error e)) ∧
    (∀ scales, s.detector.scales image.size = .ok scales → ∃ ds,
      (∀ times, s.answer image none times = .ok (.ok ds)) ∧
      ((scales = [] ∧ ∀ n times, s.answer image (some n) times = .ok (.ok ds)) ∨
        ∃ before last,
          Detector.scanned c s.detector.options image scales = before ++ [last] ∧
          s.detector.asked image =
            Detector.queries c image (before.flatMap (Detector.judged c s.detector.options image)) ++
              Detector.queries c image (Detector.judged c s.detector.options image last) ∧
          ∀ n times, s.answer image (some n) times =
            if n ≤ (Detector.queries c image
              (before.flatMap (Detector.judged c s.detector.options image))).length
            then .ok (.error .cancelled) else .ok (.ok ds))) ∧
    SearchError.cancelled.message = "detection was cancelled" := by
  refine ⟨?_, ?_, rfl⟩
  · intro e he moment times
    rw [answer_eq_search hs.grouping, Probe.runUntil_eq, Detector.search, he]
    rfl
  · intro scales hscales
    have hsearch : ∀ scale ∈ scales, Detector.Searchable c s.detector.options image scale :=
      fun scale hmem =>
        Detector.searchable_of_total hc hi ht (hs.uses.visited hscales scale hmem)
    obtain ⟨d', ds, hdetect, hasked⟩ := Detector.detect_of_searchable hs.uses hscales hsearch
    have hfound : ((s.detector.search image.size).runFrom image.answer (fun _ => false) 0).result.map
        (·.2) = .ok (.ok ds) := by
      change (s.detector.detect image).map (·.2) = _
      rw [hdetect]
      rfl
    have hcancel : ∀ n times, s.answer image (some n) times =
        if Detector.scanned c s.detector.options image scales ≠ [] ∧ n ≤ (Detector.queries c image
          ((Detector.scanned c s.detector.options image scales).dropLast.flatMap
            (Detector.judged c s.detector.options image))).length
        then .ok (.error .cancelled) else .ok (.ok ds) := by
      intro n times
      rw [answer_eq_search hs.grouping, ← hfound]
      exact Detector.runFrom_search hs.uses hscales hsearch n
    refine ⟨ds, fun times => ?_, ?_⟩
    · rw [answer_eq_search hs.grouping]
      exact hfound
    · -- the last scale is told apart from those before it
      rcases List.eq_nil_or_concat (Detector.scanned c s.detector.options image scales) with
        hnil | ⟨before, last, hsplit⟩
      · exact .inl ⟨Detector.scanned_eq_nil_iff.1 hnil, fun n times => by simp [hcancel, hnil]⟩
      · rw [List.concat_eq_append] at hsplit
        refine .inr ⟨before, last, hsplit, ?_, fun n times => ?_⟩
        · rw [hasked, hsplit, List.flatMap_append, List.flatMap_singleton, Detector.queries_append]
        · rw [hcancel, hsplit, List.dropLast_concat]
          simp

/-- A session for the search for edges. -/
def edging : Session := { detector := edges, grouper := edges.options.grouper }

/-- In the dark it makes four queries before its second and last scale. A search that is cancelled by
the fourth one reports nothing, and one that is cancelled by the fifth finds what there is. -/
theorem cancellation_darkness : edge.Accepted ∧ edging.Serves edge ∧ darkness.size.Small ∧
    darkness.Total ∧ edging.detector.scales darkness.size = .ok [1.5, 1] ∧
    edging.answer darkness (some 4) {} = .ok (.error .cancelled) ∧
    ∃ ds, edging.answer darkness none {} = .ok (.ok ds) ∧
      edging.answer darkness (some 5) {} = .ok (.ok ds) := by
  have hserves : edging.Serves edge := ⟨⟨1, rfl⟩, by decide +kernel, rfl⟩
  have hi : darkness.size.Small := ⟨by decide, by decide⟩
  have ht : darkness.Total := fun _ => ⟨0, rfl⟩
  have hs : edging.detector.scales darkness.size = .ok [1.5, 1] := by decide +kernel
  refine ⟨edge_accepted, hserves, hi, ht, hs, ?_⟩
  obtain ⟨ds, hnone, hnil | ⟨before, last, hsplit, -, hcancel⟩⟩ :=
    (cancellation edge_accepted hserves hi ht).2.1 _ hs
  · cases hnil.1
  · have hscanned : Detector.scanned edge edging.detector.options darkness [1.5, 1] =
        [1.5] ++ [1] := by decide +kernel
    obtain rfl : before = [1.5] := (List.append_inj' (hsplit.symm.trans hscanned) rfl).1
    have hmade : (Detector.queries edge darkness ([1.5].flatMap
        (Detector.judged edge edging.detector.options darkness))).length = 4 := by decide +kernel
    exact ⟨by rw [hcancel, hmade]; rfl, ds, hnone {}, by rw [hcancel, hmade]; rfl⟩

end Session

end HaarDetection
