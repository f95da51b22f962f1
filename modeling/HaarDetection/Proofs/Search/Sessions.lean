import HaarDetection.Proofs.Merge.Grouper
import HaarDetection.Proofs.Search.Enumeration
import HaarDetection.Search.Session

/-!
# Sessions have no memory

What a session keeps from one search to the next is the scale of its classifier, the lists of its
grouper, and its timers. None of them matters for what it reports.

* `Session.answer`: what a search reports.
* `Session.Serves`: what all sessions with a cascade have in common, whatever they have done.
* `Session.answer_eq_search`: what a session reports is what its detector finds.
* `Detector.answer_congr`: **detectors with one cascade and the same options find the same.**
* `Session.Serves.step`, `Session.Serves.run`: **one operation keeps a session in order**, and so do
  all of them.
* `Session.no_memory`: **a session reports what a fresh one reports.**
-/

namespace HaarDetection

open Classifier (atScale)
open Detector (edges darkness)

variable {c : Cascade Float} {image : Source Float} {scales : List Float32}

namespace Detector

variable {d d' : Detector} {options : Options} {size : Size}

/-- Whatever a search comes to, its classifier is that of the cascade at some scale. -/
theorem searchScales_yields_atScale (s₀ : Float32) (found : List Detection) :
    (searchScales options size scales (atScale c s₀) found).Yields fun r =>
      ∃ s₁, r.1 = atScale c s₁ := by
  induction scales generalizing s₀ found with
  | nil => exact ⟨s₀, rfl⟩
  | cons s rest ih =>
    obtain ⟨s₁, hs₁⟩ := Classifier.exists_setScale c s₀ s
    intro cancelled
    simp only [hs₁]
    split
    · exact ⟨s₀, rfl⟩
    · refine (Probe.Yields.trivial _).bind fun more _ => ?_
      split
      · exact ⟨s₁, rfl⟩
      · exact ih s₁ _

/-- What a search does at a scale that the classifier has been set to, and at those after it. -/
def searchFrom (options : Options) (size : Size) (rest : List Float32) (scaled : Classifier Float)
    (found : List Detection) : Probe Float (Classifier Float × Except SearchError (List Detection)) :=
  (scaled.scan size options (stopsAtFirst options)).bind fun more =>
    if stopsAtFirst options && !(found ++ more).isEmpty then .done (scaled, .ok (found ++ more))
    else searchScales options size rest scaled (found ++ more)

/-- **Before a scale is searched, a search can be cancelled.** -/
theorem runFrom_searchScales_cons (answer : Query → Except Fault Float) (cancelled : ℕ → Bool)
    (made : ℕ) (s : Float32) (rest : List Float32) (classifier : Classifier Float)
    (found : List Detection) :
    (searchScales options size (s :: rest) classifier found).runFrom answer cancelled made =
      if cancelled made then ⟨.ok (classifier, .error .cancelled), made⟩
      else (searchFrom options size rest (classifier.setScale s) found).runFrom answer cancelled
        made := by
  rw [searchScales, Probe.runFrom]
  cases cancelled made <;> rfl

/-- Classifiers that are the same once their scale has been set find the same. -/
theorem found_of_setScale {a b : Classifier Float} (h : ∀ s ∈ scales, a.setScale s = b.setScale s)
    (found : List Detection) (answer : Query → Except Fault Float) (cancelled : ℕ → Bool)
    (made : ℕ) :
    ((searchScales options size scales a found).runFrom answer cancelled made).result.map (·.2) =
      ((searchScales options size scales b found).runFrom answer cancelled made).result.map
        (·.2) := by
  cases scales with
  | nil => rfl
  | cons s rest =>
    -- no induction: after the first scale the two are one and the same
    rw [runFrom_searchScales_cons, runFrom_searchScales_cons, h s List.mem_cons_self]
    split <;> rfl

/-- What is found at the scales is merged in the end. -/
theorem result_search (hs : d.scales size = .ok scales) (answer : Query → Except Fault Float)
    (cancelled : ℕ → Bool) (made : ℕ) :
    ((d.search size).runFrom answer cancelled made).result.map (·.2) =
      (((searchScales d.options size scales d.classifier []).runFrom answer cancelled
        made).result.map (·.2)).map (·.map (merge d.options)) := by
  simp only [search, hs, Probe.runFrom_bind, Probe.Outcome.andThen]
  cases ((searchScales d.options size scales d.classifier []).runFrom answer cancelled made).result with
  | error fault => rfl
  | ok r => rfl

/-- **Detectors with one cascade and the same options find the same**, whatever has been searched
before. -/
theorem answer_congr (hc : c.Accepted) (hd : d.Uses c) (hd' : d'.Uses c)
    (ho : d.options = d'.options) (moment : Option ℕ) :
    ((d.search image.size).runUntil image moment).result.map (·.2) =
      ((d'.search image.size).runUntil image moment).result.map (·.2) := by
  have hscales : d.scales image.size = d'.scales image.size := by
    simp only [scales, schedule, hd.window, hd'.window, ho]
  simp only [Probe.runUntil_eq]
  cases hs : d.scales image.size with
  | error e =>
    simp only [search, hs, ← hscales]
    rfl
  | ok scales =>
    have hzero : ∀ s ∈ scales, ¬∃ z, s.toModel.unpack = .zero z := fun s hmem =>
      (hd.visited hs s hmem).not_zero hc.window_pos.1
    obtain ⟨s₀, h₀⟩ := hd
    obtain ⟨s₁, h₁⟩ := hd'
    have hset : ∀ s ∈ scales, d.classifier.setScale s = d'.classifier.setScale s := fun s hmem => by
      rw [h₀, h₁, Classifier.setScale_of_not_zero (hzero s hmem),
        Classifier.setScale_of_not_zero (hzero s hmem)]
    rw [result_search hs, result_search (hscales ▸ hs), ho, found_of_setScale hset]

end Detector

namespace Session

variable {s s' : Session} {moment : Option ℕ} {times : PhaseTimes}

/-- **What a search reports.** -/
def answer (s : Session) (image : Source Float) (moment : Option ℕ) (times : PhaseTimes) :
    Except Fault (Except SearchError (List Detection)) :=
  (s.detect image moment times).map (·.2)

/-- What a search of pixels reports. -/
def answerPixels (s : Session) (pixels : Pixels) (times : PhaseTimes) :
    Except Fault (Except SearchError (List Detection)) :=
  (s.detectPixels pixels times).map (·.2)

/-- **A session with a cascade,** whatever it has done before: its classifier is that of the cascade
at some scale, its options are in order, and its grouper has the thresholds that are in them. -/
structure Serves (s : Session) (c : Cascade Float) : Prop where
  uses : s.detector.Uses c
  check : s.detector.options.check = .ok ()
  grouping : s.grouper.grouping = s.detector.options.grouping

/-- A grouper with the thresholds of the options finds their clusters. -/
theorem afterMerge_snd (h : s.grouper.grouping = s.detector.options.grouping)
    (found : List Detection) :
    (s.afterMerge found times).2 = Detector.merge s.detector.options found := by
  unfold afterMerge Detector.merge
  simp only [Grouper.process_eq]
  split
  all_goals simp only [*]

theorem Serves.afterMerge (h : s.Serves c) (found : List Detection) :
    (s.afterMerge found times).1.Serves c ∧
      (s.afterMerge found times).1.detector = s.detector := by
  unfold Session.afterMerge
  simp only [Grouper.process_eq]
  split
  all_goals exact ⟨⟨h.uses, h.check, h.grouping⟩, rfl⟩

/-- **What a session reports** is what its detector finds. -/
theorem answer_eq_search (h : s.grouper.grouping = s.detector.options.grouping) :
    s.answer image moment times =
      ((s.detector.search image.size).runUntil image moment).result.map (·.2) := by
  unfold answer detect
  cases hs : s.detector.scales image.size with
  | error e =>
    simp only [Detector.search, hs, Probe.runUntil_eq]
    rfl
  | ok scales =>
    rw [Probe.runUntil_eq, Detector.result_search hs]
    simp only [Probe.runUntil_eq, bind, Except.bind]
    cases ((Detector.searchScales s.detector.options image.size scales s.detector.classifier
      []).runFrom image.answer (Probe.cancelledBy moment) 0).result with
    | error fault => rfl
    | ok r =>
      obtain ⟨classifier, found⟩ := r
      cases found with
      | error e => rfl
      | ok found =>
        simp only [Except.map]
        rw [afterMerge_snd (s := s.afterSearch classifier times) h]
        rfl

/-- **A search keeps a session in order.** -/
theorem Serves.detect (h : s.Serves c) {r : Except SearchError (List Detection)}
    (hd : s.detect image moment times = .ok (s', r)) :
    s'.Serves c ∧ s'.detector.options = s.detector.options := by
  unfold Session.detect at hd
  split at hd
  · cases hd
    exact ⟨h, rfl⟩
  · obtain ⟨⟨classifier, found⟩, hrun, hd⟩ := ok_of_bind hd
    obtain ⟨s₀, hs₀⟩ := h.uses
    rw [hs₀, Probe.runUntil_eq] at hrun
    have huses := (Detector.searchScales_yields_atScale s₀ []).runFrom hrun
    have hscanned : (s.afterSearch classifier times).Serves c := ⟨huses, h.check, h.grouping⟩
    cases found with
    | error e =>
      cases hd
      exact ⟨hscanned, rfl⟩
    | ok found =>
      have hs' : s' = ((s.afterSearch classifier times).afterMerge found times).1 := by
        cases hd
        rfl
      obtain ⟨hmerged, hdetector⟩ := hscanned.afterMerge found
      rw [hs', hdetector]
      exact ⟨hmerged, rfl⟩

/-- Sessions with one cascade and the same options report the same. -/
theorem Serves.answer_congr (hc : c.Accepted) (h : s.Serves c) (h' : s'.Serves c)
    (ho : s.detector.options = s'.detector.options) (moment : Option ℕ) (times times' : PhaseTimes) :
    s.answer image moment times = s'.answer image moment times' := by
  rw [answer_eq_search h.grouping, answer_eq_search h'.grouping,
    Detector.answer_congr hc h.uses h'.uses ho]

/-- To make an integral image only takes time. -/
theorem Serves.withIntegral (h : s.Serves c) (times : PhaseTimes) :
    Serves { s with integral := s.integral.record times.integral } c :=
  ⟨h.uses, h.check, h.grouping⟩

theorem Serves.setOptions (h : s.Serves c) {options : Options} (ho : options.check = .ok ()) :
    ∃ s', s.setOptions options = (s', .ok ()) ∧ s'.Serves c ∧ s'.detector.options = options := by
  simp only [Session.setOptions, Detector.setOptions, ho]
  exact ⟨_, rfl, ⟨h.uses, ho, rfl⟩, rfl⟩

theorem setOptions_snd (s : Session) (options : Options) :
    (s.setOptions options).2 = options.check := by
  simp only [Session.setOptions, Detector.setOptions]
  cases options.check <;> rfl

/-- Options that are refused change nothing. -/
theorem setOptions_of_check_ne {options : Options} (h : options.check ≠ .ok ()) :
    (s.setOptions options).1 = s := by
  have hsnd := setOptions_snd s options
  unfold Session.setOptions at hsnd ⊢
  split at hsnd
  · rfl
  · exact absurd hsnd.symm h

theorem ofCascade_serves (c : Cascade Float) : (ofCascade c).Serves c :=
  ⟨⟨1, rfl⟩, show ({} : Options).check = .ok () by decide +kernel, rfl⟩

theorem withOptions_serves {options : Options} (ho : options.check = .ok ()) :
    ∃ s, withOptions c options = .ok s ∧ s.Serves c ∧ s.detector.options = options := by
  obtain ⟨s, hs, h⟩ := (ofCascade_serves c).setOptions ho
  refine ⟨s, ?_, h⟩
  rw [withOptions, hs]

theorem serves_of_withOptions {options : Options} (h : withOptions c options = .ok s) :
    s.Serves c ∧ s.detector.options = options := by
  cases ho : options.check with
  | ok u =>
    obtain ⟨s', hs', hserves⟩ := withOptions_serves (c := c) ho
    rw [h] at hs'
    cases hs'
    exact hserves
  | error e =>
    have hsnd := setOptions_snd (ofCascade c) options
    rw [ho] at hsnd
    unfold withOptions at h
    split at h
    · cases h
    · rename_i heq
      rw [heq] at hsnd
      cases hsnd

theorem ok_of_map {r : Except Fault (Session × Except SearchError (List Detection))}
    (h : r.map (·.1) = .ok s) : ∃ found, r = .ok (s, found) := by
  cases r with
  | error fault => cases h
  | ok r =>
    cases h
    exact ⟨r.2, rfl⟩

/-- What can be done with a session. -/
inductive Operation
  /-- Other options are chosen. -/
  | setOptions (options : Options)
  /-- An image is searched, and the search is cancelled at a moment or not at all. -/
  | detect (image : Source Float) (moment : Option ℕ) (times : PhaseTimes)
  | detectPixels (pixels : Pixels) (times : PhaseTimes)
  /-- The session is left for a copy of it. -/
  | copy
  | report

/-- The session after an operation, unless there was a fault. -/
def step (s : Session) : Operation → Except Fault Session
  | .setOptions options => .ok (s.setOptions options).1
  | .detect image moment times => (s.detect image moment times).map (·.1)
  | .detectPixels pixels times => (s.detectPixels pixels times).map (·.1)
  | .copy => .ok s.copy
  | .report => .ok s.report.2

/-- The session after some operations. -/
def run (s : Session) (ops : List Operation) : Except Fault Session := ops.foldlM step s

/-- The options that an operation chooses, if nothing is wrong with them. -/
def Operation.chosen? : Operation → Option Options
  | .setOptions options => if options.check = .ok () then some options else none
  | _ => none

/-- **The options that are chosen last,** or those that there were before. -/
def lastChosen (options : Options) (ops : List Operation) : Options :=
  (ops.filterMap Operation.chosen?).getLast?.getD options

theorem lastChosen_cons (options : Options) (op : Operation) (ops : List Operation) :
    lastChosen options (op :: ops) = lastChosen (op.chosen?.getD options) ops := by
  unfold lastChosen
  cases h : op.chosen? with
  | none => rw [List.filterMap_cons_none h, Option.getD_none]
  | some o => rw [List.filterMap_cons_some h, List.getLast?_cons, Option.getD_some, Option.getD_some]

/-- **An operation keeps a session in order.** -/
theorem Serves.step (h : s.Serves c) {op : Operation} (hstep : s.step op = .ok s') :
    s'.Serves c ∧ s'.detector.options = op.chosen?.getD s.detector.options := by
  cases op with
  | setOptions options =>
    cases hstep
    simp only [Operation.chosen?]
    split
    · rename_i ho
      obtain ⟨s', hs', hserves, hoptions⟩ := h.setOptions ho
      rw [hs']
      exact ⟨hserves, hoptions⟩
    · rename_i ho
      rw [setOptions_of_check_ne ho]
      exact ⟨h, rfl⟩
  | detect image moment times =>
    obtain ⟨r, hd⟩ := ok_of_map hstep
    exact h.detect hd
  | detectPixels pixels times =>
    obtain ⟨r, hd⟩ := ok_of_map hstep
    exact (h.withIntegral times).detect hd
  | copy =>
    cases hstep
    exact ⟨⟨h.uses, h.check, h.grouping⟩, rfl⟩
  | report =>
    cases hstep
    exact ⟨⟨h.uses, h.check, h.grouping⟩, rfl⟩

/-- **Operations keep a session in order.** -/
theorem Serves.run (h : s.Serves c) {ops : List Operation} (hrun : s.run ops = .ok s') :
    s'.Serves c ∧ s'.detector.options = lastChosen s.detector.options ops := by
  induction ops generalizing s with
  | nil =>
    cases hrun
    exact ⟨h, rfl⟩
  | cons op ops ih =>
    obtain ⟨s₁, hstep, hrest⟩ := ok_of_bind hrun
    obtain ⟨h₁, ho₁⟩ := h.step hstep
    obtain ⟨h₂, ho₂⟩ := ih h₁ hrest
    exact ⟨h₂, by rw [ho₂, lastChosen_cons, ho₁]⟩

/-- **A session has no memory.** Whatever has been done with it, short of a fault: its options are the
last ones that have been chosen, or those that it was made with, and options that are refused change
nothing; its cascade is the one that it was made with, but for its scale; and it reports on any image
what a fresh session with its options reports, be it cancelled or not. -/
theorem no_memory (hc : c.Accepted) {start : Session} {options : Options}
    (hstart : start = ofCascade c ∧ options = {} ∨ withOptions c options = .ok start)
    {ops : List Operation} (hrun : start.run ops = .ok s) :
    s.detector.options = lastChosen options ops ∧
      (∀ o, (s.setOptions o).2 = o.check ∧ (o.check ≠ .ok () → (s.setOptions o).1 = s)) ∧
      s.detector.classifier.cascade.unscaled = c.unscaled ∧
      ∃ fresh, withOptions c s.detector.options = .ok fresh ∧
        (∀ image moment times times', s.answer image moment times = fresh.answer image moment times') ∧
        ∀ pixels times times', s.answerPixels pixels times = fresh.answerPixels pixels times' := by
  obtain ⟨hserves, ho⟩ : start.Serves c ∧ start.detector.options = options := by
    rcases hstart with ⟨rfl, rfl⟩ | hwith
    · exact ⟨ofCascade_serves c, rfl⟩
    · exact serves_of_withOptions hwith
  obtain ⟨hs, hoptions⟩ := hserves.run hrun
  refine ⟨ho ▸ hoptions, fun o => ⟨setOptions_snd s o, setOptions_of_check_ne⟩, ?_, ?_⟩
  · obtain ⟨s₀, hs₀⟩ := hs.uses
    rw [hs₀]
    exact Cascade.unscaled_rescale _ _ c
  · obtain ⟨fresh, hfresh, hserves, ho⟩ := withOptions_serves (c := c) hs.check
    refine ⟨fresh, hfresh, ?_, ?_⟩
    · intro image moment times times'
      exact hs.answer_congr hc hserves ho.symm moment times times'
    · intro pixels times times'
      exact (hs.withIntegral times).answer_congr hc (hserves.withIntegral times') ho.symm none times
        times'

/-- A session that is given a limit that an image exceeds, options that are refused, and at last those
of a search that is cancelled before its second scale. -/
def history : List Operation :=
  [.detect darkness none {}, .setOptions { minSize := some ⟨9, 9⟩ }, .detect darkness none {},
    .setOptions { scalingFactor := 1 }, .setOptions edges.options, .detect darkness (some 1) {}, .copy]

/-- After this it finds the windows that there are. -/
theorem no_memory_darkness : edge.Accepted ∧ ∃ s, (ofCascade edge).run history = .ok s ∧
    s.detector.options = edges.options ∧
    s.answer darkness none {} = .ok (.ok
      [.ofWindow ⟨0, 0, 3, 3⟩ 1.5, .ofWindow ⟨0, 0, 2, 2⟩ 1, .ofWindow ⟨1, 0, 2, 2⟩ 1,
        .ofWindow ⟨0, 1, 2, 2⟩ 1, .ofWindow ⟨1, 1, 2, 2⟩ 1]) := by
  obtain ⟨s, hs⟩ : ∃ s, (ofCascade edge).run history = .ok s := by
    have hok : ((ofCascade edge).run history).isOk = true := by decide +kernel
    cases hrun : (ofCascade edge).run history with
    | ok s => exact ⟨s, rfl⟩
    | error fault => rw [hrun] at hok; cases hok
  obtain ⟨ho, -, -, fresh, hfresh, hanswer, -⟩ := no_memory edge_accepted (.inl ⟨rfl, rfl⟩) hs
  have hoptions : s.detector.options = edges.options := by
    rw [ho]
    decide +kernel
  refine ⟨edge_accepted, s, hs, hoptions, ?_⟩
  rw [hanswer darkness none {} {}]
  have hfound : (withOptions edge edges.options).toOption.map (·.answer darkness none {}) =
      some (.ok (.ok [.ofWindow ⟨0, 0, 3, 3⟩ 1.5, .ofWindow ⟨0, 0, 2, 2⟩ 1,
        .ofWindow ⟨1, 0, 2, 2⟩ 1, .ofWindow ⟨0, 1, 2, 2⟩ 1, .ofWindow ⟨1, 1, 2, 2⟩ 1])) := by
    decide +kernel
  rw [← hoptions, hfresh] at hfound
  exact Option.some.inj hfound

end Session

end HaarDetection
