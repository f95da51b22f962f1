import HaarDetection.Image.Integral
import HaarDetection.Merge.Grouper
import HaarDetection.Search.Detector
import HaarDetection.Timer

/-!
# Sessions

A session searches one image after the other. It has a detector, whose classifier stays at the scale
at which the last search has ended, a grouper, which has its own copy of the thresholds in the
options, and timers for the three phases of a search: making the integral image, scanning the windows,
and merging what was found. How long a phase took is measured outside and handed in.

* `Session.ofCascade`, `Session.withOptions`: a new session.
* `Session.setOptions`: a session after a choice of other options.
* `Session.detect`: a search of an integral image.
* `Session.detectPixels`: a search of an image, whose integral image is made first.
-/

namespace HaarDetection

/-- How long the phases of a search took, in nanoseconds. -/
structure PhaseTimes where
  integral : Nat := 0
  search : Nat := 0
  merge : Nat := 0

/-- A detector and what it works with. -/
structure Session where
  detector : Detector
  grouper : Grouper
  integral : Timer := .fresh "integral"
  search : Timer := .fresh "search"
  merge : Timer := .fresh "merge"

/-- A grouper for the searches with some options. -/
def Options.grouper (o : Options) : Grouper := { grouping := o.grouping }

namespace Session

/-- The timers of a session, in the order of the phases. -/
def timers (s : Session) : List Timer := [s.integral, s.search, s.merge]

/-- The reports of all timers, each of which begins a new period. -/
def report (s : Session) : List String × Session :=
  (s.timers.map fun t => t.report.1,
   { s with
     integral := s.integral.report.2
     search := s.search.report.2
     merge := s.merge.report.2 })

/-- A copy of a session has the same detector and grouper, and timers without runs. -/
def copy (s : Session) : Session :=
  { s with integral := s.integral.copy, search := s.search.copy, merge := s.merge.copy }

/-- A session with the options that there are without choosing any. -/
def ofCascade (cascade : Cascade Float) : Session where
  detector := .ofCascade cascade
  grouper := ({} : Options).grouper

/-- The session after a choice of other options, which is refused if something is wrong with these. -/
def setOptions (s : Session) (options : Options) : Session × Except OptionsError Unit :=
  match s.detector.setOptions options with
  | .error error => (s, .error error)
  | .ok detector => ({ s with detector, grouper := options.grouper }, .ok ())

/-- A session with the given options. -/
def withOptions (cascade : Cascade Float) (options : Options) : Except OptionsError Session :=
  match (ofCascade cascade).setOptions options with
  | (_, .error error) => .error error
  | (s, .ok ()) => .ok s

/-- The session once its scales have been searched. -/
def afterSearch (s : Session) (classifier : Classifier Float) (times : PhaseTimes) : Session :=
  { s with detector := { s.detector with classifier }, search := s.search.record times.search }

/-- The session once the accepted windows have been merged, and what has become of them. Clusters are
averaged by the grouper. -/
def afterMerge (s : Session) (found : List Detection) (times : PhaseTimes) :
    Session × List Detection :=
  let s := { s with merge := s.merge.record times.merge }
  match s.detector.options.searchMode with
  | .default | .single => (s, found)
  | .noOverlap => (s, nonOverlapping found)
  | .average =>
    let (merged, grouper) := s.grouper.process found
    ({ s with grouper }, merged)

/-- **A search of an integral image**, cancelled at some moment or not at all. A search without scales
because of a size limit has not begun to scan, and one that was cancelled does not merge. -/
def detect (s : Session) (image : Source Float) (moment : Option Nat) (times : PhaseTimes) :
    Except Fault (Session × Except SearchError (List Detection)) :=
  match s.detector.scales image.size with
  | .error error => .ok (s, .error error)
  | .ok scales => do
    let scan := Detector.searchScales s.detector.options image.size scales s.detector.classifier []
    let (classifier, found) ← (scan.runUntil image moment).result
    let s := s.afterSearch classifier times
    match found with
    | .error error => .ok (s, .error error)
    | .ok found =>
      let (s, detections) := s.afterMerge found times
      .ok (s, .ok detections)

/-- A search of an image. -/
def detectPixels (s : Session) (pixels : Pixels) (times : PhaseTimes) :
    Except Fault (Session × Except SearchError (List Detection)) :=
  let timed := { s with integral := s.integral.record times.integral }
  timed.detect ((IntegralImage.ofPixels pixels).source Float) none times

end Session

end HaarDetection
