import HaarDetection.Merge.NonOverlap
import HaarDetection.Search.Scan
import HaarDetection.Search.Schedule

/-!
# Detectors

A detector searches images at all scales of its schedule and merges what it finds. Between two
scales it looks whether the search has been cancelled; a cancelled search reports nothing.

* `Detector.scales`: the scales at which an image of a given size is searched.
* `Detector.search`: the search of an image, as a computation that asks it for sums.
* `Detector.detect`: the search of an image from start to end.
-/

namespace HaarDetection

/-- A reason why a search reports nothing. -/
inductive SearchError
  /-- A limit of window sizes exceeds the image. -/
  | sizeLimit (limit : SizeLimit) (size image : Size)
  /-- The search has been cancelled. -/
  | cancelled
deriving DecidableEq, Repr

/-- The wording of an error. -/
def SearchError.message : SearchError → String
  | .sizeLimit limit size image =>
    s!"{limit.name} window size {size.text} exceeds the image size {image.text}"
  | .cancelled => "detection was cancelled"

/-- A classifier and the options of the searches made with it. -/
structure Detector where
  classifier : Classifier Float
  options : Options

namespace Detector

/-- A detector with the options that there are without choosing any. -/
def ofCascade (cascade : Cascade Float) : Detector := ⟨.ofCascade cascade, {}⟩

/-- The detector with other options, if nothing is wrong with these. -/
def setOptions (d : Detector) (options : Options) : Except OptionsError Detector := do
  options.check
  .ok { d with options }

/-- A detector with the given options. -/
def withOptions (cascade : Cascade Float) (options : Options) : Except OptionsError Detector :=
  (ofCascade cascade).setOptions options

/-- A limit of window sizes has to leave windows that fit into the image. -/
def checkLimit (image : Size) (limit : SizeLimit) : Option Size → Except SearchError Unit
  | some size => if image.Fits size then .ok () else .error (.sizeLimit limit size image)
  | none => .ok ()

/-- The schedule for an image. Windows are not smaller than the cascade's own window, and not
greater than the image if no limit is set. -/
def schedule (d : Detector) (image : Size) : Schedule where
  base := d.classifier.cascade.window
  min := (d.options.minSize.map (·.max d.classifier.cascade.window)).getD
    d.classifier.cascade.window
  max := d.options.maxSize.getD image
  factor := d.options.scalingFactor
  mode := d.options.scalingMode

/-- **The scales at which an image is searched**, if both limits of window sizes fit into it. -/
def scales (d : Detector) (image : Size) : Except SearchError (List Float32) := do
  checkLimit image .minimum d.options.minSize
  checkLimit image .maximum d.options.maxSize
  .ok (d.schedule image).scales

/-- What becomes of the accepted windows. -/
def merge (options : Options) (found : List Detection) : List Detection :=
  match options.searchMode with
  | .default | .single => found
  | .noOverlap => nonOverlapping found
  | .average => options.grouping.merge found

/-- Does a search end with the first accepted window? -/
def stopsAtFirst (options : Options) : Bool := options.searchMode == .single

/-- Searches some scales one after the other, with the windows accepted so far in `found`. Gives
the classifier at the last scale searched, and the accepted windows unless the search has been
cancelled. -/
def searchScales (options : Options) (image : Size) :
    List Float32 → Classifier Float → (found : List Detection) →
      Probe Float (Classifier Float × Except SearchError (List Detection))
  | [], classifier, found => .done (classifier, .ok found)
  | scale :: rest, classifier, found =>
    .poll fun cancelled =>
      if cancelled then .done (classifier, .error .cancelled)
      else
        let scaled := classifier.setScale scale
        (scaled.scan image options (stopsAtFirst options)).bind fun more =>
          let found := found ++ more
          if stopsAtFirst options && !found.isEmpty then .done (scaled, .ok found)
          else searchScales options image rest scaled found

/-- **The search of an image** of a given size: its detections, and the detector that the search
leaves behind. -/
def search (d : Detector) (image : Size) :
    Probe Float (Detector × Except SearchError (List Detection)) :=
  match d.scales image with
  | .error error => .done (d, .error error)
  | .ok scales =>
    (searchScales d.options image scales d.classifier []).bind fun (classifier, found) =>
      .done ({ d with classifier }, found.map (merge d.options))

/-- The detections in an image. -/
def detect (d : Detector) (image : Source Float) :
    Except Fault (Detector × Except SearchError (List Detection)) :=
  ((d.search image.size).run image).result

/-- The detections in an image, when the search is cancelled by the `moment`-th query made, or
before it begins if `moment` is zero. -/
def detectCancelled (d : Detector) (image : Source Float) (moment : Nat) :
    Except Fault (Detector × Except SearchError (List Detection)) :=
  ((d.search image.size).runCancelled image moment).result

end Detector

end HaarDetection
