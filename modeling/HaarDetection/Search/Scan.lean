import HaarDetection.Classifier
import HaarDetection.Merge.Detection
import HaarDetection.Search.Options

/-!
# Scanning an image at one scale

The windows of a scale lie on a grid over the image. They are judged row by row, and in a row from
left to right.

* `windowRows`: the windows of a scale, in rows.
* `Classifier.findFirst`, `Classifier.findAll`, `Classifier.findByRows`: the first accepted window,
  all of them, and all of them collected row by row.
* `Classifier.scan`: the accepted windows of a scale.
-/

namespace HaarDetection

/-- The multiples of `step` up to `last`. -/
def gridTo (last step : Nat) : List Nat := (List.range (last / step + 1)).map (· * step)

/-- The windows of a size on the grid over an image that has room for one. -/
def windowRows (image window : Size) (step : Nat) : List (List Rect) :=
  (gridTo (image.height.toNat - window.height.toNat) step).map fun y =>
    (gridTo (image.width.toNat - window.width.toNat) step).map fun x =>
      ⟨.ofNat x, .ofNat y, window.width, window.height⟩

/-- The distance between neighboring windows at a scale, a pixel at least. -/
def stepAt (stepRatio scale : Float32) : Nat := max 1 (stepRatio * scale).toUInt64.toNat

namespace Classifier

variable {α : Type} [Scalar α] (c : Classifier α) (image : Size)

/-- The first of some windows that is accepted. -/
def findFirst : List Rect → Probe α (Option Detection)
  | [] => .done none
  | window :: rest =>
    (c.accepts image window).bind fun accepted =>
      if accepted then .done (some (.ofWindow window c.scale)) else findFirst rest

/-- All windows that are accepted, behind those in `found`. -/
def findAll : List Rect → (found : List Detection) → Probe α (List Detection)
  | [], found => .done found.reverse
  | window :: rest, found =>
    (c.accepts image window).bind fun accepted =>
      if accepted then findAll rest (.ofWindow window c.scale :: found) else findAll rest found

/-- All windows that are accepted, collected row by row behind those in `found`. -/
def findByRows : List (List Rect) → (found : List Detection) → Probe α (List Detection)
  | [], found => .done found
  | row :: rest, found =>
    (c.findAll image row []).bind fun more => findByRows rest (found ++ more)

/-- **The accepted windows at the classifier's scale**, or only the first of them. -/
def scan (options : Options) (firstOnly : Bool) : Probe α (List Detection) :=
  if image.Fits c.windowSize then
    let rows := windowRows image c.windowSize (stepAt options.stepRatio c.scale)
    if firstOnly then (c.findFirst image rows.flatten).bind fun found => .done found.toList
    else if options.parallel then c.findByRows image rows []
    else c.findAll image rows.flatten []
  else .done []

end Classifier

end HaarDetection
