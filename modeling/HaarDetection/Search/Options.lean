import HaarDetection.Decimal.Layout
import HaarDetection.Geometry.Size
import HaarDetection.Merge.Cluster

/-!
# Options of a search

* `Options`: which windows are searched, and what becomes of the accepted ones.
* `Options.check`: the first thing wrong with some options.
-/

namespace HaarDetection

/-- What becomes of the accepted windows. -/
inductive SearchMode
  /-- All are reported. -/
  | default
  /-- The first one found is reported, and ends the search. -/
  | single
  /-- Those that overlap an earlier one are dropped. -/
  | noOverlap
  /-- Clusters of them are averaged. -/
  | average
deriving DecidableEq, Repr

/-- The order in which scales are searched. -/
inductive ScalingMode
  | smallerToGreater
  | greaterToSmaller
deriving DecidableEq, Repr

/-- The options of a search. -/
structure Options where
  searchMode : SearchMode := .noOverlap
  scalingMode : ScalingMode := .greaterToSmaller
  /-- The ratio of a scale to the next smaller one. -/
  scalingFactor : Float32 := 1.2
  /-- The size that windows have at least. -/
  minSize : Option Size := none
  /-- The size that windows have at most. -/
  maxSize : Option Size := none
  /-- The distance between neighboring windows in pixels, at scale one. -/
  stepRatio : Float32 := 2
  /-- Are the rows of windows searched at the same time? -/
  parallel : Bool := true
  /-- The intersection over union from which a window belongs to a cluster. -/
  groupIou : Float32 := 0.3
  /-- The number of windows from which a cluster is reported. -/
  minNeighbors : UInt32 := 1
deriving DecidableEq

/-- One of the two limits of window sizes. -/
inductive SizeLimit
  | minimum
  | maximum
deriving DecidableEq, Repr

/-- The name of a limit. -/
def SizeLimit.name : SizeLimit → String
  | .minimum => "minimum"
  | .maximum => "maximum"

/-- A reason to refuse options. -/
inductive OptionsError
  | scalingFactor (factor : Float32)
  | stepRatio (ratio : Float32)
  | groupIou (threshold : Float32)
  | emptySize (limit : SizeLimit) (size : Size)
  | crossedSizes (minimum maximum : Size)
deriving DecidableEq

/-- The wording of an error. -/
def OptionsError.message : OptionsError → String
  | .scalingFactor factor =>
    s!"scaling factor must be a finite number greater than 1 (got {messageText factor})"
  | .stepRatio ratio => s!"step ratio must be a finite positive number (got {messageText ratio})"
  | .groupIou threshold =>
    s!"grouping IoU threshold must be between 0 and 1 (got {messageText threshold})"
  | .emptySize limit size => s!"{limit.name} window size must not be empty (got {size.text})"
  | .crossedSizes minimum maximum =>
    s!"minimum window size {minimum.text} exceeds maximum window size {maximum.text}"

namespace Options

/-- A limit of window sizes that has been set has to leave room for a pixel. -/
def checkSize (limit : SizeLimit) : Option Size → Except OptionsError Unit
  | some size => if size.pixels = 0 then .error (.emptySize limit size) else .ok ()
  | none => .ok ()

/-- **The first thing wrong with some options.** -/
def check (o : Options) : Except OptionsError Unit := do
  if !(o.scalingFactor.isFinite && Float32.lt 1 o.scalingFactor) then
    .error (.scalingFactor o.scalingFactor)
  if !(o.stepRatio.isFinite && Float32.lt 0 o.stepRatio) then
    .error (.stepRatio o.stepRatio)
  if !(Float32.le 0 o.groupIou && Float32.le o.groupIou 1) then
    .error (.groupIou o.groupIou)
  checkSize .minimum o.minSize
  checkSize .maximum o.maxSize
  match o.minSize, o.maxSize with
  | some minimum, some maximum =>
    if !maximum.Fits minimum then .error (.crossedSizes minimum maximum) else .ok ()
  | _, _ => .ok ()

/-- How the accepted windows are clustered. -/
def grouping (o : Options) : Grouping := ⟨o.groupIou, o.minNeighbors⟩

end Options

end HaarDetection
