import HaarDetection.Cascade.Document
import HaarDetection.Search.Options

/-!
# Documents of options

Options are kept as JSON, too. Every field may be left out.

* `Options.ofText`: the options in a text.
-/

namespace HaarDetection

open Json (record? required orDefault toWord? toSingle? toBool? toChoice?)

/-- The mode of a name. -/
def SearchMode.ofName? : String → Option SearchMode
  | "default" => some .default
  | "single" => some .single
  | "no_overlap" => some .noOverlap
  | "average" => some .average
  | _ => none

/-- The mode of a name. -/
def ScalingMode.ofName? : String → Option ScalingMode
  | "smaller_to_greater" => some .smallerToGreater
  | "greater_to_smaller" => some .greaterToSmaller
  | _ => none

/-- The size in a value. What else an object has is ignored. -/
def Size.ofJson? (json : Json) : Option Size := do
  match ← record? ["width", "height"] .ignored json with
  | [width, height] => some ⟨← required toWord? width, ← required toWord? height⟩
  | _ => none

/-- The size in a value, or null for none. -/
def Size.ofJsonOrNull? : Json → Option (Option Size)
  | .null => some none
  | json => (Size.ofJson? json).map some

namespace Options

/-- The fields of options. -/
def fields : List String :=
  ["search_mode", "scaling_mode", "scaling_factor", "min_size", "max_size", "step_ratio",
    "parallel", "group_iou", "min_neighbors"]

/-- The options in a value. -/
def ofJson? (json : Json) : Option Options := do
  let default : Options := {}
  match ← record? fields .refused json with
  | [searchMode, scalingMode, scalingFactor, minSize, maxSize, stepRatio, parallel, groupIou,
      minNeighbors] =>
    some {
      searchMode := ← orDefault (toChoice? SearchMode.ofName?) default.searchMode searchMode
      scalingMode := ← orDefault (toChoice? ScalingMode.ofName?) default.scalingMode scalingMode
      scalingFactor := ← orDefault toSingle? default.scalingFactor scalingFactor
      minSize := ← orDefault Size.ofJsonOrNull? default.minSize minSize
      maxSize := ← orDefault Size.ofJsonOrNull? default.maxSize maxSize
      stepRatio := ← orDefault toSingle? default.stepRatio stepRatio
      parallel := ← orDefault toBool? default.parallel parallel
      groupIou := ← orDefault toSingle? default.groupIou groupIou
      minNeighbors := ← orDefault toWord? default.minNeighbors minNeighbors }
  | _ => none

/-- **The options in a text.** -/
def ofText (text : String) : Except (DocumentError OptionsError) Options :=
  match (Json.read? text).bind ofJson? with
  | none => .error .malformed
  | some options =>
    match options.check with
    | .error error => .error (.invalid error)
    | .ok () => .ok options

end Options

end HaarDetection
