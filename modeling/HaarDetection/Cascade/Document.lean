import HaarDetection.Cascade.Definition
import HaarDetection.Decimal.Layout
import HaarDetection.Json.Printer
import HaarDetection.Json.Record

/-!
# Documents of cascades

Cascades are kept as JSON. All fields of a record have to be there but for links, which are `-1`
when they are left out, and for whether a feature is tilted, which it is not unless it says so.

* `Cascade.ofText`: the cascade in a text.
* `Cascade.toText`: the text of a cascade.
-/

namespace HaarDetection

open Json (record? required orDefault toWord? toDouble? toLink? toBool? toList?)

/-- A number in a document; null stands for what is not finite. -/
def jsonOfDouble (x : Float) : Json :=
  match documentNumeral? x with
  | some numeral => .number numeral
  | none => .null

/-- A natural number in a document. -/
def jsonOfNat (n : Nat) : Json := .number (.ofInt n)

/-- An integer in a document. -/
def jsonOfInt (z : Int) : Json := .number (.ofInt z)

/-- A record in a document. -/
def jsonOfRecord (fields : List (String × Json)) : Json :=
  .object (fields.map fun (name, value) => (some name, value))

namespace RectDefinition

/-- The fields of a rectangle. -/
def fields : List String := ["x", "y", "width", "height", "weight"]

/-- The rectangle in a value. -/
def ofJson? (json : Json) : Option RectDefinition := do
  match ← record? fields .refused json with
  | [x, y, width, height, weight] =>
    some ⟨⟨← required toWord? x, ← required toWord? y, ← required toWord? width,
      ← required toWord? height⟩, ← required toDouble? weight⟩
  | _ => none

/-- The value of a rectangle. -/
def toJson (d : RectDefinition) : Json :=
  jsonOfRecord [("x", jsonOfNat d.region.x.toNat), ("y", jsonOfNat d.region.y.toNat),
    ("width", jsonOfNat d.region.width.toNat), ("height", jsonOfNat d.region.height.toNat),
    ("weight", jsonOfDouble d.weight)]

end RectDefinition

namespace FeatureDefinition

/-- The fields of a feature. -/
def fields : List String := ["tilted", "rects"]

/-- The feature in a value. -/
def ofJson? (json : Json) : Option FeatureDefinition := do
  match ← record? fields .refused json with
  | [tilted, rects] =>
    some ⟨← orDefault toBool? false tilted, ← required (toList? RectDefinition.ofJson?) rects⟩
  | _ => none

/-- The value of a feature. -/
def toJson (d : FeatureDefinition) : Json :=
  jsonOfRecord [("tilted", .bool d.tilted), ("rects", .array (d.rects.map RectDefinition.toJson))]

end FeatureDefinition

namespace NodeDefinition

/-- The fields of a node. -/
def fields : List String :=
  ["threshold", "left_value", "right_value", "left_node", "right_node", "feature"]

/-- The node in a value. -/
def ofJson? (json : Json) : Option NodeDefinition := do
  match ← record? fields .refused json with
  | [threshold, leftValue, rightValue, leftNode, rightNode, feature] =>
    some {
      threshold := ← required toDouble? threshold
      leftValue := ← required toDouble? leftValue
      rightValue := ← required toDouble? rightValue
      leftNode := ← orDefault toLink? (-1) leftNode
      rightNode := ← orDefault toLink? (-1) rightNode
      feature := ← required FeatureDefinition.ofJson? feature }
  | _ => none

/-- The value of a node. -/
def toJson (d : NodeDefinition) : Json :=
  jsonOfRecord [("threshold", jsonOfDouble d.threshold), ("left_value", jsonOfDouble d.leftValue),
    ("right_value", jsonOfDouble d.rightValue), ("left_node", jsonOfInt d.leftNode),
    ("right_node", jsonOfInt d.rightNode), ("feature", d.feature.toJson)]

end NodeDefinition

namespace StageDefinition

/-- The fields of a stage. -/
def fields : List String := ["threshold", "parent", "next", "trees"]

/-- The stage in a value. -/
def ofJson? (json : Json) : Option StageDefinition := do
  match ← record? fields .refused json with
  | [threshold, parent, next, trees] =>
    some {
      threshold := ← required toDouble? threshold
      parent := ← orDefault toLink? (-1) parent
      next := ← orDefault toLink? (-1) next
      trees := ← required (toList? (toList? NodeDefinition.ofJson?)) trees }
  | _ => none

/-- The value of a stage. -/
def toJson (d : StageDefinition) : Json :=
  jsonOfRecord [("threshold", jsonOfDouble d.threshold), ("parent", jsonOfInt d.parent),
    ("next", jsonOfInt d.next),
    ("trees", .array (d.trees.map fun nodes => .array (nodes.map NodeDefinition.toJson)))]

end StageDefinition

namespace CascadeDefinition

/-- The fields of a cascade. -/
def fields : List String := ["width", "height", "stages"]

/-- The cascade in a value. -/
def ofJson? (json : Json) : Option CascadeDefinition := do
  match ← record? fields .refused json with
  | [width, height, stages] =>
    some ⟨⟨← required toWord? width, ← required toWord? height⟩,
      ← required (toList? StageDefinition.ofJson?) stages⟩
  | _ => none

/-- The value of a cascade. -/
def toJson (d : CascadeDefinition) : Json :=
  jsonOfRecord [("width", jsonOfNat d.window.width.toNat),
    ("height", jsonOfNat d.window.height.toNat),
    ("stages", .array (d.stages.map StageDefinition.toJson))]

end CascadeDefinition

/-- A reason to refuse a document, whose contents are checked with errors of the type `ε`. -/
inductive DocumentError (ε : Type)
  /-- The text is no JSON, or its values are not of the right form. -/
  | malformed
  /-- Something is wrong with what the document describes. -/
  | invalid (error : ε)
deriving DecidableEq

namespace Cascade

/-- **The cascade in a text.** -/
def ofText (text : String) : Except (DocumentError CascadeError) (Cascade Float) :=
  match (Json.read? text).bind CascadeDefinition.ofJson? with
  | none => .error .malformed
  | some definition =>
    match definition.build with
    | .error error => .error (.invalid error)
    | .ok cascade => .ok cascade

/-- **The text of a cascade**, which says nothing about what its features were scaled to. -/
def toText (c : Cascade Float) : String := (CascadeDefinition.ofCascade c).toJson.text

end Cascade

end HaarDetection
