import HaarDetection.Geometry.Size

/-!
# What can be wrong with a cascade

* `CascadeError`: the reasons to refuse the parts of a cascade.
* `CascadeError.message`: their wording, with the place of a part in front of what is wrong in it.
-/

namespace HaarDetection

/-- A rectangle inside of a window. -/
structure Region where
  x : UInt32
  y : UInt32
  width : UInt32
  height : UInt32
deriving DecidableEq, Repr

/-- The width and height of a region. -/
def Region.size (r : Region) : Size := ⟨r.width, r.height⟩

/-- A reason to refuse a cascade or a part of one. -/
inductive CascadeError
  /-- A rectangle without pixels. -/
  | emptyRectangle (region : Region)
  /-- A weight that is infinite or undefined. -/
  | weightNotFinite
  /-- A feature with too few or too many rectangles. -/
  | rectangleCount (count : Nat)
  /-- A tree without nodes. -/
  | emptyTree
  /-- A node whose child does not come after it in the tree. -/
  | childLink (node child nodes : Nat)
  /-- A number in place of a link that is negative and does not mean that there is no link. -/
  | linkNumber (link : Int)
  /-- A stage threshold that is infinite or undefined. -/
  | thresholdNotFinite
  /-- A stage without trees. -/
  | noTrees
  /-- A window without pixels. -/
  | emptyWindow (window : Size)
  /-- A cascade without stages. -/
  | noStages
  /-- A link to a stage that there is not. -/
  | stageLink (stage target : Nat)
  /-- A rectangle that leaves the window. -/
  | outsideWindow (tilted : Bool) (region : Region) (window : Size)
  /-- Something is wrong with a tree of a stage. -/
  | inTree (tree : Nat) (cause : CascadeError)
  /-- Something is wrong with a stage. -/
  | inStage (stage : Nat) (cause : CascadeError)
  /-- Something is wrong with a feature of a stage. -/
  | inFeatureOf (stage : Nat) (cause : CascadeError)
deriving DecidableEq, Repr

/-- The wording of an error. -/
def CascadeError.message : CascadeError → String
  | .emptyRectangle r => s!"feature rectangle at ({r.x},{r.y}) has empty size {r.size.text}"
  | .weightNotFinite => "feature rectangle weight must be finite"
  | .rectangleCount count => s!"a feature needs 2 to 3 rectangles, got {count}"
  | .emptyTree => "tree must contain at least one node"
  | .childLink node child nodes =>
    s!"node {node} references invalid child node {child} (tree has {nodes} nodes)"
  | .linkNumber link => s!"invalid index {link} (must be -1 or non-negative)"
  | .thresholdNotFinite => "stage threshold must be finite"
  | .noTrees => "stage must contain at least one tree"
  | .emptyWindow window => s!"cascade window must not be empty (got {window.text})"
  | .noStages => "cascade must contain at least one stage"
  | .stageLink stage target => s!"stage {stage} links to nonexistent stage {target}"
  | .outsideWindow tilted r window =>
    (if tilted then "tilted " else "")
      ++ s!"rectangle ({r.x},{r.y}) {r.size.text} exceeds the {window.text} window"
  | .inTree tree cause => s!"invalid tree {tree}: " ++ cause.message
  | .inStage stage cause => s!"in stage {stage}: " ++ cause.message
  | .inFeatureOf stage cause => s!"invalid feature in stage {stage}: " ++ cause.message

end HaarDetection
