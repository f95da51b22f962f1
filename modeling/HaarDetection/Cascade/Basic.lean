import HaarDetection.Cascade.Stage

/-!
# Cascades

A cascade is a list of stages trained for windows of one size. A window is rejected by the first
stage that does not accept it.

* `Cascade.build`: a cascade whose links lead to stages and whose features stay in the window.
* `Cascade.firstRejecting`: the first stage that rejects a window.
-/

namespace HaarDetection

variable {α : Type}

/-- Does a region lie inside of a window? A tilted one reaches its height to the left of its
topmost corner, and the sum of its sides below it. -/
def Region.Inside (r : Region) (tilted : Bool) (window : Size) : Prop :=
  if tilted then
    r.height.toNat ≤ r.x.toNat ∧ r.x.toNat + r.width.toNat ≤ window.width.toNat
      ∧ r.y.toNat + r.width.toNat + r.height.toNat ≤ window.height.toNat
  else
    r.x.toNat + r.width.toNat ≤ window.width.toNat
      ∧ r.y.toNat + r.height.toNat ≤ window.height.toNat

instance (r : Region) (tilted : Bool) (window : Size) : Decidable (r.Inside tilted window) := by
  unfold Region.Inside; infer_instance

/-- A cascade of stages for windows of a size. -/
structure Cascade (α : Type) where
  window : Size
  stages : List (Stage α)
deriving BEq, DecidableEq, Repr

namespace Cascade

/-- All features of a cascade, stage by stage. -/
def features (c : Cascade α) : List (Feature α) := c.stages.flatMap (·.features)

/-- Is a feature of the cascade tilted? -/
def hasTilted (c : Cascade α) : Bool := c.features.any (·.tilted)

/-- The first rectangle of some features that leaves the window. -/
def checkFeatures (window : Size) (features : List (Feature α)) : Except CascadeError Unit :=
  let leaves := features.findSome? fun f =>
    (f.rects.find? fun r => !decide (r.region.Inside f.tilted window)).map (f.tilted, ·.region)
  match leaves with
  | some (tilted, region) => .error (.outsideWindow tilted region window)
  | none => .ok ()

/-- The first stage, from place `index` on, with a link out of the cascade or with a feature out
of the window. -/
def checkStages (window : Size) (count : Nat) : Nat → List (Stage α) → Except CascadeError Unit
  | _, [] => .ok ()
  | index, stage :: rest =>
    match stage.links.find? (count ≤ ·) with
    | some target => .error (.stageLink index target)
    | none =>
      match checkFeatures window stage.features with
      | .error cause => .error (.inFeatureOf index cause)
      | .ok () => checkStages window count (index + 1) rest

/-- **A cascade of some stages**, if there is a stage, the window has pixels, all links lead to
stages and all features stay in the window. -/
def build (window : Size) (stages : List (Stage α)) : Except CascadeError (Cascade α) :=
  if window.width = 0 ∨ window.height = 0 then .error (.emptyWindow window)
  else if stages.isEmpty then .error .noStages
  else do
    checkStages window stages.length 0 stages
    .ok ⟨window, stages⟩

variable [Scalar α]

/-- The cascade with all features at another scale. -/
def rescale (scale : Float32) (inverseArea : α) (c : Cascade α) : Cascade α :=
  { c with stages := c.stages.map (·.rescale scale inverseArea) }

/-- The first of some stages, the first of which has place `index`, that rejects the window at
`(x, y)`. -/
def firstRejecting (x y : Nat) (deviation : α) :
    (index : Nat) → List (Stage α) → Probe α (Option Nat)
  | _, [] => .done none
  | index, stage :: rest =>
    (stage.classify x y deviation).bind fun accepted =>
      if accepted then firstRejecting x y deviation (index + 1) rest else .done (some index)

end Cascade

end HaarDetection
