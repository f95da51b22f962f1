import HaarDetection.Image.Fault

/-!
# Asking an image for sums

A search looks at an image through the sums of its pixels over rectangles, and through nothing
else. What it asks is a `Query`.

* `Query.Inside`: when a query lies in an image of a given size.
* `Source`: a size together with an answer to every query.
-/

namespace HaarDetection

/-- What is added up over a rectangle. -/
inductive QueryKind
  /-- The pixels of an upright rectangle. -/
  | sum
  /-- The squares of the pixels of an upright rectangle. -/
  | squares
  /-- The pixels of a rectangle turned by 45 degrees, whose topmost corner is given. Its width
  runs down to the right, its height down to the left. -/
  | tilted
deriving DecidableEq, Repr

/-- A question to an image. -/
structure Query where
  kind : QueryKind
  x : Nat
  y : Nat
  width : Nat
  height : Nat
deriving DecidableEq, Repr

/-- **The contract of a query:** its rectangle lies in an image of the given size. -/
def Query.Inside (q : Query) (size : Size) : Prop :=
  match q.kind with
  | .sum | .squares =>
    q.x + q.width ≤ size.width.toNat ∧ q.y + q.height ≤ size.height.toNat
  | .tilted =>
    q.height ≤ q.x ∧ q.x + q.width ≤ size.width.toNat
      ∧ q.y + q.width + q.height ≤ size.height.toNat

/-- An image as a search sees it. -/
structure Source (α : Type) where
  /-- The size of the image. -/
  size : Size
  /-- The answer to a query. -/
  answer : Query → Except Fault α

end HaarDetection
