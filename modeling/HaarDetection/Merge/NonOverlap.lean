import HaarDetection.Merge.Detection

/-!
# Dropping what overlaps

The first way to merge detections: go through them in order and drop each one whose rectangle
shares a pixel with that of one already kept.
-/

namespace HaarDetection

/-- The detections to keep besides those whose rectangles are in `kept`. -/
def keepDisjoint (kept : List Rect) : List Detection → List Detection
  | [] => []
  | d :: rest =>
    if kept.any (·.intersects d.rect) then keepDisjoint kept rest
    else d :: keepDisjoint (d.rect :: kept) rest

/-- **The detections that do not overlap one kept before them.** -/
def nonOverlapping (detections : List Detection) : List Detection := keepDisjoint [] detections

end HaarDetection
