/-!
# Sizes in pixels

The width and height of an image or of a window.

* `Size.Fits`: room for another size on both axes.
* `Size.max`: the least size with room for two.
-/

namespace HaarDetection

/-- A width and a height in pixels. -/
structure Size where
  width : UInt32
  height : UInt32
deriving DecidableEq, Repr

namespace Size

/-- The number of pixels of a rectangle of this size. -/
def pixels (s : Size) : Nat := s.width.toNat * s.height.toNat

/-- `s.Fits t`: a rectangle of size `t` fits into one of size `s`. -/
def Fits (s t : Size) : Prop := t.width ≤ s.width ∧ t.height ≤ s.height

instance (s t : Size) : Decidable (s.Fits t) := inferInstanceAs (Decidable (_ ∧ _))

/-- The larger width and the larger height of two sizes. -/
def max (s t : Size) : Size :=
  ⟨if s.width ≤ t.width then t.width else s.width,
   if s.height ≤ t.height then t.height else s.height⟩

/-- Width and height with a cross between them. -/
def text (s : Size) : String := s!"{s.width}x{s.height}"

theorem Fits.refl (s : Size) : s.Fits s := ⟨UInt32.le_refl _, UInt32.le_refl _⟩

theorem Fits.trans {r s t : Size} (h : r.Fits s) (h' : s.Fits t) : r.Fits t :=
  ⟨UInt32.le_trans h'.1 h.1, UInt32.le_trans h'.2 h.2⟩

theorem max_fits_left (s t : Size) : (s.max t).Fits s := by
  constructor <;> simp only [max] <;> split <;> simp_all

theorem max_fits_right (s t : Size) : (s.max t).Fits t := by
  constructor <;> simp only [max] <;> split
  · exact UInt32.le_refl _
  · rename_i h; exact UInt32.le_of_lt (UInt32.not_le.mp h)
  · exact UInt32.le_refl _
  · rename_i h; exact UInt32.le_of_lt (UInt32.not_le.mp h)

end Size

end HaarDetection
