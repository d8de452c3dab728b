import Gemv.Proofs.LoadChecks

/-! The words of a load as one list: the clear, then the words of one window after the other.

`sequence` is that list, made in one piece. Its length is known from the row images alone
(`length_windowsWords`): a window that is not zero takes a word for its block and one for each row
that is not zero. -/
namespace Gemv

namespace LoadPlan

/-- Words that fill one block after the clear. -/
def windowWords (base block : Nat) (image : RowImage) : List Instruction :=
  if image.isZero then [] else .selectColumn block :: rowWords base image

/-- Row images of the windows of a vector. -/
def images (g : Geometry) (values : List Int16) : List RowImage :=
  (windows g.lanes values).map (RowImage.ofWindow g.width)

/-- All words of a load into the rows from `base` on. -/
def sequence (g : Geometry) (base : Nat) (values : List Int16) : List Instruction :=
  Instruction.clearRows base g.width ++
    (images g values).zipIdx.flatMap fun p => windowWords base p.2 p.1

theorem nonZeroCount_eq_length (image : RowImage) :
    image.nonZeroCount = image.nonZero.length := by
  have hcount : image.rows.countP (· != 0) = image.rows.zipIdx.countP fun p => p.1 != 0 := by
    have hrows := congrArg (List.countP (· != 0)) (List.zipIdx_map_fst 0 image.rows)
    rw [List.countP_map] at hrows
    exact hrows.symm
  rw [RowImage.nonZeroCount, hcount, List.countP_eq_length_filter, RowImage.nonZero]

theorem length_rowWords (base : Nat) (image : RowImage) :
    (rowWords base image).length = image.nonZeroCount := by
  rw [rowWords, List.length_map, nonZeroCount_eq_length]

/-- The words of windows that go into consecutive blocks. -/
def windowsWords (g : Geometry) (base first : Nat) (cut : List (List Int16)) : List Instruction :=
  (cut.zipIdx first).flatMap fun p => windowWords base p.2 (RowImage.ofWindow g.width p.1)

@[simp] theorem windowsWords_nil (g : Geometry) (base first : Nat) :
    windowsWords g base first [] = [] := rfl

theorem windowsWords_cons (g : Geometry) (base first : Nat) (window : List Int16)
    (cut : List (List Int16)) :
    windowsWords g base first (window :: cut) =
      windowWords base first (RowImage.ofWindow g.width window) ++
        windowsWords g base (first + 1) cut := by
  rw [windowsWords, List.zipIdx_cons, List.flatMap_cons]
  rfl

theorem sequence_eq (g : Geometry) (base : Nat) (values : List Int16) :
    sequence g base values =
      Instruction.clearRows base g.width ++ windowsWords g base 0 (windows g.lanes values) := by
  rw [sequence, images, List.zipIdx_map, List.flatMap_map]
  rfl

theorem nonZeroCount_of_isZero {image : RowImage} (h : image.isZero = true) :
    image.nonZeroCount = 0 := by
  rw [RowImage.nonZeroCount, List.countP_eq_zero]
  intro r hr
  simpa using List.all_eq_true.1 h r hr

theorem length_windowWords (base block : Nat) (image : RowImage) :
    (windowWords base block image).length + [image].countP (·.isZero) = 1 + image.nonZeroCount := by
  cases hzero : image.isZero with
  | true => simp [windowWords, hzero, nonZeroCount_of_isZero hzero]
  | false =>
      have hcount : [image].countP (·.isZero) = 0 := by simp [hzero]
      rw [windowWords, if_neg (by simp [hzero]), List.length_cons, length_rowWords, hcount]
      omega

theorem length_windowsWords (g : Geometry) (base first : Nat) (cut : List (List Int16)) :
    (windowsWords g base first cut).length +
        (cut.map (RowImage.ofWindow g.width)).countP (·.isZero) =
      cut.length + total ((cut.map (RowImage.ofWindow g.width)).map (·.nonZeroCount)) := by
  induction cut generalizing first with
  | nil => rfl
  | cons window cut ih =>
      have hwindow := length_windowWords base first (RowImage.ofWindow g.width window)
      have hrest := ih (first + 1)
      rw [windowsWords_cons, List.length_append, List.map_cons, List.map_cons, total_cons,
        List.length_cons, ← List.singleton_append, List.countP_append]
      omega

theorem length_sequence (g : Geometry) (base : Nat) (values : List Int16) :
    (sequence g base values).length =
      1 + g.width + (windowCount g values.length - (images g values).countP (·.isZero)) +
        total ((images g values).map (·.nonZeroCount)) := by
  have hlength := length_windowsWords g base 0 (windows g.lanes values)
  have hzero : (images g values).countP (·.isZero) ≤ (windows g.lanes values).length := by
    rw [← List.length_map (RowImage.ofWindow g.width)]
    exact List.countP_le_length
  have hclear : (Instruction.clearRows base g.width).length = g.width + 1 := by
    simp [Instruction.clearRows]
  rw [length_windows g.lanes_pos] at hlength hzero
  rw [sequence_eq, List.length_append, hclear]
  simp only [images, windowCount] at hzero ⊢
  omega

end LoadPlan

end Gemv
