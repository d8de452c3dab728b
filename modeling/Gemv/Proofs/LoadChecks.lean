import Gemv.LoadPlan
import Gemv.Proofs.Transposition

/-! Which loads are accepted.

A load passes its checks exactly when the register exists and its vector is one that the geometry
admits: no longer than all blocks together, with values that fit the lanes. -/
namespace Gemv

/-- Vectors that fit a register. -/
structure Geometry.Admits (g : Geometry) (values : List Int16) : Prop where
  short : values.length ≤ g.maxVectorLength
  fit : ∀ v ∈ values, -(2 ^ (g.width - 1) : Int) ≤ v.toInt ∧ v.toInt < 2 ^ (g.width - 1)

instance (g : Geometry) (values : List Int16) : Decidable (g.Admits values) :=
  decidable_of_iff (values.length ≤ g.maxVectorLength ∧ (values.all fun v =>
      decide (-(2 ^ (g.width - 1) : Int) ≤ v.toInt ∧ v.toInt < 2 ^ (g.width - 1))) = true)
    ⟨fun h => ⟨h.1, by simpa using h.2⟩, fun h => ⟨h.short, by simpa using h.fit⟩⟩

theorem Geometry.registerRow_lt (g : Geometry) (register : Fin g.registerCount) (b : Fin g.width) :
    register * g.width + b < 1024 := by
  have hend := g.base_add_width_le register.isLt
  simp only [rowCount] at hend
  omega

/-- Row `b` of a register, counted from the first row of the block. -/
def Geometry.registerRow (g : Geometry) (register : Fin g.registerCount) (b : Fin g.width) :
    Fin 1024 :=
  ⟨register * g.width + b, g.registerRow_lt register b⟩

theorem Geometry.Admits.fits {g : Geometry} {values : List Int16} (h : g.Admits values) :
    ∀ v ∈ values, Lane.fits g.width v = true :=
  fun v hv => (Lane.fits_iff g.width_pos g.width_le v).2 (h.fit v hv)

/-- Every window of an admitted vector is one that a block can hold. -/
theorem Geometry.Admits.window {g : Geometry} {values : List Int16} (h : g.Admits values) :
    ∀ window ∈ windows g.lanes values,
      window.length ≤ g.lanes ∧ ∀ v ∈ window, Lane.fits g.width v = true := by
  intro window hwindow
  refine ⟨length_le_of_mem_windows values hwindow, fun v hv => h.fits v ?_⟩
  rw [← flatten_windows g.lanes_pos values]
  exact List.mem_flatten.2 ⟨window, hwindow, hv⟩

namespace LoadPlan

theorem windowCount_le_iff (g : Geometry) (length : Nat) :
    windowCount g length ≤ blockCount ↔ length ≤ g.maxVectorLength := by
  have hpos := g.lanes_pos
  rw [windowCount, Nat.div_le_iff_le_mul_add_pred hpos, Geometry.maxVectorLength,
    Nat.mul_comm g.lanes]
  omega

theorem base_eq_ok_iff {g : Geometry} {register base : Nat} :
    LoadPlan.base g register = .ok base ↔
      register < g.registerCount ∧ base = register * g.width := by
  by_cases hr : register < g.registerCount
  · simp [LoadPlan.base, Geometry.registerBase?, hr, eq_comm]
  · simp [LoadPlan.base, Geometry.registerBase?, hr]

theorem check_eq_ok_iff {g : Geometry} {register base : Nat} {values : List Int16} :
    check g register values = .ok base ↔
      register < g.registerCount ∧ g.Admits values ∧ base = register * g.width := by
  have hadmits : g.Admits values ↔
      windowCount g values.length ≤ blockCount ∧ RowImage.checkFits g.width values = .ok () := by
    rw [windowCount_le_iff, RowImage.checkFits_eq_ok_iff]
    simp only [Lane.fits_iff g.width_pos g.width_le]
    exact ⟨fun h => ⟨h.short, h.fit⟩, fun h => ⟨h.1, h.2⟩⟩
  rw [hadmits, check]
  by_cases hr : register < g.registerCount
  · rw [base_eq_ok_iff.2 ⟨hr, rfl⟩]
    by_cases hshort : windowCount g values.length ≤ blockCount
    · cases RowImage.checkFits g.width values with
      | error e => simp [bind, Except.bind, Nat.not_lt.2 hshort]
      | ok u =>
          simp [bind, Except.bind, pure, Except.pure, hr, hshort, Nat.not_lt.2 hshort, eq_comm]
    · simp [bind, Except.bind, hshort, Nat.lt_of_not_le hshort]
  · cases hbase : LoadPlan.base g register with
    | error e => simp [bind, Except.bind, hr]
    | ok b => exact absurd (base_eq_ok_iff.1 hbase).1 hr

end LoadPlan

end Gemv
