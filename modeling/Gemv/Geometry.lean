import Gemv.Text.Numeral

/-! The shape of an engine: how many processing elements share a block, and how many bits a
register of one of them has.

Every block stores 1024 rows, one bit of each row per lane, so a register of width `w` takes `w`
rows and an engine has `1024 / w` registers. -/
namespace Gemv

/-- Blocks an engine can address. -/
def blockCount : Nat := 256

/-- Rows stored in each block. -/
def rowCount : Nat := 1024

/-- The block with a number; numbers wrap around. -/
def blockAt (n : Nat) : Fin 256 := Fin.ofNat 256 n

/-- The row at an address; addresses wrap around. -/
def rowAt (n : Nat) : Fin 1024 := Fin.ofNat 1024 n

theorem val_blockAt (n : Nat) : (blockAt n).val = n % 256 := rfl

theorem val_rowAt (n : Nat) : (rowAt n).val = n % 1024 := rfl

/-- Bits of a block identifier that the engine decodes. -/
def blockIdWidth : Nat := 8

/-- An engine shape: both sizes lie between 1 and 16. -/
structure Geometry where
  lanes : Nat
  width : Nat
  lanes_pos : 0 < lanes
  lanes_le : lanes ≤ 16
  width_pos : 0 < width
  width_le : width ≤ 16
  deriving DecidableEq, Repr

/-- A size outside 1 to 16. -/
inductive GeometryFault where
  | lanes (got : Nat)
  | width (got : Nat)
  deriving DecidableEq, Repr

def GeometryFault.message : GeometryFault → String
  | .lanes got => "lanes per block must be 1..=16, got " ++ Text.decimal got
  | .width got => "register width must be 1..=16, got " ++ Text.decimal got

namespace Geometry

/-- The shape with the given sizes; a bad lane count is reported first. -/
def ofSizes (lanes width : Nat) : Except GeometryFault Geometry :=
  if hl : 0 < lanes ∧ lanes ≤ 16 then
    if hw : 0 < width ∧ width ≤ 16 then .ok ⟨lanes, width, hl.1, hl.2, hw.1, hw.2⟩
    else .error (.width width)
  else .error (.lanes lanes)

def standard : Geometry := ⟨16, 16, by decide, by decide, by decide, by decide⟩

instance : Inhabited Geometry := ⟨standard⟩

/-- Vector registers that fit the rows of a block. -/
def registerCount (g : Geometry) : Nat := rowCount / g.width

/-- First row of a register, if the engine has it. -/
def registerBase? (g : Geometry) (register : Nat) : Option Nat :=
  if register < g.registerCount then some (register * g.width) else none

/-- Lanes of all blocks together. -/
def maxVectorLength (g : Geometry) : Nat := blockCount * g.lanes

theorem registerCount_pos (g : Geometry) : 0 < g.registerCount := by
  have hw := g.width_pos
  have hle := g.width_le
  exact Nat.div_pos (by simp only [rowCount]; omega) hw

/-- The rows of a register lie inside the block. -/
theorem base_add_width_le (g : Geometry) {register : Nat} (h : register < g.registerCount) :
    register * g.width + g.width ≤ rowCount := by
  have hmul := Nat.mul_le_mul_right g.width (Nat.succ_le_of_lt h)
  have hdiv := Nat.div_mul_le_self rowCount g.width
  simp only [registerCount, Nat.succ_mul] at hmul
  omega

end Geometry

end Gemv
