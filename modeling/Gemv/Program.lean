import Gemv.Error
import Gemv.Instruction

/-! Programs: named instruction sequences, with the engine they were assembled for. -/
namespace Gemv

/-- What the assembler assumed. -/
structure Config where
  fractionWidth : UInt32 := 8
  maxRows : UInt64 := 64
  maxColumns : UInt64 := 64
  width : UInt64 := 16
  blockIdWidth : UInt32 := 8
  lanes : UInt64 := 16
  deriving DecidableEq, Repr

structure Program where
  name : String
  words : List Instruction
  config : Config
  deriving DecidableEq, Repr

/-- Accepts a program that was assembled for this geometry. Register width comes first, then the
lanes, then the block identifiers. -/
def Program.checkCompatible (p : Program) (g : Geometry) : Except Error Unit :=
  if p.config.width.toNat ≠ g.width then
    .error (.mismatch p.name (.width p.config.width.toNat g.width))
  else if p.config.lanes.toNat ≠ g.lanes then
    .error (.mismatch p.name (.lanes p.config.lanes.toNat g.lanes))
  else if blockIdWidth < p.config.blockIdWidth.toNat then
    .error (.mismatch p.name (.blockIds p.config.blockIdWidth.toNat))
  else .ok ()

theorem Program.checkCompatible_eq_ok_iff {p : Program} {g : Geometry} :
    p.checkCompatible g = .ok () ↔ p.config.width.toNat = g.width ∧
      p.config.lanes.toNat = g.lanes ∧ p.config.blockIdWidth.toNat ≤ blockIdWidth := by
  unfold checkCompatible
  split
  case isTrue hwidth => simp [hwidth]
  case isFalse hwidth =>
      split
      case isTrue hlanes => simp [hlanes]
      case isFalse hlanes =>
          split
          case isTrue hids => simp [hids]
          case isFalse hids => exact iff_of_true rfl ⟨by omega, by omega, by omega⟩

theorem Program.exists_checkCompatible_eq_error_iff {p : Program} {g : Geometry} :
    (∃ e, p.checkCompatible g = .error e) ↔ p.config.width.toNat ≠ g.width ∨
      p.config.lanes.toNat ≠ g.lanes ∨ blockIdWidth < p.config.blockIdWidth.toNat := by
  have hok := checkCompatible_eq_ok_iff (p := p) (g := g)
  cases hcheck : p.checkCompatible g with
  | error e =>
      have hnot := mt hok.2 (by simp [hcheck])
      exact iff_of_true ⟨e, rfl⟩ (by omega)
  | ok done =>
      obtain ⟨hwidth, hlanes, hids⟩ := hok.1 hcheck
      exact iff_of_false (by rintro ⟨_, ⟨⟩⟩) (by omega)

/-- The standard configuration with the sizes of a geometry. -/
def Config.ofGeometry (g : Geometry) : Config :=
  { width := UInt64.ofNat g.width, lanes := UInt64.ofNat g.lanes }

theorem Program.checkCompatible_ofGeometry (name : String) (words : List Instruction)
    (g : Geometry) : (⟨name, words, .ofGeometry g⟩ : Program).checkCompatible g = .ok () := by
  have hsmall : ∀ n ≤ 16, (UInt64.ofNat n).toNat = n := fun n hn =>
    UInt64.toNat_ofNat_of_lt' (Nat.lt_of_le_of_lt hn (by decide))
  exact checkCompatible_eq_ok_iff.2
    ⟨hsmall g.width g.width_le, hsmall g.lanes g.lanes_le, Nat.le_refl 8⟩

end Gemv
