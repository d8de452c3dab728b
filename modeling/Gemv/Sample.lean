import Gemv.Numbers

/-! Result words of the engine: a signed sixteen-bit value in the low half and an attribute byte
in the high quarter. -/
namespace Gemv

structure Sample where
  value : Int16
  attrib : UInt8
  deriving DecidableEq, Repr

namespace Sample

/-- The result word that carries a sample. -/
def toWord (s : Sample) : UInt32 :=
  UInt32.ofNat (s.attrib.toNat * 2 ^ 24 + s.value.toUInt16.toNat)

/-- Reads a result word; its third byte is ignored. -/
def ofWord (w : UInt32) : Sample :=
  ⟨⟨UInt16.ofNat w.toNat⟩, UInt8.ofNat (w.toNat / 2 ^ 24)⟩

@[simp] theorem ofWord_toWord (s : Sample) : ofWord s.toWord = s := by
  obtain ⟨⟨value⟩, attrib⟩ := s
  have hv : value.toNat < 65536 := value.toNat_lt
  have ha : attrib.toNat < 256 := attrib.toNat_lt
  simp only [ofWord, toWord, UInt32.toNat_ofNat', Sample.mk.injEq, Int16.ofUInt16.injEq]
  constructor
  · apply UInt16.toNat_inj.1
    rw [UInt16.toNat_ofNat']
    omega
  · apply UInt8.toNat_inj.1
    rw [UInt8.toNat_ofNat']
    omega

end Sample

end Gemv
