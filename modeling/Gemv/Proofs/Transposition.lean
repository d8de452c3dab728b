import Gemv.RowImage

/-! The rows of a window and its lanes carry the same bits.

Bit `i` of row `b` is bit `b` of lane `i` (`RowImage.testBit_row`), and a value that fits a lane is
determined by as many bits as the lane has (`Lane.ofBits_pack`). -/
namespace Gemv

/-- A list made from the numbers below `n` is numbered by them. -/
theorem zipIdx_map_range {α : Type} (f : Nat → α) (n : Nat) :
    ((List.range n).map f).zipIdx = (List.range n).map fun i => (f i, i) := by
  apply List.ext_getElem
  · simp
  · intro i hi hi'
    simp

namespace Lane

theorem fits_iff {width : Nat} (hpos : 0 < width) (hle : width ≤ 16) (v : Int16) :
    fits width v = true ↔ -(2 ^ (width - 1) : Int) ≤ v.toInt ∧ v.toInt < 2 ^ (width - 1) := by
  by_cases hwide : 16 ≤ width
  · obtain rfl : width = 16 := by omega
    have hlow := v.le_toInt
    have hhigh := v.toInt_lt
    simpa [fits] using And.intro hlow hhigh
  · simp [fits, hwide]

theorem ofNat_pack_bits (width : Nat) (v : Int16) :
    BitVec.ofNat width (Bits.pack ((List.range width).map (bit v))) = v.toBitVec.setWidth width := by
  apply BitVec.eq_of_getLsbD_eq
  intro i hi
  rw [BitVec.getLsbD_ofNat, Bits.testBit_pack, BitVec.getLsbD_setWidth]
  simp [hi, bit]

theorem toInt_setWidth_of_fits {width : Nat} (hpos : 0 < width) (hle : width ≤ 16) {v : Int16}
    (hfits : fits width v = true) : (v.toBitVec.setWidth width).toInt = v.toInt := by
  obtain ⟨hlow, hhigh⟩ := (fits_iff hpos hle v).1 hfits
  have hpow : (2 : Int) ^ width = 2 * 2 ^ (width - 1) := by
    obtain ⟨n, rfl⟩ : ∃ n, width = n + 1 := ⟨width - 1, by omega⟩
    rw [Int.pow_succ, Nat.add_sub_cancel, Int.mul_comm]
  have hmod : (v.toBitVec.toNat : Int).bmod (2 ^ width) = v.toInt.bmod (2 ^ width) := by
    rw [show v.toInt = v.toBitVec.toInt from rfl, BitVec.toInt_eq_toNat_bmod,
      Int.bmod_bmod_of_dvd (Nat.pow_dvd_pow 2 hle)]
  rw [BitVec.toInt_setWidth, hmod]
  apply Int.bmod_eq_of_le_mul_two <;> push_cast <;> omega

theorem ofBits_pack {width : Nat} (hpos : 0 < width) (hle : width ≤ 16) {v : Int16}
    (hfits : fits width v = true) :
    ofBits width (Bits.pack ((List.range width).map (bit v))) = v := by
  apply Int16.toInt_inj.1
  rw [ofBits, ofNat_pack_bits, Int16.toInt_ofBitVec, BitVec.toInt_signExtend_of_le hle,
    toInt_setWidth_of_fits hpos hle hfits]

theorem fits_zero {width : Nat} (hpos : 0 < width) (hle : width ≤ 16) : fits width 0 = true := by
  have hpow : (0 : Int) < 2 ^ (width - 1) := Int.pow_pos (by decide)
  rw [fits_iff hpos hle, Int16.toInt_zero]
  exact ⟨Int.neg_nonpos_of_nonneg (Int.le_of_lt hpow), hpow⟩

end Lane

namespace RowImage

theorem toNat_row {window : List Int16} (hlen : window.length ≤ 16) (b : Nat) :
    (row window b).toNat = Bits.pack (window.map (Lane.bit · b)) := by
  have hlt : Bits.pack (window.map (Lane.bit · b)) < 2 ^ 16 := by
    apply Nat.lt_of_lt_of_le (Bits.pack_lt _)
    exact Nat.pow_le_pow_right (by decide) (by simpa using hlen)
  rw [row, UInt16.toNat_ofNat', Nat.mod_eq_of_lt hlt]

/-- A window of at most sixteen lanes: each lane has a bit in every row, and no other bit is set. -/
theorem testBit_row {window : List Int16} (hlen : window.length ≤ 16) (b i : Nat) :
    (row window b).toNat.testBit i = window[i]?.any (Lane.bit · b) := by
  rw [toNat_row hlen, Bits.testBit_pack, List.getD_eq_getElem?_getD, List.getElem?_map]
  cases window[i]? <;> rfl

/-- The rows that hold a bit, found by their index. -/
theorem nonZero_ofWindow (width : Nat) (window : List Int16) :
    (ofWindow width window).nonZero =
      ((List.range width).filter (row window · != 0)).map fun b => (row window b, b) := by
  rw [nonZero, ofWindow, zipIdx_map_range, List.filter_map]
  rfl

theorem isZero_ofWindow (width : Nat) (window : List Int16) :
    (ofWindow width window).isZero = true ↔ ∀ b < width, row window b = 0 := by
  simp [isZero, ofWindow]

theorem checkFits_eq_ok_iff {width : Nat} {values : List Int16} :
    checkFits width values = .ok () ↔ ∀ v ∈ values, Lane.fits width v = true := by
  have hfind : firstUnfit? width values = none ↔ ∀ v ∈ values, Lane.fits width v = true := by
    constructor
    · intro hnone v hv
      obtain ⟨i, hi, rfl⟩ := List.getElem_of_mem hv
      have hmem : (values[i], i) ∈ values.zipIdx := List.mk_mem_zipIdx_iff_getElem?.2 (by simp [hi])
      simpa using List.find?_eq_none.1 hnone _ hmem
    · intro hall
      apply List.find?_eq_none.2
      intro p hp
      simpa using hall p.1 (List.fst_mem_of_mem_zipIdx hp)
  rw [← hfind, checkFits]
  cases firstUnfit? width values <;> simp

theorem transpose_eq_ok {g : Geometry} {window : List Int16} (hlen : window.length ≤ g.lanes)
    (hfits : ∀ v ∈ window, Lane.fits g.width v = true) :
    transpose g window = .ok (ofWindow g.width window) := by
  rw [transpose, if_neg (Nat.not_lt.2 hlen), checkFits_eq_ok_iff.2 hfits]
  rfl

end RowImage

end Gemv
