import Gemv.Proofs.LoadRefusal

/-! The row image of a window, exactly.

A window that a block can hold, of values that fit the register, is transposed into the one image
that `Depicts` it, and any other window is refused (`Transposed`). An image is zero only if its
window is (`isZero_ofWindow_iff`), since a value that fits has no bits beyond the rows. To read an
image back is to transpose its rows once more and to extend the signs, so the loop that sets the
bits of a row serves in both directions (`Checked.lane_eq_ok`). -/
namespace Gemv

namespace Lane

/-- No bit of a lane is set but in a value other than zero. -/
theorem eq_zero_iff_bits {width : Nat} (hpos : 0 < width) (hle : width ≤ 16) {v : Int16}
    (hfits : fits width v = true) : v = 0 ↔ ∀ b < width, bit v b = false := by
  constructor
  · rintro rfl b -
    simp [bit]
  · intro hbits
    have hsame : (List.range width).map (bit v) = (List.range width).map (bit 0) := by
      apply List.map_congr_left
      intro b hb
      rw [hbits b (List.mem_range.1 hb)]
      simp [bit]
    calc v = ofBits width (Bits.pack ((List.range width).map (bit v))) :=
            (ofBits_pack hpos hle hfits).symm
      _ = ofBits width (Bits.pack ((List.range width).map (bit 0))) := by rw [hsame]
      _ = 0 := ofBits_pack hpos hle (fits_zero hpos hle)

/-- Extending the sign is moving the bits to the top of the word and back down. -/
theorem signExtend_setWidth {width : Nat} (hpos : 0 < width) (hle : width ≤ 16) (x : BitVec 16) :
    (x.setWidth width).signExtend 16 = (x <<< (16 - width)).sshiftRight (16 - width) := by
  apply BitVec.eq_of_getLsbD_eq
  intro i hi
  rw [BitVec.getLsbD_signExtend, BitVec.getLsbD_sshiftRight, BitVec.msb_setWidth,
    BitVec.msb_shiftLeft, BitVec.getMsbD_eq_getLsbD, BitVec.getLsbD_shiftLeft,
    BitVec.getLsbD_setWidth]
  by_cases hlow : i < width
  · have hmoved : 16 - width + i < 16 := by omega
    have hback : 16 - width + i - (16 - width) = i := by omega
    have hnone : ¬16 - width + i < 16 - width := by omega
    simp [hlow, hi, hmoved, hback, hnone, Nat.not_le.2 hi]
  · have htop : ¬16 - width + i < 16 := by omega
    have hsign : 16 - 1 - (16 - width) = width - 1 := by omega
    have hfree : 16 - width < 16 := by omega
    simp [hlow, hi, htop, hsign, hpos, hfree]

end Lane

namespace RowImage

variable {g : Geometry} {window : List Int16}

theorem row_eq_zero_iff (hlen : window.length ≤ 16) (b : Nat) :
    row window b = 0 ↔ ∀ v ∈ window, Lane.bit v b = false := by
  constructor
  · intro hzero v hv
    obtain ⟨i, hi, rfl⟩ := List.getElem_of_mem hv
    have hbit := testBit_row hlen b i
    rw [hzero] at hbit
    simpa [hi] using hbit.symm
  · intro hbits
    apply UInt16.toNat_inj.1
    apply Nat.eq_of_testBit_eq
    intro i
    rw [testBit_row hlen]
    cases hi : window[i]? with
    | none => simp
    | some v => simpa using hbits v (List.mem_of_getElem? hi)

/-- The rows of a window of values that fit tell whether it is zero. -/
theorem isZero_ofWindow_iff (hlen : window.length ≤ g.lanes) (hfits : ∀ v ∈ window, g.Holds v) :
    (ofWindow g.width window).isZero = true ↔ ∀ v ∈ window, v = 0 := by
  have hlen' := Nat.le_trans hlen g.lanes_le
  have hvalue : ∀ v ∈ window, (v = 0 ↔ ∀ b < g.width, Lane.bit v b = false) := fun v hv =>
    Lane.eq_zero_iff_bits g.width_pos g.width_le ((g.fits_iff_holds v).2 (hfits v hv))
  rw [isZero_ofWindow]
  constructor
  · intro hrows v hv
    apply (hvalue v hv).2
    intro b hb
    exact (row_eq_zero_iff hlen' b).1 (hrows b hb) v hv
  · intro hzero b hb
    apply (row_eq_zero_iff hlen' b).2
    intro v hv
    exact (hvalue v hv).1 (hzero v hv) b hb

theorem values_ofWindow (hlen : window.length ≤ g.lanes) (hfits : ∀ v ∈ window, g.Holds v) :
    (ofWindow g.width window).values = window := by
  have hlen' := Nat.le_trans hlen g.lanes_le
  apply List.ext_getElem
  · simp [values, ofWindow]
  · intro i hi hi'
    have hbits : (ofWindow g.width window).rows.map (fun r => r.toNat.testBit i) =
        (List.range g.width).map (Lane.bit window[i]) := by
      rw [ofWindow, List.map_map]
      apply List.map_congr_left
      intro b _
      simp [testBit_row hlen', hi']
    have hdepth : (ofWindow g.width window).rows.length = g.width := by simp [ofWindow]
    have hheld := hfits window[i] (List.getElem_mem hi')
    simp only [values, List.getElem_map, List.getElem_range, lane]
    rw [hbits, hdepth]
    exact Lane.ofBits_pack g.width_pos g.width_le ((g.fits_iff_holds _).2 hheld)

/-- An image that holds what a window holds: a row for each bit of the register, in which the lanes
of the window have their bits and no other bit is set. The window can be read back from it, its rows
that are not zero are counted, and it is zero if the window is. -/
structure Depicts (g : Geometry) (window : List Int16) (image : RowImage) : Prop where
  depth : image.rows.length = g.width
  lanes : image.lanes = window.length
  bits : ∀ (b : Fin image.rows.length) (i : Nat),
    (image.rows.get b).toNat.testBit i =
      if h : i < window.length then Lane.bit (window.get ⟨i, h⟩) b else false
  inverse : image.values = window
  counted : image.nonZeroCount = (image.rows.filter (· != 0)).length
  listed : image.nonZeroCount = image.nonZero.length
  none : image.isZero = true ↔ image.nonZeroCount = 0
  zero : image.isZero = true ↔ ∀ v ∈ window, v = 0

/-- What becomes of a window. Its length is looked at first, then the values in order. -/
inductive Transposed (g : Geometry) (window : List Int16) : Except Error RowImage → Prop where
  | tooWide (hlen : g.lanes < window.length) :
      Transposed g window (.error (.windowTooWide window.length g.lanes))
  | unfit (hlen : window.length ≤ g.lanes) {before after : List Int16} {v : Int16}
      (hwindow : window = before ++ v :: after) (hbefore : ∀ u ∈ before, g.Holds u)
      (hv : ¬g.Holds v) :
      Transposed g window (.error (.valueOutOfRange before.length v g.width))
  | image (hlen : window.length ≤ g.lanes) (hfits : ∀ v ∈ window, g.Holds v) {image : RowImage}
      (himage : Depicts g window image) : Transposed g window (.ok image)

theorem depicts_ofWindow (hlen : window.length ≤ g.lanes) (hfits : ∀ v ∈ window, g.Holds v) :
    Depicts g window (ofWindow g.width window) := by
  constructor
  case depth => simp [ofWindow]
  case lanes => rfl
  case bits =>
      intro b i
      have hrow : (ofWindow g.width window).rows.get b = row window b := by
        rw [List.get_eq_getElem]
        simp [ofWindow]
      rw [hrow, testBit_row (Nat.le_trans hlen g.lanes_le)]
      by_cases hi : i < window.length <;> simp [hi]
  case inverse => exact values_ofWindow hlen hfits
  case counted => exact List.countP_eq_length_filter
  case listed => exact LoadPlan.nonZeroCount_eq_length _
  case none => simp [isZero, nonZeroCount]
  case zero => exact isZero_ofWindow_iff hlen hfits

/-- No two images depict one window. -/
theorem Depicts.eq_ofWindow {image : RowImage} (hlen : window.length ≤ g.lanes)
    (h : Depicts g window image) : image = ofWindow g.width window := by
  have hrows : image.rows = (List.range g.width).map (row window) := by
    apply List.ext_getElem
    · simp [h.depth]
    · intro b hb hb'
      apply UInt16.toNat_inj.1
      apply Nat.eq_of_testBit_eq
      intro i
      have hbit := h.bits ⟨b, hb⟩ i
      rw [List.get_eq_getElem] at hbit
      rw [hbit, List.getElem_map, List.getElem_range, testBit_row (Nat.le_trans hlen g.lanes_le)]
      by_cases hi : i < window.length <;> simp [hi]
  obtain ⟨rows, lanes⟩ := image
  rw [ofWindow, ← hrows, ← h.lanes]

theorem transpose_eq_iff (g : Geometry) (window : List Int16) (result : Except Error RowImage) :
    transpose g window = result ↔ Transposed g window result := by
  rw [transpose]
  by_cases hlong : g.lanes < window.length
  · rw [if_pos hlong]
    constructor
    · rintro rfl
      exact .tooWide hlong
    · intro h
      cases h with
      | tooWide => rfl
      | unfit hlen | image hlen => exact absurd hlong (Nat.not_lt.2 hlen)
  · have hlen := Nat.le_of_not_lt hlong
    rw [if_neg hlong]
    constructor
    · rintro rfl
      cases hcheck : checkFits g.width window with
      | error e =>
          obtain ⟨before, v, after, hwindow, rfl, hbefore, hv⟩ := checkFits_eq_error_iff.1 hcheck
          refine .unfit hlen hwindow (fun u hu => (g.fits_iff_holds u).1 (hbefore u hu)) ?_
          rw [← g.fits_iff_holds, hv]
          decide
      | ok u =>
          have hfits : ∀ v ∈ window, g.Holds v := fun v hv =>
            (g.fits_iff_holds v).1 (checkFits_eq_ok_iff.1 hcheck v hv)
          exact .image hlen hfits (depicts_ofWindow hlen hfits)
    · intro h
      cases h with
      | tooWide hlt => exact absurd hlt hlong
      | unfit _ hwindow hbefore hv =>
          rw [checkFits_eq_error_iff.2 ⟨_, _, _, hwindow, rfl,
            fun u hu => (g.fits_iff_holds u).2 (hbefore u hu), ?_⟩]
          · rfl
          · rwa [← g.fits_iff_holds, Bool.not_eq_true] at hv
      | image _ hfits himage =>
          rw [checkFits_eq_ok_iff.2 fun v hv => (g.fits_iff_holds v).2 (hfits v hv),
            himage.eq_ofWindow hlen]
          rfl

end RowImage

namespace Checked

/-- One more row. It counts if it holds a bit. -/
def addRow (made : List UInt16 × Nat) (r : UInt16) : List UInt16 × Nat :=
  (made.1 ++ [r], if r = 0 then made.2 else made.2 + 1)

/-- The rows of a window, made one after the other, and the count kept on the way. -/
def countedRows (width : Nat) (window : List Int16) : Except Overflow (List UInt16 × Nat) :=
  (List.range width).foldlM (fun made b => (row window b).map (addRow made)) ([], 0)

/-- The lane value with the given low bits, which are moved up until the sign is the highest bit of
the word and then back down. -/
def extend (width : Nat) (bits : UInt16) : Except Overflow Int16 :=
  if 16 < width then .error .subtraction
  else if 16 ≤ 16 - width then .error .shift
  else .ok (.ofBitVec ((bits.toBitVec <<< (16 - width)).sshiftRight (16 - width)))

/-- Lane `i` of an image, gathered from the rows as a row is from the lanes. -/
def lane (image : RowImage) (i : Nat) : Except Overflow Int16 := do
  let bits ← row (image.rows.map UInt16.toInt16) i
  extend image.rows.length bits

def values (image : RowImage) : Except Overflow (List Int16) :=
  (List.range image.lanes).mapM (lane image)

theorem extend_eq (width : Nat) (bits : UInt16) :
    extend width bits = Lane.ofBits? width bits.toNat := by
  rw [extend, Lane.ofBits?]
  by_cases hwide : 16 < width
  · rw [if_pos hwide, if_pos hwide]
  · rw [if_neg hwide, if_neg hwide]
    by_cases hzero : width = 0
    · subst hzero
      rfl
    · have hbits : BitVec.ofNat width bits.toNat = bits.toBitVec.setWidth width :=
        BitVec.ofNat_toNat width bits.toBitVec
      rw [if_neg (by omega), if_neg hzero, Lane.ofBits, hbits,
        Lane.signExtend_setWidth (Nat.pos_of_ne_zero hzero) (Nat.le_of_not_lt hwide)]

variable {g : Geometry} {window : List Int16}

theorem foldlM_addRow (hlen : window.length ≤ 16) {bs : List Nat} (hbs : ∀ b ∈ bs, b < 16)
    (made : List UInt16 × Nat) :
    bs.foldlM (fun made b => (row window b).map (addRow made)) made =
      .ok (made.1 ++ bs.map (RowImage.row window),
        made.2 + (bs.map (RowImage.row window)).countP (· != 0)) := by
  induction bs generalizing made with
  | nil => simp [pure, Except.pure]
  | cons b bs ih =>
      have hrest : ∀ b ∈ bs, b < 16 := fun b' hb' => hbs b' (List.mem_cons_of_mem b hb')
      rw [List.foldlM_cons, row_eq_ok hlen (hbs b (List.mem_cons_self ..))]
      refine (ih hrest (addRow made (RowImage.row window b))).trans ?_
      rw [addRow, List.map_cons, List.countP_cons]
      by_cases hzero : RowImage.row window b = 0
      · simp [hzero]
      · simp [hzero, Nat.add_assoc, Nat.add_comm 1]

theorem countedRows_eq_ok (hlen : window.length ≤ g.lanes) :
    countedRows g.width window =
      .ok ((RowImage.ofWindow g.width window).rows,
        (RowImage.ofWindow g.width window).nonZeroCount) := by
  have hbs : ∀ b ∈ List.range g.width, b < 16 := fun b hb =>
    Nat.lt_of_lt_of_le (List.mem_range.1 hb) g.width_le
  rw [countedRows, foldlM_addRow (Nat.le_trans hlen g.lanes_le) hbs, List.nil_append, Nat.zero_add]
  rfl

theorem image_eq (g : Geometry) (window : List Int16) :
    image g window = RowImage.transpose g window := by
  by_cases hlen : g.lanes < window.length
  · rw [image, RowImage.transpose, if_pos hlen, if_pos hlen]
    rfl
  · cases hcheck : RowImage.checkFits g.width window with
    | error e =>
        rw [image, RowImage.transpose, if_neg hlen, if_neg hlen, hcheck]
        rfl
    | ok u =>
        have hfits := RowImage.checkFits_eq_ok_iff.1 hcheck
        rw [image_eq_ok (Nat.le_of_not_lt hlen) hfits,
          RowImage.transpose_eq_ok (Nat.le_of_not_lt hlen) hfits]

theorem lane_eq_ok {image : RowImage} (hpos : 0 < image.rows.length)
    (hdepth : image.rows.length ≤ 16) {i : Nat} (hi : i < 16) :
    lane image i = .ok (image.lane i) := by
  have hlen : (image.rows.map UInt16.toInt16).length ≤ 16 := by simpa using hdepth
  have hrow : row (image.rows.map UInt16.toInt16) i =
      .ok (RowImage.row (image.rows.map UInt16.toInt16) i) := row_eq_ok hlen hi
  have hbits : (RowImage.row (image.rows.map UInt16.toInt16) i).toNat =
      Bits.pack (image.rows.map fun r => r.toNat.testBit i) := by
    rw [RowImage.toNat_row hlen, List.map_map]
    rfl
  rw [lane, hrow]
  change extend image.rows.length _ = _
  rw [extend_eq, hbits, Lane.ofBits?, if_neg (Nat.not_lt.2 hdepth), if_neg (Nat.ne_of_gt hpos)]
  rfl

theorem values_eq_ok {image : RowImage} (hpos : 0 < image.rows.length)
    (hdepth : image.rows.length ≤ 16) (hlanes : image.lanes ≤ 16) :
    values image = .ok image.values := by
  rw [values, RowImage.values]
  apply mapM_eq_ok_map
  intro i hi
  exact lane_eq_ok hpos hdepth (Nat.lt_of_lt_of_le (List.mem_range.1 hi) hlanes)

end Checked

namespace RowImage

/-- Transposing a window gives what `Transposed` says and nothing else: a refusal of the window for
its length, one of its first value that does not fit, or the image that depicts it, from which it
can be read back. Made row by row with shifts in sixteen bits, counted on the way and gathered
again lane by lane, the image, its count and its values are the same, and no shift overflows. -/
theorem transposition_exact (g : Geometry) (window : List Int16) :
    (∀ result, transpose g window = result ↔ Transposed g window result) ∧
      Checked.image g window = transpose g window ∧
      ∀ image, transpose g window = .ok image →
        Checked.countedRows g.width window = .ok (image.rows, image.nonZeroCount) ∧
          Checked.values image = .ok window := by
  refine ⟨transpose_eq_iff g window, Checked.image_eq g window, ?_⟩
  intro image hok
  cases (transpose_eq_iff g window _).1 hok with
  | image hlen hfits himage =>
      have hwidth : 0 < image.rows.length ∧ image.rows.length ≤ 16 := by
        rw [himage.depth]
        exact ⟨g.width_pos, g.width_le⟩
      have hlanes : image.lanes ≤ 16 := himage.lanes ▸ Nat.le_trans hlen g.lanes_le
      constructor
      · rw [Checked.countedRows_eq_ok hlen, ← himage.eq_ofWindow hlen]
      · rw [Checked.values_eq_ok hwidth.1 hwidth.2 hlanes, himage.inverse]

end RowImage

end Gemv
