import Gemv.Proofs.Streaming
import Gemv.Proofs.Traversal

/-! The plan of a load in sixteen-bit arithmetic.

Rows and addresses have sixteen bits. `checkedWords` makes the words of a load in that arithmetic
and stops at the first sum or shift that overflows and at the first window that is not one of this
geometry. It agrees with the plan (`checkedWords_eq`): once a load has passed its own checks, none
of these can stop it. -/
namespace Gemv

namespace Checked

def add (a b : UInt16) : Except Overflow UInt16 :=
  if a.toNat + b.toNat < 2 ^ 16 then .ok (a + b) else .error .addition

def shiftLeft (a : UInt16) (n : Nat) : Except Overflow UInt16 :=
  if n < 16 then .ok (a <<< UInt16.ofNat n) else .error .shift

def shiftRight (a : UInt16) (n : Nat) : Except Overflow UInt16 :=
  if n < 16 then .ok (a >>> UInt16.ofNat n) else .error .shift

/-- An overflow as an error of the whole operation. -/
def orFail {α : Type} : Except Overflow α → Except Error α
  | .ok a => .ok a
  | .error fault => .error (.overflow fault)

/-- Bit `b` of a value, at the place of its lane. -/
def laneBit (b : Nat) (p : Int16 × Nat) : Except Overflow UInt16 := do
  let bits ← shiftRight p.1.toUInt16 b
  shiftLeft (bits &&& 1) p.2

/-- Row `b` of a window, lane after lane. -/
def row (window : List Int16) (b : Nat) : Except Overflow UInt16 :=
  window.zipIdx.foldlM (fun row p => (laneBit b p).map (row ||| ·)) 0

/-- The row image of a window that is not known to belong to the geometry. -/
def image (g : Geometry) (window : List Int16) : Except Error RowImage := do
  if g.lanes < window.length then .error (.windowTooWide window.length g.lanes)
  RowImage.checkFits g.width window
  let rows ← orFail ((List.range g.width).mapM (row window))
  return ⟨rows, window.length⟩

def rowWord (base : UInt16) (p : UInt16 × Nat) : Except Overflow Instruction :=
  (add base (UInt16.ofNat p.2)).map fun address => .write address.toNat p.1

def windowWords (g : Geometry) (base : UInt16) (p : List Int16 × Nat) :
    Except Error (List Instruction) := do
  let image ← image g p.1
  if image.isZero then return []
  let rows ← orFail (image.nonZero.mapM (rowWord base))
  return .selectColumn p.2 :: rows

end Checked

namespace LoadPlan

def checkedWords (g : Geometry) (register : Nat) (values : List Int16) :
    Except Error (List Instruction) := do
  let base ← check g register values
  let clear ← Checked.orFail (Instruction.clearRows? (UInt16.ofNat base) g.width)
  let filled ← (windows g.lanes values).zipIdx.mapM (Checked.windowWords g (UInt16.ofNat base))
  return clear ++ filled.flatten

end LoadPlan

namespace Checked

theorem exists_laneBit {b i : Nat} (hb : b < 16) (hi : i < 16) (v : Int16) :
    ∃ bits, laneBit b (v, i) = .ok bits ∧
      ∀ j, bits.toNat.testBit j = (decide (j = i) && Lane.bit v b) := by
  have hamount : ∀ n < 16, (UInt16.ofNat n).toNat % 16 = n := by
    intro n hn
    rw [UInt16.toNat_ofNat']
    omega
  refine ⟨((v.toUInt16 >>> UInt16.ofNat b) &&& 1) <<< UInt16.ofNat i, ?_, ?_⟩
  · simp only [laneBit, shiftRight, shiftLeft, hb, hi, if_true]
    rfl
  · intro j
    rw [UInt16.toNat_shiftLeft, UInt16.toNat_and, UInt16.toNat_shiftRight, hamount b hb,
      hamount i hi, Nat.testBit_mod_two_pow, Nat.testBit_shiftLeft, Nat.testBit_and,
      Nat.testBit_shiftRight, UInt16.toNat_one]
    rcases Nat.lt_trichotomy j i with hj | rfl | hj
    · simp [Nat.not_le.2 hj, Nat.ne_of_lt hj]
    · have hbit : v.toUInt16.toNat.testBit b = Lane.bit v b := rfl
      simp [hi, hbit]
    · obtain ⟨k, hk⟩ : ∃ k, j - i = k + 1 := ⟨j - i - 1, by omega⟩
      simp [hk, Nat.testBit_succ, Nat.ne_of_gt hj]

/-- Lanes from `first` on set their own bits of a row and leave the others alone. -/
theorem exists_foldlM_laneBit {b : Nat} (hb : b < 16) {window : List Int16} {first : Nat}
    (hlen : first + window.length ≤ 16) (start : UInt16) :
    ∃ row, (window.zipIdx first).foldlM (fun row p => (laneBit b p).map (row ||| ·)) start =
        .ok row ∧
      ∀ j, row.toNat.testBit j =
        (start.toNat.testBit j ||
          (decide (first ≤ j) && window[j - first]?.any (Lane.bit · b))) := by
  induction window generalizing first start with
  | nil => exact ⟨start, rfl, by simp⟩
  | cons v window ih =>
      rw [List.length_cons] at hlen
      obtain ⟨bits, hbits, htest⟩ := exists_laneBit hb (by omega : first < 16) v
      obtain ⟨row, hrow, hrest⟩ := ih (by omega : first + 1 + window.length ≤ 16) (start ||| bits)
      refine ⟨row, ?_, ?_⟩
      · rw [List.zipIdx_cons, List.foldlM_cons, hbits]
        exact hrow
      · intro j
        rw [hrest, UInt16.toNat_or, Nat.testBit_or, htest]
        rcases Nat.lt_trichotomy j first with hj | rfl | hj
        · have hpast : ¬first + 1 ≤ j := by omega
          simp [Nat.ne_of_lt hj, Nat.not_le.2 hj, hpast]
        · have hpast : ¬j + 1 ≤ j := by omega
          simp [hpast]
        · obtain ⟨k, rfl⟩ : ∃ k, j = first + 1 + k := ⟨j - first - 1, by omega⟩
          have hindex : first + 1 + k - first = k + 1 := by omega
          simp [hindex, Nat.ne_of_gt hj, Nat.le_of_lt hj]

theorem row_eq_ok {window : List Int16} (hlen : window.length ≤ 16) {b : Nat} (hb : b < 16) :
    row window b = .ok (RowImage.row window b) := by
  obtain ⟨packed, hpacked, htest⟩ := exists_foldlM_laneBit hb (by omega : 0 + window.length ≤ 16) 0
  have hsame : packed = RowImage.row window b := by
    apply UInt16.toNat_inj.1
    apply Nat.eq_of_testBit_eq
    intro j
    rw [htest, RowImage.testBit_row hlen]
    simp
  rw [row, hpacked, hsame]

section Window

variable {g : Geometry} {window : List Int16}

theorem image_eq_ok (hlen : window.length ≤ g.lanes)
    (hfits : ∀ v ∈ window, Lane.fits g.width v = true) :
    image g window = .ok (RowImage.ofWindow g.width window) := by
  have hrows : (List.range g.width).mapM (row window) =
      .ok ((List.range g.width).map (RowImage.row window)) := by
    apply mapM_eq_ok_map
    intro b hb
    have hwidth := Nat.lt_of_lt_of_le (List.mem_range.1 hb) g.width_le
    exact row_eq_ok (Nat.le_trans hlen g.lanes_le) hwidth
  rw [image, if_neg (Nat.not_lt.2 hlen), RowImage.checkFits_eq_ok_iff.2 hfits, hrows]
  rfl

theorem rowWord_eq_ok {base : Nat} (hbase : base + g.width ≤ rowCount) {p : UInt16 × Nat}
    (hp : p.2 < g.width) :
    rowWord (UInt16.ofNat base) p = .ok (.write (base + p.2) p.1) := by
  have hend : base + g.width ≤ 1024 := hbase
  have hbase' : (UInt16.ofNat base).toNat = base := by
    rw [UInt16.toNat_ofNat']
    omega
  have hp' : (UInt16.ofNat p.2).toNat = p.2 := by
    rw [UInt16.toNat_ofNat']
    omega
  have hsum : (UInt16.ofNat base + UInt16.ofNat p.2).toNat = base + p.2 := by
    rw [UInt16.toNat_add, hbase', hp']
    omega
  rw [rowWord, add, hbase', hp', if_pos (by omega)]
  exact congrArg (fun address => Except.ok (Instruction.write address p.1)) hsum

theorem windowWords_eq_ok {base : Nat} (hbase : base + g.width ≤ rowCount) (block : Nat)
    (hlen : window.length ≤ g.lanes) (hfits : ∀ v ∈ window, Lane.fits g.width v = true) :
    windowWords g (UInt16.ofNat base) (window, block) =
      .ok (LoadPlan.windowWords base block (RowImage.ofWindow g.width window)) := by
  have hrows : (RowImage.ofWindow g.width window).nonZero.mapM (rowWord (UInt16.ofNat base)) =
      .ok (LoadPlan.rowWords base (RowImage.ofWindow g.width window)) := by
    apply mapM_eq_ok_map
    intro p hp
    rw [RowImage.nonZero_ofWindow] at hp
    obtain ⟨b, hb, rfl⟩ := List.mem_map.1 hp
    exact rowWord_eq_ok hbase (List.mem_range.1 (List.mem_filter.1 hb).1)
  rw [windowWords, image_eq_ok hlen hfits]
  change (if (RowImage.ofWindow g.width window).isZero then _ else _) = _
  rw [LoadPlan.windowWords]
  split
  · rfl
  · rw [hrows]
    rfl

end Window

end Checked

namespace LoadPlan

theorem checkedWords_eq (g : Geometry) (register : Nat) (values : List Int16) :
    checkedWords g register values = words g register values := by
  rw [checkedWords, words_eq]
  cases hcheck : check g register values with
  | error e => rfl
  | ok base =>
      obtain ⟨hregister, hadmits, rfl⟩ := check_eq_ok_iff.1 hcheck
      have hbase := g.base_add_width_le hregister
      have hend : register * g.width + g.width ≤ 1024 := hbase
      have hnat : (UInt16.ofNat (register * g.width)).toNat = register * g.width := by
        rw [UInt16.toNat_ofNat']
        omega
      have hclear : Instruction.clearRows? (UInt16.ofNat (register * g.width)) g.width =
          .ok (Instruction.clearRows (register * g.width) g.width) := by
        rw [Instruction.clearRows?, hnat, if_pos (by omega)]
      have hfilled : (windows g.lanes values).zipIdx.mapM
          (Checked.windowWords g (UInt16.ofNat (register * g.width))) =
          .ok ((windows g.lanes values).zipIdx.map fun p =>
            windowWords (register * g.width) p.2 (RowImage.ofWindow g.width p.1)) := by
        apply mapM_eq_ok_map
        intro p hp
        obtain ⟨hlen, hfits⟩ := hadmits.window p.1 (List.fst_mem_of_mem_zipIdx hp)
        exact Checked.windowWords_eq_ok hbase p.2 hlen hfits
      change (do
        let clear ← Checked.orFail (Instruction.clearRows? _ g.width)
        let filled ← (windows g.lanes values).zipIdx.mapM (Checked.windowWords g _)
        return clear ++ filled.flatten) = .ok (sequence g (register * g.width) values)
      rw [hclear, hfilled, sequence_eq]
      rfl

end LoadPlan

end Gemv
