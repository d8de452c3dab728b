import Gemv.Blocks
import Gemv.Proofs.Streaming

/-! The memory that a load leaves behind.

A load clears the rows of its register in every block and then writes, block after block, the rows
of the block's window that hold a bit. `get_run_writes` says what a run of row writes does,
`get_run_windowWords` what one window does to a cleared block, and `get_run_windows` follows by
induction on the windows: each block ends with the rows of its own window, and nothing outside the
register has changed. -/
namespace Gemv

theorem getElem?_windows {α : Type} {n : Nat} (hn : 0 < n) (xs : List α) (k : Nat) :
    (windows n xs)[k]? = if k * n < xs.length then some ((xs.drop (k * n)).take n) else none := by
  induction k generalizing xs with
  | zero =>
      by_cases hx : xs = []
      · simp [hx]
      · rw [windows_of_ne_nil hn hx]
        simp [List.length_pos_iff.2 hx]
  | succ k ih =>
      by_cases hx : xs = []
      · simp [hx]
      · rw [windows_of_ne_nil hn hx, List.getElem?_cons_succ, ih, List.length_drop, List.drop_drop,
          Nat.succ_mul, Nat.add_comm n]
        have hstep : k * n < xs.length - n ↔ k * n + n < xs.length := by omega
        simp only [hstep]

namespace BlockMemory

theorem ext_get {m m' : BlockMemory} (h : ∀ block row, m.get block row = m'.get block row) :
    m = m' := by
  obtain ⟨rows⟩ := m
  obtain ⟨rows'⟩ := m'
  congr 1
  apply Vector.ext
  intro row hrow
  apply Vector.ext
  intro block hblock
  simpa only [get, Fin.getElem_fin] using h ⟨block, hblock⟩ ⟨row, hrow⟩

end BlockMemory

namespace Blocks

theorem execute_selectAll (b : Blocks) : b.execute .selectAll = { b with selection := .all } := by
  simp only [execute, Instruction.kind_selectAll]

theorem execute_selectColumn (b : Blocks) (k : Fin 256) :
    b.execute (.selectColumn k) = { b with selection := .column k } := by
  simp only [execute, Instruction.kind_selectColumn]

theorem execute_write (b : Blocks) (row : Fin 1024) (data : UInt16) :
    b.execute (.write row data) = ⟨b.memory.write b.selection row data, b.selection⟩ := by
  rw [execute, Instruction.kind_write]

/-- Writes of several rows, each with its own data. -/
def writes (base : Nat) (data : Nat → UInt16) (rows : List Nat) : List Instruction :=
  rows.map fun i => .write (base + i) (data i)

section Writes

variable {base : Nat} {data : Nat → UInt16} {rows : List Nat}

/-- Every selected block takes the data of the rows written, and no other row changes. -/
theorem get_run_writes (hrows : ∀ i ∈ rows, base + i < 1024) (b : Blocks) (k : Fin 256)
    (row : Fin 1024) :
    (b.run (writes base data rows)).memory.get k row =
      if b.selection.covers k ∧ base ≤ row ∧ (row : Nat) - base ∈ rows then data (row - base)
      else b.memory.get k row := by
  induction rows generalizing b with
  | nil => simp [writes]
  | cons i rows ih =>
      have hi : base + i < 1024 := hrows i (List.mem_cons_self ..)
      have hrest : ∀ j ∈ rows, base + j < 1024 := fun j hj => hrows j (List.mem_cons_of_mem i hj)
      have hexec := b.execute_write ⟨base + i, hi⟩ (data i)
      simp only [writes, List.map_cons, run_cons] at ih ⊢
      rw [ih hrest, hexec, BlockMemory.get_write]
      by_cases hsame : base + i = row
      -- The row may be written again by the rest, with the same data.
      · have hdiff : (row : Nat) - base = i := by omega
        have hrow : (⟨base + i, hi⟩ : Fin 1024) = row := Fin.ext hsame
        have hle : base ≤ (row : Nat) := by omega
        by_cases hcov : b.selection.covers k <;> simp [hcov, hdiff, hrow, hle]
      · have hrow : (⟨base + i, hi⟩ : Fin 1024) ≠ row := fun h => hsame (Fin.ext_iff.1 h)
        have hmem : base ≤ (row : Nat) ∧ (row : Nat) - base ∈ i :: rows ↔
            base ≤ (row : Nat) ∧ (row : Nat) - base ∈ rows := by
          rw [List.mem_cons]
          exact and_congr_right fun hle => or_iff_right (by omega)
        simp only [hmem, hrow, and_false, if_false]

theorem get_run_writes_range {width : Nat} (hend : base + width ≤ 1024) (b : Blocks) (k : Fin 256)
    (row : Fin 1024) :
    (b.run (writes base data (List.range width))).memory.get k row =
      if b.selection.covers k ∧ base ≤ row ∧ (row : Nat) < base + width then data (row - base)
      else b.memory.get k row := by
  rw [get_run_writes (fun i hi => by have := List.mem_range.1 hi; omega)]
  have hmem : base ≤ (row : Nat) ∧ (row : Nat) - base ∈ List.range width ↔
      base ≤ (row : Nat) ∧ (row : Nat) < base + width := by
    rw [List.mem_range]
    omega
  simp only [hmem]

end Writes

theorem get_run_clearRows {base width : Nat} (hend : base + width ≤ 1024) (b : Blocks) (k : Fin 256)
    (row : Fin 1024) :
    (b.run (Instruction.clearRows base width)).memory.get k row =
      if base ≤ row ∧ (row : Nat) < base + width then 0 else b.memory.get k row := by
  have hclear : Instruction.clearRows base width =
      .selectAll :: writes base (fun _ => 0) (List.range width) := rfl
  rw [hclear, run_cons, execute_selectAll, get_run_writes_range hend]
  simp [Selection.covers]

/-- The blocks from `first` on hold zeros in the rows of a register. -/
def Cleared (base width first : Nat) (b : Blocks) : Prop :=
  ∀ k : Fin 256, first ≤ k → ∀ row : Fin 1024, base ≤ row → (row : Nat) < base + width →
    b.memory.get k row = 0

end Blocks

namespace LoadPlan
open Blocks

theorem rowWords_ofWindow (base width : Nat) (window : List Int16) :
    rowWords base (RowImage.ofWindow width window) =
      writes base (RowImage.row window)
        ((List.range width).filter (RowImage.row window · != 0)) := by
  rw [rowWords, RowImage.nonZero_ofWindow, List.map_map]
  rfl

/-- A window fills its block. Rows without a bit are not written: they hold zeros already. -/
theorem get_run_windowWords {base width block : Nat} (hend : base + width ≤ 1024)
    (hblock : block < 256) (window : List Int16) {b : Blocks} (hzero : Cleared base width block b)
    (k : Fin 256) (row : Fin 1024) :
    (b.run (windowWords base block (RowImage.ofWindow width window))).memory.get k row =
      if (k : Nat) = block ∧ base ≤ row ∧ (row : Nat) < base + width then
        RowImage.row window (row - base)
      else b.memory.get k row := by
  have hrow : ∀ i ∈ (List.range width).filter (RowImage.row window · != 0), base + i < 1024 := by
    intro i hi
    have := List.mem_range.1 (List.mem_filter.1 hi).1
    omega
  by_cases hin : (k : Nat) = block ∧ base ≤ (row : Nat) ∧ (row : Nat) < base + width
  · obtain ⟨hk, hle, hlt⟩ := hin
    have hold := hzero k (Nat.le_of_eq hk.symm) row hle hlt
    rw [if_pos ⟨hk, hle, hlt⟩]
    by_cases hnone : (RowImage.ofWindow width window).isZero
    · have hdata := (RowImage.isZero_ofWindow width window).1 hnone (row - base) (by omega)
      rw [windowWords, if_pos hnone, run_nil, hold, hdata]
    · have hcov : (Selection.column k).covers k = true := by simp [Selection.covers]
      rw [windowWords, if_neg hnone, run_cons, ← hk, execute_selectColumn, rowWords_ofWindow,
        get_run_writes hrow]
      by_cases hdata : RowImage.row window (row - base) = 0
      · simp [hdata, hold]
      · have hwidth : (row : Nat) - base < width := by omega
        simp [hcov, hle, hwidth, hdata]
  · rw [if_neg hin]
    by_cases hnone : (RowImage.ofWindow width window).isZero
    · rw [windowWords, if_pos hnone, run_nil]
    · rw [windowWords, if_neg hnone, run_cons, execute_selectColumn b ⟨block, hblock⟩,
        rowWords_ofWindow, get_run_writes hrow]
      apply if_neg
      rintro ⟨hcov, hle, hmem⟩
      have hk : block = k := by simpa [Selection.covers, Fin.ext_iff] using hcov
      have hwidth := List.mem_range.1 (List.mem_filter.1 hmem).1
      exact hin ⟨hk.symm, hle, by omega⟩

/-- Windows that go into consecutive cleared blocks: each block takes its own. -/
theorem get_run_windows (g : Geometry) {base : Nat} (hend : base + g.width ≤ 1024)
    (cut : List (List Int16)) {first : Nat} (hfirst : first + cut.length ≤ 256) {b : Blocks}
    (hzero : Cleared base g.width first b) (k : Fin 256) (row : Fin 1024) :
    (b.run (windowsWords g base first cut)).memory.get k row =
      if first ≤ (k : Nat) ∧ base ≤ row ∧ (row : Nat) < base + g.width then
        RowImage.row (cut.getD (k - first) []) (row - base)
      else b.memory.get k row := by
  induction cut generalizing first b with
  | nil =>
      by_cases hin : first ≤ (k : Nat) ∧ base ≤ (row : Nat) ∧ (row : Nat) < base + g.width
      · rw [if_pos hin]
        exact hzero k hin.1 row hin.2.1 hin.2.2
      · rw [if_neg hin]
        rfl
  | cons window cut ih =>
      rw [List.length_cons] at hfirst
      have hstep := get_run_windowWords hend (by omega : first < 256) window hzero
      -- The window touches its own block only, so the blocks after it stay cleared.
      have hnext : Cleared base g.width (first + 1)
          (b.run (windowWords base first (RowImage.ofWindow g.width window))) := by
        intro k hk row hle hlt
        rw [hstep k row, if_neg (by omega)]
        exact hzero k (by omega) row hle hlt
      rw [windowsWords_cons, run_append, ih (by omega) hnext, hstep k row]
      by_cases hin : base ≤ (row : Nat) ∧ (row : Nat) < base + g.width
      · obtain hlt | rfl | hgt := Nat.lt_trichotomy (k : Nat) first
        · rw [if_neg (by omega), if_neg (by omega), if_neg (by omega)]
        · rw [if_neg (by omega), if_pos ⟨rfl, hin⟩, if_pos ⟨Nat.le_refl _, hin⟩, Nat.sub_self,
            List.getD_cons_zero]
        · have hindex : (k : Nat) - first = (k - (first + 1)) + 1 := by omega
          rw [if_pos ⟨hgt, hin⟩, if_pos ⟨Nat.le_of_lt hgt, hin⟩, hindex, List.getD_cons_succ]
      · rw [if_neg (fun h => hin h.2), if_neg (fun h => hin h.2), if_neg (fun h => hin h.2)]

theorem get_run_sequence (g : Geometry) {base : Nat} (hend : base + g.width ≤ 1024)
    {values : List Int16} (hshort : values.length ≤ g.maxVectorLength) (b : Blocks) (k : Fin 256)
    (row : Fin 1024) :
    (b.run (sequence g base values)).memory.get k row =
      if base ≤ row ∧ (row : Nat) < base + g.width then
        RowImage.row ((values.drop (k * g.lanes)).take g.lanes) (row - base)
      else b.memory.get k row := by
  have hcut : 0 + (windows g.lanes values).length ≤ 256 := by
    rw [Nat.zero_add, length_windows g.lanes_pos]
    exact (windowCount_le_iff g values.length).2 hshort
  have hzero : Cleared base g.width 0 (b.run (Instruction.clearRows base g.width)) := by
    intro k hk row hle hlt
    rw [get_run_clearRows hend, if_pos ⟨hle, hlt⟩]
  have hwindow : (windows g.lanes values).getD k [] = (values.drop (k * g.lanes)).take g.lanes := by
    rw [List.getD_eq_getElem?_getD, getElem?_windows g.lanes_pos]
    split
    · rfl
    · rename_i hpast
      rw [List.drop_eq_nil_of_le (Nat.le_of_not_lt hpast), List.take_nil]
      rfl
  rw [sequence_eq, run_append, get_run_windows g hend _ hcut hzero, get_run_clearRows hend,
    Nat.sub_zero, hwindow]
  by_cases hin : base ≤ (row : Nat) ∧ (row : Nat) < base + g.width
  · rw [if_pos ⟨Nat.zero_le _, hin⟩, if_pos hin]
  · rw [if_neg (fun h => hin h.2), if_neg hin, if_neg hin]

/-- What a load does to memory: row `j` of the register holds bit `j` of every lane and no other
bit, in every block, and no row outside the register changes. -/
structure Stores (g : Geometry) (register : Fin g.registerCount) (values : List Int16)
    (before after : BlockMemory) : Prop where
  stored : ∀ (k : Fin 256) (j : Fin g.width) (i : Nat),
    (after.get k (g.registerRow register j)).toNat.testBit i =
      if h : i < g.lanes ∧ k * g.lanes + i < values.length then
        Lane.bit (values.get ⟨k * g.lanes + i, h.2⟩) j
      else false
  kept : ∀ (k : Fin 256) (row : Fin 1024),
    (row : Nat) < register * g.width ∨ register * g.width + g.width ≤ row →
      after.get k row = before.get k row

theorem stores_run_sequence {g : Geometry} (register : Fin g.registerCount) {values : List Int16}
    (hshort : values.length ≤ g.maxVectorLength) (b : Blocks) :
    Stores g register values b.memory
      (b.run (sequence g (register * g.width) values)).memory := by
  have hend := g.base_add_width_le register.isLt
  constructor
  · intro k j i
    have hwindow : ((values.drop (k * g.lanes)).take g.lanes).length ≤ 16 :=
      Nat.le_trans (List.length_take_le ..) g.lanes_le
    have hin : register * g.width ≤ (g.registerRow register j : Nat) ∧
        (g.registerRow register j : Nat) < register * g.width + g.width := by
      simp only [Geometry.registerRow]
      omega
    have hoffset : (g.registerRow register j : Nat) - register * g.width = j := by
      simp only [Geometry.registerRow]
      omega
    rw [get_run_sequence g hend hshort, if_pos hin, hoffset, RowImage.testBit_row hwindow,
      List.getElem?_take, List.getElem?_drop]
    by_cases hi : i < g.lanes
    · by_cases hlen : k * g.lanes + i < values.length <;> simp [hi, hlen]
    · simp [hi]
  · intro k row hout
    rw [get_run_sequence g hend hshort, if_neg (by omega)]

/-- Executing the words of an accepted load leaves exactly the bits of its vector in the register
and keeps the rest of memory, from every memory and selection. What the register held before makes
no difference. -/
theorem load_leaves_exact_image (g : Geometry) (register : Fin g.registerCount)
    {values : List Int16} (hvalues : g.Admits values) :
    ∃ ws, words g register values = .ok ws ∧
      (∀ b : Blocks, Stores g register values b.memory (b.run ws).memory) ∧
      ∀ b b' : Blocks,
        (∀ (k : Fin 256) (row : Fin 1024),
          (row : Nat) < register * g.width ∨ register * g.width + g.width ≤ row →
            b.memory.get k row = b'.memory.get k row) →
        (b.run ws).memory = (b'.run ws).memory := by
  refine ⟨_, words_eq_ok register hvalues, stores_run_sequence register hvalues.short, ?_⟩
  intro b b' hagree
  have hend := g.base_add_width_le register.isLt
  apply BlockMemory.ext_get
  intro k row
  rw [get_run_sequence g hend hvalues.short, get_run_sequence g hend hvalues.short]
  split
  · rfl
  · exact hagree k row (by omega)

/-- Three lanes of five bits: a full window, a zero window and a short one at the limits. -/
theorem load_leaves_exact_image_short_window :
    let g : Geometry := ⟨3, 5, by decide, by decide, by decide, by decide⟩
    let values : List Int16 := [1, -2, 3, 0, 0, 0, -16, 15]
    g.Admits values ∧ ∃ ws, words g 203 values = .ok ws ∧
      ∀ b : Blocks, Stores g ⟨203, by decide⟩ values b.memory (b.run ws).memory := by
  intro g values
  have hvalues : g.Admits values := ⟨by decide, by simp [values, g]⟩
  obtain ⟨ws, hws, hstores, -⟩ := load_leaves_exact_image g ⟨203, by decide⟩ hvalues
  exact ⟨hvalues, ws, hws, hstores⟩

end LoadPlan

end Gemv
