import Gemv.Proofs.Schedules
import Mathlib.Data.List.Induction

/-! Which word decides a row.

A write goes to the blocks selected at the time, and the selection is that of the last select word
before it. `execute_eq` says what any word at all does. From it, by induction on the words from the
last one backwards, a row of a block holds the data of the last write that reached it
(`get_run_eq`). The same words run over one flat array of all rows, where an index past the end
would stop them, and they never stop (`run_ofBlocks`). -/
namespace Gemv

namespace Instruction

def isSelect (w : Instruction) : Bool := w.submodule == 0 && w.opcode == 6

def isWrite (w : Instruction) : Bool := w.submodule == 0 && w.opcode == 1

/-- The blocks that a select word names: with both flags set all of them, else the column in the low
eight bits. -/
def selected (w : Instruction) : Selection :=
  if Bits.bit w.raw 23 && Bits.bit w.raw 22 then .all else .column (blockAt w.raw.toNat)

/-- The selection in force after some words: that of the last select word among them. -/
def governing (start : Selection) (ws : List Instruction) : Selection :=
  ((ws.filter isSelect).getLast?.map selected).getD start

/-- The last word that writes a row while the words before it have the block selected. -/
def lastWrite? (start : Selection) (ws : List Instruction) (k : Fin 256) (row : Fin 1024) :
    Option Instruction :=
  (ws.zipIdx.filter fun p => p.1.isWrite && p.1.address == row &&
    (governing start (ws.take p.2)).covers k).getLast?.map (·.1)

theorem coversAll_eq (w : Instruction) :
    w.coversAll = (Bits.bit w.raw 23 && Bits.bit w.raw 22) := by
  have hbit : ∀ i, Bits.bit w.raw i = decide (w.raw.toNat / 2 ^ i % 2 = 1) :=
    fun _ => Nat.testBit_eq_decide_div_mod_eq
  rw [coversAll, hbit, hbit, Bool.eq_iff_iff]
  simp only [beq_iff_eq, Bool.and_eq_true, decide_eq_true_eq]
  omega

theorem isWrite_of_isSelect {w : Instruction} (h : w.isSelect = true) : w.isWrite = false := by
  have hop : w.opcode = 6 := by simpa using (Bool.and_eq_true_iff.1 h).2
  simp [isWrite, hop]

theorem governing_concat (start : Selection) (ws : List Instruction) (w : Instruction) :
    governing start (ws ++ [w]) = if w.isSelect then w.selected else governing start ws := by
  rw [governing, List.filter_append]
  by_cases hw : w.isSelect = true
  · simp [hw]
  · simp [hw, governing]

theorem lastWrite?_concat (start : Selection) (ws : List Instruction) (w : Instruction)
    (k : Fin 256) (row : Fin 1024) :
    lastWrite? start (ws ++ [w]) k row =
      if w.isWrite && w.address == row && (governing start ws).covers k then some w
      else lastWrite? start ws k row := by
  -- What stands before a word is not changed by words after it.
  have hbefore : ∀ p ∈ ws.zipIdx, (ws ++ [w]).take p.2 = ws.take p.2 := by
    intro p hp
    apply List.take_append_of_le_length
    exact Nat.le_of_lt (List.getElem?_eq_some_iff.1 (List.mem_zipIdx_iff_getElem?.1 hp)).1
  have hfilter := List.filter_congr fun p hp => congrArg
    (fun prior => p.1.isWrite && p.1.address == row && (governing start prior).covers k)
    (hbefore p hp)
  rw [lastWrite?, List.zipIdx_append, List.filter_append, hfilter]
  by_cases hw : (w.isWrite && w.address == row && (governing start ws).covers k) = true
  · simp [hw]
  · simp [hw, lastWrite?]

end Instruction

namespace Blocks
open Instruction

/-- What a word does to the blocks, whatever its bits. -/
theorem execute_eq (b : Blocks) (w : Instruction) :
    b.execute w =
      if w.isSelect then { b with selection := w.selected }
      else if w.isWrite then ⟨b.memory.write b.selection w.address w.data, b.selection⟩
      else b := by
  rw [execute, selected, ← coversAll_eq]
  fun_cases kind w with
  | case1 hsub hop hraw => simp [isSelect, isWrite, hsub, hop]
  | case2 hsub hop hraw => simp [isSelect, isWrite, hsub, hop]
  | case3 hsub hop => simp [isSelect, isWrite, hsub, hop]
  | case4 hsub hop hall => simp [isSelect, hsub, hop, hall]
  | case5 hsub hop hall => simp [isSelect, hsub, hop, hall, block]
  | case6 hsub hop => simp [isSelect, isWrite, hsub, hop]
  | case7 hnop hwrite hselect hsync =>
      have hselect' : w.isSelect = false := by simpa [isSelect] using hselect
      have hwrite' : w.isWrite = false := by simpa [isWrite] using hwrite
      simp [hselect', hwrite']

theorem selection_run (b : Blocks) (ws : List Instruction) :
    (b.run ws).selection = governing b.selection ws := by
  induction ws using List.reverseRecOn with
  | nil => rfl
  | append_singleton ws w ih =>
      rw [run_append, governing_concat, ← ih, run_cons, run_nil, execute_eq]
      split
      · rfl
      · split <;> rfl

theorem get_execute (b : Blocks) (w : Instruction) (k : Fin 256) (row : Fin 1024) :
    (b.execute w).memory.get k row =
      if w.isWrite && w.address == row && b.selection.covers k then w.data
      else b.memory.get k row := by
  rw [execute_eq]
  by_cases hselect : w.isSelect = true
  · simp [hselect, isWrite_of_isSelect hselect]
  · by_cases hwrite : w.isWrite = true
    · simp [hselect, hwrite, BlockMemory.get_write, and_comm]
    · simp [hselect, hwrite]

/-- A row of a block holds the data of the last write that reached it. -/
theorem get_run_eq (b : Blocks) (ws : List Instruction) (k : Fin 256) (row : Fin 1024) :
    (b.run ws).memory.get k row =
      ((lastWrite? b.selection ws k row).map (·.data)).getD (b.memory.get k row) := by
  induction ws using List.reverseRecOn with
  | nil => rfl
  | append_singleton ws w ih =>
      rw [run_append, run_cons, run_nil, get_execute, selection_run, lastWrite?_concat, ih]
      split <;> rfl

end Blocks

/-- All rows of all blocks in one array, block after block. -/
structure FlatBlocks where
  cells : Array UInt16
  selection : Selection

namespace FlatBlocks

/-- Nothing is stored past the end of the array. -/
def store (cells : Array UInt16) (i : Nat) (data : UInt16) : Option (Array UInt16) :=
  if h : i < cells.size then some (cells.set i data h) else none

def storeRow (cells : Array UInt16) (selection : Selection) (row : Nat) (data : UInt16) :
    Option (Array UInt16) :=
  match selection with
  | .none => some cells
  | .all =>
    (List.range blockCount).foldlM (fun cells k => store cells (k * rowCount + row) data) cells
  | .column k => store cells (k * rowCount + row) data

def execute (b : FlatBlocks) (w : Instruction) : Option FlatBlocks :=
  match w.kind with
  | .selectAll => some { b with selection := .all }
  | .selectColumn k => some { b with selection := .column k }
  | .write row data => (storeRow b.cells b.selection row data).map fun cells => { b with cells }
  | .nop | .vectorSync | .other _ _ => some b

def run (b : FlatBlocks) (ws : List Instruction) : Option FlatBlocks := ws.foldlM execute b

/-- The row of a block, if the array reaches that far. -/
def row? (b : FlatBlocks) (block address : Nat) : Option UInt16 :=
  b.cells[block * rowCount + address % rowCount]?

def cellsOf (m : BlockMemory) : Array UInt16 :=
  Array.ofFn fun i : Fin (blockCount * rowCount) => m.get (blockAt (i / rowCount)) (rowAt i)

def ofBlocks (b : Blocks) : FlatBlocks := ⟨cellsOf b.memory, b.selection⟩

theorem getElem?_cellsOf (m : BlockMemory) (i : Nat) :
    (cellsOf m)[i]? =
      if i < blockCount * rowCount then some (m.get (blockAt (i / rowCount)) (rowAt i))
      else none := by
  rw [cellsOf, Array.getElem?_ofFn]
  rfl

theorem store_cellsOf (m : BlockMemory) {k : Nat} (hk : k < 256) (row : Fin 1024)
    (data : UInt16) :
    store (cellsOf m) (k * rowCount + row) data =
      some (cellsOf (m.write (.column ⟨k, hk⟩) row data)) := by
  have hlt : k * rowCount + row < blockCount * rowCount := by
    simp only [blockCount, rowCount]
    omega
  have hsize : (cellsOf m).size = blockCount * rowCount := Array.size_ofFn
  rw [store, dif_pos (by rw [hsize]; exact hlt), Option.some_inj]
  apply Array.ext_getElem?
  intro j
  rw [Array.getElem?_set, getElem?_cellsOf, getElem?_cellsOf, BlockMemory.get_write]
  by_cases hj : j < blockCount * rowCount
  · have hindex : k * rowCount + row = j ↔ ⟨k, hk⟩ = blockAt (j / rowCount) ∧ row = rowAt j := by
      rw [Fin.ext_iff, Fin.ext_iff, val_blockAt, val_rowAt]
      simp only [blockCount, rowCount] at hj ⊢
      omega
    simp only [hindex, Selection.covers, beq_iff_eq, if_pos hj]
    split <;> rfl
  · rw [if_neg (by omega), if_neg hj, if_neg hj]

-- For any state at all: at an array of this size the unifier would unfold the array.
theorem foldlM_range_succ {α : Type} {f : α → Nat → Option α} {a b : α} {n : Nat}
    (h : (List.range n).foldlM f a = some b) : (List.range (n + 1)).foldlM f a = f b n := by
  simp [List.range_succ, List.foldlM_append, h]

/-- Going through the first `n` blocks writes the row in exactly these. -/
theorem exists_foldlM_store (m : BlockMemory) (row : Fin 1024) (data : UInt16) {n : Nat}
    (hn : n ≤ 256) :
    ∃ m' : BlockMemory,
      (List.range n).foldlM (fun cells k => store cells (k * rowCount + row) data) (cellsOf m) =
        some (cellsOf m') ∧
      ∀ k other, m'.get k other =
        if k.val < n ∧ row = other then data else m.get k other := by
  induction n with
  | zero => exact ⟨m, rfl, by simp⟩
  | succ n ih =>
      obtain ⟨m', hcells, hget⟩ := ih (by omega)
      refine ⟨m'.write (.column ⟨n, hn⟩) row data, ?_, ?_⟩
      · exact (foldlM_range_succ hcells).trans (store_cellsOf m' hn row data)
      · intro k other
        have hlast : ⟨n, hn⟩ = k ↔ k.val = n := by
          rw [Fin.ext_iff, eq_comm]
        simp only [BlockMemory.get_write, hget, Selection.covers, beq_iff_eq, hlast,
          Nat.lt_succ_iff_lt_or_eq]
        grind

theorem storeRow_cellsOf (m : BlockMemory) (selection : Selection) (row : Fin 1024)
    (data : UInt16) :
    storeRow (cellsOf m) selection row data = some (cellsOf (m.write selection row data)) := by
  cases selection with
  | none => rfl
  | column k => exact store_cellsOf m k.isLt row data
  | all =>
      obtain ⟨m', hcells, hget⟩ := exists_foldlM_store m row data (Nat.le_refl 256)
      have hsame : m' = m.write .all row data := by
        apply BlockMemory.ext_get
        intro k other
        simp [hget, BlockMemory.get_write, Selection.covers, k.isLt]
      rw [storeRow, ← hsame]
      exact hcells

theorem execute_ofBlocks (b : Blocks) (w : Instruction) :
    (ofBlocks b).execute w = some (ofBlocks (b.execute w)) := by
  rw [execute, Blocks.execute]
  cases w.kind with
  | write row data => simp [ofBlocks, storeRow_cellsOf]
  | _ => simp [ofBlocks]

/-- No word ever leaves the array. -/
theorem run_ofBlocks (b : Blocks) (ws : List Instruction) :
    (ofBlocks b).run ws = some (ofBlocks (b.run ws)) := by
  induction ws generalizing b with
  | nil => rfl
  | cons w ws ih =>
      rw [run, List.foldlM_cons, execute_ofBlocks]
      exact ih (b.execute w)

theorem row?_ofBlocks (b : Blocks) {block : Nat} (hblock : block < blockCount) (address : Nat) :
    (ofBlocks b).row? block address = some (b.memory.get (blockAt block) (rowAt address)) := by
  have hrow : blockAt ((block * rowCount + address % rowCount) / rowCount) = blockAt block := by
    rw [Fin.ext_iff, val_blockAt, val_blockAt]
    simp only [rowCount]
    omega
  have haddress : rowAt (block * rowCount + address % rowCount) = rowAt address := by
    rw [Fin.ext_iff, val_rowAt, val_rowAt]
    simp only [rowCount]
    omega
  have hlt : block * rowCount + address % rowCount < blockCount * rowCount := by
    simp only [blockCount, rowCount] at hblock ⊢
    omega
  rw [row?, ofBlocks, getElem?_cellsOf, if_pos hlt, hrow, haddress]

end FlatBlocks

namespace Engine
open Instruction

/-- The last writer wins. After any words, from any memory and any selection, each row holds the
data of the last write that reached it and otherwise what it held before. Words that neither select
nor write change nothing, the engine only logs them, and the flat array serves every access. -/
theorem last_writer_wins (e : Engine) (ws : List Instruction) :
    let final := ws.foldl execute e
    (∀ (k : Fin 256) (row : Fin 1024), final.row k row =
      ((lastWrite? e.blocks.selection ws k row).map (·.data)).getD (e.row k row)) ∧
    final.blocks.selection = governing e.blocks.selection ws ∧
    (∀ (b : Blocks) (w : Instruction), w.isSelect = false → w.isWrite = false →
      b.execute w = b) ∧
    final = { e with blocks := final.blocks, executed := e.executed ++ ws } ∧
    (FlatBlocks.ofBlocks e.blocks).run ws = some (.ofBlocks final.blocks) ∧
    ∀ block < blockCount, ∀ address,
      (FlatBlocks.ofBlocks final.blocks).row? block address = some (final.row block address) := by
  intro final
  have hfinal : final = { e with blocks := e.blocks.run ws, executed := e.executed ++ ws } :=
    foldl_execute_eq ws e
  have hblocks : final.blocks = e.blocks.run ws := by rw [hfinal]
  refine ⟨?_, ?_, ?_, ?_, ?_, ?_⟩
  · intro k row
    have hk : blockAt k = k := Fin.ofNat_val_eq_self k
    have hrow : rowAt row = row := Fin.ofNat_val_eq_self row
    rw [Engine.row, Engine.row, hblocks, hk, hrow]
    exact Blocks.get_run_eq e.blocks ws k row
  · rw [hblocks]
    exact Blocks.selection_run e.blocks ws
  · intro b w hselect hwrite
    simp [Blocks.execute_eq, hselect, hwrite]
  · rw [hblocks]
    exact hfinal
  · rw [hblocks]
    exact FlatBlocks.run_ofBlocks e.blocks ws
  · intro block hblock address
    exact FlatBlocks.row?_ofBlocks final.blocks hblock address

end Engine

end Gemv
