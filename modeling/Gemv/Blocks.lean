import Gemv.Instruction

/-! The processing blocks: their memories, the current selection, and what an instruction does to
both.

Memory is kept by address, one row across all blocks, so that a write to every block replaces a
single entry. `get_write` is all that later proofs need to know of the layout. -/
namespace Gemv

/-- The blocks that the next write goes to. -/
inductive Selection where
  | none
  | all
  | column (block : Fin 256)
  deriving DecidableEq, Repr

def Selection.covers : Selection → Fin 256 → Bool
  | .none, _ => false
  | .all, _ => true
  | .column k, block => k == block

/-- Rows of every block, by address. -/
structure BlockMemory where
  rows : Vector (Vector UInt16 256) 1024

namespace BlockMemory

def filled (pattern : UInt16) : BlockMemory :=
  ⟨Vector.replicate 1024 (Vector.replicate 256 pattern)⟩

def get (m : BlockMemory) (block : Fin 256) (row : Fin 1024) : UInt16 := m.rows[row][block]

def write (m : BlockMemory) (selection : Selection) (row : Fin 1024) (data : UInt16) : BlockMemory :=
  match selection with
  | .none => m
  | .all => ⟨m.rows.set row (Vector.replicate 256 data)⟩
  | .column block => ⟨m.rows.set row (m.rows[row].set block data)⟩

@[simp] theorem get_filled (pattern : UInt16) (block : Fin 256) (row : Fin 1024) :
    (filled pattern).get block row = pattern := by
  simp [get, filled]

theorem get_write (m : BlockMemory) (selection : Selection) (row : Fin 1024) (data : UInt16)
    (block : Fin 256) (other : Fin 1024) :
    (m.write selection row data).get block other =
      if selection.covers block ∧ row = other then data else m.get block other := by
  cases selection with
  | none => simp [write, Selection.covers]
  | all =>
    by_cases h : row = other
    · subst h; simp [get, write, Selection.covers]
    · simp [get, write, Selection.covers, h, Fin.val_ne_of_ne h]
  | column k =>
    by_cases h : row = other
    · subst h
      by_cases hk : k = block
      · subst hk; simp [get, write, Selection.covers]
      · simp [get, write, Selection.covers, hk, Fin.val_ne_of_ne hk]
    · simp [get, write, Selection.covers, h, Fin.val_ne_of_ne h]

/-- A checksum of the whole memory: block after block, row after row, in steps of 31. -/
def checksum (m : BlockMemory) : UInt32 :=
  (List.finRange 256).foldl (fun h block =>
    (List.finRange 1024).foldl (fun h row => h * 31 + (m.get block row).toUInt32) h) 0

end BlockMemory

structure Blocks where
  memory : BlockMemory
  selection : Selection

namespace Blocks

def initial : Blocks := ⟨.filled 0, .none⟩

instance : Inhabited Blocks := ⟨initial⟩

/-- Selects blocks or writes a row; every other word leaves the blocks alone. -/
def execute (b : Blocks) (w : Instruction) : Blocks :=
  match w.kind with
  | .selectAll => { b with selection := .all }
  | .selectColumn block => { b with selection := .column block }
  | .write row data =>
    match b with
    | ⟨memory, selection⟩ => ⟨memory.write selection row data, selection⟩
  | .nop | .vectorSync | .other _ _ => b

def run (b : Blocks) (words : List Instruction) : Blocks := words.foldl execute b

@[simp] theorem run_nil (b : Blocks) : b.run [] = b := rfl

@[simp] theorem run_cons (b : Blocks) (w : Instruction) (ws : List Instruction) :
    b.run (w :: ws) = (b.execute w).run ws := rfl

theorem run_append (b : Blocks) (ws vs : List Instruction) :
    b.run (ws ++ vs) = (b.run ws).run vs := List.foldl_append

end Blocks

end Gemv
