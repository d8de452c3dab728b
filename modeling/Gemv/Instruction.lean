import Gemv.Error

/-! Instruction words of the engine.

A word has a submodule code in its two highest bits, then a four-bit opcode, a ten-bit row address
and sixteen data bits. `ofFields` lays the fields out and the accessors read them back
(`submodule_ofFields` and its companions), so `kind` recovers what an encoder meant. -/
namespace Gemv

structure Instruction where
  raw : UInt32
  deriving DecidableEq, Repr, Inhabited

namespace Instruction

/-- What the engine does with a word. -/
inductive Kind where
  | nop
  /-- Write one row of every selected block. -/
  | write (row : Fin 1024) (data : UInt16)
  | selectAll
  | selectColumn (block : Fin 256)
  /-- Wait for the shift register. -/
  | vectorSync
  /-- A word without an effect on the blocks. -/
  | other (submodule opcode : Nat)
  deriving DecidableEq, Repr

def ofFields (submodule opcode address data : Nat) : Instruction :=
  ⟨UInt32.ofNat (submodule * 2 ^ 30 + opcode * 2 ^ 26 + address * 2 ^ 16 + data)⟩

def submodule (w : Instruction) : Nat := w.raw.toNat / 2 ^ 30

def opcode (w : Instruction) : Nat := w.raw.toNat / 2 ^ 26 % 16

def address (w : Instruction) : Fin 1024 := rowAt (w.raw.toNat / 2 ^ 16)

def data (w : Instruction) : UInt16 := UInt16.ofNat w.raw.toNat

def block (w : Instruction) : Fin 256 := blockAt w.raw.toNat

/-- Both the row flag and the column flag of a select word are high. -/
def coversAll (w : Instruction) : Bool := w.raw.toNat / 2 ^ 22 % 4 == 3

def kind (w : Instruction) : Kind :=
  match w.submodule, w.opcode with
  | 0, 0 => if w.raw = 0 then .nop else .other 0 0
  | 0, 1 => .write w.address w.data
  | 0, 6 => if w.coversAll then .selectAll else .selectColumn w.block
  | 1, 0 => .vectorSync
  | s, o => .other s o

/-- The assembler's name of the opcode, where it has one. -/
def mnemonic? (w : Instruction) : Option String :=
  match w.submodule, w.opcode with
  | 0, 0 => some "MV_NOP"
  | 0, 1 => some "MV_WRITE"
  | 0, 3 => some "MV_MULT"
  | 0, 4 => some "MV_ACCUM_ROW"
  | 0, 5 => some "MV_ADD"
  | 0, 6 => some "MV_SELECT"
  | 0, 7 => some "MV_MOV_OFFSET"
  | 1, 0 => some "VV_SYNC"
  | 1, 1 => some "VV_SERIAL_EN"
  | 1, 2 => some "VV_PARALLEL_EN"
  | _, _ => none

def selectAll : Instruction := ofFields 0 6 0xC0 0

def selectColumn (block : Nat) : Instruction := ofFields 0 6 0 (block % 256)

/-- The address keeps its low ten bits. -/
def write (row : Nat) (data : UInt16) : Instruction := ofFields 0 1 (row % 1024) data.toNat

def nop : Instruction := ofFields 0 0 0 0

/-- Two empty cycles, enough for the array to settle. -/
def matrixSync : List Instruction := [nop, nop]

def vectorSync : Instruction := ofFields 1 0 0 0

/-- Words that zero the rows `base, …, base + width - 1` of every block. -/
def clearRows (base width : Nat) : List Instruction :=
  selectAll :: (List.range width).map fun b => write (base + b) 0

/-- Words that zero any `width` rows from a sixteen-bit address on. The address counter moves past
each row it names, so the last row of the sixteen-bit range overflows it. -/
def clearRows? (base : UInt16) (width : Nat) : Except Overflow (List Instruction) :=
  if base.toNat + width < 2 ^ 16 then .ok (clearRows base.toNat width) else .error .addition

def hex (w : Instruction) : String := Text.hexadecimal 8 w.raw.toNat

/-- The decoded form of the word; empty if there is none. -/
def decoded (w : Instruction) : String :=
  match w.kind with
  | .write row data =>
    "MV_WRITE addr=" ++ Text.decimal row.val ++ " data=" ++ Text.hexadecimal 4 data.toNat
  | .selectAll => "MV_SELECT_ALL"
  | .selectColumn block => "MV_SELECT_COL col=" ++ Text.decimal block.val
  | _ => w.mnemonic?.getD ""

/-- The word in hexadecimal, followed by its decoded form. -/
def render (w : Instruction) : String :=
  if w.decoded.isEmpty then w.hex else w.hex ++ "  " ++ w.decoded

section Fields

variable {s o a d : Nat} (hs : s < 4) (ho : o < 16) (ha : a < 1024) (hd : d < 65536)

include hs ho ha hd

theorem toNat_ofFields :
    (ofFields s o a d).raw.toNat = s * 2 ^ 30 + o * 2 ^ 26 + a * 2 ^ 16 + d := by
  simp only [ofFields, UInt32.toNat_ofNat']
  omega

theorem submodule_ofFields : (ofFields s o a d).submodule = s := by
  simp only [submodule, toNat_ofFields hs ho ha hd]
  omega

theorem opcode_ofFields : (ofFields s o a d).opcode = o := by
  simp only [opcode, toNat_ofFields hs ho ha hd]
  omega

theorem address_ofFields : (ofFields s o a d).address.val = a := by
  simp only [address, toNat_ofFields hs ho ha hd, val_rowAt]
  omega

theorem data_ofFields : (ofFields s o a d).data.toNat = d := by
  simp only [data, toNat_ofFields hs ho ha hd, UInt16.toNat_ofNat']
  omega

theorem block_ofFields : (ofFields s o a d).block.val = d % 256 := by
  simp only [block, toNat_ofFields hs ho ha hd, val_blockAt]
  omega

end Fields

@[simp] theorem kind_selectAll : selectAll.kind = .selectAll := by decide

@[simp] theorem kind_nop : nop.kind = .nop := by decide

@[simp] theorem kind_vectorSync : vectorSync.kind = .vectorSync := by decide

theorem kind_selectColumn (block : Fin 256) :
    (selectColumn block).kind = .selectColumn block := by
  have hb : (block : Nat) % 256 < 65536 := by omega
  have hs := submodule_ofFields (s := 0) (o := 6) (a := 0) (by decide) (by decide) (by decide) hb
  have ho := opcode_ofFields (s := 0) (o := 6) (a := 0) (by decide) (by decide) (by decide) hb
  have hk := block_ofFields (s := 0) (o := 6) (a := 0) (by decide) (by decide) (by decide) hb
  have hn := toNat_ofFields (s := 0) (o := 6) (a := 0) (by decide) (by decide) (by decide) hb
  have hc : (selectColumn block).coversAll = false := by
    simp only [coversAll, selectColumn, hn, beq_eq_false_iff_ne]
    omega
  simp only [selectColumn] at hc ⊢
  simp only [kind, hs, ho, hc]
  simp only [Bool.false_eq_true, if_false, Kind.selectColumn.injEq]
  apply Fin.ext
  omega

theorem kind_write (row : Fin 1024) (data : UInt16) :
    (write row data).kind = .write row data := by
  have hr : (row : Nat) % 1024 < 1024 := by omega
  have hd : data.toNat < 65536 := data.toNat_lt
  have hs := submodule_ofFields (s := 0) (o := 1) (by decide) (by decide) hr hd
  have ho := opcode_ofFields (s := 0) (o := 1) (by decide) (by decide) hr hd
  have ha := address_ofFields (s := 0) (o := 1) (by decide) (by decide) hr hd
  have hv := data_ofFields (s := 0) (o := 1) (by decide) (by decide) hr hd
  simp only [write, kind, hs, ho, Kind.write.injEq]
  exact ⟨Fin.ext (by omega), UInt16.toNat_inj.1 hv⟩

/-- A column number that is too large wraps around. -/
theorem kind_selectColumn_wrapped (block : Nat) :
    (selectColumn block).kind = .selectColumn (blockAt block) := by
  have hwrap : selectColumn block = selectColumn (blockAt block) := by
    rw [selectColumn, selectColumn, val_blockAt, Nat.mod_mod]
  rw [hwrap, kind_selectColumn]

theorem kind_write_wrapped (row : Nat) (data : UInt16) :
    (write row data).kind = .write (rowAt row) data := by
  have hwrap : write row data = write (rowAt row) data := by
    rw [write, write, val_rowAt, Nat.mod_mod]
  rw [hwrap, kind_write]

end Instruction

end Gemv
