import Gemv.Proofs.LoadImage
import Gemv.Proofs.Streaming
import Gemv.Proofs.WindowImages
import Mathlib.Data.List.FinRange

/-! The layout of a plan, and its counts.

Block `k` takes `g.piece values k` of a vector. A plan is a `layout`: the clear, then one `Fill` for
each block that has something to hold. Which fills those are is said by `Sparse` and computed by
`fillsOf`; that a load lays out just these (`sequence_eq_layout`) needs that a piece is zero exactly
if its rows are. `Stats.Counts` sets each count of a load against what it counts. -/
namespace Gemv

theorem lt_windowCount_iff {n : Nat} (hn : 0 < n) (length k : Nat) :
    k < (length + n - 1) / n ↔ k * n < length := by
  rw [Nat.lt_div_iff_mul_lt hn]
  omega

/-- The cut of a list, window by window. -/
theorem windows_eq_map_range {α : Type} {n : Nat} (hn : 0 < n) (xs : List α) :
    windows n xs =
      (List.range ((xs.length + n - 1) / n)).map fun k => (xs.drop (k * n)).take n := by
  apply List.ext_getElem?
  intro k
  have hcount := lt_windowCount_iff hn xs.length k
  rw [getElem?_windows hn, List.getElem?_map]
  by_cases hk : k * n < xs.length
  · rw [if_pos hk, List.getElem?_range (hcount.2 hk)]
    rfl
  · rw [if_neg hk, List.getElem?_eq_none (by simpa using fun h => hk (hcount.1 h))]
    rfl

/-- The values of a vector that go to block `k`. -/
def Geometry.piece (g : Geometry) (values : List Int16) (k : Nat) : List Int16 :=
  (values.drop (k * g.lanes)).take g.lanes

namespace Geometry

theorem length_piece_le (g : Geometry) (values : List Int16) (k : Nat) :
    (g.piece values k).length ≤ g.lanes := List.length_take_le ..

theorem piece_eq_nil {g : Geometry} {values : List Int16} {k : Nat}
    (h : values.length ≤ k * g.lanes) : g.piece values k = [] := by
  rw [piece, List.drop_eq_nil_of_le h, List.take_nil]

theorem Admits.piece {g : Geometry} {values : List Int16} (h : g.Admits values) (k : Nat) :
    ∀ v ∈ g.piece values k, g.Holds v :=
  fun v hv => h.fit v (List.mem_of_mem_drop (List.mem_of_mem_take hv))

theorem Admits.isZero_piece_iff {g : Geometry} {values : List Int16} (h : g.Admits values)
    (k : Nat) :
    (RowImage.ofWindow g.width (g.piece values k)).isZero = true ↔ ∀ v ∈ g.piece values k, v = 0 :=
  RowImage.isZero_ofWindow_iff (g.length_piece_le values k) (h.piece k)

end Geometry

/-- Words that write a row. -/
def Instruction.Kind.isWrite : Instruction.Kind → Bool
  | .write _ _ => true
  | _ => false

namespace LoadPlan

/-- What a load writes to one block after the clear: rows of the register, each with its data. -/
structure Fill (g : Geometry) where
  block : Fin 256
  rows : List (Fin g.width × UInt16)

section Layout

variable {α β : Type} {g : Geometry} (register : Fin g.registerCount) (fills : List (Fill g))

/-- The words of a load in their order, each written in some way: all blocks are selected and the
rows of the register cleared, then block after block is selected and filled. -/
def layout (all : α) (column : Fin 256 → α) (write : Fin 1024 → UInt16 → α) : List α :=
  all :: (List.finRange g.width).map (fun b => write (g.registerRow register b) 0) ++
    fills.flatMap fun f =>
      column f.block :: f.rows.map fun p => write (g.registerRow register p.1) p.2

theorem map_layout (f : α → β) (all : α) (column : Fin 256 → α) (write : Fin 1024 → UInt16 → α) :
    (layout register fills all column write).map f =
      layout register fills (f all) (fun k => f (column k)) fun row data => f (write row data) := by
  simp only [layout, List.map_append, List.map_cons, List.map_map, List.map_flatMap,
    Function.comp_def]

/-- Every word of a layout is decoded to what it was made for. -/
theorem map_kind_layout :
    (layout register fills .selectAll (fun k => .selectColumn k)
        fun row data => .write row data).map Instruction.kind =
      layout register fills .selectAll .selectColumn .write := by
  simp only [map_layout, Instruction.kind_selectAll, Instruction.kind_selectColumn,
    Instruction.kind_write]

end Layout

/-- The rows of a block that hold a bit of its piece. -/
def fill (g : Geometry) (values : List Int16) (k : Fin 256) : Fill g where
  block := k
  rows := ((List.finRange g.width).filter fun b : Fin g.width =>
    (g.piece values k).any (Lane.bit · b)).map fun b => (b, RowImage.row (g.piece values k) b)

/-- The blocks that a value other than zero goes to, filled. -/
def fillsOf (g : Geometry) (values : List Int16) : List (Fill g) :=
  ((List.finRange 256).filter fun k : Fin 256 =>
    (g.piece values k).any (· != 0)).map (fill g values)

section Blocks

variable {g : Geometry} {values : List Int16}

/-- The words after the clear, block after block; a block beyond the vector takes none. -/
theorem windowsWords_eq_flatMap (base : Nat) (hshort : values.length ≤ g.maxVectorLength) :
    windowsWords g base 0 (windows g.lanes values) =
      (List.finRange 256).flatMap fun k : Fin 256 =>
        windowWords base k (RowImage.ofWindow g.width (g.piece values k)) := by
  let wordsOf : Nat → List Instruction := fun k =>
    windowWords base k (RowImage.ofWindow g.width (g.piece values k))
  have hcount := (windowCount_le_iff g values.length).2 hshort
  obtain ⟨rest, hrest⟩ : ∃ rest, windowCount g values.length + rest = 256 :=
    ⟨256 - windowCount g values.length, Nat.add_sub_of_le hcount⟩
  have hbeyond :
      ((List.range rest).map (windowCount g values.length + ·)).flatMap wordsOf = [] := by
    rw [List.flatMap_eq_nil_iff]
    intro k hk
    obtain ⟨i, -, rfl⟩ := List.mem_map.1 hk
    have hcut := lt_windowCount_iff g.lanes_pos values.length (windowCount g values.length + i)
    have hpast := hcut.2.mt (Nat.not_lt.2 (Nat.le_add_right ..))
    have hzero : (RowImage.ofWindow g.width []).isZero = true :=
      (RowImage.isZero_ofWindow g.width []).2 fun _ _ => rfl
    simp only [wordsOf, Geometry.piece_eq_nil (Nat.le_of_not_lt hpast), windowWords, hzero, if_true]
  calc windowsWords g base 0 (windows g.lanes values)
      = (List.range (windowCount g values.length)).flatMap wordsOf := by
        rw [windowsWords, windows_eq_map_range g.lanes_pos, zipIdx_map_range, List.flatMap_map]
        rfl
    _ = (List.range 256).flatMap wordsOf := by
        rw [← hrest, List.range_add, List.flatMap_append, hbeyond, List.append_nil]
    _ = (List.finRange 256).flatMap fun k : Fin 256 => wordsOf k := by
        rw [← List.map_coe_finRange_eq_range, List.flatMap_map]

theorem flatMap_filter {α β : Type} (p : α → Bool) (f : α → List β) (xs : List α) :
    (xs.filter p).flatMap f = xs.flatMap fun x => if p x then f x else [] := by
  induction xs with
  | nil => rfl
  | cons x xs ih => by_cases hx : p x <;> simp [hx, ih]

theorem rowWords_piece (register : Fin g.registerCount) (k : Fin 256) :
    rowWords (register * g.width) (RowImage.ofWindow g.width (g.piece values k)) =
      (fill g values k).rows.map fun p => .write (g.registerRow register p.1) p.2 := by
  have hlen := Nat.le_trans (g.length_piece_le values k) g.lanes_le
  have hbits : ∀ b : Fin g.width, (RowImage.row (g.piece values k) b != 0) =
      (g.piece values k).any (Lane.bit · b) := by
    intro b
    rw [Bool.eq_iff_iff, bne_iff_ne, Ne, RowImage.row_eq_zero_iff hlen]
    simp
  rw [rowWords_ofWindow, Blocks.writes, ← List.map_coe_finRange_eq_range, List.filter_map,
    List.map_map, fill, List.map_map]
  simp only [Function.comp_def, hbits]
  rfl

/-- A block is passed over exactly if its piece is zero. -/
theorem windowWords_piece (register : Fin g.registerCount) (hvalues : g.Admits values)
    (k : Fin 256) :
    windowWords (register * g.width) k (RowImage.ofWindow g.width (g.piece values k)) =
      if (g.piece values k).any (· != 0) then
        .selectColumn k :: (fill g values k).rows.map fun p =>
          .write (g.registerRow register p.1) p.2
      else [] := by
  have hzero := hvalues.isZero_piece_iff k
  rw [windowWords, rowWords_piece]
  by_cases hany : (g.piece values k).any (· != 0) = true
  · obtain ⟨v, hv, hne⟩ := List.any_eq_true.1 hany
    rw [if_pos hany, if_neg fun h => bne_iff_ne.1 hne (hzero.1 h v hv)]
  · rw [if_neg hany, if_pos (hzero.2 (by simpa using hany))]

theorem sequence_eq_layout (register : Fin g.registerCount) (hvalues : g.Admits values) :
    sequence g (register * g.width) values =
      layout register (fillsOf g values) .selectAll (fun k => .selectColumn k)
        fun row data => .write row data := by
  have hclear : Instruction.clearRows (register * g.width) g.width =
      .selectAll :: (List.finRange g.width).map fun b => .write (g.registerRow register b) 0 := by
    rw [Instruction.clearRows, ← List.map_coe_finRange_eq_range, List.map_map]
    rfl
  rw [sequence_eq, hclear, windowsWords_eq_flatMap _ hvalues.short, layout, fillsOf,
    List.flatMap_map, flatMap_filter]
  simp only [windowWords_piece register hvalues]
  rfl

/-- Fills that give every block its piece of a vector, once the rows are cleared, with no word too
many: the blocks with a value other than zero, in ascending order, and in each of them the rows with
a bit set, in ascending order too. -/
structure Sparse (g : Geometry) (values : List Int16) (fills : List (Fill g)) : Prop where
  ascending : fills.Pairwise fun f f' => f.block < f'.block
  blocks : ∀ k : Fin 256, (∃ f ∈ fills, f.block = k) ↔ ∃ v ∈ g.piece values k, v ≠ 0
  rowsAscending : ∀ f ∈ fills, f.rows.Pairwise fun p p' => p.1 < p'.1
  rows : ∀ f ∈ fills, ∀ b : Fin g.width,
    (∃ p ∈ f.rows, p.1 = b) ↔ ∃ v ∈ g.piece values f.block, Lane.bit v b = true
  data : ∀ f ∈ fills, ∀ p ∈ f.rows, p.2 ≠ 0 ∧ p.2.toNat < 2 ^ (g.piece values f.block).length
  bits : ∀ f ∈ fills, ∀ p ∈ f.rows, ∀ i,
    p.2.toNat.testBit i = (g.piece values f.block)[i]?.any (Lane.bit · p.1)

theorem mem_fillsOf {f : Fill g} :
    f ∈ fillsOf g values ↔ (∃ v ∈ g.piece values f.block, v ≠ 0) ∧ f = fill g values f.block := by
  simp only [fillsOf, List.mem_map, List.mem_filter, List.mem_finRange, true_and, List.any_eq_true,
    bne_iff_ne]
  constructor
  · rintro ⟨k, hk, rfl⟩
    exact ⟨hk, rfl⟩
  · rintro ⟨hk, hf⟩
    exact ⟨f.block, hk, hf.symm⟩

theorem mem_rows_iff {f : Fill g} (hf : f ∈ fillsOf g values) {p : Fin g.width × UInt16} :
    p ∈ f.rows ↔
      (∃ v ∈ g.piece values f.block, Lane.bit v p.1 = true) ∧
        p.2 = RowImage.row (g.piece values f.block) p.1 := by
  obtain ⟨b, data⟩ := p
  rw [(mem_fillsOf.1 hf).2]
  simp only [fill, List.mem_map, List.mem_filter, List.mem_finRange, true_and, List.any_eq_true,
    Prod.mk.injEq]
  constructor
  · rintro ⟨_, hbit, rfl, rfl⟩
    exact ⟨hbit, rfl⟩
  · rintro ⟨hbit, rfl⟩
    exact ⟨b, hbit, rfl, rfl⟩

theorem sparse_fillsOf (g : Geometry) (values : List Int16) :
    Sparse g values (fillsOf g values) := by
  have hlen : ∀ k, (g.piece values k).length ≤ 16 := fun k =>
    Nat.le_trans (g.length_piece_le values k) g.lanes_le
  constructor
  case ascending =>
      apply List.Pairwise.map (R := (· < ·))
      · intro k k' hlt
        exact hlt
      · exact (List.pairwise_lt_finRange 256).filter _
  case blocks =>
      intro k
      constructor
      · rintro ⟨f, hf, rfl⟩
        exact (mem_fillsOf.1 hf).1
      · intro hk
        exact ⟨fill g values k, mem_fillsOf.2 ⟨hk, rfl⟩, rfl⟩
  case rowsAscending =>
      intro f hf
      rw [(mem_fillsOf.1 hf).2]
      apply List.Pairwise.map (R := (· < ·))
      · intro b b' hlt
        exact hlt
      · exact (List.pairwise_lt_finRange g.width).filter _
  case rows =>
      intro f hf b
      constructor
      · rintro ⟨p, hp, rfl⟩
        exact ((mem_rows_iff hf).1 hp).1
      · intro hb
        exact ⟨(b, RowImage.row (g.piece values f.block) b), (mem_rows_iff hf).2 ⟨hb, rfl⟩, rfl⟩
  case data =>
      intro f hf p hp
      obtain ⟨⟨v, hv, hbit⟩, hdata⟩ := (mem_rows_iff hf).1 hp
      rw [hdata]
      constructor
      · intro hzero
        have hlow := (RowImage.row_eq_zero_iff (hlen _) _).1 hzero v hv
        exact absurd (hlow.symm.trans hbit) (by decide)
      · rw [RowImage.toNat_row (hlen _)]
        simpa using Bits.pack_lt ((g.piece values f.block).map (Lane.bit · p.1))
  case bits =>
      intro f hf p hp i
      rw [((mem_rows_iff hf).1 hp).2]
      exact RowImage.testBit_row (hlen _) _ i

/-- The row writes of one window are its rows that hold a bit. -/
theorem countP_windowWords (base block : Nat) (image : RowImage) :
    (windowWords base block image).countP (·.kind.isWrite) = image.nonZeroCount := by
  rw [windowWords]
  split
  · rename_i hzero
    exact (nonZeroCount_of_isZero hzero).symm
  · have hrows : (rowWords base image).countP (·.kind.isWrite) = (rowWords base image).length := by
      rw [List.countP_eq_length]
      intro w hw
      obtain ⟨p, -, rfl⟩ := List.mem_map.1 hw
      rw [Instruction.kind_write_wrapped]
      rfl
    rw [List.countP_cons, hrows, length_rowWords, Instruction.kind_selectColumn_wrapped]
    rfl

theorem countP_windowsWords (base first : Nat) (cut : List (List Int16)) :
    (windowsWords g base first cut).countP (·.kind.isWrite) =
      total ((cut.map (RowImage.ofWindow g.width)).map (·.nonZeroCount)) := by
  induction cut generalizing first with
  | nil => rfl
  | cons window cut ih =>
      rw [windowsWords_cons, List.countP_append, countP_windowWords, ih, List.map_cons,
        List.map_cons, total_cons]

theorem countP_isZero_images (hvalues : g.Admits values) :
    (images g values).countP (·.isZero) =
      (List.range (windowCount g values.length)).countP fun k =>
        (g.piece values k).all (· == 0) := by
  rw [images, windows_eq_map_range g.lanes_pos, List.map_map, List.countP_map]
  apply List.countP_congr
  intro k _
  exact (hvalues.isZero_piece_iff k).trans (by simp)

/-- The counts of a plan, each against what it counts. -/
structure Stats.Counts (st : Stats) (g : Geometry) (values : List Int16) (ws : List Instruction) :
    Prop where
  windows : st.windows = (values.length + g.lanes - 1) / g.lanes
  zeroWindows : st.zeroWindows =
    (List.range st.windows).countP fun k => (g.piece values k).all (· == 0)
  rowWrites : st.rowWrites = (ws.drop (1 + g.width)).countP (·.kind.isWrite)
  instructions : st.instructions = 1 + g.width + (st.windows - st.zeroWindows) + st.rowWrites
  length : st.instructions = ws.length

theorem stats_eq_ok (register : Fin g.registerCount) (hvalues : g.Admits values) :
    stats g register values =
      .ok (counts g values (sequence g (register * g.width) values).length) := by
  rw [stats_eq, check_eq_ok_iff.2 ⟨register.isLt, hvalues, rfl⟩]
  rfl

theorem counts_sequence (hvalues : g.Admits values) (base : Nat) :
    (counts g values (sequence g base values).length).Counts g values (sequence g base values) := by
  have hclear : (Instruction.clearRows base g.width).length = 1 + g.width := by
    simp [Instruction.clearRows, Nat.add_comm]
  constructor
  case windows => rfl
  case zeroWindows => exact countP_isZero_images hvalues
  case rowWrites => rw [sequence_eq, List.drop_left' hclear, countP_windowsWords, counts, images]
  case instructions => exact length_sequence g base values
  case length => rfl

theorem load_of_admits (register : Fin g.registerCount) (hvalues : g.Admits values) {σ : Type}
    [Device σ] {t : Link σ} {n : Nat} (hload : (t.load g register values).1 = .ok n) :
    n = (sequence g (register * g.width) values).length ∧
      (t.load g register values).2 =
        (t.pushAll (sequence g (register * g.width) values)).2.note
          (.loaded register (counts g values n)) := by
  rw [Link.load_eq, words_eq_ok register hvalues] at hload ⊢
  cases hpush : t.pushAll (sequence g (register * g.width) values) with
  | mk result u =>
      cases result with
      | error e => simp [hpush] at hload
      | ok m =>
          have hm := Sink.count_of_sendFrom hpush
          rw [Nat.zero_add] at hm
          simp only [hpush] at hload ⊢
          cases hload
          exact ⟨hm, rfl⟩

end Blocks

/-- The plan of an accepted load, word by word. It clears the rows of the register in all blocks and
then selects, in ascending order, just the blocks whose piece of the vector is not zero; in each it
writes, in ascending order, just the rows in which a value of the piece has a bit. Every row and
every block number fits its field, so each word is decoded to what it was made for. The counts agree
with the plan, and so do those that a load keeps while its words go out. -/
theorem plan_laid_out (g : Geometry) (register : Fin g.registerCount) {values : List Int16}
    (hvalues : g.Admits values) :
    ∃ ws fills st, words g register values = .ok ws ∧ stats g register values = .ok st ∧
      ws = layout register fills .selectAll (fun k => .selectColumn k)
        (fun row data => .write row data) ∧
      ws.map Instruction.kind = layout register fills .selectAll .selectColumn .write ∧
      Sparse g values fills ∧ st.Counts g values ws ∧
      ∀ {σ : Type} [Device σ] (t : Link σ) (n : Nat), (t.load g register values).1 = .ok n →
        n = st.instructions ∧
          (t.load g register values).2 = (t.pushAll ws).2.note (.loaded register st) := by
  have hlayout := sequence_eq_layout register hvalues
  refine ⟨_, fillsOf g values, _, words_eq_ok register hvalues, stats_eq_ok register hvalues,
    hlayout, ?_, sparse_fillsOf g values, counts_sequence hvalues _, ?_⟩
  · rw [hlayout]
    exact map_kind_layout register (fillsOf g values)
  · intro σ _ t n hload
    obtain ⟨rfl, hloaded⟩ := load_of_admits register hvalues hload
    exact ⟨rfl, hloaded⟩

/-- Three lanes of five bits: a full window, a zero window and a short one at the limits. -/
theorem plan_laid_out_zero_window :
    let g : Geometry := ⟨3, 5, by decide, by decide, by decide, by decide⟩
    let values : List Int16 := [1, -2, 3, 0, 0, 0, -16, 15]
    g.Admits values ∧ stats g 203 values = .ok ⟨18, 3, 1, 10⟩ ∧
      ∃ ws fills, words g 203 values = .ok ws ∧ Sparse g values fills ∧
        ws.map Instruction.kind =
          layout (⟨203, by decide⟩ : Fin g.registerCount) fills .selectAll .selectColumn
            .write := by
  intro g values
  have hvalues : g.Admits values := ⟨by decide, by simp [values, g]⟩
  have hwindows : windows g.lanes values = [[1, -2, 3], [0, 0, 0], [-16, 15]] := by
    simp only [g, values]
    rw [windows_of_ne_nil (by decide) (by simp), windows_of_ne_nil (by decide) (by simp),
      windows_of_ne_nil (by decide) (by simp)]
    simp
  have hstats : stats g 203 values = .ok ⟨18, 3, 1, 10⟩ := by
    rw [stats_eq, check_eq_ok_iff.2 ⟨by decide, hvalues, rfl⟩]
    simp only [Except.map, length_sequence, counts, images, hwindows]
    simp only [values, g]
    rfl
  obtain ⟨ws, fills, st, hwords, -, -, hkinds, hsparse, -⟩ :=
    plan_laid_out g ⟨203, by decide⟩ hvalues
  exact ⟨hvalues, hstats, ws, fills, hwords, hsparse, hkinds⟩

end LoadPlan

end Gemv
