import Gemv.Proofs.PlanLayout
import Gemv.Proofs.VectorRegisters
import Mathlib.Data.List.DropRight
import Mathlib.Data.List.GetD

/-! What a plan tells of its vector.

A block takes from a vector the lanes that are its own, and lanes past the end count as zero. So
vectors that differ in trailing zeros have the same plan (`sequence_congr`), even if those start
another window. No other two vectors do: the words of a plan, executed, leave a register from which
the vector is read back (`getD_eq_of_sequence_eq`). -/
namespace Gemv

section TrailingZeros

variable {xs ys : List Int16}

theorem getD_rdropWhile (xs : List Int16) (i : Nat) :
    (xs.rdropWhile (· == 0)).getD i 0 = xs.getD i 0 := by
  have hzero : ∀ x ∈ xs.rtakeWhile (· == 0), x = 0 := fun x hx => by
    simpa using List.mem_rtakeWhile_imp hx
  have hsplit : xs.rdropWhile (· == 0) ++ xs.rtakeWhile (· == 0) = xs :=
    List.rdropWhile_append_rtakeWhile
  conv_rhs => rw [← hsplit]
  by_cases hi : i < (xs.rdropWhile (· == 0)).length
  · rw [List.getD_append _ _ _ _ hi]
  · rw [List.getD_append_right _ _ _ _ (Nat.le_of_not_lt hi),
      List.getD_eq_default _ _ (Nat.le_of_not_lt hi)]
    rw [List.getD_eq_getElem?_getD]
    cases hx : (xs.rtakeWhile (· == 0))[i - (xs.rdropWhile (· == 0)).length]? with
    | none => rfl
    | some x => exact (hzero x (List.mem_of_getElem? hx)).symm

/-- A list that does not end in a zero is no longer than any list with the same numbers. -/
theorem length_le_of_getD_eq (hlast : ∀ hx : xs ≠ [], xs.getLast hx ≠ 0)
    (h : ∀ i, xs.getD i 0 = ys.getD i 0) : xs.length ≤ ys.length := by
  by_contra hlonger
  have hne : xs ≠ [] := by
    rintro rfl
    exact hlonger (Nat.zero_le _)
  apply hlast hne
  have hend := h (xs.length - 1)
  have hpos := List.length_pos_iff.2 hne
  rw [List.getD_eq_getElem _ _ (by omega), List.getD_eq_default _ _ (by omega)] at hend
  rw [List.getLast_eq_getElem]
  exact hend

theorem rdropWhile_eq_iff :
    xs.rdropWhile (· == 0) = ys.rdropWhile (· == 0) ↔ ∀ i, xs.getD i 0 = ys.getD i 0 := by
  constructor
  · intro h i
    rw [← getD_rdropWhile xs, ← getD_rdropWhile ys, h]
  · intro h
    have hsame : ∀ i, (xs.rdropWhile (· == 0)).getD i 0 = (ys.rdropWhile (· == 0)).getD i 0 := by
      intro i
      rw [getD_rdropWhile, getD_rdropWhile, h]
    have hlast : ∀ zs : List Int16, ∀ hz : zs.rdropWhile (· == 0) ≠ [],
        (zs.rdropWhile (· == 0)).getLast hz ≠ 0 := by
      intro zs hz
      simpa using List.rdropWhile_last_not (· == 0) zs hz
    have hlength : (xs.rdropWhile (· == 0)).length = (ys.rdropWhile (· == 0)).length :=
      Nat.le_antisymm (length_le_of_getD_eq (hlast xs) hsame)
        (length_le_of_getD_eq (hlast ys) fun i => (hsame i).symm)
    apply List.ext_getElem hlength
    intro i hi hi'
    have hnumber := hsame i
    rwa [List.getD_eq_getElem _ _ hi, List.getD_eq_getElem _ _ hi'] at hnumber

end TrailingZeros

namespace LoadPlan

variable {g : Geometry} {values values' : List Int16}

theorem testBit_row_piece (values : List Int16) (k b i : Nat) :
    (RowImage.row (g.piece values k) b).toNat.testBit i =
      (decide (i < g.lanes) && Lane.bit (values.getD (k * g.lanes + i) 0) b) := by
  rw [RowImage.testBit_row (Nat.le_trans (g.length_piece_le values k) g.lanes_le), Geometry.piece,
    List.getElem?_take, List.getElem?_drop, List.getD_eq_getElem?_getD]
  by_cases hi : i < g.lanes
  · cases values[k * g.lanes + i]? <;> simp [hi, Lane.bit]
  · simp [hi]

/-- The words of a window come from its rows alone, however many lanes these stand for. -/
theorem windowWords_congr (base block : Nat) {image image' : RowImage}
    (h : image.rows = image'.rows) :
    windowWords base block image = windowWords base block image' := by
  obtain ⟨rows, lanes⟩ := image
  obtain ⟨rows', lanes'⟩ := image'
  obtain rfl : rows = rows' := h
  rfl

theorem sequence_congr (base : Nat) (hshort : values.length ≤ g.maxVectorLength)
    (hshort' : values'.length ≤ g.maxVectorLength) (h : ∀ i, values.getD i 0 = values'.getD i 0) :
    sequence g base values = sequence g base values' := by
  rw [sequence_eq, sequence_eq, windowsWords_eq_flatMap base hshort,
    windowsWords_eq_flatMap base hshort']
  congr 1
  apply List.flatMap_congr
  intro k _
  apply windowWords_congr
  apply List.map_congr_left
  intro b _
  apply UInt16.toNat_inj.1
  apply Nat.eq_of_testBit_eq
  intro i
  rw [testBit_row_piece, testBit_row_piece, h]

/-- The first row that a plan clears is the first one of its register. -/
theorem getElem?_sequence_one (base : Nat) (values : List Int16) :
    (sequence g base values)[1]? = some (.write base 0) := by
  obtain ⟨n, hn⟩ : ∃ n, g.width = n + 1 := ⟨g.width - 1, by have := g.width_pos; omega⟩
  simp [sequence_eq, Instruction.clearRows, hn, List.range_succ_eq_map]

theorem register_eq_of_sequence_eq {register register' : Fin g.registerCount}
    (h : sequence g (register * g.width) values = sequence g (register' * g.width) values') :
    register = register' := by
  have hword := congrArg (·[1]?) h
  simp only [getElem?_sequence_one, Option.some.injEq] at hword
  have hkind := congrArg Instruction.kind hword
  rw [Instruction.kind_write_wrapped, Instruction.kind_write_wrapped] at hkind
  have hrow : register * g.width % 1024 = register' * g.width % 1024 :=
    congrArg Fin.val (Instruction.Kind.write.inj hkind).1
  have hend := g.base_add_width_le register.isLt
  have hend' := g.base_add_width_le register'.isLt
  have hpos := g.width_pos
  simp only [rowCount] at hend hend'
  rw [Nat.mod_eq_of_lt (by omega), Nat.mod_eq_of_lt (by omega)] at hrow
  exact Fin.ext (Nat.eq_of_mul_eq_mul_right hpos hrow)

/-- Two vectors with one plan are read back alike, as one register holds both. -/
theorem getD_eq_of_sequence_eq (register : Fin g.registerCount) (hvalues : g.Admits values)
    (hvalues' : g.Admits values')
    (h : sequence g (register * g.width) values = sequence g (register * g.width) values')
    (i : Nat) :
    values.getD i 0 = values'.getD i 0 := by
  let e : Engine := { Engine.new g with
    blocks := Blocks.initial.run (sequence g (register * g.width) values) }
  have hstores : Stores g register values Blocks.initial.memory e.blocks.memory :=
    stores_run_sequence register hvalues.short Blocks.initial
  have hstores' : Stores g register values' Blocks.initial.memory e.blocks.memory := by
    simp only [e, h]
    exact stores_run_sequence register hvalues'.short Blocks.initial
  by_cases hi : i < g.maxVectorLength
  · calc values.getD i 0 = e.lane (register * g.width) i :=
          (Engine.lane_stored rfl hvalues hstores hi).symm
      _ = values'.getD i 0 := Engine.lane_stored rfl hvalues' hstores' hi
  · have hpast := Nat.le_of_not_lt hi
    rw [List.getD_eq_default _ _ (Nat.le_trans hvalues.short hpast),
      List.getD_eq_default _ _ (Nat.le_trans hvalues'.short hpast)]

theorem sequence_eq_iff {register register' : Fin g.registerCount} (hvalues : g.Admits values)
    (hvalues' : g.Admits values') :
    sequence g (register * g.width) values = sequence g (register' * g.width) values' ↔
      register = register' ∧ values.rdropWhile (· == 0) = values'.rdropWhile (· == 0) := by
  rw [rdropWhile_eq_iff]
  constructor
  · intro h
    obtain rfl := register_eq_of_sequence_eq h
    exact ⟨rfl, getD_eq_of_sequence_eq register hvalues hvalues' h⟩
  · rintro ⟨rfl, h⟩
    exact sequence_congr _ hvalues.short hvalues'.short h

theorem clearWords_eq_ok (register : Fin g.registerCount) :
    clearWords g register = .ok (sequence g (register * g.width) []) := by
  have hclear : (RegisterCall.clear register).Admissible g :=
    ⟨register.isLt, RegisterCall.admits_nil⟩
  exact RegisterCall.words_eq_ok hclear

theorem admits_append_zeros (hvalues : g.Admits values) {n : Nat}
    (hlength : values.length + n ≤ g.maxVectorLength) :
    g.Admits (values ++ List.replicate n 0) := by
  constructor
  · simpa using hlength
  · intro v hv
    rcases List.mem_append.1 hv with hv | hv
    · exact hvalues.fit v hv
    · rw [List.eq_of_mem_replicate hv]
      exact (g.fits_iff_holds 0).1 (Lane.fits_zero g.width_pos g.width_le)

/-- The plans of two accepted loads are the same exactly if the registers are and the vectors are
without their trailing zeros. So a plan clears its register and does nothing else exactly if the
vector is zero, and zeros at the end of a vector make no difference as long as it fits. -/
theorem plans_faithful (g : Geometry) (register register' : Fin g.registerCount)
    {values values' : List Int16} (hvalues : g.Admits values) (hvalues' : g.Admits values') :
    ∃ ws ws', words g register values = .ok ws ∧ words g register' values' = .ok ws' ∧
      (ws = ws' ↔
        register = register' ∧ values.rdropWhile (· == 0) = values'.rdropWhile (· == 0)) ∧
      (clearWords g register = .ok ws ↔ ∀ v ∈ values, v = 0) ∧
      ∀ n, values.length + n ≤ g.maxVectorLength →
        words g register (values ++ List.replicate n 0) = .ok ws := by
  refine ⟨_, _, words_eq_ok register hvalues, words_eq_ok register' hvalues',
    sequence_eq_iff hvalues hvalues', ?_, ?_⟩
  · rw [clearWords_eq_ok, Except.ok.injEq, sequence_eq_iff RegisterCall.admits_nil hvalues,
      List.rdropWhile_nil, eq_comm (a := []), List.rdropWhile_eq_nil_iff]
    simp
  · intro n hlength
    have hpadded := admits_append_zeros hvalues hlength
    rw [words_eq_ok register hpadded]
    congr 1
    apply (sequence_eq_iff hpadded hvalues).2
    refine ⟨rfl, rdropWhile_eq_iff.2 ?_⟩
    intro i
    by_cases hi : i < values.length
    · rw [List.getD_append _ _ _ _ hi]
    · have hpast := Nat.le_of_not_lt hi
      rw [List.getD_append_right _ _ _ _ hpast, List.getD_eq_default _ _ hpast,
        List.getD_eq_getElem?_getD, List.getElem?_getD_replicate_default_eq]

/-- Three lanes of five bits: a zero that starts a second window leaves no trace, a value that moves
to another lane does. -/
theorem plans_faithful_next_window :
    let g : Geometry := ⟨3, 5, by decide, by decide, by decide, by decide⟩
    g.Admits [1, 0, -2, 0] ∧ g.Admits [1, 0, -2] ∧ g.Admits [1, -2, 0] ∧
      words g 7 [1, 0, -2, 0] = words g 7 [1, 0, -2] ∧
      words g 7 [1, -2, 0] ≠ words g 7 [1, 0, -2] := by
  intro g
  have hlong : g.Admits [1, 0, -2, 0] := ⟨by decide, by simp [g]⟩
  have hfull : g.Admits [1, 0, -2] := ⟨by decide, by simp [g]⟩
  have hmoved : g.Admits [1, -2, 0] := ⟨by decide, by simp [g]⟩
  let register : Fin g.registerCount := ⟨7, by decide⟩
  obtain ⟨ws, ws', hwords, hwords', hiff, -⟩ := plans_faithful g register register hlong hfull
  obtain ⟨vs, vs', hother, hother', hdiffer, -⟩ := plans_faithful g register register hmoved hfull
  refine ⟨hlong, hfull, hmoved, ?_, ?_⟩
  · rw [hwords, hwords', hiff.2 ⟨rfl, by decide⟩]
  · rw [hother, hother', Ne, Except.ok.injEq, hdiffer]
    decide

end LoadPlan

end Gemv
