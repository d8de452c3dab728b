import Gemv.Proofs.Schedules

/-! Loading a register again.

A load has no rollback: cut off anywhere, it leaves some rows cleared and some written. But every
word of it writes inside its register, if at all (`staysWithin_sequence`), so whatever part of it
ran has changed no other row, and the next load of the register clears that away. Words of the
first load that are still pending run before those of the second. -/
namespace Gemv

namespace Instruction

/-- A word that writes to none but the given rows. -/
def StaysWithin (base width : Nat) (w : Instruction) : Prop :=
  ∀ row data, w.kind = .write row data → base ≤ (row : Nat) ∧ (row : Nat) < base + width

theorem staysWithin_selectAll (base width : Nat) : StaysWithin base width selectAll := by
  intro row data h
  rw [kind_selectAll] at h
  cases h

theorem staysWithin_selectColumn (base width block : Nat) :
    StaysWithin base width (selectColumn block) := by
  intro row data h
  rw [kind_selectColumn_wrapped] at h
  cases h

theorem staysWithin_write {base width i : Nat} (hi : i < width) (hend : base + width ≤ 1024)
    (data : UInt16) : StaysWithin base width (write (base + i) data) := by
  intro row data' h
  have hkind := kind_write ⟨base + i, by omega⟩ data
  rw [hkind] at h
  cases h
  exact ⟨Nat.le_add_right base i, Nat.add_lt_add_left hi base⟩

end Instruction

namespace LoadPlan
open Instruction

theorem staysWithin_windowWords {base width : Nat} (hend : base + width ≤ 1024) (block : Nat)
    (window : List Int16) :
    ∀ w ∈ windowWords base block (RowImage.ofWindow width window), StaysWithin base width w := by
  intro w hw
  rw [windowWords] at hw
  split at hw
  · cases hw
  · rcases List.mem_cons.1 hw with rfl | hw
    · exact staysWithin_selectColumn base width block
    · rw [rowWords_ofWindow] at hw
      obtain ⟨i, hi, rfl⟩ := List.mem_map.1 hw
      exact staysWithin_write (List.mem_range.1 (List.mem_filter.1 hi).1) hend _

theorem staysWithin_sequence (g : Geometry) {base : Nat} (hend : base + g.width ≤ 1024)
    (values : List Int16) : ∀ w ∈ sequence g base values, StaysWithin base g.width w := by
  intro w hw
  rw [sequence_eq] at hw
  rcases List.mem_append.1 hw with hw | hw
  · rcases List.mem_cons.1 hw with rfl | hw
    · exact staysWithin_selectAll base g.width
    · obtain ⟨i, hi, rfl⟩ := List.mem_map.1 hw
      exact staysWithin_write (List.mem_range.1 hi) hend 0
  · obtain ⟨⟨window, block⟩, -, hw⟩ := List.mem_flatMap.1 hw
    exact staysWithin_windowWords hend block window w hw

end LoadPlan

namespace Blocks

/-- Blocks that hold the same data outside some rows. -/
def SameOutside (base width : Nat) (b b' : Blocks) : Prop :=
  ∀ (k : Fin 256) (row : Fin 1024), (row : Nat) < base ∨ base + width ≤ row →
    b'.memory.get k row = b.memory.get k row

theorem sameOutside_execute {base width : Nat} {w : Instruction} (hw : w.StaysWithin base width)
    (b : Blocks) : SameOutside base width b (b.execute w) := by
  intro k row hout
  rw [execute]
  cases hkind : w.kind with
  | write other data =>
      have hin := hw other data hkind
      have hne : other ≠ row := by
        rintro rfl
        omega
      exact (b.memory.get_write b.selection other data k row).trans (by simp [hne])
  | nop | selectAll | selectColumn | vectorSync | other => rfl

theorem sameOutside_run {base width : Nat} {ws : List Instruction}
    (hws : ∀ w ∈ ws, w.StaysWithin base width) (b : Blocks) :
    SameOutside base width b (b.run ws) := by
  induction ws generalizing b with
  | nil =>
      intro k row hout
      rfl
  | cons w ws ih =>
      have hfirst := sameOutside_execute (hws w (List.mem_cons_self ..)) b
      have hrest := ih (fun v hv => hws v (List.mem_cons_of_mem w hv)) (b.execute w)
      intro k row hout
      exact (hrest k row hout).trans (hfirst k row hout)

theorem memory_run_sequence_congr {g : Geometry} {base : Nat} (hend : base + g.width ≤ 1024)
    {values : List Int16} (hshort : values.length ≤ g.maxVectorLength) {b b' : Blocks}
    (h : SameOutside base g.width b b') :
    (b'.run (LoadPlan.sequence g base values)).memory =
      (b.run (LoadPlan.sequence g base values)).memory := by
  apply BlockMemory.ext_get
  intro k row
  rw [LoadPlan.get_run_sequence g hend hshort, LoadPlan.get_run_sequence g hend hshort]
  split
  · rfl
  · exact h k row (by omega)

end Blocks

namespace Engine

/-- Lanes do not depend on how many are read. -/
theorem lanes?_take (e : Engine) (register : Nat) {n m : Nat} (h : n ≤ m) :
    e.lanes? register n = (e.lanes? register m).map (·.take n) := by
  rw [lanes?, lanes?, Option.map_map]
  congr 1
  funext base
  simp [← List.map_take, List.take_range, Nat.min_eq_left h]

/-- A vector that was stored is what the first lanes of its register read. -/
theorem lanes?_of_stores {g : Geometry} {e : Engine} (hg : e.geometry = g)
    {register : Fin g.registerCount} {values : List Int16} (hvalues : g.Admits values)
    {before : BlockMemory}
    (hstores : LoadPlan.Stores g register values before e.blocks.memory) :
    e.lanes? register values.length = some values := by
  rw [lanes?_take _ _ hvalues.short, lanes?_stored hg hvalues hstores]
  simp [Geometry.padded]

theorem lanes?_of_le {e : Engine} {register : Nat} (h : e.geometry.registerCount ≤ register)
    (length : Nat) : e.lanes? register length = none := by
  rw [lanes?, Geometry.registerBase?, if_neg (Nat.not_lt.2 h)]
  rfl

/-- Words within a register, then a whole load of it: the drained engine holds that vector. -/
theorem Works.reloaded {g : Geometry} {start e : Engine} (hg : start.geometry = g)
    (hdepth : start.depth < 2 ^ 64) {register : Fin g.registerCount} {part : List Instruction}
    (hpart : ∀ w ∈ part, w.StaysWithin (register * g.width) g.width) {values : List Int16}
    (hvalues : g.Admits values) {done : List Instruction}
    (h : Works start (part ++ LoadPlan.sequence g (register * g.width) values) done e) :
    e.drain.2.lanes? register values.length = some values ∧
      ∀ other length, other ≠ (register : Nat) →
        e.drain.2.lanes? other length = start.lanes? other length := by
  obtain ⟨-, -, -, hblocks⟩ := h.drain hdepth
  have hsame : e.drain.2.geometry = start.geometry := (h.step _).geometry
  have hend := g.base_add_width_le register.isLt
  have hstores : LoadPlan.Stores g register values start.blocks.memory e.drain.2.blocks.memory := by
    rw [hblocks, Blocks.run_append,
      Blocks.memory_run_sequence_congr hend hvalues.short (Blocks.sameOutside_run hpart _)]
    exact LoadPlan.stores_run_sequence register hvalues.short start.blocks
  constructor
  · exact lanes?_of_stores (hsame.trans hg) hvalues hstores
  · intro other length hne
    by_cases hother : other < g.registerCount
    · exact lanes?_kept hg hsame hstores hother hne.symm length
    · have hnone : start.geometry.registerCount ≤ other := hg ▸ Nat.le_of_not_lt hother
      rw [lanes?_of_le hnone, lanes?_of_le (hsame ▸ hnone)]

end Engine

/-- One lane of one bit in each block. -/
def Geometry.smallest : Geometry := ⟨1, 1, by decide, by decide, by decide, by decide⟩

namespace Operation
open Link Engine

section Runs

variable {g : Geometry} {register : Nat} {values : List Int16} {ws : List Instruction}
  {start : Engine} {words done : List Instruction} {t : Link Engine}

theorem accepts_of_load (hwords : LoadPlan.words g register values = .ok ws) {n : Nat}
    (h : (t.load g register values).1 = .ok n) : t.accepts ws = ws := by
  rw [load_eq, hwords] at h
  simp only at h
  cases hpush : t.pushAll ws with
  | mk result u =>
      rw [hpush] at h
      cases result with
      | error e => cases h
      | ok m => exact accepts_of_pushAll hpush

theorem works_load (hwords : LoadPlan.words g register values = .ok ws)
    (h : Works start words done t.device) :
    ∃ done', Works start (words ++ t.accepts ws) done' (t.load g register values).2.device := by
  have hops : ∀ op ∈ [Operation.host (.load register values)], op.isScheduling = true := by
    simp [isScheduling, isRegular, HostOp.isRegular]
  have hsent : sent g [.host (.load register values)] t = t.accepts ws := by
    simp [sent, sends, HostOp.offers, hwords, HostOp.planned]
  rw [← hsent]
  exact works_runAll g hops h

/-- The engine left to itself for a while. -/
def steps (sizes : List Nat) : List Operation := sizes.map fun n => .engine (.step n)

theorem sent_steps (g : Geometry) (sizes : List Nat) (t : Link Engine) :
    sent g (steps sizes) t = [] := by
  induction sizes generalizing t with
  | nil => rfl
  | cons n sizes ih => exact ih (runAll g [.engine (.step n)] t)

theorem works_steps (sizes : List Nat) (h : Works start words done t.device) :
    ∃ done', Works start words done' (runAll g (steps sizes) t).device := by
  have hops : ∀ op ∈ steps sizes, op.isScheduling = true := by
    intro op hop
    obtain ⟨n, -, rfl⟩ := List.mem_map.1 hop
    rfl
  obtain ⟨done', hworks⟩ := works_runAll g hops h
  rw [sent_steps, List.append_nil] at hworks
  exact ⟨done', hworks⟩

end Runs

/-- A load that was cut off is made good by the next. Any part of its plan leaves the rows outside
the register alone, and the whole plan of another vector after it leaves the memory as that plan
alone would. So if an engine is at rest when the first load starts, then however that ended, with a
timeout or not, and whatever was executed since, once a second load has succeeded and the queue is
drained the register reads back as the second vector and every other one as before the first. -/
theorem load_recovers (g : Geometry) (register : Fin g.registerCount) {values again : List Int16}
    (hvalues : g.Admits values) (hagain : g.Admits again) :
    ∃ ws vs, LoadPlan.words g register values = .ok ws ∧
      LoadPlan.words g register again = .ok vs ∧
      (∀ part, part <+: ws → ∀ b : Blocks,
        Blocks.SameOutside (register * g.width) g.width b (b.run part) ∧
          ((b.run part).run vs).memory = (b.run vs).memory) ∧
      ∀ (t : Link Engine) (sizes : List Nat), t.device.geometry = g → t.device.AtRest →
        t.device.depth < 2 ^ 64 →
        let stepped := runAll g (steps sizes) (t.load g register values).2
        ∀ n, (stepped.load g register again).1 = .ok n →
          let final := (stepped.load g register again).2.device.drain.2
          final.lanes? register again.length = some again ∧
            ∀ other length, other ≠ (register : Nat) →
              final.lanes? other length = t.device.lanes? other length := by
  have hend := g.base_add_width_le register.isLt
  have hwithin : ∀ {part}, part <+: LoadPlan.sequence g (register * g.width) values →
      ∀ w ∈ part, w.StaysWithin (register * g.width) g.width :=
    fun hpart w hw => LoadPlan.staysWithin_sequence g hend values w (hpart.subset hw)
  have hwords := LoadPlan.words_eq_ok register hvalues
  have hwords' := LoadPlan.words_eq_ok register hagain
  refine ⟨_, _, hwords, hwords', ?_, ?_⟩
  · intro part hpart b
    have hsame := Blocks.sameOutside_run (hwithin hpart) b
    exact ⟨hsame, Blocks.memory_run_sequence_congr hend hagain.short hsame⟩
  · intro t sizes hg hrest hdepth stepped n hok final
    obtain ⟨rest, hpart, -⟩ := accepts_append 0 (LoadPlan.sequence g (register * g.width) values) t
    obtain ⟨_, hcut⟩ := works_load hwords (.of_atRest hrest)
    obtain ⟨_, hstepped⟩ := works_steps (g := g) sizes hcut
    obtain ⟨_, hlast⟩ := works_load hwords' hstepped
    rw [accepts_of_load hwords' hok] at hlast
    exact hlast.reloaded hg hdepth (hwithin ⟨rest, hpart.symm⟩) hagain

/-- The queue takes five words of six; after four are executed there is room for the next load. -/
theorem load_recovers_after_timeout :
    let g := Geometry.smallest
    let t := newLink g 5 false { maxAttempts := some 1 } .spin
    let cut := t.load g 3 [-1, -1]
    let last := (runAll g (steps [1, 3]) cut.2).load g 3 [0, -1]
    g.Admits [-1, -1] ∧ g.Admits [0, -1] ∧ cut.1 = .error (.timeout "FIFO-in space" 1) ∧
      last.1 = .ok 4 ∧ last.2.device.drain.2.lanes? 3 2 = some [0, -1] := by
  have hvalues : Geometry.smallest.Admits [-1, -1] := ⟨by decide, by simp [Geometry.smallest]⟩
  have hagain : Geometry.smallest.Admits [0, -1] := ⟨by decide, by simp [Geometry.smallest]⟩
  have hwindows : ∀ v w : Int16, windows Geometry.smallest.lanes [v, w] = [[v], [w]] := by
    intro v w
    simp only [Geometry.smallest]
    rw [windows_of_ne_nil (by decide) (by simp), windows_of_ne_nil (by decide) (by simp)]
    simp
  have hplan : LoadPlan.words .smallest 3 [-1, -1] =
      .ok [.selectAll, .write 3 0, .selectColumn 0, .write 3 1, .selectColumn 1, .write 3 1] := by
    rw [LoadPlan.words_eq_ok ⟨3, by decide⟩ hvalues, LoadPlan.sequence_eq, hwindows]
    rfl
  have hplan' : LoadPlan.words .smallest 3 [0, -1] =
      .ok [.selectAll, .write 3 0, .selectColumn 1, .write 3 1] := by
    rw [LoadPlan.words_eq_ok ⟨3, by decide⟩ hagain, LoadPlan.sequence_eq, hwindows]
    rfl
  intro g t cut last
  obtain ⟨-, -, -, -, -, hrecovers⟩ := load_recovers g ⟨3, by decide⟩ hvalues hagain
  have hcut : cut.1 = .error (.timeout "FIFO-in space" 1) := by
    simp only [cut, t, g, load_eq, hplan]
    rfl
  have hok : last.1 = .ok 4 := by
    simp only [last, cut, t, g, load_eq, hplan, hplan']
    rfl
  exact ⟨hvalues, hagain, hcut, hok, (hrecovers t [1, 3] rfl ⟨rfl, by decide⟩ (by decide) 4 hok).1⟩

end Operation

end Gemv
