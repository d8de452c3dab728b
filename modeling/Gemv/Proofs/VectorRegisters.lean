import Gemv.Proofs.EngineLink
import Gemv.Proofs.LoadImage
import Gemv.Proofs.Streaming

/-! The engine as an array of vectors.

An automatic engine with an idle input queue executes every word it is offered at once
(`pushFrom_idle`), so a call on a register is the run of its words over the blocks. A load leaves
its vector in the register, where the read-back finds it padded with zeros (`lanes?_stored`), and
no other register notices (`lanes?_kept`). A clear is the load of the empty vector. -/
namespace Gemv

namespace Engine
open Register

/-- An automatic engine that takes and executes whatever word comes next. -/
structure Idle (e : Engine) : Prop where
  automatic : e.automatic = true
  empty : e.pending = []
  room : 0 < e.depth
  free : e.heldFull = 0
  low : Bits.bit e.control pushBit = false

theorem Idle.isFull {e : Engine} (h : e.Idle) : e.isFull = false := by
  rw [isFull_eq_false_iff, h.empty]
  exact ⟨h.free, h.room⟩

theorem idle_new (g : Geometry) (pattern : UInt16) : ((new g).fill pattern).Idle := by
  refine ⟨rfl, rfl, by simp [new, fill], rfl, ?_⟩
  change Bits.bit ((Vector.replicate 16 (0 : UInt32)).get queueControl) pushBit = false
  decide

/-- The engine has executed these words, and is idle again. -/
structure Ran (ws : List Instruction) (e e' : Engine) : Prop where
  idle : e'.Idle
  geometry : e'.geometry = e.geometry
  overflows : e'.overflows = e.overflows
  blocks : e'.blocks = e.blocks.run ws

theorem Takes.ran {w : Instruction} {e e' : Engine} (h : Takes w e e') (hidle : e.Idle) :
    Ran [w] e e' := by
  obtain ⟨-, hpending, hblocks⟩ := h.executes hidle.automatic
  refine ⟨⟨h.automatic.trans hidle.automatic, hpending.trans hidle.empty, ?_,
    h.heldFull.trans hidle.free, ?_⟩, h.geometry, h.overflows, hblocks⟩
  · rw [h.depth]
    exact hidle.room
  · rw [h.control, Bits.bit_lower _ _ _ (by decide)]
    simp

theorem Ran.cons {w : Instruction} {ws : List Instruction} {e e' e'' : Engine}
    (h : Ran [w] e e') (h' : Ran ws e' e'') : Ran (w :: ws) e e'' := by
  refine ⟨h'.idle, h'.geometry.trans h.geometry, h'.overflows.trans h.overflows, ?_⟩
  rw [h'.blocks, h.blocks]
  rfl

end Engine

namespace Link

theorem push_idle {t : Link Engine} (h : t.device.Idle) (w : Instruction) :
    ∃ u, t.push w = (.ok (), u) ∧ Engine.Ran [w] t.device u.device := by
  obtain ⟨u, hpush, -, hdevice⟩ := push_of_room h.isFull w
  rw [← hdevice] at h
  refine ⟨u.offer w, hpush, ?_⟩
  rw [← hdevice]
  exact (takes_offer h.low h.isFull w).ran h

theorem pushFrom_idle {t : Link Engine} (h : t.device.Idle) (count : Nat)
    (ws : List Instruction) :
    ∃ u, t.pushFrom count ws = (.ok (count + ws.length), u) ∧
      Engine.Ran ws t.device u.device := by
  induction ws generalizing t count with
  | nil => exact ⟨t, rfl, h, rfl, rfl, rfl⟩
  | cons w ws ih =>
      obtain ⟨u, hpush, hran⟩ := push_idle h w
      obtain ⟨v, hrest, hrun⟩ := ih hran.idle (count + 1)
      refine ⟨v, ?_, hran.cons hrun⟩
      rw [pushFrom_cons, hpush, List.length_cons, Nat.add_comm ws.length, ← Nat.add_assoc]
      exact hrest

end Link

/-- A vector as a register holds it: padded with zeros to the length of all lanes. -/
def Geometry.padded (g : Geometry) (values : List Int16) : List Int16 :=
  values ++ List.replicate (g.maxVectorLength - values.length) 0

namespace Engine

variable {e e' : Engine}

theorem lanes?_of_lt {register : Nat} (h : register < e.geometry.registerCount) (length : Nat) :
    e.lanes? register length =
      some ((List.range length).map (e.lane (register * e.geometry.width))) := by
  rw [lanes?, Geometry.registerBase?, if_pos h]
  rfl

theorem lane_stored {g : Geometry} (hg : e.geometry = g) {register : Fin g.registerCount}
    {values : List Int16} (hvalues : g.Admits values) {before : BlockMemory}
    (hstores : LoadPlan.Stores g register values before e.blocks.memory) {i : Nat}
    (hi : i < g.maxVectorLength) : e.lane (register * g.width) i = values.getD i 0 := by
  subst hg
  have hblock : i / e.geometry.lanes < 256 := Nat.div_lt_of_lt_mul (by rwa [Nat.mul_comm])
  have hlane := Nat.mod_lt i e.geometry.lanes_pos
  have hindex : i / e.geometry.lanes * e.geometry.lanes + i % e.geometry.lanes = i := by
    rw [Nat.mul_comm]
    exact Nat.div_add_mod i e.geometry.lanes
  have hbits : ∀ b ∈ List.range e.geometry.width,
      (e.row (i / e.geometry.lanes) (register * e.geometry.width + b)).toNat.testBit
        (i % e.geometry.lanes) = Lane.bit (values.getD i 0) b := by
    intro b hb
    have hwidth := List.mem_range.1 hb
    have hrow := hstores.stored ⟨_, hblock⟩ ⟨b, hwidth⟩ (i % e.geometry.lanes)
    have hend := e.geometry.base_add_width_le register.isLt
    -- The read-back wraps addresses and block numbers around; those of a register lie in range.
    have haddress : rowAt (register * e.geometry.width + b) =
        e.geometry.registerRow register ⟨b, hwidth⟩ :=
      Fin.ext (Nat.mod_eq_of_lt (by simp only [rowCount] at hend; omega))
    rw [row, haddress, show blockAt (i / e.geometry.lanes) = ⟨_, hblock⟩ from
      Fin.ext (Nat.mod_eq_of_lt hblock), hrow]
    simp only [hindex, hlane, true_and]
    by_cases hlen : i < values.length
    · simp [hlen]
    · simp [hlen, Lane.bit]
  rw [lane, List.map_congr_left hbits]
  apply Lane.ofBits_pack e.geometry.width_pos e.geometry.width_le
  by_cases hlen : i < values.length
  · rw [List.getD_eq_getElem?_getD, List.getElem?_eq_getElem hlen]
    exact hvalues.fits _ (List.getElem_mem hlen)
  · rw [List.getD_eq_getElem?_getD, List.getElem?_eq_none (Nat.le_of_not_lt hlen)]
    exact Lane.fits_zero e.geometry.width_pos e.geometry.width_le

theorem lanes?_stored {g : Geometry} (hg : e.geometry = g) {register : Fin g.registerCount}
    {values : List Int16} (hvalues : g.Admits values) {before : BlockMemory}
    (hstores : LoadPlan.Stores g register values before e.blocks.memory) :
    e.lanes? register g.maxVectorLength = some (g.padded values) := by
  have hregister : (register : Nat) < e.geometry.registerCount := hg ▸ register.isLt
  rw [lanes?_of_lt hregister, hg]
  congr 1
  apply List.ext_getElem
  · have := hvalues.short
    simp only [Geometry.padded, List.length_map, List.length_range, List.length_append,
      List.length_replicate]
    omega
  · intro i hi hi'
    have hlt : i < g.maxVectorLength := by simpa using hi
    rw [List.getElem_map, List.getElem_range, lane_stored hg hvalues hstores hlt]
    by_cases hlen : i < values.length <;> simp [Geometry.padded, List.getElem_append, hlen]

theorem lanes?_congr (hg : e'.geometry = e.geometry) {register : Nat}
    (hregister : register < e.geometry.registerCount)
    (hrows : ∀ (k : Fin 256) (row : Fin 1024), register * e.geometry.width ≤ row →
      (row : Nat) < register * e.geometry.width + e.geometry.width →
      e'.blocks.memory.get k row = e.blocks.memory.get k row) (length : Nat) :
    e'.lanes? register length = e.lanes? register length := by
  have hend := e.geometry.base_add_width_le hregister
  rw [lanes?_of_lt hregister, lanes?_of_lt (by rwa [hg]), hg]
  congr 1
  apply List.map_congr_left
  intro i _
  rw [lane, lane, hg]
  congr 2
  apply List.map_congr_left
  intro b hb
  have hwidth := List.mem_range.1 hb
  have hrow : (rowAt (register * e.geometry.width + b) : Nat) =
      register * e.geometry.width + b :=
    Nat.mod_eq_of_lt (by simp only [rowCount] at hend; omega)
  rw [row, row, hrows _ _ (by omega) (by omega)]

theorem lanes?_kept {g : Geometry} (hg : e.geometry = g) (hg' : e'.geometry = e.geometry)
    {register : Fin g.registerCount} {values : List Int16}
    (hstores : LoadPlan.Stores g register values e.blocks.memory e'.blocks.memory) {other : Nat}
    (hother : other < g.registerCount) (hne : (register : Nat) ≠ other) (length : Nat) :
    e'.lanes? other length = e.lanes? other length := by
  subst hg
  apply lanes?_congr hg' hother
  intro k row hle hlt
  apply hstores.kept
  -- Registers are consecutive, so the rows of two of them are apart by at least one width.
  rcases Nat.lt_or_gt_of_ne hne with hless | hmore
  · have := Nat.mul_le_mul_right e.geometry.width (Nat.succ_le_of_lt hless)
    rw [Nat.succ_mul] at this
    omega
  · have := Nat.mul_le_mul_right e.geometry.width (Nat.succ_le_of_lt hmore)
    rw [Nat.succ_mul] at this
    omega

end Engine

/-- What a host asks of a register. -/
inductive RegisterCall where
  | load (register : Nat) (values : List Int16)
  | clear (register : Nat)
  deriving DecidableEq, Repr

namespace RegisterCall

def register : RegisterCall → Nat
  | .load register _ => register
  | .clear register => register

/-- The vector that the register holds after the call, without its padding. -/
def vector : RegisterCall → List Int16
  | .load _ values => values
  | .clear _ => []

/-- The calls that are accepted: the register exists, and the vector fits it. -/
def Admissible (g : Geometry) (call : RegisterCall) : Prop :=
  call.register < g.registerCount ∧ g.Admits call.vector

instance (g : Geometry) (call : RegisterCall) : Decidable (call.Admissible g) :=
  inferInstanceAs (Decidable (_ ∧ _))

section Run

variable {σ : Type} [Device σ]

def run (g : Geometry) : RegisterCall → Link σ → Except Error Nat × Link σ
  | .load register values, t => t.load g register values
  | .clear register, t => t.clearRegister g register

/-- The link after all calls, accepted or not. -/
def runAll (g : Geometry) (calls : List RegisterCall) (t : Link σ) : Link σ :=
  calls.foldl (fun t call => (call.run g t).2) t

/-- The calls, each with its answer. -/
def answers (g : Geometry) : List RegisterCall → Link σ → List (RegisterCall × Except Error Nat)
  | [], _ => []
  | call :: calls, t => (call, (call.run g t).1) :: answers g calls (call.run g t).2

end Run

/-- The last call on a register that was answered without an error. -/
def lastAccepted? (register : Nat) (answered : List (RegisterCall × Except Error Nat)) :
    Option RegisterCall :=
  (answered.reverse.find? fun p => p.1.register == register && p.2.isOk).map (·.1)

theorem lastAccepted?_cons (register : Nat) (call : RegisterCall) (answer : Except Error Nat)
    (answered : List (RegisterCall × Except Error Nat)) :
    lastAccepted? register ((call, answer) :: answered) =
      (lastAccepted? register answered).or
        (if call.register = register ∧ answer.isOk then some call else none) := by
  simp only [lastAccepted?, List.reverse_cons, List.find?_append, Option.map_or]
  congr 1
  by_cases h : call.register = register ∧ answer.isOk = true
  · simp [h]
  · rw [if_neg h]
    simpa using h

variable {g : Geometry}

theorem admits_nil : g.Admits [] := ⟨Nat.zero_le _, by simp⟩

/-- The words of a call; a clear has those of a load of nothing. -/
def words (g : Geometry) : RegisterCall → Except Error (List Instruction)
  | .load register values => LoadPlan.words g register values
  | .clear register => LoadPlan.clearWords g register

theorem words_eq_ok {call : RegisterCall} (h : call.Admissible g) :
    call.words g = .ok (LoadPlan.sequence g (call.register * g.width) call.vector) := by
  obtain ⟨hregister, hvector⟩ := h
  cases call with
  | load register values => exact LoadPlan.words_eq_ok ⟨register, hregister⟩ hvector
  | clear register =>
      have hbase : LoadPlan.base g register = .ok (register * g.width) :=
        LoadPlan.base_eq_ok_iff.2 ⟨hregister, rfl⟩
      rw [words, LoadPlan.clearWords, hbase, LoadPlan.sequence_eq]
      simp [Except.map, vector, RegisterCall.register]

theorem words_eq_error {call : RegisterCall} (h : ¬call.Admissible g) :
    ∃ e, call.words g = .error e := by
  cases call with
  | load register values =>
      cases hcheck : LoadPlan.check g register values with
      | error e => exact ⟨e, by rw [words, LoadPlan.words_eq, hcheck]; rfl⟩
      | ok base =>
          obtain ⟨hregister, hvalues, -⟩ := LoadPlan.check_eq_ok_iff.1 hcheck
          exact absurd ⟨hregister, hvalues⟩ h
  | clear register =>
      cases hbase : LoadPlan.base g register with
      | error e => exact ⟨e, by rw [words, LoadPlan.clearWords, hbase]; rfl⟩
      | ok base => exact absurd ⟨(LoadPlan.base_eq_ok_iff.1 hbase).1, admits_nil⟩ h

theorem run_of_words_eq_error {σ : Type} [Device σ] {call : RegisterCall} {e : Error}
    (h : call.words g = .error e) (t : Link σ) : call.run g t = (.error e, t) := by
  cases call with
  | load register values =>
      simp only [words] at h
      simp only [run, Link.load_eq, h]
  | clear register =>
      simp only [words] at h
      simp only [run, Link.clearRegister, h]

theorem run_of_words_eq_ok {call : RegisterCall} {ws : List Instruction}
    (h : call.words g = .ok ws) {t : Link Engine} (hidle : t.device.Idle) :
    (call.run g t).1 = .ok ws.length ∧
      Engine.Ran ws t.device (call.run g t).2.device := by
  obtain ⟨u, hpush, hran⟩ := Link.pushFrom_idle hidle 0 ws
  rw [Nat.zero_add] at hpush
  cases call with
  | load register values =>
      simp only [words] at h
      simp only [run, Link.load_eq, h, Link.pushAll, hpush, Link.device_note]
      exact ⟨trivial, hran⟩
  | clear register =>
      simp only [words] at h
      simp only [run, Link.clearRegister, h, Link.pushAll, hpush]
      exact ⟨trivial, hran⟩

/-- An accepted call on an idle engine stores its vector in its register. -/
theorem run_of_admissible {call : RegisterCall} (h : call.Admissible g) {t : Link Engine}
    (hidle : t.device.Idle) :
    (call.run g t).1.isOk = true ∧ ∃ ws, Engine.Ran ws t.device (call.run g t).2.device ∧
      LoadPlan.Stores g ⟨call.register, h.1⟩ call.vector t.device.blocks.memory
        (call.run g t).2.device.blocks.memory := by
  obtain ⟨hanswer, hran⟩ := run_of_words_eq_ok (words_eq_ok h) hidle
  refine ⟨by rw [hanswer]; rfl, _, hran, ?_⟩
  rw [hran.blocks]
  exact LoadPlan.stores_run_sequence ⟨call.register, h.1⟩ h.2.short _

theorem run_of_not_admissible {call : RegisterCall} (h : ¬call.Admissible g) (t : Link Engine) :
    (call.run g t).1.isOk = false ∧ (call.run g t).2 = t := by
  obtain ⟨e, hwords⟩ := words_eq_error h
  rw [run_of_words_eq_error hwords]
  exact ⟨rfl, rfl⟩

section Calls

variable {t : Link Engine} (hidle : t.device.Idle)

include hidle

/-- One call: it is accepted exactly when it should be, and the engine is idle again. -/
theorem run_spec (call : RegisterCall) :
    ((call.run g t).1.isOk = true ↔ call.Admissible g) ∧
      (call.run g t).2.device.Idle ∧
      (call.run g t).2.device.geometry = t.device.geometry ∧
      (call.run g t).2.device.overflows = t.device.overflows := by
  by_cases h : call.Admissible g
  · obtain ⟨hok, ws, hran, -⟩ := run_of_admissible h hidle
    exact ⟨iff_of_true hok h, hran.idle, hran.geometry, hran.overflows⟩
  · obtain ⟨hrejected, hsame⟩ := run_of_not_admissible h t
    rw [hsame, hrejected]
    exact ⟨iff_of_false (by decide) h, hidle, rfl, rfl⟩

theorem lanes?_run (hg : t.device.geometry = g) (call : RegisterCall) {register : Nat}
    (hregister : register < g.registerCount) :
    (call.run g t).2.device.lanes? register g.maxVectorLength =
      if call.register = register ∧ (call.run g t).1.isOk then some (g.padded call.vector)
      else t.device.lanes? register g.maxVectorLength := by
  by_cases h : call.Admissible g
  · obtain ⟨hok, ws, hran, hstores⟩ := run_of_admissible h hidle
    by_cases hsame : call.register = register
    · subst hsame
      rw [if_pos ⟨rfl, hok⟩]
      exact Engine.lanes?_stored (hran.geometry.trans hg) h.2 hstores
    · rw [if_neg fun hboth => hsame hboth.1]
      exact Engine.lanes?_kept hg hran.geometry hstores hregister hsame _
  · obtain ⟨hrejected, hsame⟩ := run_of_not_admissible h t
    rw [hsame, hrejected, if_neg fun hboth => Bool.false_ne_true hboth.2]

theorem runAll_spec (calls : List RegisterCall) :
    (runAll g calls t).device.Idle ∧ (runAll g calls t).device.overflows = t.device.overflows := by
  induction calls generalizing t with
  | nil => exact ⟨hidle, rfl⟩
  | cons call calls ih =>
      obtain ⟨-, hnext, -, hnone⟩ := run_spec (g := g) hidle call
      obtain ⟨hlast, hrest⟩ := ih hnext
      exact ⟨hlast, hrest.trans hnone⟩

/-- After any calls a register holds the vector of the last one accepted on it. -/
theorem lanes?_runAll (hg : t.device.geometry = g) (calls : List RegisterCall) {register : Nat}
    (hregister : register < g.registerCount) :
    (runAll g calls t).device.lanes? register g.maxVectorLength =
      match lastAccepted? register (answers g calls t) with
      | some call => some (g.padded call.vector)
      | none => t.device.lanes? register g.maxVectorLength := by
  induction calls generalizing t with
  | nil => rfl
  | cons call calls ih =>
      obtain ⟨-, hnext, hgeometry, -⟩ := run_spec (g := g) hidle call
      have hrest := ih hnext (hgeometry.trans hg)
      rw [answers, lastAccepted?_cons]
      refine hrest.trans ?_
      cases lastAccepted? register (answers g calls (call.run g t).2) with
      | some later => rfl
      | none =>
          -- No later call counts, so the register is as the first call left it.
          rw [Option.none_or]
          refine (lanes?_run hidle hg call hregister).trans ?_
          split <;> rfl

end Calls

/-- Whatever was asked of an engine's registers, each reads back as the vector of the last call on
it that was accepted, padded with zeros, or as it was in the beginning. Just the calls that fit the
geometry are accepted, the others change nothing, and no word is lost. -/
theorem registers_hold_last_accepted (g : Geometry) (pattern : UInt16) (limits : PollLimits)
    (wait : Wait) (calls : List RegisterCall) :
    let start : Link Engine := { device := (Engine.new g).fill pattern, limits, wait }
    let final := runAll g calls start
    (∀ register < g.registerCount,
      final.device.lanes? register g.maxVectorLength =
        match lastAccepted? register (answers g calls start) with
        | some call => some (g.padded call.vector)
        | none => start.device.lanes? register g.maxVectorLength) ∧
      (∀ call : RegisterCall,
        ((call.run g final).1.isOk = true ↔ call.Admissible g) ∧
          ((call.run g final).1.isOk = false → (call.run g final).2 = final)) ∧
      final.device.overflows = 0 := by
  intro start final
  have hidle : start.device.Idle := Engine.idle_new g pattern
  obtain ⟨hfinal, hnone⟩ := runAll_spec (g := g) hidle calls
  refine ⟨fun register hregister => lanes?_runAll hidle rfl calls hregister, ?_, hnone⟩
  intro call
  obtain ⟨haccepted, -⟩ := run_spec (g := g) hfinal call
  refine ⟨haccepted, fun hrejected => ?_⟩
  have hnot : ¬call.Admissible g := by rw [← haccepted, hrejected]; decide
  exact (run_of_not_admissible hnot final).2

end RegisterCall

end Gemv
