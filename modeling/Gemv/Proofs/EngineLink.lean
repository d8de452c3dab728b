import Gemv.Engine
import Gemv.Link
import Gemv.Proofs.Polling

/-! An engine at the end of a link.

A pulse of a control bit fires the strobe of that bit and no other, and only if the bit was low:
the write that lowers it again fires nothing. So a push that finds room hands its word to the
engine exactly once (`push_cases`, `takes_offer`), and a push that does not leaves the engine as
it was, but for the polls it used up. -/
namespace Gemv

theorem Bits.bit_word {flags : List Bool} (hlen : flags.length ≤ 32) (k : Nat) :
    bit (word flags) k = flags.getD k false := by
  have hlt : pack flags < 2 ^ 32 :=
    Nat.lt_of_lt_of_le (pack_lt flags) (Nat.pow_le_pow_right (by decide) hlen)
  have hword : (word flags).toBitVec.toNat = pack flags := by
    rw [UInt32.toNat_toBitVec, word, UInt32.toNat_ofNat', Nat.mod_eq_of_lt hlt]
  rw [bit, BitVec.getLsbD, hword, testBit_pack]

theorem Bits.bit_rising_raise (v : UInt32) (k : Nat) {j : Nat} (hj : j < 32) :
    bit (rising v (raise v k)) j = (decide (j = k) && !bit v j) := by
  rw [bit_rising _ _ _ hj, bit_raise _ _ _ hj]
  cases bit v j <;> simp

theorem Bits.bit_rising_lower (v : UInt32) (k : Nat) {j : Nat} (hj : j < 32) :
    bit (rising (raise v k) (lower v k)) j = false := by
  rw [bit_rising _ _ _ hj, bit_raise _ _ _ hj, bit_lower _ _ _ hj]
  cases bit v j <;> simp

namespace Engine
open Register

/-- The value last written to the queue control register. -/
abbrev control (e : Engine) : UInt32 := e.latest queueControl

theorem strobeReset_of_low {edges : UInt32} (h : Bits.bit edges resetBit = false) (e : Engine) :
    strobeReset edges e = e := by simp [strobeReset, h]

theorem strobePush_of_low {edges : UInt32} (h : Bits.bit edges pushBit = false) (e : Engine) :
    strobePush edges e = e := by simp [strobePush, h]

theorem strobePop_of_low {edges : UInt32} (h : Bits.bit edges popBit = false) (e : Engine) :
    strobePop edges e = e := by simp [strobePop, h]

theorem controlQueues_lower {v : UInt32} {k : Nat} {e : Engine}
    (h : e.control = Bits.raise v k) : controlQueues (Bits.lower v k) e = e := by
  have hedge := fun j (hj : j < 32) => Bits.bit_rising_lower v k hj
  rw [← h] at hedge
  rw [controlQueues, strobeReset_of_low (hedge resetBit (by decide)),
    strobePush_of_low (hedge pushBit (by decide)), strobePop_of_low (hedge popBit (by decide))]

section Raise

variable (e : Engine)

theorem edge_of_ne {k j : Nat} (hne : j ≠ k) (hj : j < 32) :
    Bits.bit (Bits.rising e.control (Bits.raise e.control k)) j = false := by
  rw [Bits.bit_rising_raise _ _ hj, decide_eq_false hne, Bool.false_and]

theorem edge_self {k : Nat} (hk : k < 32) :
    Bits.bit (Bits.rising e.control (Bits.raise e.control k)) k = !Bits.bit e.control k := by
  rw [Bits.bit_rising_raise _ _ hk, decide_eq_true rfl, Bool.true_and]

theorem controlQueues_raise_reset :
    controlQueues (Bits.raise e.control resetBit) e =
      if Bits.bit e.control resetBit then e else { e with pending := [], output := [] } := by
  rw [controlQueues, strobePush_of_low (edge_of_ne e (by decide) (by decide)),
    strobePop_of_low (edge_of_ne e (by decide) (by decide)), strobeReset,
    edge_self e (by decide)]
  cases Bits.bit e.control resetBit <;> rfl

theorem controlQueues_raise_push :
    controlQueues (Bits.raise e.control pushBit) e =
      if Bits.bit e.control pushBit then e
      else accept { e with pushStrobes := e.pushStrobes + 1 } := by
  rw [controlQueues, strobeReset_of_low (edge_of_ne e (by decide) (by decide)),
    strobePop_of_low (edge_of_ne e (by decide) (by decide)), strobePush,
    edge_self e (by decide)]
  cases Bits.bit e.control pushBit <;> rfl

theorem controlQueues_raise_pop :
    controlQueues (Bits.raise e.control popBit) e =
      if Bits.bit e.control popBit then e
      else release { e with popStrobes := e.popStrobes + 1 } := by
  rw [controlQueues, strobeReset_of_low (edge_of_ne e (by decide) (by decide)),
    strobePush_of_low (edge_of_ne e (by decide) (by decide)), strobePop,
    edge_self e (by decide)]
  cases Bits.bit e.control popBit <;> rfl

end Raise

theorem latch_latch (r : Register) (v v' : UInt32) (e : Engine) :
    latch r v' (latch r v e) = latch r v' e := by
  simp [latch]

theorem latest_latch (r : Register) (v : UInt32) (e : Engine) : (latch r v e).latest r = v := by
  change (e.latched.set r v r.val_lt)[r.val] = v
  simp

theorem latest_latch_of_ne {r s : Register} (hne : r ≠ s) (v : UInt32) (e : Engine) :
    (latch r v e).latest s = e.latest s := by
  have hval : r.val ≠ s.val := Fin.val_ne_of_ne hne
  change (e.latched.set r v r.val_lt)[s.val] = e.latched[s.val]
  simp [hval]

theorem write_queueControl (v : UInt32) (e : Engine) :
    write queueControl v e = latch queueControl v (controlQueues v e) := rfl

theorem accept_of_room {e : Engine} (hroom : e.isFull = false) :
    accept e =
      if e.automatic then e.execute ⟨e.latest inputData⟩
      else { e with pending := e.pending ++ [⟨e.latest inputData⟩] } := by
  rw [accept, hroom]
  rfl

theorem isFull_eq_false_iff (e : Engine) :
    e.isFull = false ↔ e.heldFull = 0 ∧ e.pending.length < e.depth := by
  simp only [isFull, Bool.or_eq_false_iff, decide_eq_false_iff_not]
  omega

theorem bit_fullBit_queueStatus (e : Engine) : Bits.bit e.queueStatus fullBit = e.isFull := by
  rw [queueStatus, Bits.bit_word (by simp)]
  rfl

/-- What one word does to an engine that takes it, and all that stays as it was. -/
structure Takes (w : Instruction) (e e' : Engine) : Prop where
  geometry : e'.geometry = e.geometry
  depth : e'.depth = e.depth
  automatic : e'.automatic = e.automatic
  heldFull : e'.heldFull = e.heldFull
  overflows : e'.overflows = e.overflows
  pushStrobes : e'.pushStrobes = e.pushStrobes + 1
  control : e'.control = Bits.lower e.control pushBit
  executes : e.automatic = true →
    e'.executed = e.executed.push w ∧ e'.pending = e.pending ∧ e'.blocks = e.blocks.execute w
  queues : e.automatic = false →
    e'.executed = e.executed ∧ e'.pending = e.pending ++ [w] ∧ e'.blocks = e.blocks

end Engine

namespace Link
open Register

/-- A pulse of a queue strobe: the rising edge acts, and the bit ends low. -/
theorem device_pulse_queueControl (k : Nat) (t : Link Engine) :
    (t.pulse queueControl k).device =
      Engine.latch queueControl (Bits.lower t.device.control k)
        (Engine.controlQueues (Bits.raise t.device.control k) t.device) := by
  change Engine.write queueControl (Bits.lower t.device.control k)
    (Engine.write queueControl (Bits.raise t.device.control k) t.device) = _
  rw [Engine.write_queueControl, Engine.write_queueControl,
    Engine.controlQueues_lower (Engine.latest_latch _ _ _), Engine.latch_latch]

theorem pushed_pulse {σ : Type} [Device σ] (r : Register) (k : Nat) (t : Link σ) :
    (t.pulse r k).pushed = t.pushed := rfl

/-- A word offered to an engine that has room, with the push strobe low, is taken once. -/
theorem takes_offer {t : Link Engine} (hlow : Bits.bit t.device.control pushBit = false)
    (hroom : t.device.isFull = false) (w : Instruction) :
    Engine.Takes w t.device (t.offer w).device := by
  obtain ⟨e, limits, wait, pushed, journal⟩ := t
  have hpulse := device_pulse_queueControl pushBit
    (write inputData w.raw (note (.pushed w) ⟨e, limits, wait, pushed, journal⟩))
  have hcontrol : (Engine.latch inputData w.raw e).control = e.control :=
    Engine.latest_latch_of_ne (by decide) w.raw e
  change (offer w ⟨e, limits, wait, pushed, journal⟩).device =
    Engine.latch queueControl (Bits.lower (Engine.latch inputData w.raw e).control pushBit)
      (Engine.controlQueues (Bits.raise (Engine.latch inputData w.raw e).control pushBit)
        (Engine.latch inputData w.raw e)) at hpulse
  rw [hpulse, Engine.controlQueues_raise_push, hcontrol, hlow, if_neg (by decide),
    Engine.accept_of_room (by exact hroom)]
  have hword : ∀ n, (⟨Engine.latest inputData
      { Engine.latch inputData w.raw e with pushStrobes := n }⟩ : Instruction) = w := by
    intro n
    exact congrArg Instruction.mk (Engine.latest_latch inputData w.raw e)
  rw [hword]
  change Engine.Takes w e (Engine.latch queueControl (Bits.lower e.control pushBit)
    (if e.automatic then _ else _))
  cases hauto : e.automatic with
  | true =>
      exact ⟨rfl, rfl, rfl, rfl, rfl, rfl, Engine.latest_latch _ _ _, fun _ => ⟨rfl, rfl, rfl⟩,
        fun h => absurd h (by simp [hauto])⟩
  | false =>
      exact ⟨rfl, rfl, rfl, rfl, rfl, rfl, Engine.latest_latch _ _ _,
        fun h => absurd h (by simp [hauto]), fun _ => ⟨rfl, rfl, rfl⟩⟩

/-- A look for room sees whether the queue is full, and uses up one held poll. -/
theorem lookForRoom_engine (failed : Nat) (t : Link Engine) :
    (t.lookForRoom failed).1 = !t.device.isFull ∧
      (t.lookForRoom failed).2.device = t.device.holdFull (t.device.heldFull - 1) ∧
      (t.lookForRoom failed).2.pushed = t.pushed := by
  have hfull : Bits.bit (t.read Register.queueStatus).1 fullBit = t.device.isFull :=
    t.device.bit_fullBit_queueStatus
  unfold lookForRoom
  split
  rename_i v u hread
  rw [hread] at hfull
  have hdevice : u.device = t.device.holdFull (t.device.heldFull - 1) := by
    rw [← congrArg (fun p => p.2.device) hread]
    rfl
  have hpushed : u.pushed = t.pushed := by
    rw [← congrArg (fun p => p.2.pushed) hread]
    rfl
  cases hv : Bits.bit v fullBit with
  | true =>
      rw [← hfull, hv]
      by_cases hfirst : failed = 0 <;> simp [hfirst, hdevice, hpushed]
  | false =>
      rw [← hfull, hv]
      simp [hdevice, hpushed]

/-- A link that has waited: only held polls were used up. -/
def Waited (t u : Link Engine) : Prop :=
  u.pushed = t.pushed ∧ ∃ held, u.device = t.device.holdFull held

theorem Waited.refl (t : Link Engine) : Waited t t := ⟨rfl, t.device.heldFull, rfl⟩

theorem Waited.lookForRoom {t u : Link Engine} (h : Waited t u) (failed : Nat) :
    Waited t (u.lookForRoom failed).2 := by
  obtain ⟨hpushed, held, hdevice⟩ := h
  obtain ⟨-, hlook, hcount⟩ := lookForRoom_engine failed u
  refine ⟨hcount.trans hpushed, held - 1, ?_⟩
  rw [hlook, hdevice]
  rfl

/-- A push ends in one of two ways: there was room and the word is offered, or the link has only
waited. -/
theorem push_cases (w : Instruction) (t : Link Engine) :
    (∃ u : Link Engine, t.push w = (.ok (), u.offer w) ∧ u.pushed = t.pushed ∧
        u.device = t.device.holdFull 0 ∧ t.device.pending.length < t.device.depth) ∨
      ∃ e u, t.push w = (.error e, u) ∧ Waited t u := by
  have hlook : ∀ n u, Waited t u → (lookForRoom n u).1 = false → Waited t (lookForRoom n u).2 :=
    fun n _ h _ => h.lookForRoom n
  have hpause : ∀ n u, Waited t u → Waited t (record (.pause n) u) := fun _ _ h => h
  rcases await_cases hlook hpause "FIFO-in space" (Waited.refl t) with
    ⟨n, last, ⟨hpushed, held, hdevice⟩, hready, hpoll⟩ | ⟨e, final, hwaited, hpoll⟩
  · obtain ⟨hseen, hused, hcount⟩ := lookForRoom_engine n last
    have hroom : last.device.isFull = false := by simpa [hready] using hseen
    have hheld : held = 0 ∧ t.device.pending.length < t.device.depth := by
      rw [hdevice, Engine.isFull_eq_false_iff] at hroom
      exact hroom
    have hlast : (last.lookForRoom n).2.device = t.device.holdFull 0 := by
      rw [hused, hdevice, hheld.1]
      rfl
    refine .inl ⟨if 0 < n then (last.lookForRoom n).2.note (.inputDrained n)
      else (last.lookForRoom n).2, ?_, ?_, ?_, hheld.2⟩
    · rw [push, hpoll]
    · by_cases hn : 0 < n <;> simp [hn, hcount, hpushed]
    · by_cases hn : 0 < n <;> simp [hn, hlast]
  · refine .inr ⟨e, final, ?_, hwaited⟩
    rw [push, hpoll]

theorem push_of_room {t : Link Engine} (hroom : t.device.isFull = false) (w : Instruction) :
    ∃ u : Link Engine, t.push w = (.ok (), u.offer w) ∧ u.pushed = t.pushed ∧
      u.device = t.device := by
  obtain ⟨hseen, hused, hcount⟩ := lookForRoom_engine 0 t
  have hready : (t.lookForRoom 0).1 = true := by rw [hseen, hroom]; rfl
  have hpoll := poll_of_ready t.limits t.clock (fun attempt t => t.record (.pause attempt)) hready
  have hheld := (t.device.isFull_eq_false_iff.1 hroom).1
  refine ⟨(t.lookForRoom 0).2, ?_, hcount, ?_⟩
  · simp only [push, await, hpoll, Nat.lt_irrefl, if_false]
  · rw [hused, hheld, Nat.zero_sub, ← hheld]
    rfl

end Link

end Gemv
