import Gemv.Proofs.EngineLink

/-! The four strobes, whatever is latched.

A pulse raises one control bit and lowers it again. A bit that was low makes a rising edge, and the
engine answers it once, as `Strobe.fire` says. A bit that was left high makes none, so the pulse is
lost. Either way the bit ends low and every other bit and register keeps its value
(`Engine.latest_pulse`): the next pulse of the same strobe is seen. -/
namespace Gemv

inductive Strobe where
  | reset
  | push
  | pop
  | clearEnd
  deriving DecidableEq, Repr

namespace Engine

theorem accept_frame (e : Engine) :
    ∃ pending blocks executed overflows,
      accept e = { e with pending, blocks, executed, overflows } := by
  unfold accept
  split
  · exact ⟨_, _, _, _, rfl⟩
  · dsimp only
    split <;> exact ⟨_, _, _, _, rfl⟩

theorem release_frame (e : Engine) :
    ∃ output underflows, release e = { e with output, underflows } := by
  unfold release
  split <;> exact ⟨_, _, rfl⟩

end Engine

namespace Strobe
open Register

def register : Strobe → Register
  | .clearEnd => engineControl
  | .reset | .push | .pop => queueControl

def bit : Strobe → Nat
  | .reset => resetBit
  | .push => pushBit
  | .pop => popBit
  | .clearEnd => clearBit

/-- What an engine does at a rising edge. -/
def fire : Strobe → Engine → Engine
  | .reset, e => { e with pending := [], output := [] }
  | .push, e => Engine.accept { e with pushStrobes := e.pushStrobes + 1 }
  | .pop, e => Engine.release { e with popStrobes := e.popStrobes + 1 }
  | .clearEnd, e => { e with endOfVector := false }

theorem bit_lt (s : Strobe) : s.bit < 32 := by
  cases s <;> decide

theorem register_ne_inputData (s : Strobe) : s.register ≠ inputData := by
  cases s <;> decide

theorem eq_of_bit_eq {s s' : Strobe} (hregister : s.register = s'.register)
    (hbit : s.bit = s'.bit) : s = s' := by
  revert hregister hbit
  cases s <;> cases s' <;> decide

theorem latched_fire (s : Strobe) (e : Engine) : (s.fire e).latched = e.latched := by
  cases s with
  | reset | clearEnd => rfl
  | push =>
      obtain ⟨pending, blocks, executed, overflows, haccept⟩ :=
        Engine.accept_frame { e with pushStrobes := e.pushStrobes + 1 }
      rw [fire, haccept]
  | pop =>
      obtain ⟨output, underflows, hrelease⟩ :=
        Engine.release_frame { e with popStrobes := e.popStrobes + 1 }
      rw [fire, hrelease]

end Strobe

namespace Engine
open Register

/-- The bit of a strobe was left high. -/
def isHigh (e : Engine) (s : Strobe) : Bool := Bits.bit (e.latest s.register) s.bit

/-- An engine after a pulse. -/
def pulse (s : Strobe) (e : Engine) : Engine :=
  latch s.register (Bits.lower (e.latest s.register) s.bit) (if e.isHigh s then e else s.fire e)

theorem controlEngine_raise (e : Engine) :
    controlEngine (Bits.raise (e.latest engineControl) clearBit) e =
      if Bits.bit (e.latest engineControl) clearBit then e
      else { e with endOfVector := false } := by
  rw [controlEngine, Bits.bit_rising_raise _ _ (by decide), decide_eq_true rfl, Bool.true_and]
  cases Bits.bit (e.latest engineControl) clearBit <;> rfl

theorem controlEngine_lower {v : UInt32} {k : Nat} {e : Engine}
    (h : e.latest engineControl = Bits.raise v k) : controlEngine (Bits.lower v k) e = e := by
  simp [controlEngine, h, Bits.bit_rising_lower v k (j := clearBit) (by decide)]

theorem write_raise (s : Strobe) (e : Engine) :
    write s.register (Bits.raise (e.latest s.register) s.bit) e =
      latch s.register (Bits.raise (e.latest s.register) s.bit)
        (if e.isHigh s then e else s.fire e) := by
  cases s with
  | reset => exact congrArg (latch queueControl _) (controlQueues_raise_reset e)
  | push => exact congrArg (latch queueControl _) (controlQueues_raise_push e)
  | pop => exact congrArg (latch queueControl _) (controlQueues_raise_pop e)
  | clearEnd => exact congrArg (latch engineControl _) (controlEngine_raise e)

theorem write_lower {s : Strobe} {v : UInt32} {e : Engine}
    (h : e.latest s.register = Bits.raise v s.bit) :
    write s.register (Bits.lower v s.bit) e = latch s.register (Bits.lower v s.bit) e := by
  cases s with
  | reset | push | pop => exact congrArg (latch queueControl _) (controlQueues_lower h)
  | clearEnd => exact congrArg (latch engineControl _) (controlEngine_lower h)

theorem read_strobe (s : Strobe) (e : Engine) :
    read s.register e = (e.latest s.register, e) := by
  cases s <;> rfl

theorem latest_pulse (s : Strobe) (e : Engine) (r : Register) :
    (e.pulse s).latest r =
      if r = s.register then Bits.lower (e.latest r) s.bit else e.latest r := by
  have hkept : (if e.isHigh s then e else s.fire e).latest r = e.latest r := by
    split
    · rfl
    · rw [latest, s.latched_fire, ← latest]
  by_cases hr : r = s.register
  · subst hr
    rw [pulse, latest_latch, if_pos rfl]
  · rw [pulse, latest_latch_of_ne (Ne.symm hr), hkept, if_neg hr]

theorem isHigh_pulse (s s' : Strobe) (e : Engine) :
    (e.pulse s).isHigh s' = (e.isHigh s' && s' != s) := by
  rw [isHigh, isHigh, latest_pulse]
  by_cases hregister : s'.register = s.register
  · rw [if_pos hregister, Bits.bit_lower _ _ _ s'.bit_lt]
    congr 1
    by_cases hs : s' = s
    · simp [hs]
    · have hbit : s'.bit ≠ s.bit := fun h => hs (Strobe.eq_of_bit_eq hregister h)
      simp [hs, hbit]
  · have hs : s' ≠ s := fun h => hregister (congrArg Strobe.register h)
    rw [if_neg hregister]
    simp [hs]

theorem isHigh_latch_inputData (v : UInt32) (s : Strobe) (e : Engine) :
    (latch inputData v e).isHigh s = e.isHigh s := by
  rw [isHigh, isHigh, latest_latch_of_ne s.register_ne_inputData.symm]

end Engine

/-- A pulse takes effect exactly if its bit was low, and no other strobe fires. -/
theorem Link.device_pulse (s : Strobe) (t : Link Engine) :
    (t.pulse s.register s.bit).device = t.device.pulse s := by
  change Engine.write s.register (Bits.lower (Engine.read s.register t.device).1 s.bit)
    (Engine.write s.register (Bits.raise (Engine.read s.register t.device).1 s.bit)
      (Engine.read s.register t.device).2) = _
  rw [Engine.read_strobe, Engine.write_raise, Engine.write_lower (Engine.latest_latch _ _ _),
    Engine.latch_latch]
  rfl

theorem Link.device_reset (t : Link Engine) : t.reset.device = t.device.pulse .reset :=
  device_pulse .reset (t.note .resetting)

theorem Link.device_clearEnd (t : Link Engine) : t.clearEnd.device = t.device.pulse .clearEnd :=
  device_pulse .clearEnd t

end Gemv
