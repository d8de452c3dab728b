import Gemv.Proofs.OutputQueue
import Gemv.Proofs.Schedules

/-! What a strobe that was left high costs.

Whatever is latched, a call that pulses a strobe has its effect exactly if the bit was low, touches
nothing else and leaves the bit low (`Pulsed`). So a strobe that was left high, by a write or by a
pulse that was cut short, makes one call vain, and no regular operation ever raises it again. -/
namespace Gemv

namespace Engine
open Register

/-- The engine with one more word: executed at once, or queued. -/
def deliver (w : Instruction) (e : Engine) : Engine :=
  { (if e.automatic then e.execute w else { e with pending := e.pending ++ [w] }) with
    pushStrobes := e.pushStrobes + 1 }

/-- A call pulsed a strobe: with `fired` as its effect if the bit was low, and with none if it was
high. Apart from that the calls that look for room or for samples use up held polls, and a push
latches its word. -/
structure Pulsed (s : Strobe) (fired before after : Engine) : Prop where
  effect : { after with latched := before.latched, heldFull := before.heldFull } =
    if before.isHigh s then before else fired
  low : after.isHigh s = false
  bits : ∀ k < 32, k ≠ s.bit →
    Bits.bit (after.latest s.register) k = Bits.bit (before.latest s.register) k
  registers : ∀ r, r ≠ s.register → (s = .push → r ≠ inputData) → after.latest r = before.latest r

theorem pulsed_pulse {s : Strobe} {fired before e : Engine}
    (hsame : { e with latched := before.latched, heldFull := before.heldFull } = before)
    (hfire : { s.fire e with latched := before.latched, heldFull := before.heldFull } = fired)
    (hlatched : ∀ r, (s = .push → r ≠ inputData) → e.latest r = before.latest r) :
    Pulsed s fired before (e.pulse s) := by
  have hcontrol : e.latest s.register = before.latest s.register :=
    hlatched s.register fun _ => s.register_ne_inputData
  constructor
  case effect =>
      have hhigh : e.isHigh s = before.isHigh s := by rw [isHigh, isHigh, hcontrol]
      rw [pulse, hhigh]
      cases before.isHigh s with
      | true => exact hsame
      | false => exact hfire
  case low => rw [isHigh_pulse, bne_self_eq_false, Bool.and_false]
  case bits =>
      intro k hk hne
      rw [latest_pulse, if_pos rfl, Bits.bit_lower _ _ _ hk, hcontrol]
      simp [hne]
  case registers =>
      intro r hr hinput
      rw [latest_pulse, if_neg hr, hlatched r hinput]

theorem pulsed_offer {e : Engine} (held : Nat) (hroom : (e.holdFull held).isFull = false)
    (w : Instruction) :
    Pulsed .push (e.deliver w) e ((latch inputData w.raw (e.holdFull held)).pulse .push) := by
  apply pulsed_pulse
  · rfl
  · have hword : ∀ n, (⟨latest inputData
        { latch inputData w.raw (e.holdFull held) with pushStrobes := n }⟩ : Instruction) = w :=
      fun _ => congrArg Instruction.mk (latest_latch inputData w.raw (e.holdFull held))
    rw [Strobe.fire, accept_of_room (by exact hroom), hword, deliver]
    by_cases hauto : e.automatic = true
    · rw [if_pos (by exact hauto), if_pos hauto]
      rfl
    · rw [if_neg (by exact hauto), if_neg hauto]
      rfl
  · intro r hr
    exact latest_latch_of_ne (hr rfl).symm w.raw (e.holdFull held)

theorem pulsed_take {e : Engine} {s : Sample} {rest : List Sample} (h : e.output = s :: rest)
    (held : Nat) :
    Pulsed .pop { e with output := rest, popStrobes := e.popStrobes + 1 } e
      ((e.holdFull held).pulse .pop) := by
  apply pulsed_pulse
  · rfl
  · have hwaiting : (e.holdFull held).output = s :: rest := h
    simp only [Strobe.fire, release, hwaiting]
    rfl
  · intro r _
    rfl

theorem pulsed_reset (e : Engine) :
    Pulsed .reset { e with pending := [], output := [] } e (e.pulse .reset) :=
  pulsed_pulse rfl rfl fun _ _ => rfl

theorem pulsed_clearEnd (e : Engine) :
    Pulsed .clearEnd { e with endOfVector := false } e (e.pulse .clearEnd) :=
  pulsed_pulse rfl rfl fun _ _ => rfl

/-- How many words the engine has executed or holds pending. -/
def received (e : Engine) : Nat := e.executed.size + e.pending.length

theorem received_deliver (w : Instruction) (e : Engine) :
    (e.deliver w).received = e.received + 1 := by
  unfold deliver
  split
  · simp only [received, execute, Array.size_push]
    omega
  · simp only [received, List.length_append, List.length_singleton]
    omega

theorem received_step (e : Engine) (n : Nat) : (e.step n).2.received = e.received := by
  have hlength := congrArg List.length (List.take_append_drop n e.pending)
  rw [List.length_append] at hlength
  simp only [step_eq, received, ← Array.length_toList, Array.toList_appendList, List.length_append]
  omega

theorem SameWork.received {e e' : Engine} (h : SameWork e e') : e'.received = e.received := by
  rw [Engine.received, Engine.received, h.executed, h.pending]

theorem Pulsed.received {w : Instruction} {e e' : Engine} (h : Pulsed .push (e.deliver w) e e') :
    1 + e.received + (e'.isHigh .push).toNat = e'.received + (e.isHigh .push).toNat := by
  have heffect := congrArg Engine.received h.effect
  change e'.received = _ at heffect
  rw [heffect, h.low]
  cases e.isHigh .push with
  | true => exact Nat.add_comm 1 e.received
  | false => exact (Nat.add_comm 1 e.received).trans (received_deliver w e).symm

theorem Pulsed.output {s : Sample} {rest : List Sample} {n : Nat} {e e' : Engine}
    (hwaiting : e.output = s :: rest)
    (h : Pulsed .pop { e with output := rest, popStrobes := n } e e') :
    1 + e'.output.length + (e'.isHigh .pop).toNat = e.output.length + (e.isHigh .pop).toNat := by
  have heffect := congrArg Engine.output h.effect
  change e'.output = _ at heffect
  have hlength : e.output.length = rest.length + 1 := by rw [hwaiting, List.length_cons]
  rw [heffect, h.low]
  cases e.isHigh .pop with
  | true => exact Nat.add_comm 1 e.output.length
  | false => exact (Nat.add_comm 1 rest.length).trans hlength.symm

namespace Moved

variable {m : Move} {e e' : Engine}

theorem isHigh_of_ne (h : Moved m e e') {s : Strobe} (hs : m.strobe? ≠ some s) :
    e'.isHigh s = e.isHigh s := by
  rw [h.isHigh, bne_iff_ne.2 hs, Bool.and_true]

/-- Every word offered is taken in, but for one that meets a strobe left high. -/
theorem received (h : Moved m e e') (hreset : m ≠ .reset) :
    m.word?.toList.length + e.received + (e'.isHigh .push).toNat =
      e'.received + (e.isHigh .push).toNat := by
  have hquiet : m.strobe? ≠ some .push → m.word? = none → e'.received = e.received →
      m.word?.toList.length + e.received + (e'.isHigh .push).toNat =
        e'.received + (e.isHigh .push).toNat := by
    intro hstrobe hword hsame
    rw [h.isHigh_of_ne hstrobe, hword, hsame]
    simp
  cases h with
  | offer w hroom => exact (pulsed_offer e.heldFull hroom w).received
  | reset => exact absurd rfl hreset
  | step _ n => exact hquiet (by simp [Move.strobe?]) rfl (received_step e n)
  | take => exact hquiet (by simp [Move.strobe?]) rfl (SameWork.pulse_pop e).received
  | clearEnd => exact hquiet (by simp [Move.strobe?]) rfl (SameWork.pulse_clearEnd e).received
  | wait | produce | raiseEnd | fill => exact hquiet (by simp [Move.strobe?]) rfl rfl

/-- Every sample taken leaves the queue, but for one that meets a strobe left high. -/
theorem output (h : Moved m e e') (hreset : m ≠ .reset) (hproduced : m.produced? = none) :
    m.taken?.toList.length + e'.output.length + (e'.isHigh .pop).toNat =
      e.output.length + (e.isHigh .pop).toNat := by
  have hquiet : m.strobe? ≠ some .pop → m.taken? = none → e'.output = e.output →
      m.taken?.toList.length + e'.output.length + (e'.isHigh .pop).toNat =
        e.output.length + (e.isHigh .pop).toNat := by
    intro hstrobe htaken hsame
    rw [h.isHigh_of_ne hstrobe, htaken, hsame]
    simp
  cases h with
  | take hwaiting => exact (pulsed_take hwaiting e.heldFull).output hwaiting
  | reset => exact absurd rfl hreset
  | produce _ s => cases hproduced
  | offer w => exact hquiet (by simp [Move.strobe?]) rfl (SameOutput.offer w e).output
  | clearEnd => exact hquiet (by simp [Move.strobe?]) rfl (SameOutput.pulse_clearEnd e).output
  | step _ n => exact hquiet (by simp [Move.strobe?]) rfl (SameOutput.step e n).output
  | wait | raiseEnd | fill => exact hquiet (by simp [Move.strobe?]) rfl rfl

end Moved

namespace Path

variable {ms : List Move} {e e' : Engine}

theorem isHigh_le (h : Path ms e e') (s : Strobe) : (e'.isHigh s).toNat ≤ (e.isHigh s).toNat := by
  induction h with
  | nil => exact Nat.le_refl _
  | @cons m ms e e' e'' hmove _ ih =>
      refine Nat.le_trans ih ?_
      rw [hmove.isHigh]
      cases e.isHigh s with
      | false => exact Nat.le_refl 0
      | true => exact Bool.toNat_le _

theorem received (h : Path ms e e') (hreset : .reset ∉ ms) :
    (ms.filterMap Move.word?).length + e.received + (e'.isHigh .push).toNat =
      e'.received + (e.isHigh .push).toNat := by
  induction h with
  | nil => simp
  | @cons m ms e e' e'' hmove _ ih =>
      have hfirst := hmove.received fun hm => hreset (by simp [hm])
      have hrest := ih fun hm => hreset (List.mem_cons_of_mem m hm)
      rw [Move.filterMap_cons, List.length_append]
      omega

theorem output (h : Path ms e e') (hreset : .reset ∉ ms)
    (hproduced : ms.filterMap Move.produced? = []) :
    (ms.filterMap Move.taken?).length + e'.output.length + (e'.isHigh .pop).toNat =
      e.output.length + (e.isHigh .pop).toNat := by
  induction h with
  | nil => simp
  | @cons m ms e e' e'' hmove _ ih =>
      rw [Move.filterMap_cons, List.append_eq_nil_iff, Option.toList_eq_nil_iff] at hproduced
      have hfirst := hmove.output (fun hm => hreset (by simp [hm])) hproduced.1
      have hrest := ih (fun hm => hreset (List.mem_cons_of_mem m hm)) hproduced.2
      rw [Move.filterMap_cons, List.length_append]
      omega

end Path

end Engine

namespace Link
open Engine Register

theorem pulsed_push {w : Instruction} {t u : Link Engine} (h : t.push w = (.ok (), u)) :
    u.pushed = t.pushed + 1 ∧ u.device.latest inputData = w.raw ∧
      Pulsed .push (t.device.deliver w) t.device u.device := by
  rcases push_cases w t with ⟨v, hpush, hpushed, hdevice, hroom⟩ | ⟨e, v, hpush, -⟩
  · rw [hpush] at h
    cases h
    have hfree : (t.device.holdFull 0).isFull = false := (isFull_eq_false_iff _).2 ⟨rfl, hroom⟩
    refine ⟨congrArg (· + 1) hpushed, ?_, ?_⟩
    · rw [device_offer, latest_pulse, if_neg Strobe.push.register_ne_inputData.symm, latest_latch]
    · rw [device_offer, hdevice]
      exact pulsed_offer 0 hfree w
  · rw [hpush] at h
    cases h

end Link

namespace Operation
open Link Engine

/-- How many uses of a strobe an operation makes in vain: words that the link counts and the engine
does not get, samples that are handed out and stay queued, a reset that leaves something in the
queues, a clear that leaves the flag. -/
def lost (g : Geometry) (s : Strobe) (op : Operation) (t : Link Engine) : Nat :=
  let u := (op.run g t).2
  match s, op with
  | .push, _ => (u.pushed - t.pushed) - (u.device.received - t.device.received)
  | .pop, _ => (op.takes t).length - (t.device.output.length - u.device.output.length)
  | .reset, .host .reset => if u.device.pending = [] ∧ u.device.output = [] then 0 else 1
  | .clearEnd, .host .clearEnd => u.device.endOfVector.toNat
  | _, _ => 0

def losses (g : Geometry) (s : Strobe) : List Operation → Link Engine → Nat
  | [], _ => 0
  | op :: ops, t => op.lost g s t + losses g s ops (op.run g t).2

section Losses

variable {g : Geometry} {op : Operation} {t : Link Engine} {ms : List Move}

theorem isHigh_run_le (hmade : Made g [op] t ms) (s : Strobe) :
    ((op.run g t).2.device.isHigh s).toNat ≤ (t.device.isHigh s).toNat :=
  hmade.does.path.isHigh_le s

theorem lost_push_le (hmade : Made g [op] t ms) :
    op.lost g .push t + ((op.run g t).2.device.isHigh .push).toNat ≤
      (t.device.isHigh .push).toNat := by
  have hlow := isHigh_run_le hmade .push
  have hpushed : (op.run g t).2.pushed = t.pushed + (ms.filterMap Move.word?).length :=
    hmade.does.pushed
  rw [lost, hpushed]
  by_cases hreset : .reset ∈ ms
  · -- A reset drops what was received, but no word goes in with it.
    obtain rfl : op = .host .reset := (List.mem_singleton.1 (hmade.resets hreset)).symm
    have hnone : ms.filterMap Move.word? = [] := hmade.words
    rw [hnone]
    simpa using hlow
  · have hreceived : _ = (op.run g t).2.device.received + _ := hmade.does.path.received hreset
    change _ + ((op.run g t).2.device.isHigh .push).toNat = _ at hreceived
    omega

theorem lost_pop_le (hmade : Made g [op] t ms) :
    op.lost g .pop t + ((op.run g t).2.device.isHigh .pop).toNat ≤
      (t.device.isHigh .pop).toNat := by
  have hlow := isHigh_run_le hmade .pop
  have hsamples : ms.filterMap Move.taken? = op.takes t := by
    rw [hmade.samples, Operation.taken, along_singleton]
  rw [lost, ← hsamples]
  by_cases htakes : op.takes t = []
  · rw [hsamples, htakes]
    simpa using hlow
  · -- An operation that takes samples neither resets nor has new ones ready.
    have hreset : .reset ∉ ms := by
      intro hm
      obtain rfl : op = .host .reset := (List.mem_singleton.1 (hmade.resets hm)).symm
      exact htakes rfl
    have hproduced : ms.filterMap Move.produced? = [] := by
      rw [hmade.produced, Operation.produced, List.flatMap_singleton, produces.eq_def]
      split
      · exact absurd rfl htakes
      · rfl
    have houtput : _ + (op.run g t).2.device.output.length + _ = _ :=
      hmade.does.path.output hreset hproduced
    change _ + ((op.run g t).2.device.isHigh .pop).toNat = _ at houtput
    omega

theorem lost_reset_le (hmade : Made g [op] t ms) :
    op.lost g .reset t + ((op.run g t).2.device.isHigh .reset).toNat ≤
      (t.device.isHigh .reset).toNat := by
  have hlow := isHigh_run_le hmade .reset
  rw [lost.eq_def]
  split
  · contradiction
  · contradiction
  · have hpulsed := pulsed_reset t.device
    rw [← device_reset] at hpulsed
    have hpending := congrArg Engine.pending hpulsed.effect
    have houtput := congrArg Engine.output hpulsed.effect
    change t.reset.device.pending = _ at hpending
    change t.reset.device.output = _ at houtput
    change (if t.reset.device.pending = [] ∧ t.reset.device.output = [] then 0 else 1) +
      (t.reset.device.isHigh .reset).toNat ≤ _
    rw [hpulsed.low, hpending, houtput]
    cases t.device.isHigh .reset with
    | false => simp
    | true =>
        rw [if_pos rfl]
        split <;> decide
  · contradiction
  · simpa using hlow

theorem lost_clearEnd_le (hmade : Made g [op] t ms) :
    op.lost g .clearEnd t + ((op.run g t).2.device.isHigh .clearEnd).toNat ≤
      (t.device.isHigh .clearEnd).toNat := by
  have hlow := isHigh_run_le hmade .clearEnd
  rw [lost.eq_def]
  split
  · contradiction
  · contradiction
  · contradiction
  · have hpulsed := pulsed_clearEnd t.device
    rw [← device_clearEnd] at hpulsed
    have hflag := congrArg Engine.endOfVector hpulsed.effect
    change t.clearEnd.device.endOfVector = _ at hflag
    change t.clearEnd.device.endOfVector.toNat + (t.clearEnd.device.isHigh .clearEnd).toNat ≤ _
    rw [hpulsed.low, hflag]
    cases t.device.isHigh .clearEnd with
    | false => simp
    | true => exact Bool.toNat_le _
  · simpa using hlow

/-- An operation that loses a use of a strobe has found it high, and leaves it low. -/
theorem lost_add_isHigh_le (hop : op.isRegular = true) (s : Strobe) :
    op.lost g s t + ((op.run g t).2.device.isHigh s).toNat ≤ (t.device.isHigh s).toNat := by
  obtain ⟨ms, hmade⟩ := Made.exists_of_regular (g := g) (t := t) hop
  cases s with
  | reset => exact lost_reset_le hmade
  | push => exact lost_push_le hmade
  | pop => exact lost_pop_le hmade
  | clearEnd => exact lost_clearEnd_le hmade

theorem losses_le {ops : List Operation} (hops : ∀ op ∈ ops, op.isRegular = true) (s : Strobe) :
    losses g s ops t + ((runAll g ops t).device.isHigh s).toNat ≤ (t.device.isHigh s).toNat := by
  induction ops generalizing t with
  | nil => simp [losses, runAll]
  | cons op ops ih =>
      have hfirst := lost_add_isHigh_le (g := g) (t := t) (hops op (List.mem_cons_self ..)) s
      have hrest := ih (t := (op.run g t).2) fun op' hop' => hops op' (List.mem_cons_of_mem op hop')
      change _ + ((runAll g (op :: ops) t).device.isHigh s).toNat ≤ _ at hrest
      rw [losses]
      omega

end Losses

/-- Calls that pulse a strobe, whatever the engine's state and whatever was latched. A push that
succeeds is counted, and a pop that finds a sample returns it. The push delivers its word, the pop
removes its sample, a reset empties the queues and a clear lowers the flag exactly if the bit of
the strobe was low, and nothing else happens. The bit is low afterwards and no other bit has
changed. So whatever is done from there on, short of writes by hand, at most one use of each strobe
is lost, and none if its bit was low. -/
theorem strobes_act_iff_low (t : Link Engine) :
    (∀ w u, t.push w = (.ok (), u) →
        u.pushed = t.pushed + 1 ∧ u.device.latest Register.inputData = w.raw ∧
          Pulsed .push (t.device.deliver w) t.device u.device) ∧
      (∀ s rest, t.device.output = s :: rest →
        t.pop.1 = some s ∧
          Pulsed .pop { t.device with output := rest, popStrobes := t.device.popStrobes + 1 }
            t.device t.pop.2.device) ∧
      Pulsed .reset { t.device with pending := [], output := [] } t.device t.reset.device ∧
      Pulsed .clearEnd { t.device with endOfVector := false } t.device t.clearEnd.device ∧
      ∀ (g : Geometry) (ops : List Operation), (∀ op ∈ ops, op.isRegular = true) →
        ∀ s, losses g s ops t ≤ (t.device.isHigh s).toNat := by
  refine ⟨fun w u => pulsed_push, ?_, ?_, ?_, ?_⟩
  · intro s rest hwaiting
    obtain ⟨hsome, hdevice, -⟩ := pop_of_cons hwaiting
    rw [hdevice]
    exact ⟨hsome, pulsed_take hwaiting _⟩
  · rw [device_reset]
    exact pulsed_reset t.device
  · rw [device_clearEnd]
    exact pulsed_clearEnd t.device
  · intro g ops hops s
    exact Nat.le_trans (Nat.le_add_right _ _) (losses_le hops s)

/-- A write by hand leaves the push strobe high: the first push is counted and lost, the second
arrives. -/
theorem strobes_act_iff_low_after_write :
    let t := runAll .standard [.host (.write 1 2)] (newLink .standard 4 false {} .spin)
    let ops : List Operation := [.host (.push .selectAll), .host (.push (.write 3 5))]
    let final := runAll .standard ops t
    (∀ op ∈ ops, op.isRegular = true) ∧ t.device.isHigh .push = true ∧ final.pushed = 2 ∧
      final.device.pending = [⟨0⟩, .write 3 5] ∧ losses .standard .push ops t = 1 ∧
      ∀ s, losses .standard s ops t ≤ (t.device.isHigh s).toNat := by
  intro t ops final
  have hops : ∀ op ∈ ops, op.isRegular = true := by simp [ops, isRegular, HostOp.isRegular]
  obtain ⟨-, -, -, -, hlosses⟩ := strobes_act_iff_low t
  exact ⟨hops, by decide, rfl, rfl, rfl, hlosses .standard ops hops⟩

end Operation

end Gemv
