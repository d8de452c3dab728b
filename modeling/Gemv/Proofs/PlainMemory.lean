import Gemv.Proofs.BusTrace
import Gemv.Proofs.Looks
import Gemv.Proofs.Strobes

/-! What a host leaves behind in plain memory.

Memory answers nothing, so a pulse only lowers its bit and a status never changes: either every push
finds room at the first look or none ever does, and the same sample is there to be taken for ever or
never. A `Footprint` says what the words pushed and the strobes pulsed have made of the sixteen
registers; footprints follow one another (`Footprint.trans`), so that of a run is known from its
operations. -/
namespace Gemv

namespace RegisterFile

def word (r : Register) (d : RegisterFile) : UInt32 := d.words.get r

/-- Plain memory after a pulse. -/
def lower (r : Register) (k : Nat) (d : RegisterFile) : RegisterFile :=
  ⟨d.words.set r (Bits.lower (d.word r) k) r.val_lt⟩

theorem word_write (r r' : Register) (v : UInt32) (d : RegisterFile) :
    (Device.write r v d).word r' = if r' = r then v else d.word r' := by
  change (d.words.set r v r.val_lt)[r'.val] = _
  rw [Vector.getElem_set]
  by_cases h : r' = r
  · rw [if_pos (congrArg Fin.val h.symm), if_pos h]
  · rw [if_neg fun heq => h (Fin.ext heq.symm), if_neg h]
    rfl

theorem word_lower (r r' : Register) (k : Nat) (d : RegisterFile) :
    (d.lower r k).word r' = if r' = r then Bits.lower (d.word r') k else d.word r' := by
  have hwrite := word_write r r' (Bits.lower (d.word r) k) d
  by_cases h : r' = r
  · subst h
    exact hwrite
  · rw [if_neg h] at hwrite ⊢
    exact hwrite

/-- The samples that a host can take, at most `max`: the one that memory shows, again and again. -/
def samples (d : RegisterFile) (max : Nat) : List Sample :=
  if Bits.bit (d.word Register.queueStatus) Register.validBit then
    List.replicate max (Sample.ofWord (d.word Register.outputData))
  else []

end RegisterFile

/-- What is left in plain memory by the words pushed and the strobes pulsed: the last word, and a
low bit for each strobe. -/
structure Footprint (words : List Instruction) (pulsed : Strobe → Prop) (d d' : RegisterFile) :
    Prop where
  input : d'.word Register.inputData =
    (words.map (·.raw)).getLastD (d.word Register.inputData)
  bits : ∀ r, r ≠ Register.inputData → ∀ k < 32, (Bits.bit (d'.word r) k = true ↔
    Bits.bit (d.word r) k = true ∧ ∀ s, pulsed s → s.register = r → s.bit ≠ k)

namespace Footprint
open Register

variable {ws vs : List Instruction} {P Q : Strobe → Prop} {d d' d'' : RegisterFile}

theorem refl (d : RegisterFile) : Footprint [] (fun _ => False) d d := ⟨rfl, by simp⟩

theorem trans (h : Footprint ws P d d') (h' : Footprint vs Q d' d'') :
    Footprint (ws ++ vs) (fun s => P s ∨ Q s) d d'' := by
  constructor
  case input =>
      rw [h'.input, h.input, List.map_append]
      cases vs <;> simp
  case bits =>
      intro r hr k hk
      rw [h'.bits r hr k hk, h.bits r hr k hk, and_assoc]
      refine and_congr_right fun _ => ⟨?_, ?_⟩
      · rintro ⟨hfirst, hsecond⟩ s (hs | hs)
        · exact hfirst s hs
        · exact hsecond s hs
      · intro hboth
        exact ⟨fun s hs => hboth s (.inl hs), fun s hs => hboth s (.inr hs)⟩

theorem congr (h : Footprint ws P d d') (heq : ∀ s, P s ↔ Q s) : Footprint ws Q d d' :=
  funext (fun s => propext (heq s)) ▸ h

theorem input_write (w : Instruction) (d : RegisterFile) :
    Footprint [w] (fun _ => False) d (Device.write inputData w.raw d) := by
  constructor
  case input =>
      rw [RegisterFile.word_write, if_pos rfl]
      rfl
  case bits =>
      intro r hr k hk
      rw [RegisterFile.word_write, if_neg hr]
      simp

theorem lower (s : Strobe) (d : RegisterFile) :
    Footprint [] (· = s) d (d.lower s.register s.bit) := by
  constructor
  case input =>
      rw [RegisterFile.word_lower, if_neg s.register_ne_inputData.symm]
      rfl
  case bits =>
      intro r hr k hk
      rw [RegisterFile.word_lower]
      by_cases hregister : r = s.register
      · rw [if_pos hregister, Bits.bit_lower _ _ _ hk, Bool.and_eq_true, Bool.not_eq_true',
          decide_eq_false_iff_not]
        refine and_congr_right fun _ => ⟨?_, ?_⟩
        · rintro hne _ rfl - heq
          exact hne heq.symm
        · exact fun hall heq => hall s rfl hregister.symm heq.symm
      · rw [if_neg hregister]
        simp [Ne.symm hregister]

/-- Only the first three registers are ever written. -/
theorem eq_of_three_le (h : Footprint ws P d d') {r : Register} (hr : 3 ≤ r.val) :
    d'.word r = d.word r := by
  have hbits : ∀ k < 32, Bits.bit (d'.word r) k = Bits.bit (d.word r) k := by
    intro k hk
    apply Bool.eq_iff_iff.2
    rw [h.bits r (by rintro rfl; cases hr) k hk]
    refine and_iff_left fun s _ heq => ?_
    subst heq
    cases s <;> exact absurd hr (by decide)
  apply UInt32.toBitVec_inj.1
  exact BitVec.eq_of_getLsbD_eq hbits

end Footprint

namespace Link
open Register

section Memory

variable (t : Link RegisterFile)

theorem device_pulse_memory (r : Register) (k : Nat) :
    (t.pulse r k).device = t.device.lower r k := by
  change RegisterFile.mk ((t.device.words.set r (Bits.raise (t.device.word r) k) r.val_lt).set r
    (Bits.lower (t.device.word r) k) r.val_lt) = _
  rw [Vector.set_set]
  rfl

theorem looks_memory : Looks fun u : Link RegisterFile => u.device = t.device where
  read h _ := h
  note h _ := h
  pause h _ := h

theorem footprint_offer (w : Instruction) :
    Footprint [w] (· = .push) t.device (t.offer w).device := by
  have hdevice : (t.offer w).device =
      (Device.write inputData w.raw t.device).lower queueControl pushBit :=
    device_pulse_memory ((t.note (.pushed w)).write inputData w.raw) queueControl pushBit
  rw [hdevice]
  exact ((Footprint.input_write w t.device).trans (.lower .push _)).congr fun s => by simp

variable {t}

theorem fst_lookForRoom_memory (failed : Nat) :
    (t.lookForRoom failed).1 = !Bits.bit (t.device.word queueStatus) fullBit := by
  have hread : (t.read queueStatus).1 = t.device.word queueStatus := rfl
  unfold lookForRoom
  rw [← hread]
  generalize t.read queueStatus = p
  obtain ⟨status, u⟩ := p
  cases hfull : Bits.bit status fullBit <;> simp [hfull]

/-- Memory that shows room takes every word at the first look. -/
theorem push_of_clear (h : Bits.bit (t.device.word queueStatus) fullBit = false)
    (w : Instruction) : t.push w = (.ok (), (t.read queueStatus).2.offer w) := by
  have hready : (t.lookForRoom 0).1 = true := by rw [fst_lookForRoom_memory, h]; rfl
  have hlook : (t.lookForRoom 0).2 = (t.read queueStatus).2 := by
    have hstatus : Bits.bit (t.read queueStatus).1 fullBit = false := h
    unfold lookForRoom
    generalize t.read queueStatus = p at hstatus ⊢
    obtain ⟨status, u⟩ := p
    simp only [hstatus, Bool.false_eq_true, if_false]
  rw [push, await, poll_of_ready _ _ _ hready, hlook]
  rfl

/-- Memory that shows none takes no word, and a push changes nothing in it. -/
theorem push_of_set (h : Bits.bit (t.device.word queueStatus) fullBit = true) (w : Instruction) :
    ∃ e u, t.push w = (.error e, u) ∧ u.device = t.device ∧
      WaitFailure t.limits t.clock "FIFO-in space" e := by
  have hlook : ∀ n u, u.device = t.device → (lookForRoom n u).1 = false →
      (lookForRoom n u).2.device = t.device := fun n _ hu _ => (looks_memory t).lookForRoom hu n
  rcases await_cases hlook (fun n _ hu => (looks_memory t).pause hu n) "FIFO-in space" rfl with
    ⟨n, last, hlast, hready, -⟩ | ⟨e, final, hfinal, hwait⟩
  · rw [fst_lookForRoom_memory, hlast, h] at hready
    cases hready
  · exact ⟨e, final, by rw [push, hwait], hfinal, waitFailure_of_await hwait⟩

theorem tracks_footprint (t : Link RegisterFile) :
    Tracks fun sent u => Footprint sent (fun s => s = .push ∧ sent ≠ []) t.device u.device where
  push {sent u} h w := by
    cases hfull : Bits.bit (u.device.word queueStatus) fullBit with
    | true =>
        obtain ⟨e, v, hpush, hdevice, -⟩ := push_of_set hfull w
        rw [accepts, hpush, hdevice, List.append_nil]
        exact h
    | false =>
        have hoffer := footprint_offer (u.read queueStatus).2 w
        rw [accepts, push_of_clear hfull w]
        have hsome : sent ++ [w] ≠ [] := List.append_ne_nil_of_right_ne_nil sent (by simp)
        refine (h.trans hoffer).congr fun s => ?_
        exact (or_iff_right_of_imp And.left).trans (and_iff_left hsome).symm
  note h _ := h

/-- Memory shows the same status for ever, so all words of a batch are accepted or none is. -/
theorem accepts_memory (ws : List Instruction) (t : Link RegisterFile) :
    t.accepts ws = if Bits.bit (t.device.word queueStatus) fullBit then [] else ws := by
  induction ws generalizing t with
  | nil => split <;> rfl
  | cons w ws ih =>
      cases hfull : Bits.bit (t.device.word queueStatus) fullBit with
      | true =>
          obtain ⟨e, u, hpush, -, -⟩ := push_of_set hfull w
          rw [accepts, hpush]
          rfl
      | false =>
          have hstatus : ((t.read queueStatus).2.offer w).device.word queueStatus =
              t.device.word queueStatus :=
            (footprint_offer (t.read queueStatus).2 w).eq_of_three_le (by decide)
          have hrest := ih ((t.read queueStatus).2.offer w)
          rw [hstatus, hfull] at hrest
          rw [accepts, push_of_clear hfull w]
          exact congrArg (w :: ·) hrest

theorem pop_of_valid (h : Bits.bit (t.device.word queueStatus) validBit = true) :
    ∃ u, t.pop = (some (Sample.ofWord (t.device.word outputData)), u) ∧
      u.device = t.device.lower queueControl popBit := by
  have hvalid : Bits.bit (t.read queueStatus).1 validBit = true := h
  refine ⟨t.pop.2, ?_, ?_⟩
  · simp only [pop, hvalid, if_true]
    rfl
  · simp only [pop, hvalid, if_true]
    exact device_pulse_memory ((t.read queueStatus).2.read outputData).2 queueControl popBit

theorem pop_of_invalid (h : Bits.bit (t.device.word queueStatus) validBit = false) :
    t.pop = (none, (t.read queueStatus).2) := by
  have hvalid : Bits.bit (t.read queueStatus).1 validBit = false := h
  simp only [pop, hvalid, Bool.false_eq_true, if_false]

theorem pop_memory (t : Link RegisterFile) :
    t.pop.1.toList = t.device.samples 1 ∧
      Footprint [] (fun s => s = .pop ∧ t.device.samples 1 ≠ []) t.device t.pop.2.device := by
  rw [RegisterFile.samples]
  cases hvalid : Bits.bit (t.device.word queueStatus) validBit with
  | true =>
      obtain ⟨u, hpop, hdevice⟩ := pop_of_valid hvalid
      rw [hpop, hdevice]
      exact ⟨rfl, (Footprint.lower .pop t.device).congr fun s => by simp⟩
  | false =>
      rw [pop_of_invalid hvalid]
      exact ⟨rfl, (Footprint.refl t.device).congr fun s => by simp⟩

/-- Taking a sample changes nothing that is shown, so it is there again. -/
theorem popFrom_memory (taken : List Sample) (max : Nat) (t : Link RegisterFile) :
    (t.popFrom taken max).1 = taken.reverse ++ t.device.samples max ∧
      Footprint [] (fun s => s = .pop ∧ t.device.samples max ≠ []) t.device
        (t.popFrom taken max).2.device := by
  induction max generalizing taken t with
  | zero =>
      have hnone : t.device.samples 0 = [] := by
        rw [RegisterFile.samples]
        split <;> rfl
      rw [hnone, List.append_nil]
      exact ⟨rfl, (Footprint.refl t.device).congr fun s => by simp⟩
  | succ max ih =>
      cases hvalid : Bits.bit (t.device.word queueStatus) validBit with
      | false =>
          have hnone : t.device.samples (max + 1) = [] := by
            rw [RegisterFile.samples, hvalid]
            rfl
          rw [popFrom, pop_of_invalid hvalid, hnone, List.append_nil]
          exact ⟨rfl, (Footprint.refl t.device).congr fun s => by simp⟩
      | true =>
          obtain ⟨u, hpop, hdevice⟩ := pop_of_valid hvalid
          have hfirst : Footprint [] (· = .pop) t.device u.device :=
            hdevice ▸ Footprint.lower .pop t.device
          have hstatus : u.device.word queueStatus = t.device.word queueStatus :=
            hfirst.eq_of_three_le (by decide)
          have hshown : u.device.word outputData = t.device.word outputData :=
            hfirst.eq_of_three_le (by decide)
          have hsamples : t.device.samples (max + 1) =
              Sample.ofWord (t.device.word outputData) :: u.device.samples max := by
            rw [RegisterFile.samples, RegisterFile.samples, hstatus, hshown, hvalid]
            rfl
          obtain ⟨hresult, hrest⟩ := ih (Sample.ofWord (t.device.word outputData) :: taken) u
          rw [popFrom, hpop, hsamples]
          refine ⟨hresult.trans (by simp), (hfirst.trans hrest).congr fun s => ?_⟩
          simp only [ne_eq, List.cons_ne_nil, not_false_eq_true, and_true]
          exact or_iff_left_of_imp And.left

theorem popVector_memory (max : Nat) (t : Link RegisterFile) :
    (t.popVector max).1 = if Bits.bit (t.device.word queueStatus) validBit then
      List.replicate max (t.device.word outputData).toUInt16.toInt16 else [] := by
  have hsamples : (t.popFrom [] max).1 = t.device.samples max := (popFrom_memory [] max t).1
  change (t.popFrom [] max).1.map (·.value) = _
  rw [hsamples, RegisterFile.samples]
  split
  · exact List.map_replicate
  · rfl

end Memory

end Link

namespace HostOp
open Link Register

section Device

variable {σ : Type} [Device σ]

/-- The samples that a run takes, in order. -/
def taken (g : Geometry) : List HostOp → Link σ → List Sample := along g takes

/-- The strobes that a run pulses: one for each word accepted and each sample taken, and those of
the operations that do nothing else. -/
def Strobes (g : Geometry) (ops : List HostOp) (t : Link σ) : Strobe → Prop
  | .push => accepted g ops t ≠ []
  | .pop => taken g ops t ≠ []
  | .reset => .reset ∈ ops
  | .clearEnd => .clearEnd ∈ ops

theorem strobes_cons (g : Geometry) (op : HostOp) (ops : List HostOp) (t : Link σ) (s : Strobe) :
    Strobes g (op :: ops) t s ↔ Strobes g [op] t s ∨ Strobes g ops (op.run g t).2 s := by
  cases s with
  | push | pop => simp [Strobes, accepted, taken, Classical.or_iff_not_imp_left]
  | reset | clearEnd => simp [Strobes]

theorem strobes_singleton (g : Geometry) (op : HostOp) (t : Link σ) (s : Strobe) :
    Strobes g [op] t s ↔ s = .push ∧ t.accepts (op.offers g) ≠ [] ∨ s = .pop ∧ op.takes t ≠ [] ∨
      s = .reset ∧ op = .reset ∨ s = .clearEnd ∧ op = .clearEnd := by
  cases s with
  | push | pop => simp [Strobes, accepted, taken]
  | reset | clearEnd =>
      simp only [Strobes, List.mem_singleton, reduceCtorEq, false_and, true_and, false_or, or_false]
      exact eq_comm

end Device

theorem footprint_run (g : Geometry) {op : HostOp} (hop : op.isRegular = true)
    (t : Link RegisterFile) :
    Footprint (t.accepts (op.offers g)) (Strobes g [op] t) t.device (op.run g t).2.device := by
  -- What is pulsed is known once the words and the samples are.
  have hpushing : ∀ {op : HostOp}, op.pushes = true →
      Footprint (t.accepts (op.offers g)) (fun s => s = .push ∧ t.accepts (op.offers g) ≠ [])
        t.device (op.run g t).2.device := by
    intro op hpushes
    have hstart : Footprint [] (fun s => s = .push ∧ ([] : List Instruction) ≠ []) t.device
        t.device := (Footprint.refl t.device).congr fun s => by simp
    exact (tracks_footprint t).run hstart g hpushes
  have hquiet : ∀ {d : RegisterFile}, d = t.device → Footprint [] (fun _ => False) t.device d :=
    fun heq => heq ▸ .refl _
  cases op with
  | push | pushAll | pushProgram | pushListing | load | loadSingles | clearRegister =>
      refine (hpushing rfl).congr fun s => ?_
      rw [strobes_singleton]
      simp [takes]
  | pop =>
      obtain ⟨hresult, hfootprint⟩ := pop_memory t
      refine hfootprint.congr fun s => ?_
      rw [strobes_singleton, takes, hresult]
      simp [offers, accepts]
  | popVector max | popSingles max =>
      obtain ⟨hresult, hfootprint⟩ := popFrom_memory [] max t
      refine hfootprint.congr fun s => ?_
      rw [strobes_singleton, takes, popSamples, hresult]
      simp [offers, accepts]
  | clearEnd =>
      have hdevice : t.clearEnd.device = t.device.lower engineControl clearBit :=
        device_pulse_memory t engineControl clearBit
      refine (hdevice ▸ Footprint.lower .clearEnd t.device).congr fun s => ?_
      rw [strobes_singleton]
      simp [offers, accepts, takes]
  | reset =>
      have hdevice : t.reset.device = t.device.lower queueControl resetBit :=
        device_pulse_memory (t.note .resetting) queueControl resetBit
      refine (hdevice ▸ Footprint.lower .reset t.device).congr fun s => ?_
      rw [strobes_singleton]
      simp [offers, accepts, takes]
  | isEnd | setLimits | setWait =>
      refine (hquiet rfl).congr fun s => ?_
      rw [strobes_singleton]
      simp [offers, accepts, takes]
  | awaitEnd =>
      refine (hquiet ((looks_memory t).awaitEnd rfl)).congr fun s => ?_
      rw [strobes_singleton]
      simp [offers, accepts, takes]
  | read index =>
      refine (hquiet ((looks_memory t).readIndex rfl index)).congr fun s => ?_
      rw [strobes_singleton]
      simp [offers, accepts, takes]
  | write | lendPush | renew => simp [isRegular] at hop

theorem footprint_runAll (g : Geometry) {ops : List HostOp}
    (hops : ∀ op ∈ ops, op.isRegular = true) (t : Link RegisterFile) :
    Footprint (accepted g ops t) (Strobes g ops t) t.device (runAll g ops t).device := by
  induction ops generalizing t with
  | nil =>
      refine (Footprint.refl t.device).congr fun s => ?_
      cases s <;> simp [Strobes, accepted, taken]
  | cons op ops ih =>
      obtain ⟨hop, hops⟩ := List.forall_mem_cons.1 hops
      have hrest := (footprint_run g hop t).trans (ih hops (op.run g t).2)
      exact hrest.congr fun s => (strobes_cons g op ops t s).symm

/-- A run over plain memory pushes all that it has to offer, or nothing at all. -/
theorem accepted_memory (g : Geometry) {ops : List HostOp}
    (hops : ∀ op ∈ ops, op.isRegular = true) (t : Link RegisterFile) :
    accepted g ops t = if Bits.bit (t.device.word queueStatus) fullBit then []
      else ops.flatMap (·.offers g) := by
  induction ops generalizing t with
  | nil => split <;> rfl
  | cons op ops ih =>
      obtain ⟨hop, hops⟩ := List.forall_mem_cons.1 hops
      have hstatus : (op.run g t).2.device.word queueStatus = t.device.word queueStatus :=
        (footprint_run g hop t).eq_of_three_le (by decide)
      rw [accepted, along_cons, ← accepted, ih hops, accepts_memory, hstatus]
      split <;> rfl

/-- The footprint of a run in plain memory, whatever the registers hold at first. Registers 3 to 15
never change, so bit 0 of register 9 decides once and for all. If it is low, every word goes in at
the first look; if it is high, no word does, and a push with a bound times out and changes nothing.
Register 0 ends as the last word that went in. Of register 1 bit 0 is low after a reset, bit 1 after
a word went in and bit 2 after a sample was taken; of register 2 bit 0 is low after a clear. All
other bits are kept. A vector of samples is the low half of register 8, as often as asked for, if
bit 1 of register 9 is high, and empty if it is low. -/
theorem plain_memory_footprint (g : Geometry) (memory : RegisterFile) (limits : PollLimits)
    (wait : Wait) {ops : List HostOp} (hops : ∀ op ∈ ops, op.isRegular = true) :
    let start : Link RegisterFile := { device := memory, limits, wait }
    let final := (runAll g ops start).device
    (∀ r : Register, 3 ≤ r.val → final.word r = memory.word r) ∧
      final.word 0 = ((accepted g ops start).map (·.raw)).getLastD (memory.word 0) ∧
      (∀ k < 32, Bits.bit (final.word 1) k = true ↔ Bits.bit (memory.word 1) k = true ∧
        (k = 0 → .reset ∉ ops) ∧ (k = 1 → accepted g ops start = []) ∧
        (k = 2 → taken g ops start = [])) ∧
      (∀ k < 32, Bits.bit (final.word 2) k = true ↔
        Bits.bit (memory.word 2) k = true ∧ (k = 0 → .clearEnd ∉ ops)) ∧
      (accepted g ops start =
        if Bits.bit (memory.word 9) 0 then [] else ops.flatMap (·.offers g)) ∧
      (∀ (t : Link RegisterFile) (w : Instruction), Bits.bit (t.device.word 9) 0 = false →
        t.push w = (.ok (), (t.read 9).2.offer w)) ∧
      (∀ (t : Link RegisterFile) (w : Instruction), Bits.bit (t.device.word 9) 0 = true →
        (t.push w).2.device = t.device ∧ (t.limits.Ends t.clock →
          ∃ attempts, (t.push w).1 = .error (.timeout "FIFO-in space" attempts))) ∧
      ∀ (t : Link RegisterFile) (max : Nat), (t.popVector max).1 =
        if Bits.bit (t.device.word 9) 1 then
          List.replicate max (t.device.word 8).toUInt16.toInt16
        else [] := by
  intro start final
  have hfootprint : Footprint (accepted g ops start) (Strobes g ops start) memory final :=
    footprint_runAll g hops start
  refine ⟨fun r hr => hfootprint.eq_of_three_le hr, hfootprint.input, ?_, ?_,
    accepted_memory g hops start, fun t w h => push_of_clear h w, ?_,
    fun t max => popVector_memory max t⟩
  · intro k hk
    refine (hfootprint.bits queueControl (by decide) k hk).trans (and_congr_right fun _ => ?_)
    constructor
    · intro hlow
      refine ⟨fun h hmem => hlow .reset hmem rfl h.symm, fun h => ?_, fun h => ?_⟩
      · exact Classical.byContradiction fun hsome => hlow .push hsome rfl h.symm
      · exact Classical.byContradiction fun hsome => hlow .pop hsome rfl h.symm
    · rintro ⟨hreset, hpush, hpop⟩ s hs hregister h
      cases s with
      | reset => exact hreset h.symm hs
      | push => exact hs (hpush h.symm)
      | pop => exact hs (hpop h.symm)
      | clearEnd => exact absurd hregister (by decide)
  · intro k hk
    refine (hfootprint.bits engineControl (by decide) k hk).trans (and_congr_right fun _ => ?_)
    constructor
    · exact fun hlow h hmem => hlow .clearEnd hmem rfl h.symm
    · rintro hclear s hs hregister h
      cases s with
      | clearEnd => exact hclear h.symm hs
      | reset | push | pop => exact absurd hregister (by decide)
  · intro t w h
    obtain ⟨e, u, hpush, hdevice, hfailure⟩ := push_of_set h w
    rw [hpush]
    refine ⟨hdevice, fun hends => ?_⟩
    obtain ⟨attempts, rfl⟩ := hfailure.eq_timeout hends
    exact ⟨attempts, rfl⟩

/-- All bits are high but the full bit. Two words and two samples go over the bus, then a reset; the
wait for the end does nothing. With the full bit high as well, a push times out. -/
theorem plain_memory_footprint_all_high :
    let memory : RegisterFile :=
      ⟨(Vector.replicate 16 0xffffffff).set queueStatus 0xfffffffe queueStatus.val_lt⟩
    let limits : PollLimits := { maxAttempts := some 3 }
    let ops : List HostOp := [.pushAll [.nop, .selectAll], .popVector 2, .awaitEnd, .reset]
    let start : Link RegisterFile := { device := memory, limits }
    let full : Link RegisterFile := { device := ⟨Vector.replicate 16 0xffffffff⟩, limits }
    let final := (runAll .standard ops start).device
    (∀ op ∈ ops, op.isRegular = true) ∧ final.word 0 = Instruction.selectAll.raw ∧
      Bits.bit (final.word 1) 0 = false ∧ Bits.bit (final.word 1) 1 = false ∧
      Bits.bit (final.word 1) 3 = true ∧ Bits.bit (final.word 2) 0 = true ∧
      ∃ attempts, (full.push .nop).1 = .error (.timeout "FIFO-in space" attempts) := by
  intro memory limits ops start full final
  have hops : ∀ op ∈ ops, op.isRegular = true := by simp [ops, isRegular]
  obtain ⟨-, hinput, hcontrol, hengine, hall, -, hfull, -⟩ :=
    plain_memory_footprint .standard memory limits .spin hops
  have hwords : accepted .standard ops start = [.nop, .selectAll] :=
    hall.trans (if_neg (by decide))
  refine ⟨hops, ?_, ?_, ?_, ?_, ?_, ?_⟩
  · exact hinput.trans (by rw [hwords]; rfl)
  · apply Bool.eq_false_iff.2
    intro hhigh
    exact ((hcontrol 0 (by decide)).1 hhigh).2.1 rfl (by simp [ops])
  · apply Bool.eq_false_iff.2
    intro hhigh
    have hnone := ((hcontrol 1 (by decide)).1 hhigh).2.2.1 rfl
    rw [hwords] at hnone
    cases hnone
  · exact (hcontrol 3 (by decide)).2 ⟨by decide, by simp, by simp, by simp⟩
  · exact (hengine 0 (by decide)).2 ⟨by decide, fun _ => by simp [ops]⟩
  · exact (hfull full .nop (by decide)).2 (PollLimits.ends_of_maxAttempts rfl (by decide) _)

end HostOp

end Gemv
