import Gemv.Proofs.InputQueue
import Gemv.Proofs.Strobes

/-! What a run does to the engine, move by move.

Every operation comes down to a few moves: a word is offered when there is room, a sample is taken
when one waits, a strobe is pulsed by itself, or the surroundings act. `exists_moves_runAll` finds
the moves of a whole run and ties them to the words accepted and the samples taken, so a property
of all runs is a property of single moves, carried along a `Path`. -/
namespace Gemv

inductive Move where
  /-- Held polls come or go, and nothing else. -/
  | wait
  | offer (w : Instruction)
  | take (s : Sample)
  | reset
  | clearEnd
  | produce (s : Sample)
  | raiseEnd
  | fill (pattern : UInt16)
  | step (n : Nat)
  deriving DecidableEq, Repr

namespace Move

def word? : Move → Option Instruction
  | .offer w => some w
  | _ => none

def taken? : Move → Option Sample
  | .take s => some s
  | _ => none

def produced? : Move → Option Sample
  | .produce s => some s
  | _ => none

def strobe? : Move → Option Strobe
  | .offer _ => some .push
  | .take _ => some .pop
  | .reset => some .reset
  | .clearEnd => some .clearEnd
  | _ => none

/-- Moves by which words go in and samples come out. -/
def isTrade : Move → Bool
  | .wait | .offer _ | .take _ => true
  | _ => false

theorem filterMap_cons {α : Type} (f : Move → Option α) (m : Move) (ms : List Move) :
    (m :: ms).filterMap f = (f m).toList ++ ms.filterMap f := by
  rw [List.filterMap_cons]
  cases f m <;> rfl

end Move

namespace Engine
open Register

/-- One move. A word is offered to an engine with room, and a sample taken from one that has it. -/
inductive Moved : Move → Engine → Engine → Prop where
  | wait (e : Engine) (held : Nat) : Moved .wait e (e.holdFull held)
  | offer {e : Engine} (w : Instruction) (room : e.isFull = false) :
      Moved (.offer w) e ((latch inputData w.raw e).pulse .push)
  | take {e : Engine} {s : Sample} {rest : List Sample} (waiting : e.output = s :: rest) :
      Moved (.take s) e (e.pulse .pop)
  | reset (e : Engine) : Moved .reset e (e.pulse .reset)
  | clearEnd (e : Engine) : Moved .clearEnd e (e.pulse .clearEnd)
  | produce (e : Engine) (s : Sample) : Moved (.produce s) e (e.pushOutput s)
  | raiseEnd (e : Engine) : Moved .raiseEnd e e.raiseEnd
  | fill (e : Engine) (pattern : UInt16) : Moved (.fill pattern) e (e.fill pattern)
  | step (e : Engine) (n : Nat) : Moved (.step n) e (e.step n).2

inductive Path : List Move → Engine → Engine → Prop where
  | nil (e : Engine) : Path [] e e
  | cons {m : Move} {ms : List Move} {e e' e'' : Engine} :
      Moved m e e' → Path ms e' e'' → Path (m :: ms) e e''

theorem Path.append {ms ns : List Move} {e e' e'' : Engine} (h : Path ms e e')
    (h' : Path ns e' e'') : Path (ms ++ ns) e e'' := by
  induction h with
  | nil => exact h'
  | cons hmove _ ih => exact .cons hmove (ih h')

theorem Moved.path {m : Move} {e e' : Engine} (h : Moved m e e') : Path [m] e e' :=
  .cons h (.nil e')

/-- A move lowers the bit of its own strobe and touches no other. -/
theorem Moved.isHigh {m : Move} {e e' : Engine} (h : Moved m e e') (s : Strobe) :
    e'.isHigh s = (e.isHigh s && m.strobe? != some s) := by
  cases h with
  | offer w =>
      rw [isHigh_pulse, isHigh_latch_inputData]
      cases s <;> rfl
  | take | reset | clearEnd =>
      rw [isHigh_pulse]
      cases s <;> rfl
  | wait | produce | raiseEnd | fill => exact (Bool.and_true _).symm
  | step _ n =>
      obtain ⟨blocks, executed, hrun, -⟩ :=
        foldl_execute (e.pending.take n) { e with pending := e.pending.drop n }
      rw [Engine.step, hrun]
      exact (Bool.and_true _).symm

theorem Moved.low {m : Move} {e e' : Engine} (h : Moved m e e') {s : Strobe}
    (hlow : e.isHigh s = false) : e'.isHigh s = false := by
  rw [h.isHigh, hlow, Bool.false_and]

theorem bit_validBit_queueStatus (e : Engine) :
    Bits.bit e.queueStatus validBit = !e.output.isEmpty := by
  rw [queueStatus, Bits.bit_word (by simp)]
  rfl

end Engine

namespace Link
open Register

/-- A link that has led the engine through these moves, and has counted the words. -/
structure Does (moves : List Move) (t u : Link Engine) : Prop where
  path : Engine.Path moves t.device u.device
  pushed : u.pushed = t.pushed + (moves.filterMap Move.word?).length

namespace Does

variable {ms ns : List Move} {t u v : Link Engine}

theorem refl (t : Link Engine) : Does [] t t := ⟨.nil t.device, rfl⟩

theorem trans (h : Does ms t u) (h' : Does ns u v) : Does (ms ++ ns) t v := by
  refine ⟨h.path.append h'.path, ?_⟩
  rw [h'.pushed, h.pushed, List.filterMap_append, List.length_append, Nat.add_assoc]

theorem note (h : Does ms t u) (n : Note) : Does ms t (u.note n) := ⟨h.path, h.pushed⟩

theorem of_waited (h : Waited t u) : Does [.wait] t u := by
  obtain ⟨hpushed, held, hdevice⟩ := h
  refine ⟨?_, hpushed⟩
  rw [hdevice]
  exact (Engine.Moved.wait t.device held).path

end Does

theorem device_offer (w : Instruction) (t : Link Engine) :
    (t.offer w).device = (Engine.latch inputData w.raw t.device).pulse .push :=
  device_pulse .push ((t.note (.pushed w)).write inputData w.raw)

theorem does_offer {t : Link Engine} (hroom : t.device.isFull = false) (w : Instruction) :
    Does [.offer w] t (t.offer w) := by
  refine ⟨?_, rfl⟩
  rw [device_offer]
  exact (Engine.Moved.offer w hroom).path

theorem pop_of_empty {t : Link Engine} (h : t.device.output = []) :
    t.pop.1 = none ∧ t.pop.2.device = t.device.holdFull (t.device.heldFull - 1) ∧
      t.pop.2.pushed = t.pushed := by
  have hvalid : Bits.bit (t.read queueStatus).1 validBit = false := by
    exact t.device.bit_validBit_queueStatus.trans (by rw [h]; rfl)
  simp only [pop, hvalid]
  exact ⟨rfl, rfl, rfl⟩

theorem pop_of_cons {t : Link Engine} {s : Sample} {rest : List Sample}
    (h : t.device.output = s :: rest) :
    t.pop.1 = some s ∧
      t.pop.2.device = (t.device.holdFull (t.device.heldFull - 1)).pulse .pop ∧
      t.pop.2.pushed = t.pushed := by
  have hvalid : Bits.bit (t.read queueStatus).1 validBit = true := by
    exact t.device.bit_validBit_queueStatus.trans (by rw [h]; rfl)
  have hword : ((t.read queueStatus).2.read outputData).1 = s.toWord := by
    change ((t.device.output.head?.map Sample.toWord).getD 0) = _
    rw [h]
    rfl
  simp only [pop, hvalid, if_true, hword, Sample.ofWord_toWord, device_note, pushed_note, true_and]
  exact ⟨device_pulse .pop ((t.read queueStatus).2.read outputData).2, rfl⟩

theorem Waited.read {t u : Link Engine} (h : Waited t u) (r : Register) :
    Waited t (u.read r).2 := by
  obtain ⟨hpushed, held, hdevice⟩ := h
  have hread : ∃ held', (Engine.read r u.device).2 = u.device.holdFull held' := by
    unfold Engine.read
    split
    · exact ⟨u.device.heldFull, rfl⟩
    · split
      · exact ⟨u.device.heldFull - 1, rfl⟩
      · split <;> exact ⟨u.device.heldFull, rfl⟩
  obtain ⟨held', hread⟩ := hread
  refine ⟨hpushed, held', ?_⟩
  rw [device_read]
  exact hread.trans (by rw [hdevice]; rfl)

theorem Waited.looks (t : Link Engine) : Looks (Waited t) where
  read h r := h.read r
  note h _ := h
  pause h _ := h

/-- Between the two links these words went in, these samples came out, and nothing else happened. -/
def Trades (words : List Instruction) (samples : List Sample) (t u : Link Engine) : Prop :=
  ∃ ms, Does ms t u ∧ ms.filterMap Move.word? = words ∧ ms.filterMap Move.taken? = samples ∧
    ∀ m ∈ ms, m.isTrade = true

namespace Trades

variable {ws vs : List Instruction} {ss rs : List Sample} {t u v : Link Engine}

theorem refl (t : Link Engine) : Trades [] [] t t := ⟨[], .refl t, rfl, rfl, by simp⟩

theorem trans (h : Trades ws ss t u) (h' : Trades vs rs u v) :
    Trades (ws ++ vs) (ss ++ rs) t v := by
  obtain ⟨ms, hms, rfl, rfl, hall⟩ := h
  obtain ⟨ns, hns, rfl, rfl, hall'⟩ := h'
  refine ⟨ms ++ ns, hms.trans hns, List.filterMap_append, List.filterMap_append, ?_⟩
  intro m hm
  rcases List.mem_append.1 hm with hm | hm
  · exact hall m hm
  · exact hall' m hm

theorem note (h : Trades ws ss t u) (n : Note) : Trades ws ss t (u.note n) := by
  obtain ⟨ms, hms, hrest⟩ := h
  exact ⟨ms, hms.note n, hrest⟩

theorem of_waited (h : Waited t u) : Trades [] [] t u :=
  ⟨[.wait], .of_waited h, rfl, rfl, by simp [Move.isTrade]⟩

theorem push (w : Instruction) (t : Link Engine) : Trades (t.accepts [w]) [] t (t.push w).2 := by
  rcases push_cases w t with ⟨u, hpush, hpushed, hdevice, hroom⟩ | ⟨e, u, hpush, hwaited⟩
  · have hfree : u.device.isFull = false := by
      rw [hdevice, Engine.isFull_eq_false_iff]
      exact ⟨rfl, hroom⟩
    have hoffer : Trades [w] [] u (u.offer w) :=
      ⟨[.offer w], does_offer hfree w, rfl, rfl, by simp [Move.isTrade]⟩
    rw [accepts, hpush]
    exact (of_waited ⟨hpushed, 0, hdevice⟩).trans hoffer
  · rw [accepts, hpush]
    exact of_waited hwaited

theorem tracks (t : Link Engine) : Tracks fun sent u => Trades sent [] t u where
  push h w := h.trans (push w _)
  note h n := h.note n

theorem pop (t : Link Engine) : Trades [] t.pop.1.toList t t.pop.2 := by
  cases houtput : t.device.output with
  | nil =>
      obtain ⟨hnone, hdevice, hpushed⟩ := pop_of_empty houtput
      rw [hnone]
      exact of_waited ⟨hpushed, _, hdevice⟩
  | cons s rest =>
      obtain ⟨hsome, hdevice, hpushed⟩ := pop_of_cons houtput
      rw [hsome]
      refine ⟨[.wait, .take s], ⟨?_, hpushed⟩, rfl, rfl, by simp [Move.isTrade]⟩
      rw [hdevice]
      exact .cons (.wait _ _) (Engine.Moved.take (by exact houtput)).path

theorem popFrom (taken : List Sample) (max : Nat) (t : Link Engine) :
    ∃ more, (t.popFrom taken max).1 = taken.reverse ++ more ∧
      Trades [] more t (t.popFrom taken max).2 := by
  induction max generalizing taken t with
  | zero => exact ⟨[], (List.append_nil _).symm, refl t⟩
  | succ max ih =>
      have hpop := pop t
      rw [Link.popFrom]
      generalize t.pop = p at hpop
      obtain ⟨result, u⟩ := p
      cases result with
      | none => exact ⟨[], (List.append_nil _).symm, hpop⟩
      | some s =>
          obtain ⟨more, hmore, hrest⟩ := ih (s :: taken) u
          exact ⟨s :: more, by simpa using hmore, hpop.trans hrest⟩

theorem popSamples (max : Nat) (t : Link Engine) :
    Trades [] (t.popSamples max).1 t (t.popSamples max).2 := by
  obtain ⟨more, hmore, htrades⟩ := popFrom [] max t
  rw [Link.popSamples, hmore]
  exact htrades

theorem popVector (max : Nat) (t : Link Engine) :
    Trades [] (t.popSamples max).1 t (t.popVector max).2 :=
  (popSamples max t).note _

end Trades

end Link

namespace Operation
open Link

/-- The words of an operation that the link accepts. -/
def sends (g : Geometry) (op : Operation) (t : Link Engine) : List Instruction :=
  match op with
  | .host op => t.accepts (op.offers g)
  | .engine _ => []

/-- The samples that an operation takes out of the engine. -/
def takes (op : Operation) (t : Link Engine) : List Sample :=
  match op with
  | .host op => op.takes t
  | .engine _ => []

/-- The samples that the engine itself has ready. -/
def produces : Operation → List Sample
  | .engine (.pushOutput s) => [s]
  | _ => []

def sent (g : Geometry) : List Operation → Link Engine → List Instruction := along g (sends g)

def taken (g : Geometry) : List Operation → Link Engine → List Sample := along g takes

def produced (ops : List Operation) : List Sample := ops.flatMap produces

/-- The moves of a run. -/
structure Made (g : Geometry) (ops : List Operation) (t : Link Engine) (moves : List Move) :
    Prop where
  does : Does moves t (runAll g ops t)
  words : moves.filterMap Move.word? = sent g ops t
  samples : moves.filterMap Move.taken? = taken g ops t
  produced : moves.filterMap Move.produced? = produced ops
  resets : .reset ∈ moves → .host .reset ∈ ops
  fills : ∀ pattern, .fill pattern ∈ moves → .engine (.fill pattern) ∈ ops

namespace Made

variable {g : Geometry} {op : Operation} {ops : List Operation} {t : Link Engine}
  {ms ns : List Move}

theorem cons (h : Made g [op] t ms) (h' : Made g ops (op.run g t).2 ns) :
    Made g (op :: ops) t (ms ++ ns) := by
  constructor
  case does => exact h.does.trans h'.does
  case words =>
      rw [List.filterMap_append, h.words, h'.words, sent, along_singleton]
      rfl
  case samples =>
      rw [List.filterMap_append, h.samples, h'.samples, Operation.taken, along_singleton]
      rfl
  case produced =>
      rw [List.filterMap_append, h.produced, h'.produced]
      simp [Operation.produced]
  case resets =>
      intro hm
      rcases List.mem_append.1 hm with hm | hm
      · simpa using Or.inl (h.resets hm)
      · exact List.mem_cons_of_mem op (h'.resets hm)
  case fills =>
      intro pattern hm
      rcases List.mem_append.1 hm with hm | hm
      · simpa using Or.inl (h.fills pattern hm)
      · exact List.mem_cons_of_mem op (h'.fills pattern hm)

theorem of_trades (h : Trades (op.sends g t) (op.takes t) t (op.run g t).2)
    (hnone : op.produces = []) : ∃ ms, Made g [op] t ms := by
  obtain ⟨ms, hdoes, hwords, hsamples, hall⟩ := h
  refine ⟨ms, hdoes, ?_, ?_, ?_, ?_, ?_⟩
  · rw [hwords, sent, along_singleton]
  · rw [hsamples, Operation.taken, along_singleton]
  · have hproduced : ms.filterMap Move.produced? = [] := by
      rw [List.filterMap_eq_nil_iff]
      intro m hm
      have htrade := hall m hm
      cases m <;> first | rfl | cases htrade
    rw [hproduced, Operation.produced, List.flatMap_cons, hnone]
    rfl
  · intro hm
    cases hall _ hm
  · intro pattern hm
    cases hall _ hm

/-- Every operation but a write by hand, or one of a second host, is made of moves. -/
theorem exists_of_regular (hop : op.isRegular = true) : ∃ ms, Made g [op] t ms := by
  cases op with
  | engine op =>
      cases op with
      | holdFull polls => exact of_trades (.of_waited ⟨rfl, polls, rfl⟩) rfl
      | row | lanes | executed | checksum => exact of_trades (.refl t) rfl
      | pushOutput s =>
          exact ⟨[.produce s], ⟨(Engine.Moved.produce t.device s).path, rfl⟩, rfl, rfl, rfl,
            by simp, by simp⟩
      | raiseEnd =>
          exact ⟨[.raiseEnd], ⟨(Engine.Moved.raiseEnd t.device).path, rfl⟩, rfl, rfl, rfl,
            by simp, by simp⟩
      | fill pattern =>
          exact ⟨[.fill pattern], ⟨(Engine.Moved.fill t.device pattern).path, rfl⟩, rfl, rfl, rfl,
            by simp, by simp⟩
      | step n =>
          exact ⟨[.step n], ⟨(Engine.Moved.step t.device n).path, rfl⟩, rfl, rfl, rfl,
            by simp, by simp⟩
      | drain =>
          exact ⟨[.step (2 ^ 64 - 1)], ⟨(Engine.Moved.step t.device (2 ^ 64 - 1)).path, rfl⟩, rfl,
            rfl, rfl, by simp, by simp⟩
  | host op =>
      have hquiet : ∀ {op : HostOp}, op.offers g = [] → (Operation.host op).takes t = [] →
          Waited t (op.run g t).2 → ∃ ms, Made g [.host op] t ms := by
        intro op hoffers htakes hwaited
        refine of_trades ?_ rfl
        rw [sends, hoffers, htakes]
        exact .of_waited hwaited
      have hpushing : ∀ {op : HostOp}, op.pushes = true → (Operation.host op).takes t = [] →
          ∃ ms, Made g [.host op] t ms := by
        intro op hpushes htakes
        refine of_trades ?_ rfl
        rw [htakes]
        exact (Trades.tracks t).run (.refl t) g hpushes
      cases op with
      | push | pushAll | pushProgram | pushListing | load | loadSingles | clearRegister =>
          exact hpushing rfl rfl
      | pop => exact of_trades (.pop t) rfl
      | popVector max => exact of_trades (.popVector max t) rfl
      | popSingles max fraction => exact of_trades (.popVector max t) rfl
      | isEnd => exact hquiet rfl rfl ((Waited.looks t).isEnd (.refl t))
      | awaitEnd => exact hquiet rfl rfl ((Waited.looks t).awaitEnd (.refl t))
      | setLimits l => exact hquiet rfl rfl (.refl t)
      | setWait w => exact hquiet rfl rfl (.refl t)
      | read index => exact hquiet rfl rfl ((Waited.looks t).readIndex (.refl t) index)
      | clearEnd =>
          refine ⟨[.clearEnd], ⟨?_, rfl⟩, rfl, rfl, rfl, by simp, by simp⟩
          have hdevice : (runAll g [.host .clearEnd] t).device = t.device.pulse .clearEnd :=
            device_clearEnd t
          rw [hdevice]
          exact (Engine.Moved.clearEnd t.device).path
      | reset =>
          refine ⟨[.reset], ⟨?_, rfl⟩, rfl, rfl, rfl, by simp, by simp⟩
          have hdevice : (runAll g [.host .reset] t).device = t.device.pulse .reset :=
            device_reset t
          rw [hdevice]
          exact (Engine.Moved.reset t.device).path
      | write | lendPush | renew => simp [isRegular, HostOp.isRegular] at hop

end Made

theorem exists_moves_runAll (g : Geometry) {ops : List Operation}
    (hops : ∀ op ∈ ops, op.isRegular = true) (t : Link Engine) : ∃ ms, Made g ops t ms := by
  induction ops generalizing t with
  | nil => exact ⟨[], .refl t, rfl, rfl, rfl, by simp, by simp⟩
  | cons op ops ih =>
      obtain ⟨ms, hms⟩ := Made.exists_of_regular (g := g) (t := t) (hops op (List.mem_cons_self ..))
      have hrest : ∀ op' ∈ ops, op'.isRegular = true :=
        fun op' hop' => hops op' (List.mem_cons_of_mem op hop')
      obtain ⟨ns, hns⟩ := ih hrest (op.run g t).2
      exact ⟨ms ++ ns, hms.cons hns⟩

end Operation

end Gemv
