import Gemv.Proofs.EngineLink
import Gemv.Proofs.Looks
import Gemv.Proofs.Offers

/-! What becomes of the words that a host pushes.

The history of a run names every word that was accepted and, at each reset, the words that were
pending then. `Conserves` ties the engine to it: what it has executed, followed by what is pending,
is what remains of the history. A push adds to both (`Conserves.push`), a reset takes the same
words from both (`Conserves.reset`), a step moves words from pending to executed
(`Conserves.step`), and nothing else touches the input queue (`SameInput`). -/
namespace Gemv

/-- What can happen to words at the input queue. -/
inductive QueueEvent where
  | accepted (w : Instruction)
  | discarded (ws : List Instruction)
  deriving DecidableEq, Repr

def QueueEvent.isAccepted : QueueEvent → Bool
  | .accepted _ => true
  | .discarded _ => false

/-- The words left by a history: those accepted, in order, less those discarded. Words are discarded
from the end only. -/
inductive Remains : List QueueEvent → List Instruction → Prop where
  | start : Remains [] []
  | accepted {history : List QueueEvent} {words : List Instruction} (w : Instruction) :
      Remains history words → Remains (history ++ [.accepted w]) (words ++ [w])
  | discarded {history : List QueueEvent} {words : List Instruction} (lost : List Instruction) :
      Remains history (words ++ lost) → Remains (history ++ [.discarded lost]) words

namespace Operation

/-- What an operation does at the input queue. -/
def traffic (g : Geometry) (op : Operation) (t : Link Engine) : List QueueEvent :=
  match op with
  | .host .reset => [.discarded t.device.pending]
  | .host op => (t.accepts (op.offers g)).map .accepted
  | .engine _ => []

/-- What a run does at the input queue. -/
def history (g : Geometry) : List Operation → Link Engine → List QueueEvent := along g (traffic g)

end Operation

namespace Engine
open Register

/-- Engines that agree on all that concerns the input queue. Control bits may only have fallen. -/
structure SameInput (e e' : Engine) : Prop where
  depth : e'.depth = e.depth
  automatic : e'.automatic = e.automatic
  executed : e'.executed = e.executed
  pending : e'.pending = e.pending
  overflows : e'.overflows = e.overflows
  pushStrobes : e'.pushStrobes = e.pushStrobes
  low : ∀ k < 32, Bits.bit e.control k = false → Bits.bit e'.control k = false

namespace SameInput

variable {e e' e'' : Engine}

theorem refl (e : Engine) : SameInput e e := ⟨rfl, rfl, rfl, rfl, rfl, rfl, fun _ _ h => h⟩

theorem trans (h : SameInput e e') (h' : SameInput e' e'') : SameInput e e'' :=
  ⟨h'.depth.trans h.depth, h'.automatic.trans h.automatic, h'.executed.trans h.executed,
    h'.pending.trans h.pending, h'.overflows.trans h.overflows,
    h'.pushStrobes.trans h.pushStrobes, fun k hk hlow => h'.low k hk (h.low k hk hlow)⟩

theorem holdFull (e : Engine) (polls : Nat) : SameInput e (e.holdFull polls) :=
  ⟨rfl, rfl, rfl, rfl, rfl, rfl, fun _ _ h => h⟩

theorem pushOutput (e : Engine) (s : Sample) : SameInput e (e.pushOutput s) :=
  ⟨rfl, rfl, rfl, rfl, rfl, rfl, fun _ _ h => h⟩

theorem raiseEnd (e : Engine) : SameInput e e.raiseEnd :=
  ⟨rfl, rfl, rfl, rfl, rfl, rfl, fun _ _ h => h⟩

theorem fill (e : Engine) (pattern : UInt16) : SameInput e (e.fill pattern) :=
  ⟨rfl, rfl, rfl, rfl, rfl, rfl, fun _ _ h => h⟩

theorem read (r : Register) (e : Engine) : SameInput e (e.read r).2 := by
  unfold Engine.read
  split
  · exact refl e
  · split
    · exact holdFull e (e.heldFull - 1)
    · split <;> exact refl e

theorem latch_lower (k : Nat) (e : Engine) :
    SameInput e (latch queueControl (Bits.lower e.control k) e) := by
  refine ⟨rfl, rfl, rfl, rfl, rfl, rfl, fun j hj hlow => ?_⟩
  rw [control, latest_latch, Bits.bit_lower _ _ _ hj, hlow, Bool.false_and]

theorem controlQueues_pop (e : Engine) :
    SameInput e (controlQueues (Bits.raise e.control popBit) e) ∧
      (controlQueues (Bits.raise e.control popBit) e).control = e.control := by
  rw [controlQueues_raise_pop]
  split
  · exact ⟨refl e, rfl⟩
  · unfold release
    split <;> exact ⟨⟨rfl, rfl, rfl, rfl, rfl, rfl, fun _ _ h => h⟩, rfl⟩

theorem write_engineControl (v : UInt32) (e : Engine) :
    SameInput e (e.write engineControl v) := by
  have hcontrol : ∀ e' : Engine, (latch engineControl v e').control = e'.control := by
    intro e'
    exact latest_latch_of_ne (by decide) v e'
  change SameInput e (latch engineControl v (controlEngine v e))
  unfold controlEngine
  simp only
  split <;> exact ⟨rfl, rfl, rfl, rfl, rfl, rfl, fun k _ h => by rw [hcontrol]; exact h⟩

end SameInput

theorem foldl_execute (ws : List Instruction) (e : Engine) :
    ∃ blocks executed, ws.foldl execute e = { e with blocks, executed } ∧
      executed.toList = e.executed.toList ++ ws := by
  induction ws generalizing e with
  | nil => exact ⟨e.blocks, e.executed, rfl, (List.append_nil _).symm⟩
  | cons w ws ih =>
      obtain ⟨blocks, executed, hrun, hexecuted⟩ := ih (e.execute w)
      refine ⟨blocks, executed, hrun, ?_⟩
      simpa [execute] using hexecuted

end Engine

namespace Link
open Register

/-- Links that agree on all that concerns the input queue. -/
structure SameInput (t u : Link Engine) : Prop where
  device : Engine.SameInput t.device u.device
  pushed : u.pushed = t.pushed

namespace SameInput

variable {t u v : Link Engine}

theorem refl (t : Link Engine) : SameInput t t := ⟨.refl _, rfl⟩

theorem trans (h : SameInput t u) (h' : SameInput u v) : SameInput t v :=
  ⟨h.device.trans h'.device, h'.pushed.trans h.pushed⟩

theorem record (e : Event) (t : Link Engine) : SameInput t (t.record e) := ⟨.refl _, rfl⟩

theorem read (r : Register) (t : Link Engine) : SameInput t (t.read r).2 :=
  ⟨.read r t.device, rfl⟩

theorem of_waited (h : Waited t u) : SameInput t u := by
  obtain ⟨hpushed, held, hdevice⟩ := h
  refine ⟨?_, hpushed⟩
  rw [hdevice]
  exact .holdFull t.device held

theorem pulse_pop (t : Link Engine) : SameInput t (t.pulse queueControl popBit) := by
  refine ⟨?_, pushed_pulse ..⟩
  obtain ⟨hsame, hcontrol⟩ := Engine.SameInput.controlQueues_pop t.device
  have hlatch := Engine.SameInput.latch_lower popBit
    (Engine.controlQueues (Bits.raise t.device.control popBit) t.device)
  rw [hcontrol] at hlatch
  rw [device_pulse_queueControl]
  exact hsame.trans hlatch

theorem clearEnd (t : Link Engine) : SameInput t t.clearEnd := by
  refine ⟨?_, pushed_pulse ..⟩
  change Engine.SameInput t.device
    (Engine.write engineControl _ (Engine.write engineControl _ t.device))
  exact (Engine.SameInput.write_engineControl _ _).trans (.write_engineControl _ _)

theorem looks (t : Link Engine) : Looks (SameInput t) where
  read {u} h r := h.trans (read r u)
  note {u} h n := h.trans (record (.note n) u)
  pause {u} h n := h.trans (record (.pause n) u)

theorem pop (t : Link Engine) : SameInput t t.pop.2 :=
  (looks t).pop (fun {u} h => h.trans (pulse_pop u)) (refl t)

theorem popVector (max : Nat) (t : Link Engine) : SameInput t (t.popVector max).2 :=
  (looks t).popVector (fun {u} h => h.trans (pulse_pop u)) (refl t) max

end SameInput

/-- The engine holds what remains of the history, and every count agrees with it. Between
operations the strobes are low, so that the next pulse of one is an edge. -/
structure Conserves (history : List QueueEvent) (depth : Nat) (t : Link Engine) : Prop where
  remains : Remains history (t.device.executed.toList ++ t.device.pending)
  immediate : t.device.automatic = true → t.device.pending = []
  sized : t.device.depth = depth
  bounded : t.device.pending.length ≤ depth
  lossless : t.device.overflows = 0
  strobes : t.device.pushStrobes = t.pushed
  counted : t.pushed = history.countP QueueEvent.isAccepted
  resetLow : Bits.bit t.device.control resetBit = false
  pushLow : Bits.bit t.device.control pushBit = false

namespace Conserves

variable {history : List QueueEvent} {depth : Nat} {t u : Link Engine}

theorem of_sameInput (h : Conserves history depth t) (hsame : SameInput t u) :
    Conserves history depth u := by
  obtain ⟨hdevice, hpushed⟩ := hsame
  constructor
  case remains =>
      rw [hdevice.executed, hdevice.pending]
      exact h.remains
  case immediate =>
      rw [hdevice.automatic, hdevice.pending]
      exact h.immediate
  case sized => exact hdevice.depth.trans h.sized
  case bounded =>
      rw [hdevice.pending]
      exact h.bounded
  case lossless => exact hdevice.overflows.trans h.lossless
  case strobes => rw [hdevice.pushStrobes, hpushed, h.strobes]
  case counted => exact hpushed.trans h.counted
  case resetLow => exact hdevice.low _ (by decide) h.resetLow
  case pushLow => exact hdevice.low _ (by decide) h.pushLow

theorem offer (h : Conserves history depth t) (hroom : t.device.isFull = false)
    (w : Instruction) : Conserves (history ++ [.accepted w]) depth (t.offer w) := by
  have htakes := takes_offer h.pushLow hroom w
  have hlength := ((t.device.isFull_eq_false_iff).1 hroom).2
  constructor
  case remains =>
      have haccepted := h.remains.accepted w
      -- The word joins the executed ones or the pending ones. Executed at once, it would overtake
      -- whatever is pending, but an automatic engine has nothing pending.
      cases hauto : t.device.automatic with
      | true =>
          obtain ⟨hexecuted, hpending, -⟩ := htakes.executes hauto
          rw [hexecuted, hpending, h.immediate hauto, Array.toList_push, List.append_nil]
          rwa [h.immediate hauto, List.append_nil] at haccepted
      | false =>
          obtain ⟨hexecuted, hpending, -⟩ := htakes.queues hauto
          rwa [hexecuted, hpending, ← List.append_assoc]
  case immediate =>
      intro hauto
      rw [htakes.automatic] at hauto
      rw [(htakes.executes hauto).2.1, h.immediate hauto]
  case sized => exact htakes.depth.trans h.sized
  case bounded =>
      rw [h.sized] at hlength
      cases hauto : t.device.automatic with
      | true =>
          rw [(htakes.executes hauto).2.1]
          exact h.bounded
      | false =>
          rw [(htakes.queues hauto).2.1, List.length_append]
          exact hlength
  case lossless => exact htakes.overflows.trans h.lossless
  case strobes => rw [htakes.pushStrobes, h.strobes]; rfl
  case counted =>
      rw [List.countP_append, ← h.counted]
      rfl
  case resetLow => rw [htakes.control, Bits.bit_lower _ _ _ (by decide), h.resetLow]; rfl
  case pushLow => rw [htakes.control, Bits.bit_lower _ _ _ (by decide), h.pushLow]; rfl

/-- A push that succeeds adds its word to the history, and one that fails adds nothing. -/
theorem push (h : Conserves history depth t) (w : Instruction) :
    Conserves (history ++ (t.accepts [w]).map .accepted) depth (t.push w).2 := by
  rcases push_cases w t with ⟨u, hpush, hpushed, hdevice, hroom⟩ | ⟨e, u, hpush, hwaited⟩
  · have hu : Conserves history depth u :=
      h.of_sameInput (.of_waited ⟨hpushed, 0, hdevice⟩)
    have hfree : u.device.isFull = false := by
      rw [hdevice, Engine.isFull_eq_false_iff]
      exact ⟨rfl, hroom⟩
    rw [accepts, hpush]
    exact hu.offer hfree w
  · rw [accepts, hpush]
    simpa using h.of_sameInput (.of_waited hwaited)

theorem tracks (history : List QueueEvent) (depth : Nat) :
    Tracks fun sent t => Conserves (history ++ sent.map .accepted) depth t where
  push h w := by
    rw [List.map_append, ← List.append_assoc]
    exact h.push w
  note h n := h.of_sameInput (.record (.note n) _)

/-- A reset takes the pending words, and no other. -/
theorem reset (h : Conserves history depth t) :
    Conserves (history ++ [.discarded t.device.pending]) depth t.reset := by
  have hdevice : t.reset.device = Engine.latch queueControl (Bits.lower t.device.control resetBit)
      { t.device with pending := [], output := [] } := by
    rw [Link.reset, device_pulse_queueControl, device_note, Engine.controlQueues_raise_reset,
      h.resetLow]
    rfl
  have hcontrol : t.reset.device.control = Bits.lower t.device.control resetBit := by
    rw [hdevice, Engine.control, Engine.latest_latch]
  constructor
  case remains =>
      rw [hdevice]
      simpa [Engine.latch] using h.remains.discarded _
  case immediate => exact fun _ => by rw [hdevice]; rfl
  case sized => exact (congrArg Engine.depth hdevice).trans h.sized
  case bounded => rw [hdevice]; exact Nat.zero_le depth
  case lossless => exact (congrArg Engine.overflows hdevice).trans h.lossless
  case strobes => exact (congrArg Engine.pushStrobes hdevice).trans h.strobes
  case counted =>
      rw [List.countP_append, ← h.counted]
      rfl
  case resetLow => rw [hcontrol, Bits.bit_lower _ _ _ (by decide), h.resetLow]; rfl
  case pushLow => rw [hcontrol, Bits.bit_lower _ _ _ (by decide), h.pushLow]; rfl

theorem step (h : Conserves history depth t) (n : Nat) :
    Conserves history depth (EngineOp.runStep n t).2 := by
  obtain ⟨e, limits, wait, pushed, journal⟩ := t
  obtain ⟨blocks, executed, hrun, hexecuted⟩ :=
    Engine.foldl_execute (e.pending.take n) { e with pending := e.pending.drop n }
  have hdevice : (EngineOp.runStep n ⟨e, limits, wait, pushed, journal⟩).2.device =
      { e with pending := e.pending.drop n, blocks, executed } := hrun
  constructor
  case remains =>
      rw [hdevice]
      simpa only [hexecuted, List.append_assoc, List.take_append_drop] using h.remains
  case immediate =>
      rw [hdevice]
      intro hauto
      have hnone : e.pending = [] := h.immediate hauto
      exact (congrArg (List.drop n) hnone).trans List.drop_nil
  case sized => exact (congrArg Engine.depth hdevice).trans h.sized
  case bounded =>
      rw [hdevice]
      exact Nat.le_trans (List.drop_sublist n e.pending).length_le h.bounded
  case lossless => exact (congrArg Engine.overflows hdevice).trans h.lossless
  case strobes => exact (congrArg Engine.pushStrobes hdevice).trans h.strobes
  case counted => exact h.counted
  case resetLow => rw [hdevice]; exact h.resetLow
  case pushLow => rw [hdevice]; exact h.pushLow

end Conserves

end Link

namespace Operation
open Link

variable {history : List QueueEvent} {depth : Nat} {t : Link Engine}

/-- Each operation adds to the history what it does at the input queue. -/
theorem conserves_run (h : Conserves history depth t) {op : Operation} (hop : op.isRegular = true)
    (g : Geometry) : Conserves (history ++ op.traffic g t) depth (op.run g t).2 := by
  cases op with
  | engine op =>
      rw [traffic, List.append_nil]
      cases op with
      | holdFull polls => exact h.of_sameInput ⟨.holdFull t.device polls, rfl⟩
      | pushOutput s => exact h.of_sameInput ⟨.pushOutput t.device s, rfl⟩
      | raiseEnd => exact h.of_sameInput ⟨.raiseEnd t.device, rfl⟩
      | fill pattern => exact h.of_sameInput ⟨.fill t.device pattern, rfl⟩
      | step n => exact h.step n
      | drain => exact h.step (2 ^ 64 - 1)
      | row | lanes | executed | checksum => exact h
  | host op =>
      -- What does not push offers nothing, so nothing is added.
      have hquiet : ∀ {u : Link Engine}, SameInput t u →
          Conserves (history ++ (t.accepts []).map .accepted) depth u := by
        intro u hsame
        simpa [accepts] using h.of_sameInput hsame
      have hpushing : ∀ {op : HostOp}, op.pushes = true →
          Conserves (history ++ (t.accepts (op.offers g)).map .accepted) depth (op.run g t).2 := by
        intro op hpushes
        have hstart : Conserves (history ++ ([] : List Instruction).map .accepted) depth t := by
          simpa using h
        simpa using (Conserves.tracks history depth).run hstart g hpushes
      cases op with
      | push | pushAll | pushProgram | pushListing | load | loadSingles | clearRegister =>
          exact hpushing rfl
      | reset => exact h.reset
      | pop => exact hquiet (.pop t)
      | popVector max => exact hquiet (.popVector max t)
      | popSingles max fraction => exact hquiet (.popVector max t)
      | isEnd => exact hquiet ((SameInput.looks t).isEnd (.refl t))
      | clearEnd => exact hquiet (.clearEnd t)
      | awaitEnd => exact hquiet ((SameInput.looks t).awaitEnd (.refl t))
      | setLimits l => exact hquiet ⟨.refl t.device, rfl⟩
      | setWait w => exact hquiet ⟨.refl t.device, rfl⟩
      | read index => exact hquiet ((SameInput.looks t).readIndex (.refl t) index)
      | write | lendPush | renew => simp [isRegular, HostOp.isRegular] at hop

theorem conserves_runAll (h : Conserves history depth t) {ops : List Operation}
    (hops : ∀ op ∈ ops, op.isRegular = true) (g : Geometry) :
    Conserves (history ++ Operation.history g ops t) depth (runAll g ops t) := by
  induction ops generalizing t history with
  | nil => simpa [Operation.history, runAll] using h
  | cons op ops ih =>
      have hstep := conserves_run h (hops op (List.mem_cons_self ..)) g
      have hrest := ih hstep fun op' hop' => hops op' (List.mem_cons_of_mem op hop')
      rw [Operation.history, along_cons, ← List.append_assoc]
      exact hrest

/-- A new engine, automatic or not, at the end of a new link. -/
def newLink (g : Geometry) (depth : Nat) (automatic : Bool) (limits : PollLimits) (wait : Wait) :
    Link Engine :=
  { device := { (Engine.new g).withDepth depth with automatic }, limits, wait }

theorem conserves_newLink (g : Geometry) (depth : Nat) (automatic : Bool) (limits : PollLimits)
    (wait : Wait) : Conserves [] depth (newLink g depth automatic limits wait) := by
  refine ⟨.start, fun _ => rfl, rfl, Nat.zero_le depth, rfl, rfl, rfl, ?_, ?_⟩
  all_goals
    change Bits.bit ((Vector.replicate 16 (0 : UInt32)).get Register.queueControl) _ = false
    decide

/-- No word is lost, repeated or moved. From a new engine on, whatever is done over the link and
around the engine, the executed words followed by the pending ones are those accepted, in order,
less those that a reset found pending. The queue never overflows, and both counts of pushes are the
number of accepted words. -/
theorem input_queue_conserves (loader g : Geometry) (depth : Nat) (automatic : Bool)
    (limits : PollLimits) (wait : Wait) {ops : List Operation}
    (hops : ∀ op ∈ ops, op.isRegular = true) :
    let start := newLink g depth automatic limits wait
    let final := runAll loader ops start
    Remains (Operation.history loader ops start)
        (final.device.executed.toList ++ final.device.pending) ∧
      final.device.overflows = 0 ∧ final.device.pending.length ≤ depth ∧
      final.device.pushStrobes = final.pushed ∧
      final.pushed = (Operation.history loader ops start).countP QueueEvent.isAccepted := by
  intro start final
  have h := conserves_runAll (conserves_newLink g depth automatic limits wait) hops loader
  rw [List.nil_append] at h
  exact ⟨h.remains, h.lossless, h.bounded, h.strobes, h.counted⟩

/-- A queue of two words that is held full, overrun, drained by one and reset. -/
theorem input_queue_conserves_reset :
    let ops : List Operation :=
      [.engine (.holdFull 1), .host (.push .nop), .host (.setLimits { maxAttempts := some 3 }),
        .host (.pushAll [.selectAll, .vectorSync]), .engine (.step 1), .host .reset, .host .pop,
        .host (.load 3 [1, -1])]
    let start := newLink .standard 2 false .unbounded .spin
    let final := runAll .standard ops start
    (∀ op ∈ ops, op.isRegular = true) ∧
      Remains (Operation.history .standard ops start)
        (final.device.executed.toList ++ final.device.pending) := by
  intro ops
  have hops : ∀ op ∈ ops, op.isRegular = true := by simp [ops, isRegular, HostOp.isRegular]
  exact ⟨hops, (input_queue_conserves .standard .standard 2 false .unbounded .spin hops).1⟩

end Operation

end Gemv
