import Gemv.Proofs.LostPulses

/-! The books of both queues, whatever is written to the registers by hand.

A write answers the strobes whose bits it raises, up to three at once and in a fixed order, against
the value latched before it (`Operation.answered`). Each answer changes the queues and the counters
in step (`Balanced.reset`, `Balanced.push`, `Balanced.pop`), so the books stay balanced along every
run (`Balanced.runAll`). The registers themselves tell which bits rise: they hold what was written
last. -/
namespace Gemv

/-- How often a bit rises in words that are written after the word `now`. -/
def Bits.edges (k : Nat) (now : UInt32) (vs : List UInt32) : Nat :=
  ((now :: vs).zip vs).countP fun p => bit p.2 k && !bit p.1 k

theorem Bits.edges_cons (k : Nat) (now v : UInt32) (vs : List UInt32) :
    edges k now (v :: vs) = (bit v k && !bit now k).toNat + edges k v vs := by
  rw [edges, List.zip_cons_cons, List.countP_cons, Nat.add_comm]
  congr 1
  cases bit v k && !bit now k <;> rfl

/-- The words that an event takes out of the queue unexecuted. -/
def QueueEvent.lost : QueueEvent → List Instruction
  | .accepted _ => []
  | .discarded ws => ws

theorem QueueEvent.countP_accepted (history : List QueueEvent) (w : Instruction) :
    (history ++ [accepted w]).countP (·.isAccepted) = history.countP (·.isAccepted) + 1 :=
  List.countP_append

theorem QueueEvent.countP_discarded (history : List QueueEvent) (ws : List Instruction) :
    (history ++ [discarded ws]).countP (·.isAccepted) = history.countP (·.isAccepted) :=
  List.countP_append

theorem Remains.countP_isAccepted {history : List QueueEvent} {words : List Instruction}
    (h : Remains history words) :
    history.countP (·.isAccepted) = words.length + (history.flatMap QueueEvent.lost).length := by
  induction h with
  | start => rfl
  | accepted w _ ih =>
      rw [QueueEvent.countP_accepted, ih, List.flatMap_append, List.flatMap_singleton,
        QueueEvent.lost, List.append_nil, List.length_append, List.length_singleton]
      omega
  | discarded lost _ ih =>
      rw [QueueEvent.countP_discarded, ih, List.flatMap_append, List.flatMap_singleton,
        QueueEvent.lost, List.length_append, List.length_append]
      omega

namespace Engine
open Register

/-- An engine answers a strobe if it rose. -/
def answer (rose : Bool) (s : Strobe) (e : Engine) : Engine := if rose then s.fire e else e

theorem latest_answer (rose : Bool) (s : Strobe) (e : Engine) (r : Register) :
    (answer rose s e).latest r = e.latest r := by
  cases rose with
  | false => rfl
  | true => exact congrArg (·.get r) (s.latched_fire e)

theorem accept_of_full {e : Engine} (h : e.isFull = true) :
    accept e = { e with overflows := e.overflows + 1 } := by
  rw [accept, if_pos h]

theorem fire_push_of_room {e : Engine} (h : e.isFull = false) :
    Strobe.fire .push e = e.deliver ⟨e.latest inputData⟩ := by
  rw [Strobe.fire, accept_of_room (by exact h), deliver]
  by_cases hauto : e.automatic = true
  · rw [if_pos (by exact hauto), if_pos hauto]
    rfl
  · rw [if_neg (by exact hauto), if_neg hauto]
    rfl

theorem counters_answer (rose : Bool) (s : Strobe) (e : Engine) :
    (answer rose s e).pushStrobes = e.pushStrobes + (rose && decide (s = .push)).toNat ∧
      (answer rose s e).popStrobes = e.popStrobes + (rose && decide (s = .pop)).toNat ∧
      (answer rose s e).overflows =
        e.overflows + (rose && decide (s = .push) && e.isFull).toNat := by
  cases rose with
  | false => exact ⟨rfl, rfl, rfl⟩
  | true =>
      cases s with
      | reset | clearEnd => exact ⟨rfl, rfl, rfl⟩
      | pop =>
          obtain ⟨output, underflows, hrelease⟩ :=
            release_frame { e with popStrobes := e.popStrobes + 1 }
          rw [answer, if_pos rfl, Strobe.fire, hrelease]
          exact ⟨rfl, rfl, rfl⟩
      | push =>
          rw [answer, if_pos rfl, Strobe.fire]
          cases hfull : e.isFull with
          | true =>
              rw [accept_of_full (by exact hfull)]
              exact ⟨rfl, rfl, rfl⟩
          | false =>
              rw [accept_of_room (by exact hfull)]
              split <;> exact ⟨rfl, rfl, rfl⟩

end Engine

namespace Operation
open Register

/-- What can be done to an engine without the help of a link: accesses of its registers by hand, and
whatever its surroundings do. -/
def isRaw : Operation → Bool
  | .host (.read _) | .host (.write _ _) => true
  | .host _ => false
  | .engine _ => true

/-- The value that an operation writes to a register by hand. -/
def writes? (r : Register) : Operation → Option UInt32
  | .host (.write index v) => if index = r.val then some v else none
  | _ => none

def written (r : Register) (ops : List Operation) : List UInt32 := ops.filterMap (writes? r)

/-- A strobe rises: its bit is written high and was low before. -/
def raises (s : Strobe) (op : Operation) (t : Link Engine) : Bool :=
  (op.writes? s.register).any fun v => Bits.bit v s.bit && !t.device.isHigh s

/-- The engine after it has answered all strobes that an operation raises. -/
def answered (op : Operation) (t : Link Engine) : Engine :=
  .answer (op.raises .clearEnd t) .clearEnd <| .answer (op.raises .pop t) .pop <|
    .answer (op.raises .push t) .push <| .answer (op.raises .reset t) .reset t.device

/-- What an operation by hand does to the engine. -/
inductive Effect (op : Operation) (t : Link Engine) : Engine → Prop where
  | write (latched : Vector UInt32 16)
      (hlatched : ∀ r, latched.get r = (op.writes? r).getD (t.device.latest r))
      (hproduces : op.produces = []) : Effect op t { op.answered t with latched }
  | quiet (heldFull : Nat) (endOfVector : Bool) (blocks : Blocks)
      (hwrites : ∀ r, op.writes? r = none) (hproduces : op.produces = []) :
      Effect op t { t.device with heldFull, endOfVector, blocks }
  | produce (s : Sample) (hwrites : ∀ r, op.writes? r = none) (hproduces : op.produces = [s]) :
      Effect op t (t.device.pushOutput s)
  | step (n : Nat) (hwrites : ∀ r, op.writes? r = none) (hproduces : op.produces = []) :
      Effect op t (t.device.step n).2

theorem raises_of_writes {s : Strobe} {op : Operation} (h : op.writes? s.register = none)
    (t : Link Engine) : op.raises s t = false := by
  rw [raises, h]
  rfl

theorem answered_of_writes {op : Operation} (h : ∀ r, op.writes? r = none) (t : Link Engine) :
    op.answered t = t.device := by
  simp only [answered, raises_of_writes (h _)]
  rfl

theorem latest_answered (op : Operation) (t : Link Engine) (r : Register) :
    (op.answered t).latest r = t.device.latest r := by
  simp only [answered, Engine.latest_answer]

theorem raises_write (s : Strobe) (v : UInt32) (t : Link Engine) :
    raises s (.host (.write s.register v)) t =
      Bits.bit (Bits.rising (t.device.latest s.register) v) s.bit := by
  rw [Bits.bit_rising _ _ _ s.bit_lt, raises, writes?, if_pos rfl]
  rfl

theorem raises_write_of_ne {s : Strobe} {r : Register} (h : r ≠ s.register) (v : UInt32)
    (t : Link Engine) : raises s (.host (.write r v)) t = false := by
  apply raises_of_writes
  rw [writes?, if_neg fun heq => h (Fin.ext heq)]

/-- A write to a control register answers the edges of its own bits, and any other write none. -/
theorem write_eq (r : Register) (v : UInt32) (t : Link Engine) :
    Engine.write r v t.device = Engine.latch r v (answered (.host (.write r v)) t) := by
  -- Three strobes share one register and the fourth has another, so the cases go by register.
  by_cases hqueue : r = queueControl
  · subst hqueue
    have hreset : raises .reset (.host (.write queueControl v)) t = _ := raises_write .reset v t
    have hpush : raises .push (.host (.write queueControl v)) t = _ := raises_write .push v t
    have hpop : raises .pop (.host (.write queueControl v)) t = _ := raises_write .pop v t
    rw [answered, hreset, hpush, hpop, raises_write_of_ne (by decide)]
    rfl
  · have hreset := raises_write_of_ne (s := .reset) hqueue v t
    have hpush := raises_write_of_ne (s := .push) hqueue v t
    have hpop := raises_write_of_ne (s := .pop) hqueue v t
    rw [answered, hreset, hpush, hpop]
    by_cases hengine : r = engineControl
    · subst hengine
      have hclear : raises .clearEnd (.host (.write engineControl v)) t = _ :=
        raises_write .clearEnd v t
      rw [hclear]
      rfl
    · rw [raises_write_of_ne hengine, Engine.write, if_neg hqueue, if_neg hengine]
      rfl

theorem read_frame (r : Register) (e : Engine) :
    ∃ heldFull, (Engine.read r e).2 = { e with heldFull } := by
  unfold Engine.read
  split
  · exact ⟨_, rfl⟩
  · split
    · exact ⟨_, rfl⟩
    · split <;> exact ⟨_, rfl⟩

theorem effect_read (g : Geometry) (index : Nat) (t : Link Engine) :
    Effect (.host (.read index)) t (run g (.host (.read index)) t).2.device := by
  have hquiet : ∀ heldFull, Effect (.host (.read index)) t { t.device with heldFull } :=
    fun heldFull => .quiet heldFull t.device.endOfVector t.device.blocks (fun _ => rfl) rfl
  by_cases h : index < 16
  · obtain ⟨heldFull, hread⟩ := read_frame ⟨index, h⟩ t.device
    have hdevice : (run g (.host (.read index)) t).2.device =
        (Engine.read ⟨index, h⟩ t.device).2 := by
      simp only [run, HostOp.run, HostOp.outcome, Link.readIndex, dif_pos h]
      rfl
    rw [hdevice, hread]
    exact hquiet heldFull
  · have hdevice : (run g (.host (.read index)) t).2.device = t.device := by
      simp only [run, HostOp.run, HostOp.outcome, Link.readIndex, dif_neg h]
    rw [hdevice]
    exact hquiet t.device.heldFull

theorem effect_write (g : Geometry) (index : Nat) (v : UInt32) (t : Link Engine) :
    Effect (.host (.write index v)) t (run g (.host (.write index v)) t).2.device := by
  by_cases h : index < 16
  · have hdevice : (run g (.host (.write index v)) t).2.device =
        Engine.write ⟨index, h⟩ v t.device := by
      simp only [run, HostOp.run, HostOp.outcome, Link.writeIndex, dif_pos h]
      rfl
    rw [hdevice, write_eq]
    refine .write _ (fun r => ?_) rfl
    change (Engine.latch ⟨index, h⟩ v _).latest r = _
    by_cases hr : index = r.val
    · obtain rfl : r = ⟨index, h⟩ := Fin.ext hr.symm
      rw [Engine.latest_latch, writes?, if_pos rfl]
      rfl
    · rw [Engine.latest_latch_of_ne fun heq => hr (congrArg Fin.val heq), latest_answered, writes?,
        if_neg hr]
      rfl
  · have hdevice : (run g (.host (.write index v)) t).2.device = t.device := by
      simp only [run, HostOp.run, HostOp.outcome, Link.writeIndex, dif_neg h]
    have hwrites : ∀ r, writes? r (.host (.write index v)) = none := by
      intro r
      exact if_neg fun (heq : index = r.val) => h (heq ▸ r.isLt)
    rw [hdevice]
    exact .quiet t.device.heldFull t.device.endOfVector t.device.blocks hwrites rfl

/-- Accesses by hand and the engine's surroundings do nothing else. -/
theorem effect_of_isRaw (g : Geometry) {op : Operation} (h : op.isRaw = true) (t : Link Engine) :
    Effect op t (op.run g t).2.device := by
  cases op with
  | host op =>
      cases op with
      | read index => exact effect_read g index t
      | write index v => exact effect_write g index v t
      | _ => cases h
  | engine op =>
      cases op with
      | pushOutput s => exact .produce s (fun _ => rfl) rfl
      | step n => exact .step n (fun _ => rfl) rfl
      | drain => exact .step _ (fun _ => rfl) rfl
      | _ => exact .quiet _ _ _ (fun _ => rfl) rfl

theorem counters_answered (op : Operation) (t : Link Engine) :
    (op.answered t).pushStrobes = t.device.pushStrobes + (op.raises .push t).toNat ∧
      (op.answered t).popStrobes = t.device.popStrobes + (op.raises .pop t).toNat ∧
      (op.answered t).overflows = t.device.overflows +
        (op.raises .push t && (t.device.answer (op.raises .reset t) .reset).isFull).toNat := by
  simp [answered, Engine.counters_answer]

namespace Effect

variable {op : Operation} {t : Link Engine} {e : Engine}

theorem latest (h : Effect op t e) (r : Register) :
    e.latest r = (op.writes? r).getD (t.device.latest r) := by
  cases h with
  | write latched hlatched => exact hlatched r
  | quiet heldFull endOfVector blocks hwrites | produce s hwrites =>
      rw [hwrites r]
      rfl
  | step n hwrites =>
      rw [hwrites r, Engine.step_eq]
      rfl

theorem counters (h : Effect op t e) :
    e.pushStrobes = t.device.pushStrobes + (op.raises .push t).toNat ∧
      e.popStrobes = t.device.popStrobes + (op.raises .pop t).toNat ∧
      e.overflows = t.device.overflows +
        (op.raises .push t && (t.device.answer (op.raises .reset t) .reset).isFull).toNat := by
  have hanswered := counters_answered op t
  cases h with
  | write latched => exact hanswered
  | quiet heldFull endOfVector blocks hwrites | produce s hwrites =>
      rw [answered_of_writes hwrites] at hanswered
      exact hanswered
  | step n hwrites =>
      rw [answered_of_writes hwrites] at hanswered
      rw [Engine.step_eq]
      exact hanswered

end Effect

/-- The registers hold what was written last. -/
theorem latest_runAll (g : Geometry) {ops : List Operation} (hops : ∀ op ∈ ops, op.isRaw = true)
    (t : Link Engine) (r : Register) :
    (runAll g ops t).device.latest r = (written r ops).getLastD (t.device.latest r) := by
  induction ops generalizing t with
  | nil => rfl
  | cons op ops ih =>
      obtain ⟨hop, hops⟩ := List.forall_mem_cons.1 hops
      have hrest := ih hops (op.run g t).2
      rw [(effect_of_isRaw g hop t).latest] at hrest
      refine hrest.trans ?_
      rw [written, written, List.filterMap_cons]
      cases op.writes? r with
      | none => rfl
      | some v => exact (List.getLastD_cons ..).symm

/-- A counter that goes up when a strobe rises counts the edges of its bit. -/
theorem counter_runAll (g : Geometry) (s : Strobe) {counter : Engine → Nat}
    (hcounter : ∀ {op : Operation} (t : Link Engine), op.isRaw = true →
      counter (op.run g t).2.device = counter t.device + (op.raises s t).toNat)
    {ops : List Operation} (hops : ∀ op ∈ ops, op.isRaw = true) (t : Link Engine) :
    counter (runAll g ops t).device = counter t.device +
      Bits.edges s.bit (t.device.latest s.register) (written s.register ops) := by
  induction ops generalizing t with
  | nil => rfl
  | cons op ops ih =>
      obtain ⟨hop, hops⟩ := List.forall_mem_cons.1 hops
      have hrest := ih hops (op.run g t).2
      rw [(effect_of_isRaw g hop t).latest, hcounter t hop, raises] at hrest
      refine hrest.trans ?_
      rw [written, written, List.filterMap_cons]
      cases op.writes? s.register with
      | none => rfl
      | some v => exact (Nat.add_assoc ..).trans (congrArg _ (Bits.edges_cons ..).symm)

/-- What an operation by hand does at the input queue. A reset comes before a push of the same
write; the word pushed is the one that the input register holds, unless it overflows. -/
def queueEvents (g : Geometry) (op : Operation) (t : Link Engine) : List QueueEvent :=
  (if op.raises .reset t then [.discarded t.device.pending] else []) ++
    if op.raises .push t && (op.run g t).2.device.overflows == t.device.overflows then
      [.accepted ⟨t.device.latest inputData⟩]
    else []

/-- A word is accepted if the queue has room for it once the reset of the same write is done. -/
theorem queueEvents_of_isRaw (g : Geometry) {op : Operation} {t : Link Engine}
    (h : op.isRaw = true) :
    op.queueEvents g t =
      (if op.raises .reset t then [.discarded t.device.pending] else []) ++
        if op.raises .push t && !(t.device.answer (op.raises .reset t) .reset).isFull then
          [.accepted ⟨t.device.latest inputData⟩]
        else [] := by
  rw [queueEvents, (effect_of_isRaw g h t).counters.2.2]
  cases op.raises .push t with
  | false => rfl
  | true => cases (t.device.answer (op.raises .reset t) .reset).isFull <;> simp

/-- The samples that a reset drops. -/
def drops (op : Operation) (t : Link Engine) : List Sample :=
  if op.raises .reset t then t.device.output else []

end Operation

/-- The books of both queues: every strobe has met a full queue or brought a word in, and every
sample has been strobed out, is still there or was dropped. -/
structure Balanced (start : Engine) (history : List QueueEvent) (produced dropped : List Sample)
    (e : Engine) : Prop where
  remains : Remains history (e.executed.toList ++ e.pending)
  words : e.pushStrobes = e.overflows + history.countP (·.isAccepted)
  samples : produced.length + e.underflows = e.popStrobes + e.output.length + dropped.length
  bounded : e.pending.length ≤ e.depth
  immediate : e.automatic = true → e.pending = []
  depth : e.depth = start.depth
  automatic : e.automatic = start.automatic

namespace Balanced
open Register Engine

variable {start : Engine} {history : List QueueEvent} {produced dropped : List Sample} {e : Engine}

/-- What the books do not depend on. -/
theorem frame (h : Balanced start history produced dropped e) (latched : Vector UInt32 16)
    (heldFull : Nat) (endOfVector : Bool) (blocks : Blocks) :
    Balanced start history produced dropped { e with latched, heldFull, endOfVector, blocks } :=
  ⟨h.remains, h.words, h.samples, h.bounded, h.immediate, h.depth, h.automatic⟩

theorem reset (h : Balanced start history produced dropped e) (rose : Bool) :
    Balanced start (history ++ if rose then [.discarded e.pending] else []) produced
      (dropped ++ if rose then e.output else []) (e.answer rose .reset) := by
  cases rose with
  | false => simpa [answer] using h
  | true =>
      have hsamples := h.samples
      rw [answer, if_pos rfl, if_pos rfl, if_pos rfl, Strobe.fire]
      constructor
      case remains =>
          rw [List.append_nil]
          exact h.remains.discarded e.pending
      case words =>
          rw [QueueEvent.countP_discarded]
          exact h.words
      case samples =>
          simp only [List.length_nil, List.length_append]
          omega
      case bounded => exact Nat.zero_le _
      case immediate => exact fun _ => rfl
      case depth => exact h.depth
      case automatic => exact h.automatic

theorem deliver (h : Balanced start history produced dropped e) (hroom : e.pending.length < e.depth)
    (w : Instruction) :
    Balanced start (history ++ [.accepted w]) produced dropped (e.deliver w) := by
  have hremains := h.remains.accepted w
  have hwords : e.pushStrobes + 1 =
      e.overflows + (history ++ [QueueEvent.accepted w]).countP (·.isAccepted) := by
    rw [h.words, QueueEvent.countP_accepted, Nat.add_assoc]
  by_cases hauto : e.automatic = true
  · rw [Engine.deliver, if_pos hauto]
    refine ⟨?_, hwords, h.samples, h.bounded, h.immediate, h.depth, h.automatic⟩
    simp only [execute, h.immediate hauto, List.append_nil, Array.toList_push] at hremains ⊢
    exact hremains
  · rw [List.append_assoc] at hremains
    rw [Engine.deliver, if_neg hauto]
    refine ⟨hremains, hwords, h.samples, ?_, fun htrue => absurd htrue hauto, h.depth, h.automatic⟩
    simp only [List.length_append, List.length_singleton]
    exact hroom

theorem push (h : Balanced start history produced dropped e) (rose : Bool) :
    Balanced start
      (history ++ if rose && !e.isFull then [.accepted ⟨e.latest inputData⟩] else [])
      produced dropped (e.answer rose .push) := by
  cases rose with
  | false => simpa [answer] using h
  | true =>
      rw [answer, if_pos rfl, Bool.true_and]
      cases hfull : e.isFull with
      | true =>
          have hwords : e.pushStrobes + 1 = e.overflows + 1 + history.countP (·.isAccepted) := by
            rw [h.words, Nat.add_right_comm]
          rw [Strobe.fire, accept_of_full (by exact hfull), Bool.not_true,
            if_neg Bool.false_ne_true, List.append_nil]
          exact ⟨h.remains, hwords, h.samples, h.bounded, h.immediate, h.depth, h.automatic⟩
      | false =>
          rw [fire_push_of_room hfull]
          exact h.deliver ((isFull_eq_false_iff e).1 hfull).2 _

theorem pop (h : Balanced start history produced dropped e) (rose : Bool) :
    Balanced start history produced dropped (e.answer rose .pop) := by
  cases rose with
  | false => exact h
  | true =>
      have hsamples := h.samples
      rw [answer, if_pos rfl, Strobe.fire, release]
      cases houtput : e.output with
      | nil =>
          rw [houtput] at hsamples
          refine ⟨h.remains, h.words, ?_, h.bounded, h.immediate, h.depth, h.automatic⟩
          simp only
          omega
      | cons sample rest =>
          rw [houtput, List.length_cons] at hsamples
          refine ⟨h.remains, h.words, ?_, h.bounded, h.immediate, h.depth, h.automatic⟩
          simp only
          omega

theorem pushOutput (h : Balanced start history produced dropped e) (s : Sample) :
    Balanced start history (produced ++ [s]) dropped (e.pushOutput s) := by
  have hsamples := h.samples
  refine ⟨h.remains, h.words, ?_, h.bounded, h.immediate, h.depth, h.automatic⟩
  simp only [Engine.pushOutput, List.length_append, List.length_singleton]
  omega

theorem step (h : Balanced start history produced dropped e) (n : Nat) :
    Balanced start history produced dropped (e.step n).2 := by
  rw [step_eq]
  constructor
  case remains =>
      simp only [Array.toList_appendList, List.append_assoc, List.take_append_drop]
      exact h.remains
  case words => exact h.words
  case samples => exact h.samples
  case bounded => exact Nat.le_trans (List.drop_sublist n e.pending).length_le h.bounded
  case immediate =>
      intro hauto
      simp only [h.immediate hauto, List.drop_nil]
  case depth => exact h.depth
  case automatic => exact h.automatic

theorem clearEnd (h : Balanced start history produced dropped e) (rose : Bool) :
    Balanced start history produced dropped (e.answer rose .clearEnd) := by
  cases rose with
  | false => exact h
  | true => exact h.frame e.latched e.heldFull false e.blocks

variable {g : Geometry} {op : Operation} {t : Link Engine}

/-- One write may raise three strobes of the queues. The reset empties them before the push and the
pop are answered. -/
theorem answered (h : Balanced start history produced dropped t.device) (hop : op.isRaw = true) :
    Balanced start (history ++ op.queueEvents g t) produced (dropped ++ op.drops t)
      (op.answered t) := by
  -- Whether the push finds room is asked of the engine after the reset, not before it.
  have hreset := h.reset (op.raises .reset t)
  have hpush := hreset.push (op.raises .push t)
  rw [latest_answer, List.append_assoc, ← Operation.queueEvents_of_isRaw g hop] at hpush
  exact (hpush.pop (op.raises .pop t)).clearEnd (op.raises .clearEnd t)

theorem run (h : Balanced start history produced dropped t.device) (hop : op.isRaw = true) :
    Balanced start (history ++ op.queueEvents g t) (produced ++ op.produces) (dropped ++ op.drops t)
      (op.run g t).2.device := by
  have hanswered := h.answered (g := g) hop
  have heffect := Operation.effect_of_isRaw g hop t
  generalize (op.run g t).2.device = e at heffect
  cases heffect with
  | write latched hlatched hproduces =>
      rw [hproduces, List.append_nil]
      exact hanswered.frame latched _ _ _
  | quiet heldFull endOfVector blocks hwrites hproduces =>
      rw [Operation.answered_of_writes hwrites] at hanswered
      rw [hproduces, List.append_nil]
      exact hanswered.frame _ heldFull endOfVector blocks
  | produce s hwrites hproduces =>
      rw [Operation.answered_of_writes hwrites] at hanswered
      rw [hproduces]
      exact hanswered.pushOutput s
  | step n hwrites hproduces =>
      rw [Operation.answered_of_writes hwrites] at hanswered
      rw [hproduces, List.append_nil]
      exact hanswered.step n

theorem runAll (h : Balanced start history produced dropped t.device) {ops : List Operation}
    (hops : ∀ op ∈ ops, op.isRaw = true) :
    Balanced start (history ++ Operation.along g (Operation.queueEvents g) ops t)
      (produced ++ Operation.produced ops) (dropped ++ Operation.along g Operation.drops ops t)
      (Operation.runAll g ops t).device := by
  induction ops generalizing history produced dropped t with
  | nil => simpa [Operation.produced, Operation.runAll] using h
  | cons op ops ih =>
      obtain ⟨hop, hops⟩ := List.forall_mem_cons.1 hops
      have hrest := ih (h.run (g := g) hop) hops
      rw [List.append_assoc, List.append_assoc, List.append_assoc] at hrest
      exact hrest

end Balanced

namespace Operation
open Register

/-- The books of a new engine balance, whatever is read and written by hand and whatever goes on
around it. The strobe counters count the rising edges in the values written to the control register.
A push strobe has overflowed, or its word was executed, is pending or was discarded by a reset; a
sample was strobed out, is waiting or was dropped by a reset, and a strobe without a sample is an
underflow. The words in the engine are those that did not overflow, less the discarded ones, in
order, and each is what the input register held at its strobe; every register holds what was
written to it last. The input queue never exceeds its depth, and an automatic engine keeps it
empty. -/
theorem raw_traffic_balances (g : Geometry) (depth : Nat) (automatic : Bool) (limits : PollLimits)
    (wait : Wait) {ops : List Operation} (hops : ∀ op ∈ ops, op.isRaw = true) :
    let start := newLink g depth automatic limits wait
    let e := (runAll g ops start).device
    let control := written queueControl ops
    let history := along g (queueEvents g) ops start
    e.pushStrobes = Bits.edges pushBit 0 control ∧
      e.popStrobes = Bits.edges popBit 0 control ∧
      e.pushStrobes = e.overflows + e.executed.size + e.pending.length +
        (history.flatMap QueueEvent.lost).length ∧
      (produced ops).length + e.underflows =
        e.popStrobes + e.output.length + (along g drops ops start).length ∧
      e.pending.length ≤ depth ∧ (automatic = true → e.pending = []) ∧
      Remains history (e.executed.toList ++ e.pending) ∧
      ∀ r, e.latest r = (written r ops).getLastD 0 := by
  intro start e control history
  have hzero : ∀ r, start.device.latest r = 0 := by
    intro r
    change (Vector.replicate 16 (0 : UInt32)).get r = 0
    simp [Vector.get]
  have hstart : Balanced start.device [] [] [] start.device :=
    ⟨.start, rfl, rfl, Nat.zero_le _, fun _ => rfl, rfl, rfl⟩
  have hbooks : Balanced start.device history (produced ops) (along g drops ops start) e :=
    hstart.runAll hops
  have hcount := hbooks.remains.countP_isAccepted
  rw [List.length_append, Array.length_toList] at hcount
  have hpush :=
    counter_runAll g .push (fun t hop => (effect_of_isRaw g hop t).counters.1) hops start
  have hpop :=
    counter_runAll g .pop (fun t hop => (effect_of_isRaw g hop t).counters.2.1) hops start
  rw [hzero] at hpush hpop
  refine ⟨hpush.trans (Nat.zero_add _), hpop.trans (Nat.zero_add _), ?_, hbooks.samples, ?_, ?_,
    hbooks.remains, fun r => ?_⟩
  · have hwords := hbooks.words
    omega
  · exact Nat.le_trans hbooks.bounded (Nat.le_of_eq hbooks.depth)
  · exact fun hauto => hbooks.immediate (hbooks.automatic.trans hauto)
  · exact hzero r ▸ latest_runAll g hops start r

/-- A word and a sample are waiting when one write raises all three strobes of the queues: both go,
the word of that write comes in, and there is nothing to pop. The same value again is no edge. -/
theorem raw_traffic_balances_three_at_once :
    let ops : List Operation :=
      [.host (.write 0 17), .host (.write 1 2), .engine (.pushOutput ⟨5, 0⟩), .host (.write 1 0),
        .host (.write 0 34), .host (.write 1 7), .host (.write 1 7), .engine (.step 1)]
    let start := newLink .standard 1 false {} .spin
    let e := (runAll .standard ops start).device
    (∀ op ∈ ops, op.isRaw = true) ∧ e.pushStrobes = 2 ∧ e.popStrobes = 1 ∧ e.underflows = 1 ∧
      e.executed.toList = [⟨34⟩] ∧
      Remains [.accepted ⟨17⟩, .discarded [⟨17⟩], .accepted ⟨34⟩]
        (e.executed.toList ++ e.pending) := by
  intro ops start e
  have hops : ∀ op ∈ ops, op.isRaw = true := by simp [ops, isRaw]
  obtain ⟨hpush, hpop, -, -, -, -, hremains, -⟩ :=
    raw_traffic_balances .standard 1 false {} .spin hops
  exact ⟨hops, hpush.trans (by decide), hpop.trans (by decide), rfl, rfl, hremains⟩

end Operation

end Gemv
