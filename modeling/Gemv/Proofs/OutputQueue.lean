import Gemv.Proofs.Moves

/-! What becomes of the samples that an engine has ready.

`Flows` says that the samples taken so far, followed by those still queued, are the samples
produced, and that each was strobed out once. A move keeps it unless it is a reset (`Flows.moved`),
so a run keeps it. What a host sees of the samples taken are the results of its pops: the whole
sample, or its value in a vector. -/
namespace Gemv

/-- A sample as the host sees it: whole, or its value alone. -/
inductive Shown where
  | sample (s : Sample)
  | value (v : Int16)
  deriving DecidableEq, Repr

def Shown.Shows : Shown → Sample → Prop
  | .sample s, s' => s = s'
  | .value v, s' => v = s'.value

/-- The samples that a result shows. -/
def Outcome.shown : Except Error Outcome → List Shown
  | .ok (.sample s) => s.toList.map .sample
  | .ok (.values vs) => vs.map .value
  | _ => []

inductive Seen : List Shown → List Sample → Prop where
  | nil : Seen [] []
  | cons {x : Shown} {s : Sample} {xs : List Shown} {ss : List Sample} :
      x.Shows s → Seen xs ss → Seen (x :: xs) (s :: ss)

namespace Seen

theorem append {xs ys : List Shown} {ss rs : List Sample} (h : Seen xs ss) (h' : Seen ys rs) :
    Seen (xs ++ ys) (ss ++ rs) := by
  induction h with
  | nil => exact h'
  | cons hx _ ih => exact .cons hx ih

theorem length_eq {xs : List Shown} {ss : List Sample} (h : Seen xs ss) :
    xs.length = ss.length := by
  induction h with
  | nil => rfl
  | cons _ _ ih => simp [ih]

theorem samples (ss : List Sample) : Seen (ss.map .sample) ss := by
  induction ss with
  | nil => exact .nil
  | cons s ss ih => exact .cons rfl ih

theorem values (ss : List Sample) : Seen ((ss.map (·.value)).map .value) ss := by
  induction ss with
  | nil => exact .nil
  | cons s ss ih => exact .cons rfl ih

end Seen

namespace Engine

theorem pulse_pop_of_cons {e : Engine} {s : Sample} {rest : List Sample}
    (hlow : e.isHigh .pop = false) (h : e.output = s :: rest) :
    (e.pulse .pop).output = rest ∧ (e.pulse .pop).popStrobes = e.popStrobes + 1 ∧
      (e.pulse .pop).underflows = e.underflows := by
  have hrelease : release { e with popStrobes := e.popStrobes + 1 } =
      { e with popStrobes := e.popStrobes + 1, output := rest } := by
    simp only [release, h]
  rw [pulse, hlow, if_neg (by decide), Strobe.fire, hrelease]
  exact ⟨rfl, rfl, rfl⟩

/-- Engines that agree on all that concerns the output queue. -/
structure SameOutput (e e' : Engine) : Prop where
  output : e'.output = e.output
  popStrobes : e'.popStrobes = e.popStrobes
  underflows : e'.underflows = e.underflows

namespace SameOutput

theorem offer (w : Instruction) (e : Engine) :
    SameOutput e ((latch Register.inputData w.raw e).pulse .push) := by
  obtain ⟨pending, blocks, executed, overflows, haccept⟩ :=
    accept_frame { latch Register.inputData w.raw e with pushStrobes := e.pushStrobes + 1 }
  rw [pulse, Strobe.fire]
  split
  · exact ⟨rfl, rfl, rfl⟩
  · exact haccept ▸ ⟨rfl, rfl, rfl⟩

theorem pulse_clearEnd (e : Engine) : SameOutput e (e.pulse .clearEnd) := by
  rw [pulse, Strobe.fire]
  split <;> exact ⟨rfl, rfl, rfl⟩

theorem step (e : Engine) (n : Nat) : SameOutput e (e.step n).2 := by
  obtain ⟨blocks, executed, hrun, -⟩ :=
    foldl_execute (e.pending.take n) { e with pending := e.pending.drop n }
  rw [Engine.step, hrun]
  exact ⟨rfl, rfl, rfl⟩

end SameOutput

/-- The samples taken and those queued are the samples produced, each strobed out at most once.
Between operations the strobe is low. -/
structure Flows (produced taken : List Sample) (e : Engine) : Prop where
  conserved : taken ++ e.output = produced
  strobes : e.popStrobes = taken.length
  lossless : e.underflows = 0
  low : e.isHigh .pop = false

namespace Flows

variable {produced taken : List Sample} {e e' : Engine}

theorem of_sameOutput (h : Flows produced taken e) (hsame : SameOutput e e')
    (hlow : e'.isHigh .pop = false) : Flows produced taken e' := by
  refine ⟨?_, ?_, ?_, hlow⟩
  · rw [hsame.output, h.conserved]
  · rw [hsame.popStrobes, h.strobes]
  · rw [hsame.underflows, h.lossless]

theorem moved (h : Flows produced taken e) {m : Move} (hmove : Moved m e e')
    (hkept : m ≠ .reset) :
    Flows (produced ++ m.produced?.toList) (taken ++ m.taken?.toList) e' := by
  have hlow := hmove.low h.low
  have hquiet : SameOutput e e' → Flows (produced ++ []) (taken ++ []) e' := by
    intro hsame
    simpa using h.of_sameOutput hsame hlow
  cases hmove with
  | reset => exact absurd rfl hkept
  | take waiting =>
      obtain ⟨houtput, hstrobes, hunderflows⟩ := pulse_pop_of_cons h.low waiting
      refine ⟨?_, ?_, ?_, hlow⟩
      · rw [houtput, ← h.conserved, waiting]
        simp [Move.produced?, Move.taken?]
      · rw [hstrobes, h.strobes, List.length_append]
        rfl
      · rw [hunderflows, h.lossless]
  | produce _ s =>
      refine ⟨?_, ?_, h.lossless, hlow⟩
      · rw [← h.conserved]
        simp [pushOutput, Move.produced?, Move.taken?]
      · rw [List.length_append]
        exact h.strobes
  | wait | raiseEnd | fill => exact hquiet ⟨rfl, rfl, rfl⟩
  | offer w => exact hquiet (.offer w e)
  | clearEnd => exact hquiet (.pulse_clearEnd e)
  | step _ n => exact hquiet (.step e n)

theorem path (h : Flows produced taken e) {ms : List Move} (hpath : Path ms e e')
    (hkept : .reset ∉ ms) :
    Flows (produced ++ ms.filterMap Move.produced?) (taken ++ ms.filterMap Move.taken?) e' := by
  induction hpath generalizing produced taken with
  | nil => simpa using h
  | @cons m ms e e' e'' hmove _ ih =>
      have hnext := h.moved hmove fun hm => hkept (by simp [hm])
      have hrest := ih hnext fun hm => hkept (List.mem_cons_of_mem m hm)
      rw [Move.filterMap_cons, Move.filterMap_cons, ← List.append_assoc, ← List.append_assoc]
      exact hrest

end Flows

end Engine

namespace Link
open Engine

theorem pop_eq_none_iff (t : Link Engine) : t.pop.1 = none ↔ t.device.output = [] := by
  cases houtput : t.device.output with
  | nil => exact iff_of_true (pop_of_empty houtput).1 rfl
  | cons s rest =>
      rw [(pop_of_cons houtput).1]
      simp

theorem popFrom_of_low (taken : List Sample) (max : Nat) {t : Link Engine}
    (hlow : t.device.isHigh .pop = false) :
    (t.popFrom taken max).1 = taken.reverse ++ t.device.output.take max := by
  induction max generalizing taken t with
  | zero => simp [popFrom]
  | succ max ih =>
      rw [popFrom]
      cases houtput : t.device.output with
      | nil =>
          obtain ⟨hnone, -, -⟩ := pop_of_empty houtput
          generalize t.pop = p at hnone
          obtain ⟨result, u⟩ := p
          cases hnone
          simp
      | cons s rest =>
          obtain ⟨hsome, hdevice, -⟩ := pop_of_cons houtput
          obtain ⟨hrest, -, -⟩ := pulse_pop_of_cons
            (e := t.device.holdFull (t.device.heldFull - 1)) hlow houtput
          generalize t.pop = p at hsome hdevice
          obtain ⟨result, u⟩ := p
          cases hsome
          have hnext : u.device.isHigh .pop = false := by
            rw [hdevice, isHigh_pulse, bne_self_eq_false, Bool.and_false]
          have houtput' : u.device.output = rest := (congrArg Engine.output hdevice).trans hrest
          simp [ih (s :: taken) hnext, houtput']

end Link

namespace Operation
open Link Engine

/-- Every regular operation but a reset, which drops samples, and a pop that converts them. -/
def showsSamples : Operation → Bool
  | .host .reset => false
  | .host (.popSingles _ _) => false
  | op => op.isRegular

/-- What the results of a run show of the samples taken. -/
def returned (g : Geometry) : List Operation → Link Engine → List Shown :=
  along g fun op t => Outcome.shown (op.run g t).1

theorem shown_outcome {α : Type} {f : α → Outcome} (hf : ∀ a, Outcome.shown (.ok (f a)) = [])
    (p : Except Error α × Link Engine) : Outcome.shown (HostOp.outcome f p).1 = [] := by
  obtain ⟨result, t⟩ := p
  cases result with
  | error e => rfl
  | ok a => exact hf a

theorem shown_runListing (g : Geometry) (name text : String) (t : Link Engine) :
    Outcome.shown (HostOp.runListing g name text t).1 = [] := by
  unfold HostOp.runListing
  split
  · rfl
  · dsimp only
    split
    · rfl
    · exact shown_outcome (fun _ => rfl) _

theorem seen_run (g : Geometry) {op : Operation} (hop : op.showsSamples = true) (t : Link Engine) :
    Seen (Outcome.shown (op.run g t).1) (op.takes t) := by
  have hnone : ∀ {shown : List Shown}, shown = [] → Seen shown [] := by
    rintro _ rfl
    exact .nil
  cases op with
  | engine op => cases op <;> exact .nil
  | host op =>
      cases op with
      | pop => exact .samples t.pop.1.toList
      | popVector max => exact .values (t.popSamples max).1
      | pushListing name text => exact hnone (shown_runListing g name text t)
      | push | pushAll | pushProgram | load | loadSingles | clearRegister | awaitEnd | read =>
          exact hnone (shown_outcome (fun _ => rfl) _)
      | isEnd | clearEnd | setLimits | setWait => exact .nil
      | reset | popSingles | write | lendPush | renew =>
          simp [showsSamples, isRegular, HostOp.isRegular] at hop

theorem seen_returned (g : Geometry) {ops : List Operation}
    (hops : ∀ op ∈ ops, op.showsSamples = true) (t : Link Engine) :
    Seen (returned g ops t) (taken g ops t) := by
  induction ops generalizing t with
  | nil => exact .nil
  | cons op ops ih =>
      have hrest := ih (fun op' hop' => hops op' (List.mem_cons_of_mem op hop')) (op.run g t).2
      exact (seen_run g (hops op (List.mem_cons_self ..)) t).append hrest

theorem isRegular_of_showsSamples {op : Operation} (h : op.showsSamples = true) :
    op.isRegular = true := by
  unfold showsSamples at h
  split at h
  · cases h
  · cases h
  · exact h

theorem flows_newLink (g : Geometry) (depth : Nat) (automatic : Bool) (limits : PollLimits)
    (wait : Wait) : Flows [] [] (newLink g depth automatic limits wait).device := by
  refine ⟨rfl, rfl, rfl, ?_⟩
  change Bits.bit ((Vector.replicate 16 (0 : UInt32)).get Register.queueControl) _ = false
  decide

/-- Every sample once, in order. From a new engine on, whatever is done but a reset and writes by
hand, the samples seen by the host, followed by those still queued, are the samples that the engine
had ready. There is one strobe for each of them and none for an empty queue: a pop finds nothing
exactly if nothing is queued, and a vector is the values at the head of the queue. -/
theorem output_queue_delivers (loader g : Geometry) (depth : Nat) (automatic : Bool)
    (limits : PollLimits) (wait : Wait) {ops : List Operation}
    (hops : ∀ op ∈ ops, op.showsSamples = true) :
    let start := newLink g depth automatic limits wait
    let final := runAll loader ops start
    (∃ samples, Seen (returned loader ops start) samples ∧
        samples ++ final.device.output = produced ops) ∧
      final.device.popStrobes = (returned loader ops start).length ∧
      final.device.underflows = 0 ∧
      (final.pop.1 = none ↔ final.device.output = []) ∧
      (final.pop.1 = none → final.pop.2.device.popStrobes = final.device.popStrobes) ∧
      ∀ max, (final.popVector max).1 = (final.device.output.take max).map (·.value) := by
  intro start final
  have hseen := seen_returned loader hops start
  obtain ⟨ms, hmade⟩ := exists_moves_runAll loader
    (fun op hop => isRegular_of_showsSamples (hops op hop)) start
  have hkept : .reset ∉ ms := fun hm => by simpa [showsSamples] using hops _ (hmade.resets hm)
  have hflows := (flows_newLink g depth automatic limits wait).path hmade.does.path hkept
  rw [List.nil_append, List.nil_append, hmade.samples, hmade.produced] at hflows
  refine ⟨⟨_, hseen, hflows.conserved⟩, ?_, hflows.lossless, pop_eq_none_iff final, ?_, ?_⟩
  · rw [hseen.length_eq]
    exact hflows.strobes
  · intro hnone
    rw [(pop_of_empty ((pop_eq_none_iff final).1 hnone)).2.1]
    rfl
  · intro max
    have hpop := popFrom_of_low [] max hflows.low
    exact congrArg (List.map (·.value)) hpop

/-- Three samples are ready, the first is popped whole and the second as a vector of one. -/
theorem output_queue_delivers_interleaved :
    let ops : List Operation :=
      [.engine (.pushOutput ⟨-2, 7⟩), .engine (.holdFull 3), .host .pop,
        .engine (.pushOutput ⟨300, 255⟩), .host (.push .nop), .host .clearEnd,
        .engine (.pushOutput ⟨-32768, 0⟩), .host (.popVector 1)]
    let start := newLink .standard 4 false {} .spin
    let final := runAll .standard ops start
    (∀ op ∈ ops, op.showsSamples = true) ∧
      returned .standard ops start = [.sample ⟨-2, 7⟩, .value 300] ∧
      final.device.output = [⟨-32768, 0⟩] ∧
      ∃ samples, Seen (returned .standard ops start) samples ∧
        samples ++ final.device.output = [⟨-2, 7⟩, ⟨300, 255⟩, ⟨-32768, 0⟩] := by
  intro ops start final
  have hops : ∀ op ∈ ops, op.showsSamples = true := by
    simp [ops, showsSamples, isRegular, HostOp.isRegular]
  obtain ⟨hsamples, -⟩ := output_queue_delivers .standard .standard 4 false {} .spin hops
  exact ⟨hops, rfl, rfl, hsamples⟩

end Operation

end Gemv
