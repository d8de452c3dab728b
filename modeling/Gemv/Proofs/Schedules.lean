import Gemv.Proofs.Moves
import Gemv.Proofs.VectorRegisters

/-! Execution on any schedule.

An automatic engine executes a word within the push; any other queues it and executes it in some
later step. `Works` covers both: of the words sent, some are done, in order, and the rest are
pending. Moves keep it whenever they come (`Works.moved`), so once the queue is drained only the
words sent determine what was executed and what the blocks hold. -/
namespace Gemv

namespace Engine
open Register

theorem foldl_execute_eq (ws : List Instruction) (e : Engine) :
    ws.foldl execute e =
      { e with blocks := e.blocks.run ws, executed := e.executed ++ ws } := by
  induction ws generalizing e with
  | nil => simp
  | cons w ws ih =>
      rw [List.foldl_cons, ih]
      simp [execute]

theorem step_eq (e : Engine) (n : Nat) :
    e.step n = ((e.pending.take n).length,
      { e with
        pending := e.pending.drop n
        blocks := e.blocks.run (e.pending.take n)
        executed := e.executed ++ e.pending.take n }) := by
  rw [step, foldl_execute_eq]

/-- Two steps are one. -/
theorem step_step (e : Engine) (m n : Nat) :
    ((e.step m).1 + ((e.step m).2.step n).1, ((e.step m).2.step n).2) = e.step (m + n) := by
  have hexecuted : e.executed ++ e.pending.take m ++ (e.pending.drop m).take n =
      e.executed ++ (e.pending.take m ++ (e.pending.drop m).take n) := by
    apply Array.toList_inj.1
    simp
  simp only [step_eq, List.take_add, Blocks.run_append, List.drop_drop, List.length_append,
    hexecuted]

/-- A step that is large enough executes all that is pending. -/
theorem step_of_length_le {e : Engine} {n : Nat} (h : e.pending.length ≤ n) :
    (e.step n).1 = e.pending.length ∧ (e.step n).2.pending = [] := by
  rw [step_eq, List.take_of_length_le h, List.drop_eq_nil_of_le h]
  exact ⟨rfl, rfl⟩

/-- Engines that agree on the words they hold and on what these have done. -/
structure SameWork (e e' : Engine) : Prop where
  geometry : e'.geometry = e.geometry
  pending : e'.pending = e.pending
  depth : e'.depth = e.depth
  automatic : e'.automatic = e.automatic
  blocks : e'.blocks = e.blocks
  executed : e'.executed = e.executed

namespace SameWork

theorem pulse_pop (e : Engine) : SameWork e (e.pulse .pop) := by
  obtain ⟨output, underflows, hrelease⟩ := release_frame { e with popStrobes := e.popStrobes + 1 }
  rw [pulse, Strobe.fire, hrelease]
  split <;> exact ⟨rfl, rfl, rfl, rfl, rfl, rfl⟩

theorem pulse_clearEnd (e : Engine) : SameWork e (e.pulse .clearEnd) := by
  rw [pulse, Strobe.fire]
  split <;> exact ⟨rfl, rfl, rfl, rfl, rfl, rfl⟩

end SameWork

theorem takes_pulse {e : Engine} (hlow : e.isHigh .push = false) (hroom : e.isFull = false)
    (w : Instruction) : Takes w e ((latch inputData w.raw e).pulse .push) := by
  have htakes := Link.takes_offer (t := { device := e }) hlow hroom w
  rwa [Link.device_offer] at htakes

/-- Engines with the same memory and selection that have executed the same words. -/
structure Agrees (e e' : Engine) : Prop where
  blocks : e'.blocks = e.blocks
  executed : e'.executed = e.executed

/-- Nothing is pending, and the next push is an edge. -/
structure AtRest (e : Engine) : Prop where
  empty : e.pending = []
  low : e.isHigh .push = false

/-- The engine was sent these words from `start` on. Those done are executed in order and the blocks
show it; the others are pending, in order. -/
structure Works (start : Engine) (sent done : List Instruction) (e : Engine) : Prop where
  split : done ++ e.pending = sent
  executed : e.executed = start.executed ++ done
  blocks : e.blocks = start.blocks.run done
  immediate : e.automatic = true → e.pending = []
  bounded : e.pending.length ≤ e.depth
  geometry : e.geometry = start.geometry
  depth : e.depth = start.depth
  automatic : e.automatic = start.automatic
  low : e.isHigh .push = false

namespace Works

variable {start e e' : Engine} {sent done : List Instruction}

theorem of_atRest (h : e.AtRest) : Works e [] [] e := by
  refine ⟨h.empty, by simp, rfl, fun _ => h.empty, ?_, rfl, rfl, rfl, h.low⟩
  rw [h.empty]
  exact Nat.zero_le _

theorem of_sameWork (h : Works start sent done e) (hsame : SameWork e e')
    (hlow : e'.isHigh .push = false) : Works start sent done e' := by
  constructor
  case split => rw [hsame.pending, h.split]
  case executed => rw [hsame.executed, h.executed]
  case blocks => rw [hsame.blocks, h.blocks]
  case immediate =>
      rw [hsame.automatic, hsame.pending]
      exact h.immediate
  case bounded =>
      rw [hsame.pending, hsame.depth]
      exact h.bounded
  case geometry => rw [hsame.geometry, h.geometry]
  case depth => rw [hsame.depth, h.depth]
  case automatic => rw [hsame.automatic, h.automatic]
  case low => exact hlow

theorem offer (h : Works start sent done e) (hroom : e.isFull = false) (w : Instruction) :
    ∃ done', Works start (sent ++ [w]) done' ((latch inputData w.raw e).pulse .push) := by
  have htakes := takes_pulse h.low hroom w
  have hlow := (Moved.offer w hroom).low h.low
  have hlength := ((isFull_eq_false_iff e).1 hroom).2
  cases hauto : e.automatic with
  | true =>
      obtain ⟨hexecuted, hpending, hblocks⟩ := htakes.executes hauto
      have hnone := h.immediate hauto
      refine ⟨done ++ [w], ?_, ?_, ?_, ?_, ?_, htakes.geometry.trans h.geometry,
        htakes.depth.trans h.depth, htakes.automatic.trans h.automatic, hlow⟩
      · rw [hpending, ← h.split, hnone, List.append_nil, List.append_nil]
      · apply Array.toList_inj.1
        simp [hexecuted, h.executed]
      · rw [hblocks, h.blocks, Blocks.run_append]
        rfl
      · exact fun _ => hpending.trans hnone
      · rw [hpending, htakes.depth]
        exact h.bounded
  | false =>
      obtain ⟨hexecuted, hpending, hblocks⟩ := htakes.queues hauto
      refine ⟨done, ?_, hexecuted.trans h.executed, hblocks.trans h.blocks, ?_, ?_,
        htakes.geometry.trans h.geometry, htakes.depth.trans h.depth,
        htakes.automatic.trans h.automatic, hlow⟩
      · rw [hpending, ← List.append_assoc, h.split]
      · rw [htakes.automatic, hauto]
        exact fun hfalse => absurd hfalse (by decide)
      · rw [hpending, htakes.depth, List.length_append]
        exact hlength

theorem step (h : Works start sent done e) (n : Nat) :
    Works start sent (done ++ e.pending.take n) (e.step n).2 := by
  have hlow := (Moved.step e n).low h.low
  rw [step_eq] at hlow ⊢
  constructor
  case split => simp only [List.append_assoc, List.take_append_drop, h.split]
  case executed =>
      apply Array.toList_inj.1
      simp [h.executed]
  case blocks => simp only [h.blocks, Blocks.run_append]
  case immediate =>
      intro hauto
      simp only [h.immediate hauto, List.drop_nil]
  case bounded => exact Nat.le_trans (List.drop_sublist n e.pending).length_le h.bounded
  case geometry => exact h.geometry
  case depth => exact h.depth
  case automatic => exact h.automatic
  case low => exact hlow

/-- Any move but a reset, which drops words, and a fill, which overwrites what they did. -/
theorem moved (h : Works start sent done e) {m : Move} (hmove : Moved m e e')
    (hreset : m ≠ .reset) (hfill : ∀ pattern, m ≠ .fill pattern) :
    ∃ done', Works start (sent ++ m.word?.toList) done' e' := by
  have hlow := hmove.low h.low
  have hquiet : SameWork e e' → ∃ done', Works start (sent ++ []) done' e' := by
    intro hsame
    exact ⟨done, by simpa using h.of_sameWork hsame hlow⟩
  cases hmove with
  | reset => exact absurd rfl hreset
  | fill _ pattern => exact absurd rfl (hfill pattern)
  | offer w hroom => exact h.offer hroom w
  | step _ n => exact ⟨_, by simpa [Move.word?] using h.step n⟩
  | take => exact hquiet (.pulse_pop e)
  | clearEnd => exact hquiet (.pulse_clearEnd e)
  | wait | produce | raiseEnd => exact hquiet ⟨rfl, rfl, rfl, rfl, rfl, rfl⟩

theorem path (h : Works start sent done e) {ms : List Move} (hpath : Path ms e e')
    (hreset : .reset ∉ ms) (hfill : ∀ pattern, .fill pattern ∉ ms) :
    ∃ done', Works start (sent ++ ms.filterMap Move.word?) done' e' := by
  induction hpath generalizing sent done with
  | nil => exact ⟨done, by simpa using h⟩
  | @cons m ms e e' e'' hmove _ ih =>
      obtain ⟨done', hnext⟩ := h.moved hmove (fun hm => hreset (by simp [hm]))
        (fun pattern hm => hfill pattern (by simp [hm]))
      have hrest := ih hnext (fun hm => hreset (List.mem_cons_of_mem m hm))
        (fun pattern hm => hfill pattern (List.mem_cons_of_mem m hm))
      rwa [Move.filterMap_cons, ← List.append_assoc]

/-- Where nothing is pending, everything sent is done. -/
theorem finished (h : Works start sent done e) (hnone : e.pending = []) :
    e.executed = start.executed ++ sent ∧ e.blocks = start.blocks.run sent := by
  have hdone : done = sent := by rw [← h.split, hnone, List.append_nil]
  rw [← hdone]
  exact ⟨h.executed, h.blocks⟩

theorem drain (h : Works start sent done e) (hdepth : start.depth < 2 ^ 64) :
    e.drain.1 = e.pending.length ∧ e.drain.2.pending = [] ∧
      e.drain.2.executed = start.executed ++ sent ∧
      e.drain.2.blocks = start.blocks.run sent := by
  have hbounded := h.bounded
  have hlength : e.pending.length ≤ 2 ^ 64 - 1 := by
    rw [h.depth] at hbounded
    omega
  obtain ⟨hran, hnone⟩ := step_of_length_le hlength
  exact ⟨hran, hnone, (h.step _).finished hnone⟩

end Works

end Engine

namespace Operation
open Link Engine

/-- Every regular operation but a reset and a fill. -/
def isScheduling : Operation → Bool
  | .host .reset => false
  | .engine (.fill _) => false
  | op => op.isRegular

theorem isRegular_of_isScheduling {op : Operation} (h : op.isScheduling = true) :
    op.isRegular = true := by
  unfold isScheduling at h
  split at h
  · cases h
  · cases h
  · exact h

theorem works_runAll (g : Geometry) {ops : List Operation}
    (hops : ∀ op ∈ ops, op.isScheduling = true) {start : Engine} {words done : List Instruction}
    {t : Link Engine} (h : Works start words done t.device) :
    ∃ done', Works start (words ++ sent g ops t) done' (runAll g ops t).device := by
  obtain ⟨ms, hmade⟩ := exists_moves_runAll g
    (fun op hop => isRegular_of_isScheduling (hops op hop)) t
  have hreset : .reset ∉ ms := fun hm => by simpa [isScheduling] using hops _ (hmade.resets hm)
  have hfill : ∀ pattern, .fill pattern ∉ ms := fun pattern hm => by
    simpa [isScheduling] using hops _ (hmade.fills pattern hm)
  rw [← hmade.words]
  exact h.path hmade.does.path hreset hfill

theorem works_of_atRest (g : Geometry) {ops : List Operation}
    (hops : ∀ op ∈ ops, op.isScheduling = true) {t : Link Engine} (hrest : t.device.AtRest) :
    ∃ done, Works t.device (sent g ops t) done (runAll g ops t).device :=
  works_runAll g hops (.of_atRest hrest)

theorem sent_pushAll (g : Geometry) {ws : List Instruction} {t u : Link Engine} {n : Nat}
    (h : t.pushAll ws = (.ok n, u)) : sent g [.host (.pushAll ws)] t = ws := by
  rw [sent, along_singleton]
  exact accepts_of_pushAll h

section Schedules

variable {g : Geometry} {t : Link Engine} (hrest : t.device.AtRest)
  (hdepth : t.device.depth < 2 ^ 64) {ops : List Operation}
  (hops : ∀ op ∈ ops, op.isScheduling = true)

include hrest hdepth hops

theorem agrees_of_automatic {direct : Link Engine} (hauto : direct.device.automatic = true)
    (hdirect : direct.device.AtRest) (hstart : Agrees t.device direct.device)
    {ops' : List Operation} (hops' : ∀ op ∈ ops', op.isScheduling = true)
    (hwords : sent g ops' direct = sent g ops t) :
    Agrees (runAll g ops t).device.drain.2 (runAll g ops' direct).device := by
  obtain ⟨done, hworks⟩ := works_of_atRest g hops hrest
  obtain ⟨-, -, hexecuted, hblocks⟩ := hworks.drain hdepth
  obtain ⟨done', hworks'⟩ := works_of_atRest g hops' hdirect
  have hnone := hworks'.immediate (hworks'.automatic.trans hauto)
  obtain ⟨hexecuted', hblocks'⟩ := hworks'.finished hnone
  constructor
  · rw [hblocks', hblocks, hwords, hstart.blocks]
  · rw [hexecuted', hexecuted, hwords, hstart.executed]

theorem agrees_of_idle {direct : Link Engine} (hidle : direct.device.Idle)
    (hstart : Agrees t.device direct.device) :
    ∃ u, direct.pushAll (sent g ops t) = (.ok (sent g ops t).length, u) ∧
      Agrees (runAll g ops t).device.drain.2 u.device := by
  obtain ⟨u, hpush, -⟩ := pushFrom_idle hidle 0 (sent g ops t)
  rw [Nat.zero_add] at hpush
  have hagrees := agrees_of_automatic hrest hdepth hops hidle.automatic ⟨hidle.empty, hidle.low⟩
    hstart (by simp [isScheduling, isRegular, HostOp.isRegular]) (sent_pushAll g hpush)
  have hlast : runAll g [.host (.pushAll (sent g ops t))] direct = u := congrArg Prod.snd hpush
  rw [hlast] at hagrees
  exact ⟨u, hpush, hagrees⟩

end Schedules

/-- The schedule makes no difference. However pushes, refused or not, alternate with steps of any
size, once the queue is drained the blocks and the list of executed words are those of an automatic
engine that started alike and was sent the same words, and an idle one takes any words. Draining
tells how many words were pending. A step in two parts is one step. -/
theorem schedule_independent (g : Geometry) {t : Link Engine} (hrest : t.device.AtRest)
    (hdepth : t.device.depth < 2 ^ 64) {ops : List Operation}
    (hops : ∀ op ∈ ops, op.isScheduling = true) :
    let words := sent g ops t
    let final := (runAll g ops t).device
    (∀ (direct : Link Engine) (ops' : List Operation), direct.device.automatic = true →
        direct.device.AtRest → Agrees t.device direct.device →
        (∀ op ∈ ops', op.isScheduling = true) → sent g ops' direct = words →
        Agrees final.drain.2 (runAll g ops' direct).device) ∧
      (∀ direct : Link Engine, direct.device.Idle → Agrees t.device direct.device →
        ∃ u, direct.pushAll words = (.ok words.length, u) ∧ Agrees final.drain.2 u.device) ∧
      final.drain.1 = final.pending.length ∧ final.drain.2.pending = [] ∧
      ∀ (e : Engine) (m n : Nat),
        ((e.step m).1 + ((e.step m).2.step n).1, ((e.step m).2.step n).2) = e.step (m + n) := by
  intro words final
  obtain ⟨done, hworks⟩ := works_of_atRest g hops hrest
  obtain ⟨hcount, hnone, -, -⟩ := hworks.drain hdepth
  refine ⟨?_, ?_, hcount, hnone, step_step⟩
  · intro direct ops' hauto hdirect hstart hops' hwords
    exact agrees_of_automatic hrest hdepth hops hauto hdirect hstart hops' hwords
  · intro direct hidle hstart
    exact agrees_of_idle hrest hdepth hops hidle hstart

/-- A queue of one word: the second push is refused, and succeeds after a step. -/
theorem schedule_independent_refused_push :
    let t := newLink .standard 1 false { maxAttempts := some 1 } .spin
    let ops : List Operation :=
      [.host (.push .selectAll), .host (.push (.write 3 5)), .engine (.step 1),
        .host (.push (.write 3 5)), .engine (.step 0)]
    let direct : Link Engine := { device := (Engine.new .standard).fill 0 }
    t.device.AtRest ∧ t.device.depth < 2 ^ 64 ∧ (∀ op ∈ ops, op.isScheduling = true) ∧
      sent .standard ops t = [.selectAll, .write 3 5] ∧
      ∃ u, direct.pushAll (sent .standard ops t) = (.ok (sent .standard ops t).length, u) ∧
        Agrees (runAll .standard ops t).device.drain.2 u.device := by
  intro t ops direct
  have hrest : t.device.AtRest := ⟨rfl, by decide⟩
  have hdepth : t.device.depth < 2 ^ 64 := by decide
  have hops : ∀ op ∈ ops, op.isScheduling = true := by
    simp [ops, isScheduling, isRegular, HostOp.isRegular]
  obtain ⟨-, hidle, -⟩ := schedule_independent .standard hrest hdepth hops
  exact ⟨hrest, hdepth, hops, rfl, hidle direct (Engine.idle_new .standard 0) ⟨rfl, rfl⟩⟩

end Operation

end Gemv
