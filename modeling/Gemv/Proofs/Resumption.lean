import Gemv.Proofs.Capacity
import Gemv.Proofs.Recovery

/-! Sending a list to an engine that falls behind.

A batch that ends with a timeout tells nothing of the words that went before, but the link has
counted them, so a host can go on from there once the engine has taken a step. Such a host never
waits in vain: a timeout leaves the queue full, the step makes room, and the next batch gets a word
across (`UnderWay.batch`). Hence there are no more timeouts than words (`resume_of_underWay`). -/
namespace Gemv

theorem Engine.Works.queued {start : Engine} {sent done ws : List Instruction} {t u : Link Engine}
    (h : Engine.Works start sent done t.device) (hmanual : t.device.automatic = false)
    (hfits : ws.length ≤ t.room) (hqueued : Link.Queued ws t u) :
    Engine.Works start (sent ++ ws) done u.device := by
  have hbounded := h.bounded
  rw [Link.room] at hfits
  constructor
  case split => rw [hqueued.pending, ← List.append_assoc, h.split]
  case executed => exact (congrArg Engine.executed hqueued.effect :).trans h.executed
  case blocks => exact (congrArg Engine.blocks hqueued.effect :).trans h.blocks
  case immediate =>
      rw [hqueued.automatic, hmanual]
      exact fun hfalse => absurd hfalse (by decide)
  case bounded =>
      rw [hqueued.pending, hqueued.depth, List.length_append]
      omega
  case geometry => exact (congrArg Engine.geometry hqueued.effect :).trans h.geometry
  case depth => exact hqueued.depth.trans h.depth
  case automatic => exact hqueued.automatic.trans h.automatic
  case low => exact hqueued.low

/-- Where a host stands that sends a list of words in batches. -/
structure Backlog where
  /-- Words of the list that need not be sent again. -/
  sent : Nat
  timeouts : Nat
  link : Link Engine

namespace Backlog
open Link Engine

/-- Sends what is left of a list. After a timeout the host goes by the link's own count, and the
engine takes a step of the next size. A host that is not done after so many turns has no result. -/
def resume (ws : List Instruction) (sizes : Nat → Nat) :
    (turns : Nat) → Backlog → Option (Except Error Backlog)
  | 0, _ => none
  | turns + 1, b =>
    if b.sent < ws.length then
      match b.link.pushAll (ws.drop b.sent) with
      | (.ok n, t) => resume ws sizes turns { b with sent := b.sent + n, link := t }
      | (.error (.timeout _ _), t) =>
        resume ws sizes turns
          ⟨t.pushed, b.timeouts + 1, (EngineOp.runStep (sizes b.timeouts) t).2⟩
      | (.error e, _) => some (.error e)
    else some (.ok b)

/-- What holds between two batches: the engine has had the words sent so far and no others, the link
has counted them, and a word was sent for every timeout. -/
structure UnderWay (ws : List Instruction) (start : Engine) (m : Nat) (b : Backlog) : Prop where
  works : ∃ done, Works start (ws.take b.sent) done b.link.device
  manual : b.link.device.automatic = false
  counted : b.link.pushed = b.sent
  within : b.sent ≤ ws.length
  free : b.link.device.heldFull = 0
  lossless : b.link.device.overflows = 0
  limits : b.link.limits = { maxAttempts := some m }
  patient : b.timeouts ≤ b.sent

namespace UnderWay

variable {ws : List Instruction} {start : Engine} {m : Nat} {b : Backlog}

theorem queued (h : UnderWay ws start m b) {n : Nat} (hroom : n ≤ b.link.room)
    (hfits : b.sent + n ≤ ws.length) {u : Link Engine}
    (hqueued : Queued ((ws.drop b.sent).take n) b.link u) :
    UnderWay ws start m ⟨b.sent + n, b.timeouts, u⟩ := by
  have hlength : ((ws.drop b.sent).take n).length = n :=
    List.length_take_of_le (by rw [List.length_drop]; omega)
  constructor
  case works =>
      obtain ⟨done, hworks⟩ := h.works
      have htaken : ((ws.drop b.sent).take n).length ≤ b.link.room := by omega
      exact ⟨done, List.take_add ▸ hworks.queued h.manual htaken hqueued⟩
  case manual => exact hqueued.automatic.trans h.manual
  case counted => rw [hqueued.pushed, h.counted, hlength]
  case within => exact hfits
  case free => exact Nat.le_zero.1 (h.free ▸ hqueued.held)
  case lossless => exact (congrArg Engine.overflows hqueued.effect :).trans h.lossless
  case limits => exact hqueued.limits.trans h.limits
  case patient => exact Nat.le_add_right_of_le h.patient

theorem stepped (h : UnderWay ws start m b) (hpatient : b.timeouts < b.sent) (n : Nat) :
    UnderWay ws start m ⟨b.sent, b.timeouts + 1, (EngineOp.runStep n b.link).2⟩ := by
  constructor
  case works =>
      obtain ⟨done, hworks⟩ := h.works
      exact ⟨_, hworks.step n⟩
  case manual => exact (congrArg (·.2.automatic) (step_eq ..) :).trans h.manual
  case counted => exact h.counted
  case within => exact h.within
  case free => exact (congrArg (·.2.heldFull) (step_eq ..) :).trans h.free
  case lossless => exact (congrArg (·.2.overflows) (step_eq ..) :).trans h.lossless
  case limits => exact h.limits
  case patient => exact hpatient

/-- A batch takes the rest of the list, or it takes what there is room for. -/
theorem batch (h : UnderWay ws start m b) (hm : m < 2 ^ 64) (hmore : b.sent < ws.length) :
    ∃ u, (b.link.pushAll (ws.drop b.sent) = (.ok (ws.length - b.sent), u) ∧
        UnderWay ws start m ⟨b.sent + (ws.length - b.sent), b.timeouts, u⟩) ∨
      (b.link.pushAll (ws.drop b.sent) = (.error (.timeout "FIFO-in space" (max m 1)), u) ∧
        u.pushed = b.sent + b.link.room ∧ u.device.depth = b.link.device.depth ∧
        UnderWay ws start m ⟨u.pushed, b.timeouts, u⟩) := by
  obtain ⟨done, hworks⟩ := h.works
  have hfree : b.link.device.heldFull < max m 1 := by rw [h.free]; omega
  obtain ⟨u, hpush, -, hqueued⟩ :=
    pushFrom_of_held_lt hm h.limits h.manual hworks.low hfree 0 (ws.drop b.sent)
  have hlength : (ws.drop b.sent).length = ws.length - b.sent := List.length_drop
  rw [hlength, Nat.zero_add] at hpush
  refine ⟨u, ?_⟩
  by_cases hfits : ws.length - b.sent ≤ b.link.room
  · left
    have hall : (ws.drop b.sent).take b.link.room = (ws.drop b.sent).take (ws.length - b.sent) := by
      rw [List.take_of_length_le (by omega), ← hlength, List.take_length]
    rw [hall] at hqueued
    exact ⟨by rw [pushAll, hpush, if_pos hfits], h.queued hfits (by omega) hqueued⟩
  · right
    have hsent := h.queued (Nat.le_refl _) (by omega) hqueued
    have hcounted : u.pushed = b.sent + b.link.room := hsent.counted
    exact ⟨by rw [pushAll, hpush, if_neg hfits], hcounted, hqueued.depth, hcounted ▸ hsent⟩

/-- A step makes room. -/
theorem room_stepped (h : UnderWay ws start m b) (hdepth : 0 < b.link.device.depth) {n : Nat}
    (hn : 0 < n) : 0 < Link.room (EngineOp.runStep n b.link).2 := by
  obtain ⟨done, hworks⟩ := h.works
  have hbounded := hworks.bounded
  have hpending : (EngineOp.runStep n b.link).2.device.pending.length =
      b.link.device.pending.length - n :=
    (congrArg (·.2.pending.length) (step_eq ..) :).trans List.length_drop
  have hsame : (EngineOp.runStep n b.link).2.device.depth = b.link.device.depth :=
    (congrArg (·.2.depth) (step_eq ..) :)
  rw [Link.room, hpending, hsame]
  omega

end UnderWay

/-- A host that has room for a word sends them all, in no more turns than there are words left and
one more. -/
theorem resume_of_underWay {ws : List Instruction} {start : Engine} {m : Nat} (hm : m < 2 ^ 64)
    {sizes : Nat → Nat} (hsizes : ∀ i, 0 < sizes i) {b : Backlog} (h : UnderWay ws start m b)
    (hroom : 0 < b.link.room) :
    ∃ final, (∀ turns, ws.length - b.sent < turns → resume ws sizes turns b = some (.ok final)) ∧
      UnderWay ws start m final ∧ final.sent = ws.length := by
  -- Each timeout leaves fewer words to send, as there was room for one.
  induction hleft : ws.length - b.sent using Nat.strongRecOn generalizing b with
  | ind left ih =>
      by_cases hmore : b.sent < ws.length
      · obtain ⟨u, ⟨hpush, hall⟩ | ⟨hpush, hpushed, hdepth, hpart⟩⟩ := h.batch hm hmore
        · have hend : ¬ b.sent + (ws.length - b.sent) < ws.length := by omega
          refine ⟨_, fun turns hturns => ?_, hall, Nat.add_sub_of_le h.within⟩
          obtain ⟨turns, rfl⟩ : ∃ n, turns = n + 2 := ⟨turns - 2, by omega⟩
          rw [resume, if_pos hmore, hpush]
          simp only
          rw [resume, if_neg hend]
        · have hpatient := h.patient
          have hpositive : 0 < u.device.depth := by
            rw [hdepth]
            exact Nat.lt_of_lt_of_le hroom (Nat.sub_le _ _)
          have hstepped := hpart.stepped (by simp only; omega) (sizes b.timeouts)
          have hfreed := hpart.room_stepped hpositive (hsizes b.timeouts)
          obtain ⟨final, hresume, hfinal⟩ := ih _ (by simp only; omega) hstepped hfreed rfl
          refine ⟨final, fun turns hturns => ?_, hfinal⟩
          obtain ⟨turns, rfl⟩ : ∃ n, turns = n + 1 := ⟨turns - 1, by omega⟩
          rw [resume, if_pos hmore, hpush]
          exact hresume turns (by simp only; omega)
      · refine ⟨b, fun turns hturns => ?_, h, Nat.le_antisymm h.within (Nat.le_of_not_lt hmore)⟩
        obtain ⟨turns, rfl⟩ : ∃ n, turns = n + 1 := ⟨turns - 1, by omega⟩
        rw [resume, if_neg hmore]

/-- A host that goes on after each timeout gets every word across, however small the queue, the
bound and the steps are. It is done after one turn more than there are words at the latest, with no
more timeouts than words. Once drained, an engine that was new has executed the words once and in
order and has lost none; if they are the words of a load, the register reads back as its
vector. -/
theorem resumption_completes (g : Geometry) {depth : Nat} (hdepth : 0 < depth)
    (hsize : depth < 2 ^ 64) {m : Nat} (hm : m < 2 ^ 64) (wait : Wait) {sizes : Nat → Nat}
    (hsizes : ∀ i, 0 < sizes i) (ws : List Instruction) :
    let start := Operation.newLink g depth false { maxAttempts := some m } wait
    ∃ final, (∀ turns, ws.length < turns →
        resume ws sizes turns ⟨0, 0, start⟩ = some (.ok final)) ∧
      final.sent = ws.length ∧ final.timeouts ≤ ws.length ∧
      let drained := final.link.device.drain.2
      drained.executed.toList = ws ∧ drained.pending = [] ∧ drained.overflows = 0 ∧
        ∀ register values, LoadPlan.words g register values = .ok ws →
          drained.lanes? register values.length = some values := by
  intro start
  have hrest : start.device.AtRest :=
    ⟨rfl, (Operation.conserves_newLink g depth false _ wait).pushLow⟩
  have hstart : UnderWay ws start.device m ⟨0, 0, start⟩ :=
    ⟨⟨[], .of_atRest hrest⟩, rfl, rfl, Nat.zero_le _, rfl, rfl, rfl, Nat.le_refl _⟩
  obtain ⟨final, hresume, hfinal, hsent⟩ := resume_of_underWay hm hsizes hstart hdepth
  obtain ⟨done, hworks⟩ := hfinal.works
  rw [hsent, List.take_length] at hworks
  obtain ⟨-, hempty, hexecuted, -⟩ := hworks.drain hsize
  refine ⟨final, hresume, hsent, hsent ▸ hfinal.patient, ?_, hempty, ?_, ?_⟩
  · rw [hexecuted]
    simp [start, Operation.newLink, Engine.new, withDepth]
  · exact (congrArg (·.2.overflows) (step_eq ..) :).trans hfinal.lossless
  · intro register values hwords
    obtain ⟨hregister, hvalues, hplan⟩ := LoadPlan.of_words_eq_ok hwords
    have hload : Works start.device
        ([] ++ LoadPlan.sequence g ((⟨register, hregister⟩ : Fin _) * g.width) values) done
        final.link.device := hplan ▸ hworks
    exact (hload.reloaded rfl hsize (fun _ hmem => absurd hmem List.not_mem_nil) hvalues).1

/-- A queue of one word, one look for each wait and one word for each step. -/
theorem resumption_completes_one_by_one :
    let g := Geometry.smallest
    let ws := LoadPlan.sequence g 3 [-1, -1]
    let start := Operation.newLink g 1 false { maxAttempts := some 0 } .spin
    g.Admits [-1, -1] ∧ LoadPlan.words g 3 [-1, -1] = .ok ws ∧
      ∃ final, resume ws (fun _ => 1) (ws.length + 1) ⟨0, 0, start⟩ = some (.ok final) ∧
        final.timeouts ≤ ws.length ∧ final.link.device.drain.2.executed.toList = ws ∧
        final.link.device.drain.2.lanes? 3 2 = some [-1, -1] := by
  intro g ws start
  have hvalues : g.Admits [-1, -1] := ⟨by decide, by simp [g, Geometry.smallest]⟩
  have hwords : LoadPlan.words g 3 [-1, -1] = .ok ws := LoadPlan.words_eq_ok ⟨3, by decide⟩ hvalues
  obtain ⟨final, hresume, -, htimeouts, hexecuted, -, -, hlanes⟩ :=
    resumption_completes g (by decide : 0 < 1) (by decide) (by decide : 0 < 2 ^ 64) .spin
      (fun _ => (by decide : 0 < 1)) ws
  exact ⟨hvalues, hwords, final, hresume _ (Nat.lt_succ_self _), htimeouts, hexecuted,
    hlanes 3 [-1, -1] hwords⟩

end Backlog

end Gemv
