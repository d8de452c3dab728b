import Gemv.Proofs.LoadRefusal
import Gemv.Proofs.LostPulses

/-! How much of a batch the input queue takes.

Nothing leaves the queue while a host pushes to an engine that waits for steps, so a wait for room
has one of two ends. If there is room, it ends with the look that comes after the held polls; if
there is none, or if the held polls outlast the bound, it ends with the bound (`await_of_room`,
`await_of_full`). The first word of a batch uses up the held polls, the others are taken at the
first look, and the batch ends where the room does (`pushFrom_of_held_lt`). -/
namespace Gemv

theorem PollLimits.reached_attempts (m : Nat) (clock : Nat → Nat) {n : Nat} (hn : 0 < n) :
    ({ maxAttempts := some m } : PollLimits).reached clock n = decide (max m 1 ≤ n) := by
  simp only [reached, Option.any_some, Option.any_none, Bool.or_false, decide_eq_decide]
  omega

theorem Engine.deliver_of_manual {e : Engine} (h : e.automatic = false) (w : Instruction) :
    e.deliver w =
      { e with pending := e.pending ++ [w], pushStrobes := e.pushStrobes + 1 } := by
  rw [deliver, if_neg (by rw [h]; decide)]

namespace Link
open Register Engine

theorem Alike.trans {σ : Type} {t u v : Link σ} (h : Alike t u) (h' : Alike u v) : Alike t v := by
  cases h
  cases h'
  exact .intro ..

/-- A link whose engine claims to be full for some more looks. -/
def holding (held : Nat) (t : Link Engine) : Link Engine :=
  { t with device := t.device.holdFull held }

theorem alike_lookForRoom (failed : Nat) (t : Link Engine) :
    Alike (t.lookForRoom failed).2 (t.holding (t.device.heldFull - 1)) := by
  have hread : Alike (t.read queueStatus).2 (t.holding (t.device.heldFull - 1)) := .intro ..
  unfold lookForRoom
  generalize t.read queueStatus = p at hread ⊢
  obtain ⟨status, u⟩ := p
  simp only
  split
  · split
    · exact (alike_note .inputFull u).trans hread
    · exact hread
  · exact hread

/-- The link that look number `n` of a wait for room looks at. -/
abbrev atAttempt (t : Link Engine) (n : Nat) : Link Engine :=
  atLook lookForRoom (fun attempt t => t.record (.pause attempt)) t n

theorem alike_atAttempt (t : Link Engine) (n : Nat) :
    Alike (t.atAttempt n) (t.holding (t.device.heldFull - n)) := by
  induction n with
  | zero => exact .intro ..
  | succ n ih =>
      change Alike ((lookForRoom n (t.atAttempt n)).2.record (.pause (n + 1))) _
      generalize t.atAttempt n = u at ih ⊢
      have hlook := alike_lookForRoom n u
      have hpause : Alike ((u.lookForRoom n).2.record (.pause (n + 1))) (u.lookForRoom n).2 :=
        .intro ..
      refine (hpause.trans hlook).trans ?_
      cases ih
      exact .intro ..

/-- Look number `n` finds room if no more than `n` polls were held and the queue has a place
left. -/
theorem fst_lookForRoom_atAttempt (t : Link Engine) (n : Nat) :
    (lookForRoom n (t.atAttempt n)).1 =
      decide (t.device.heldFull ≤ n ∧ t.device.pending.length < t.device.depth) := by
  have halike := (alike_atAttempt t n).lookForRoom n
  obtain ⟨hseen, -, -⟩ := lookForRoom_engine n (t.holding (t.device.heldFull - n))
  rw [halike.1, hseen]
  apply Bool.eq_iff_iff.2
  rw [Bool.not_eq_true', isFull_eq_false_iff, decide_eq_true_iff]
  change t.device.heldFull - n = 0 ∧ _ ↔ _
  rw [Nat.sub_eq_zero_iff_le]
  exact Iff.rfl

section Capacity

variable {t : Link Engine} {m : Nat} (hm : m < 2 ^ 64)
  (hlimits : t.limits = { maxAttempts := some m })

include hm hlimits

theorem await_of_room (hheld : t.device.heldFull < max m 1)
    (hroom : t.device.pending.length < t.device.depth) :
    ∃ u, t.await lookForRoom "FIFO-in space" = (.ok t.device.heldFull, u) ∧
      Alike u (t.holding 0) := by
  have hfail : ∀ i < t.device.heldFull, (lookForRoom i (t.atAttempt i)).1 = false := by
    intro i hi
    rw [fst_lookForRoom_atAttempt]
    exact decide_eq_false (by omega)
  have hopen : ∀ i, 0 < i → i ≤ t.device.heldFull →
      t.limits.reached t.clock i = false := by
    intro i hpos hi
    rw [hlimits, PollLimits.reached_attempts m _ hpos]
    exact decide_eq_false (by omega)
  have hready : (lookForRoom t.device.heldFull (t.atAttempt t.device.heldFull)).1 = true := by
    rw [fst_lookForRoom_atAttempt]
    exact decide_eq_true ⟨Nat.le_refl _, hroom⟩
  have hpoll := poll_eq_ready t.limits t.clock _ (by omega) hfail hopen hready
  have halike := ((alike_atAttempt t t.device.heldFull).lookForRoom t.device.heldFull).2
  rw [Nat.sub_self] at halike
  exact ⟨_, by rw [await, hpoll], halike.trans (alike_lookForRoom _ (t.holding 0))⟩

theorem await_of_full
    (hfull : max m 1 ≤ t.device.heldFull ∨ t.device.depth ≤ t.device.pending.length) :
    ∃ u, t.await lookForRoom "FIFO-in space" = (.error (.timeout "FIFO-in space" (max m 1)), u) ∧
      Alike u (t.holding (t.device.heldFull - max m 1)) := by
  obtain ⟨n, hn⟩ : ∃ n, max m 1 = n + 1 := ⟨max m 1 - 1, by omega⟩
  have hfail : ∀ i ≤ n, (lookForRoom i (t.atAttempt i)).1 = false := by
    intro i hi
    rw [fst_lookForRoom_atAttempt]
    exact decide_eq_false (by omega)
  have hopen : ∀ i, 0 < i → i ≤ n → t.limits.reached t.clock i = false := by
    intro i hpos hi
    rw [hlimits, PollLimits.reached_attempts m _ hpos]
    exact decide_eq_false (by omega)
  have hend : t.limits.reached t.clock (n + 1) = true := by
    rw [hlimits, PollLimits.reached_attempts m _ (Nat.succ_pos n)]
    exact decide_eq_true (Nat.le_of_eq hn)
  have hpoll := poll_eq_timedOut t.limits t.clock _ (by omega) hfail hopen hend
  rw [hn]
  exact ⟨_, by rw [await, hpoll],
    ((alike_atAttempt t n).lookForRoom n).2.trans (alike_lookForRoom n _)⟩

end Capacity

/-- Places left in the input queue. -/
def room (t : Link Engine) : Nat := t.device.depth - t.device.pending.length

/-- These words were queued, and nothing else happened but that held polls were used up and the
words went through the input register. -/
structure Queued (ws : List Instruction) (t u : Link Engine) : Prop where
  effect : { u.device with latched := t.device.latched, heldFull := t.device.heldFull } =
    { t.device with
      pending := t.device.pending ++ ws
      pushStrobes := t.device.pushStrobes + ws.length }
  held : u.device.heldFull ≤ t.device.heldFull
  low : u.device.isHigh .push = false
  pushed : u.pushed = t.pushed + ws.length
  limits : u.limits = t.limits

namespace Queued

variable {ws vs : List Instruction} {t u v : Link Engine}

theorem of_alike_holding {held : Nat} (hheld : held ≤ t.device.heldFull)
    (hlow : t.device.isHigh .push = false) (h : Alike u (t.holding held)) : Queued [] t u := by
  cases h
  exact ⟨by simp [holdFull], hheld, hlow, rfl, rfl⟩

theorem trans (h : Queued ws t u) (h' : Queued vs u v) : Queued (ws ++ vs) t v := by
  constructor
  case effect =>
      have hu := h.effect
      have hv := h'.effect
      simp only [Engine.mk.injEq] at hu hv ⊢
      simp only [hv, hu, List.append_assoc, List.length_append, Nat.add_assoc, and_self]
  case held => exact Nat.le_trans h'.held h.held
  case low => exact h'.low
  case pushed => rw [h'.pushed, h.pushed, List.length_append, Nat.add_assoc]
  case limits => exact h'.limits.trans h.limits

theorem pending (h : Queued ws t u) : u.device.pending = t.device.pending ++ ws :=
  (congrArg Engine.pending h.effect :)

theorem depth (h : Queued ws t u) : u.device.depth = t.device.depth :=
  (congrArg Engine.depth h.effect :)

theorem automatic (h : Queued ws t u) : u.device.automatic = t.device.automatic :=
  (congrArg Engine.automatic h.effect :)

theorem room_eq {w : Instruction} (h : Queued [w] t u)
    (hroom : t.device.pending.length < t.device.depth) : t.room = u.room + 1 := by
  rw [room, room, h.pending, h.depth, List.length_append, List.length_singleton]
  omega

end Queued

/-- How the wait before each word of a batch ends, up to the one that ends the batch: with the
number of looks that failed, or with an error. -/
def waits {σ : Type} [Device σ] : List Instruction → Link σ → List (Except Error Nat)
  | [], _ => []
  | w :: ws, t =>
    (t.await lookForRoom "FIFO-in space").1 ::
      match t.push w with
      | (.ok (), t) => waits ws t
      | (.error _, _) => []

section Batch

variable {t : Link Engine} {m : Nat} (hm : m < 2 ^ 64)
  (hlimits : t.limits = { maxAttempts := some m })

include hm hlimits

theorem push_of_full
    (hfull : max m 1 ≤ t.device.heldFull ∨ t.device.depth ≤ t.device.pending.length)
    (w : Instruction) :
    ∃ u, t.push w = (.error (.timeout "FIFO-in space" (max m 1)), u) ∧
      Alike u (t.holding (t.device.heldFull - max m 1)) := by
  obtain ⟨u, hwait, halike⟩ := await_of_full hm hlimits hfull
  exact ⟨u, by rw [push, hwait], halike⟩

variable (hmanual : t.device.automatic = false) (hlow : t.device.isHigh .push = false)

include hmanual hlow

theorem push_of_held_lt (hheld : t.device.heldFull < max m 1)
    (hroom : t.device.pending.length < t.device.depth) (w : Instruction) :
    ∃ u, t.push w = (.ok (), u) ∧ u.device.heldFull = 0 ∧ Queued [w] t u := by
  obtain ⟨last, hwait, -⟩ := await_of_room hm hlimits hheld hroom
  rcases push_cases w t with ⟨u, hpush, hpushed, hdevice, -⟩ | ⟨e, u, hpush, -⟩
  · have hfree : u.device.isFull = false := by
      rw [hdevice, isFull_eq_false_iff]
      exact ⟨rfl, hroom⟩
    have htakes := takes_offer (by rw [hdevice]; exact hlow) hfree w
    have hheld' : (u.offer w).device.heldFull = 0 := by rw [htakes.heldFull, hdevice]; rfl
    obtain ⟨hcount, -, hpulsed⟩ := pulsed_push hpush
    have heffect := hpulsed.effect
    rw [hlow, if_neg (by decide), deliver_of_manual hmanual] at heffect
    have hbounds := (bounds_push w t).1
    rw [hpush] at hbounds
    exact ⟨u.offer w, hpush, hheld', heffect, by omega, hpulsed.low, hcount, hbounds⟩
  · rw [push, hwait] at hpush
    cases hpush

/-- A batch that is not held up longer than its bound allows goes as far as there is room. -/
theorem pushFrom_of_held_lt (hheld : t.device.heldFull < max m 1) (count : Nat)
    (ws : List Instruction) :
    ∃ u, t.pushFrom count ws =
        (if ws.length ≤ t.room then .ok (count + ws.length)
          else .error (.timeout "FIFO-in space" (max m 1)), u) ∧
      t.accepts ws = ws.take t.room ∧ Queued (ws.take t.room) t u := by
  induction ws generalizing t count with
  | nil =>
      refine ⟨t, by simp [pushFrom_nil], by simp [accepts], ?_⟩
      rw [List.take_nil]
      exact .of_alike_holding (Nat.le_refl _) hlow (.intro ..)
  | cons w ws ih =>
      by_cases hroom : t.device.pending.length < t.device.depth
      · obtain ⟨u, hpush, hfree, hqueued⟩ := push_of_held_lt hm hlimits hmanual hlow hheld hroom w
        have hpos := hqueued.room_eq hroom
        -- No poll is held any more, so the rest of the batch starts below the bound again.
        obtain ⟨v, hrest, haccepts, hqueued'⟩ := ih (hqueued.limits.trans hlimits)
          (hqueued.automatic.trans hmanual) hqueued.low (by omega) (count + 1)
        refine ⟨v, ?_, ?_, ?_⟩
        · have hcount : count + 1 + ws.length = count + (ws.length + 1) := by omega
          rw [pushFrom_cons, hpush]
          simp only [hrest, hpos, hcount, List.length_cons, Nat.add_le_add_iff_right]
        · rw [hpos, List.take_succ_cons, accepts, hpush]
          exact congrArg (w :: ·) haccepts
        · rw [hpos, List.take_succ_cons]
          exact hqueued.trans hqueued'
      · obtain ⟨u, hpush, halike⟩ := push_of_full hm hlimits (.inr (Nat.le_of_not_lt hroom)) w
        have hnone : t.room = 0 := by rw [room]; omega
        refine ⟨u, ?_, ?_, ?_⟩
        · rw [pushFrom_cons, hpush, hnone]
          rfl
        · rw [accepts, hpush, hnone, List.take_zero]
        · rw [hnone, List.take_zero]
          exact .of_alike_holding (Nat.sub_le _ _) hlow halike

/-- The first word of a batch waits for the held polls, and each later one that is taken is taken at
the first look. -/
theorem waits_of_held_lt (hheld : t.device.heldFull < max m 1) (ws : List Instruction) :
    t.waits ws =
      ((t.device.heldFull :: List.replicate ws.length 0).take (min ws.length t.room)).map .ok ++
        if ws.length ≤ t.room then [] else [.error (.timeout "FIFO-in space" (max m 1))] := by
  induction ws generalizing t with
  | nil => simp [waits]
  | cons w ws ih =>
      by_cases hroom : t.device.pending.length < t.device.depth
      · obtain ⟨u, hpush, hfree, hqueued⟩ := push_of_held_lt hm hlimits hmanual hlow hheld hroom w
        obtain ⟨last, hwait, -⟩ := await_of_room hm hlimits hheld hroom
        have hpos := hqueued.room_eq hroom
        have hrest := ih (hqueued.limits.trans hlimits)
          (hqueued.automatic.trans hmanual) hqueued.low (by omega)
        rw [waits, hwait, hpush]
        simp only [hrest, hfree, hpos, List.length_cons, Nat.add_le_add_iff_right,
          Nat.add_min_add_right, List.take_succ_cons, List.map_cons, List.cons_append,
          List.replicate_succ]
      · obtain ⟨u, hpush, -⟩ := push_of_full hm hlimits (.inr (Nat.le_of_not_lt hroom)) w
        obtain ⟨last, hwait, -⟩ := await_of_full hm hlimits (.inr (Nat.le_of_not_lt hroom))
        have hnone : t.room = 0 := by rw [room]; omega
        rw [waits, hwait, hpush, hnone]
        rfl

end Batch

/-- A batch for an engine that waits for steps, with a bound on the looks of each wait; a bound of
zero looks once. The batch is taken whole exactly if fewer polls are held than the bound allows and
there is room for all of it. Polls held for as long as the bound end it at the first word, and
nothing but their number has changed. Otherwise the queue takes what it has room for, in order: the
first word after the held polls, every other one at its first look. What is left over ends the
batch with a timeout, the queue being full. -/
theorem batch_capacity_exact {t : Link Engine} (hmanual : t.device.automatic = false)
    (hsize : t.device.pending.length ≤ t.device.depth) (hlow : t.device.isHigh .push = false)
    {m : Nat} (hm : m < 2 ^ 64) (hlimits : t.limits = { maxAttempts := some m })
    {ws : List Instruction} (hws : ws ≠ []) :
    let bound := max m 1
    let held := t.device.heldFull
    let room := t.device.depth - t.device.pending.length
    let timeout := Error.timeout "FIFO-in space" bound
    let final := (t.pushAll ws).2
    ((t.pushAll ws).1 = .ok ws.length ↔ held < bound ∧ ws.length ≤ room) ∧
      (bound ≤ held →
        (t.pushAll ws).1 = .error timeout ∧ t.waits ws = [.error timeout] ∧
          Alike final (t.holding (held - bound))) ∧
      (held < bound →
        t.accepts ws = ws.take room ∧ Queued (ws.take room) t final ∧
          t.waits ws =
            ((held :: List.replicate ws.length 0).take (min ws.length room)).map .ok ++
              (if ws.length ≤ room then [] else [.error timeout]) ∧
          (room < ws.length →
            (t.pushAll ws).1 = .error timeout ∧ final.device.pending.length = t.device.depth ∧
              final.pushed = t.pushed + room ∧ final.device.executed = t.device.executed ∧
              final.device.overflows = t.device.overflows)) := by
  intro bound held room timeout final
  by_cases hheld : held < bound
  · obtain ⟨u, hpush, haccepts, hqueued⟩ :=
      pushFrom_of_held_lt hm hlimits hmanual hlow hheld 0 ws
    have hfinal : final = u := congrArg Prod.snd hpush
    have hresult : (t.pushAll ws).1 =
        if ws.length ≤ room then .ok ws.length else .error timeout := by
      rw [pushAll, hpush, Nat.zero_add]
      rfl
    rw [hfinal, hresult]
    refine ⟨?_, fun hlong => absurd hheld (Nat.not_lt.2 hlong), fun _ => ?_⟩
    · by_cases hfits : ws.length ≤ room
      · simp [hfits, hheld]
      · simp [hfits]
    · refine ⟨haccepts, hqueued, waits_of_held_lt hm hlimits hmanual hlow hheld ws, fun hmore => ?_⟩
      have hlength : (ws.take room).length = room := List.length_take_of_le (Nat.le_of_lt hmore)
      have hpending := congrArg List.length hqueued.pending
      have hpushed := hqueued.pushed
      rw [List.length_append] at hpending
      refine ⟨if_neg (Nat.not_le.2 hmore), ?_, ?_, (congrArg Engine.executed hqueued.effect :),
        (congrArg Engine.overflows hqueued.effect :)⟩
      · change u.device.pending.length = t.device.pending.length + (ws.take room).length at hpending
        omega
      · change u.pushed = t.pushed + (ws.take room).length at hpushed
        omega
  · have hlong : bound ≤ held := Nat.le_of_not_lt hheld
    obtain ⟨w, ws, rfl⟩ := List.exists_cons_of_ne_nil hws
    obtain ⟨u, hpush, halike⟩ := push_of_full hm hlimits (.inl hlong) w
    obtain ⟨last, hwait, -⟩ := await_of_full hm hlimits (.inl hlong)
    have hbatch : t.pushAll (w :: ws) = (.error timeout, u) := by rw [pushAll, pushFrom_cons, hpush]
    have hwaits : t.waits (w :: ws) = [.error timeout] := by rw [waits, hwait, hpush]
    have hfinal : final = u := congrArg Prod.snd hbatch
    rw [hfinal, hbatch]
    refine ⟨?_, fun _ => ⟨rfl, hwaits, halike⟩, fun hless => absurd hless hheld⟩
    simp [hheld]

/-- A queue of three with one word in it, held for two looks of three: of three more words it takes
two. -/
theorem batch_capacity_exact_one_over :
    let start := Operation.newLink .standard 3 false { maxAttempts := some 3 } .spin
    let t := (start.push .nop).2.holding 2
    let ws : List Instruction := [.selectAll, .write 3 5, .vectorSync]
    t.device.automatic = false ∧ t.device.pending.length ≤ t.device.depth ∧
      t.device.isHigh .push = false ∧ t.limits = { maxAttempts := some 3 } ∧ ws ≠ [] ∧
      (t.pushAll ws).1 = .error (.timeout "FIFO-in space" 3) ∧
      (t.pushAll ws).2.device.pending.length = 3 ∧
      t.waits ws = [.ok 2, .ok 0, .error (.timeout "FIFO-in space" 3)] := by
  intro start t ws
  have hlow : t.device.isHigh .push = false := by decide
  have hws : ws ≠ [] := by simp [ws]
  obtain ⟨-, -, hless⟩ :=
    batch_capacity_exact (t := t) rfl (by decide) hlow (by decide : 3 < 2 ^ 64) rfl hws
  obtain ⟨-, -, hwaits, hover⟩ := hless (by decide)
  obtain ⟨hresult, hpending, -⟩ := hover (by decide)
  exact ⟨rfl, by decide, hlow, rfl, hws, hresult, hpending, hwaits⟩

end Link

end Gemv
