import Gemv.Proofs.BusTrace
import Gemv.Proofs.StrobeAccounts

/-! The end-of-vector flag.

The surroundings of the engine raise the flag. One thing lowers it: a write to the engine's control
register that takes the clear bit from low to high. Both are `EndEvent`s, and the flag is set
exactly if some raise among them stands (`Tallied`). Every operation of a host but a clear and a
write by hand is `Quiet`: it neither touches the flag nor writes to that register. -/
namespace Gemv

/-- What bears on the flag: a raise, or a write to the engine's control register. -/
inductive EndEvent where
  | raised
  | wrote (value : UInt32)
  deriving DecidableEq, Repr

namespace EndEvent

def value? : EndEvent → Option UInt32
  | .raised => none
  | .wrote v => some v

/-- What the control register holds after these events, zero before the first write. -/
def held (events : List EndEvent) : UInt32 := (events.filterMap value?).getLastD 0

theorem held_raised (events : List EndEvent) : held (events ++ [.raised]) = held events := by
  simp [held, value?]

theorem held_wrote (events : List EndEvent) (v : UInt32) : held (events ++ [.wrote v]) = v := by
  simp [held, value?]

/-- Event number `i` takes bit 0 of the control register from low to high. -/
def ClearsAt (events : List EndEvent) (i : Nat) : Prop :=
  ∃ v, events[i]? = some (.wrote v) ∧ Bits.bit v 0 = true ∧
    Bits.bit (held (events.take i)) 0 = false

/-- Some event has raised the flag, and no later one has cleared it. -/
def Standing (events : List EndEvent) : Prop :=
  ∃ i, events[i]? = some .raised ∧ ∀ j, i < j → ¬ClearsAt events j

theorem clearsAt_concat_of_lt {events : List EndEvent} {i : Nat} (h : i < events.length)
    (event : EndEvent) : ClearsAt (events ++ [event]) i ↔ ClearsAt events i := by
  rw [ClearsAt, ClearsAt, List.getElem?_append_left h,
    List.take_append_of_le_length (Nat.le_of_lt h)]

theorem clearsAt_concat_length (events : List EndEvent) (v : UInt32) :
    ClearsAt (events ++ [.wrote v]) events.length ↔
      Bits.bit v 0 = true ∧ Bits.bit (held events) 0 = false := by
  simp [ClearsAt]

theorem ClearsAt.lt_length {events : List EndEvent} {i : Nat} (h : ClearsAt events i) :
    i < events.length := by
  obtain ⟨v, hv, -⟩ := h
  exact (List.getElem?_eq_some_iff.1 hv).1

theorem not_standing_nil : ¬Standing [] := by
  rintro ⟨i, hraised, -⟩
  cases hraised

theorem standing_raised (events : List EndEvent) : Standing (events ++ [.raised]) := by
  refine ⟨events.length, by simp, fun j hj hclears => ?_⟩
  have hlt := hclears.lt_length
  rw [List.length_append, List.length_singleton] at hlt
  omega

/-- A write leaves a raise standing unless it is an edge. -/
theorem standing_wrote (events : List EndEvent) (v : UInt32) :
    Standing (events ++ [.wrote v]) ↔
      Standing events ∧ ¬(Bits.bit v 0 = true ∧ Bits.bit (held events) 0 = false) := by
  constructor
  · rintro ⟨i, hraised, hkept⟩
    have hi : i < events.length := by
      have hlt := (List.getElem?_eq_some_iff.1 hraised).1
      have hne : i ≠ events.length := by
        rintro rfl
        simp at hraised
      rw [List.length_append, List.length_singleton] at hlt
      omega
    rw [List.getElem?_append_left hi] at hraised
    refine ⟨⟨i, hraised, fun j hj hclears => hkept j hj ?_⟩, fun hedge => ?_⟩
    · exact (clearsAt_concat_of_lt hclears.lt_length _).2 hclears
    · exact hkept events.length hi ((clearsAt_concat_length events v).2 hedge)
  · rintro ⟨⟨i, hraised, hkept⟩, hquiet⟩
    have hi := (List.getElem?_eq_some_iff.1 hraised).1
    refine ⟨i, by rwa [List.getElem?_append_left hi], fun j hj hclears => ?_⟩
    have hlt := hclears.lt_length
    rw [List.length_append, List.length_singleton] at hlt
    by_cases hlast : j = events.length
    · subst hlast
      exact hquiet ((clearsAt_concat_length events v).1 hclears)
    · exact hkept j hj ((clearsAt_concat_of_lt (by omega) _).1 hclears)

end EndEvent

open Register EndEvent

/-- The value that an access writes to the engine's control register. -/
def Access.control? : Access → Option UInt32
  | .write r v => if r.val = 2 then some v else none
  | .read _ _ => none

theorem Access.control?_write_of_ne {r : Register} (h : r ≠ engineControl) (v : UInt32) :
    (Access.write r v).control? = none :=
  if_neg fun heq => h (Fin.ext heq)

/-- All that has been written to the engine's control register over a link. -/
def Link.controls {σ : Type} (t : Link σ) : List UInt32 := t.trace.filterMap Access.control?

/-- The events of one operation: the raise, or what it writes to the control register. -/
def Operation.endEvents (g : Geometry) (op : Operation) (t : Link Engine) : List EndEvent :=
  match op with
  | .engine .raiseEnd => [.raised]
  | op => ((op.run g t).2.controls.drop t.controls.length).map .wrote

theorem Operation.endEvents_eq {g : Geometry} {op : Operation} {t : Link Engine} {vs : List UInt32}
    (hop : op ≠ .engine .raiseEnd) (h : (op.run g t).2.controls = t.controls ++ vs) :
    op.endEvents g t = vs.map .wrote := by
  unfold endEvents
  split
  · exact absurd rfl hop
  · rw [h, List.drop_left]

section Engine

theorem Strobe.endOfVector_fire {s : Strobe} (h : s ≠ .clearEnd) (e : Engine) :
    (s.fire e).endOfVector = e.endOfVector := by
  cases s with
  | reset => rfl
  | push =>
      obtain ⟨pending, blocks, executed, overflows, haccept⟩ :=
        Engine.accept_frame { e with pushStrobes := e.pushStrobes + 1 }
      rw [fire, haccept]
  | pop =>
      obtain ⟨output, underflows, hrelease⟩ :=
        Engine.release_frame { e with popStrobes := e.popStrobes + 1 }
      rw [fire, hrelease]
  | clearEnd => exact absurd rfl h

theorem Engine.endOfVector_answer {s : Strobe} (h : s ≠ .clearEnd) (rose : Bool) (e : Engine) :
    (e.answer rose s).endOfVector = e.endOfVector := by
  cases rose with
  | false => rfl
  | true => exact s.endOfVector_fire h e

/-- A write lowers the flag if it raises the clear strobe, and does not touch it if not. -/
theorem Engine.endOfVector_write (r : Register) (v : UInt32) (t : Link Engine) :
    (Engine.write r v t.device).endOfVector =
      (t.device.endOfVector && !Operation.raises .clearEnd (.host (.write r v)) t) := by
  rw [Operation.write_eq]
  change (Operation.answered (.host (.write r v)) t).endOfVector = _
  rw [Operation.answered]
  cases Operation.raises .clearEnd (.host (.write r v)) t with
  | true => exact (Bool.and_false _).symm
  | false =>
      change (Engine.answer _ .pop (.answer _ .push (.answer _ .reset t.device))).endOfVector = _
      rw [endOfVector_answer (by decide), endOfVector_answer (by decide),
        endOfVector_answer (by decide)]
      exact (Bool.and_true _).symm

theorem Engine.latest_write (r s : Register) (v : UInt32) (t : Link Engine) :
    (Engine.write r v t.device).latest s = if r = s then v else t.device.latest s := by
  rw [Operation.write_eq]
  by_cases h : r = s
  · subst h
    rw [latest_latch, if_pos rfl]
  · rw [latest_latch_of_ne h, Operation.latest_answered, if_neg h]

end Engine

namespace Link

section Controls

variable {σ : Type}

theorem controls_note (n : Note) (t : Link σ) : (t.note n).controls = t.controls := by
  rw [controls, controls, trace_note]

theorem controls_pause (n : Nat) (t : Link σ) : (t.record (.pause n)).controls = t.controls := by
  rw [controls, controls, trace_pause]

variable [Device σ]

theorem controls_read (r : Register) (t : Link σ) : (t.read r).2.controls = t.controls := by
  rw [controls, controls, trace_read, List.filterMap_append]
  exact List.append_nil _

theorem controls_write (r : Register) (v : UInt32) (t : Link σ) :
    (t.write r v).controls = t.controls ++ (Access.write r v).control?.toList := by
  rw [controls, controls, trace_write, List.filterMap_append, List.filterMap_cons]
  cases (Access.write r v).control? <;> rfl

end Controls

theorem trace_runStep (n : Nat) (t : Link Engine) : (EngineOp.runStep n t).2.trace = t.trace := by
  have hnotes : ∀ (ws : List Instruction) (journal : Array Event),
      (ws.foldl (fun j w => j.push (.note (.executed w))) journal).toList.filterMap Event.access? =
        journal.toList.filterMap Event.access? := by
    intro ws
    induction ws with
    | nil => exact fun _ => rfl
    | cons w ws ih =>
        intro journal
        rw [List.foldl_cons, ih]
        simp [Event.access?]
  exact hnotes (t.device.pending.take n) t.journal

/-- Nothing bears on the flag from one link to the other. -/
structure Quiet (t u : Link Engine) : Prop where
  controls : u.controls = t.controls
  flag : u.device.endOfVector = t.device.endOfVector
  latest : u.device.latest engineControl = t.device.latest engineControl

namespace Quiet

variable {t u v : Link Engine}

theorem refl (t : Link Engine) : Quiet t t := ⟨rfl, rfl, rfl⟩

theorem trans (h : Quiet t u) (h' : Quiet u v) : Quiet t v :=
  ⟨h'.controls.trans h.controls, h'.flag.trans h.flag, h'.latest.trans h.latest⟩

theorem note (h : Quiet t u) (n : Note) : Quiet t (u.note n) :=
  h.trans ⟨controls_note n u, rfl, rfl⟩

theorem pause (h : Quiet t u) (n : Nat) : Quiet t (u.record (.pause n)) :=
  h.trans ⟨controls_pause n u, rfl, rfl⟩

theorem read (h : Quiet t u) (r : Register) : Quiet t (u.read r).2 := by
  obtain ⟨heldFull, hread⟩ := Operation.read_frame r u.device
  have hdevice : (u.read r).2.device = { u.device with heldFull } := hread
  refine h.trans ⟨controls_read r u, ?_, ?_⟩
  · rw [hdevice]
  · rw [hdevice]
    rfl

theorem write (h : Quiet t u) {r : Register} (hr : r ≠ engineControl) (v : UInt32) :
    Quiet t (u.write r v) := by
  constructor
  case controls =>
      rw [controls_write, Access.control?_write_of_ne hr, h.controls]
      exact List.append_nil _
  case flag =>
      have hraises : Operation.raises .clearEnd (.host (.write r v)) u = false :=
        Operation.raises_write_of_ne hr v u
      change (Engine.write r v u.device).endOfVector = _
      rw [Engine.endOfVector_write, hraises, h.flag]
      exact Bool.and_true _
  case latest =>
      change (Engine.write r v u.device).latest engineControl = _
      rw [Engine.latest_write, if_neg hr, h.latest]

theorem pulse (h : Quiet t u) {r : Register} (hr : r ≠ engineControl) (k : Nat) :
    Quiet t (u.pulse r k) :=
  ((h.read r).write hr _).write hr _

theorem offer (h : Quiet t u) (w : Instruction) : Quiet t (u.offer w) := by
  have hword : Quiet t ((u.note (.pushed w)).write inputData w.raw) :=
    (h.note _).write (by decide) _
  have hpulse := hword.pulse (r := queueControl) (by decide) pushBit
  exact ⟨hpulse.controls, hpulse.flag, hpulse.latest⟩

theorem looks (t : Link Engine) : Looks (Quiet t) where
  read h r := h.read r
  note h n := h.note n
  pause h n := h.pause n

theorem tracks (t : Link Engine) : Tracks fun _ u => Quiet t u where
  push h w := (looks t).push (fun hu w => hu.offer w) h w
  note h n := h.note n

theorem runLent (ws : List Instruction) (t : Link Engine) :
    Quiet t (HostOp.runLent ws t).2 := by
  obtain ⟨device, limits, wait, pushed, journal⟩ := t
  have hlent :=
    @Tracks.pushFrom _ _ _ [] _ (tracks ⟨device, limits, .spin, 0, journal⟩) (.refl _) 0 ws
  rw [HostOp.runLent, pushAll]
  generalize (Link.mk device limits .spin 0 journal).pushFrom 0 ws = p at hlent
  obtain ⟨result, device', limits', wait', pushed', journal'⟩ := p
  exact ⟨hlent.controls, hlent.flag, hlent.latest⟩

/-- No operation of a host bears on the flag but a clear and a write by hand. -/
theorem run (g : Geometry) {op : HostOp} (hclear : op ≠ .clearEnd)
    (hwrite : ∀ i v, op ≠ .write i v) (t : Link Engine) : Quiet t (op.run g t).2 := by
  have hpushing : ∀ {op : HostOp}, op.pushes = true → Quiet t (op.run g t).2 := by
    intro op hpushes
    exact @Tracks.run _ _ _ [] _ (tracks t) (.refl t) g op hpushes
  have hlooks := looks t
  have hpop : ∀ {u : Link Engine}, Quiet t u → Quiet t (u.pulse queueControl popBit) :=
    fun h => h.pulse (by decide) popBit
  cases op with
  | push | pushAll | pushProgram | pushListing | load | loadSingles | clearRegister =>
      exact hpushing rfl
  | lendPush ws => exact runLent ws t
  | pop => exact hlooks.pop hpop (.refl t)
  | popVector max => exact hlooks.popVector hpop (.refl t) max
  | popSingles max fraction => exact hlooks.popVector hpop (.refl t) max
  | isEnd => exact hlooks.isEnd (.refl t)
  | awaitEnd => exact hlooks.awaitEnd (.refl t)
  | reset => exact ((refl t).note .resetting).pulse (by decide) resetBit
  | setLimits | setWait | renew => exact ⟨rfl, rfl, rfl⟩
  | read index => exact hlooks.readIndex (.refl t) index
  | clearEnd => exact absurd rfl hclear
  | write i v => exact absurd rfl (hwrite i v)

theorem runStep (n : Nat) (t : Link Engine) : Quiet t (EngineOp.runStep n t).2 := by
  have hdevice : (EngineOp.runStep n t).2.device = (t.device.step n).2 := rfl
  constructor
  case controls => rw [Link.controls, Link.controls, trace_runStep]
  case flag => rw [hdevice, Engine.step_eq]
  case latest =>
      rw [hdevice, Engine.step_eq]
      rfl

theorem runEngine {op : EngineOp} (hraise : op ≠ .raiseEnd) (t : Link Engine) :
    Quiet t (op.run t).2 := by
  cases op with
  | step n => exact runStep n t
  | drain => exact runStep _ t
  | raiseEnd => exact absurd rfl hraise
  | _ => exact ⟨rfl, rfl, rfl⟩

end Quiet

theorem isEnd_engine (t : Link Engine) :
    t.isEnd.1 = t.device.endOfVector ∧ t.isEnd.2.device = t.device ∧
      t.isEnd.2.trace = t.trace ++ [.read engineStatus (Bits.word [t.device.endOfVector])] := by
  refine ⟨?_, rfl, trace_read engineStatus t⟩
  change Bits.bit (Bits.word [t.device.endOfVector]) endBit = _
  rw [Bits.bit_word (by simp)]
  rfl

/-- A wait for the end has one look if the flag is set. If it is not, no look or pause sets it. -/
theorem awaitEnd_engine (t : Link Engine) :
    (t.device.endOfVector = true ∧ t.awaitEnd = (.ok (), t.isEnd.2.note (.completed 0))) ∨
      t.device.endOfVector = false ∧ ∃ e u, t.awaitEnd = (.error e, u) ∧ u.device = t.device ∧
        WaitFailure t.limits t.clock "end of vector" e := by
  cases hflag : t.device.endOfVector with
  | true =>
      refine .inl ⟨rfl, ?_⟩
      have hready : ((fun _ t => isEnd t) 0 t).1 = true := t.isEnd_engine.1.trans hflag
      rw [awaitEnd, await, poll_of_ready _ _ _ hready]
  | false =>
      have hlook : ∀ (n : Nat) u, u.device = t.device → ((fun _ u => isEnd u) n u).1 = false →
          ((fun _ u => isEnd u) n u).2.device = t.device := fun _ _ hu _ => hu
      have hpause : ∀ n u, u.device = t.device → (record (.pause n) u).device = t.device :=
        fun _ _ hu => hu
      rcases await_cases hlook hpause "end of vector" rfl with
        ⟨n, last, hlast, hready, -⟩ | ⟨e, final, hfinal, hwait⟩
      · rw [last.isEnd_engine.1, hlast, hflag] at hready
        cases hready
      · refine .inr ⟨rfl, e, final, ?_, hfinal, waitFailure_of_await hwait⟩
        rw [awaitEnd, hwait]

end Link

/-- The flag and the control register are what the events make of them. -/
structure Tallied (events : List EndEvent) (t : Link Engine) : Prop where
  flag : t.device.endOfVector = true ↔ Standing events
  latest : t.device.latest engineControl = held events

namespace Tallied
open Link

variable {events : List EndEvent} {t u : Link Engine}

theorem of_quiet (h : Tallied events t) (hquiet : Quiet t u) : Tallied events u :=
  ⟨hquiet.flag ▸ h.flag, hquiet.latest.trans h.latest⟩

theorem raise (h : Tallied events t) :
    Tallied (events ++ [.raised]) (EngineOp.run .raiseEnd t).2 := by
  refine ⟨iff_of_true rfl (standing_raised events), ?_⟩
  rw [held_raised]
  exact h.latest

theorem write (h : Tallied events t) (v : UInt32) :
    Tallied (events ++ [.wrote v]) (t.write engineControl v) := by
  constructor
  case flag =>
      have hraises : Operation.raises .clearEnd (.host (.write engineControl v)) t =
          (Bits.bit v 0 && !Bits.bit (held events) 0) := by
        rw [← h.latest, ← Bits.bit_rising _ _ _ (by decide)]
        exact Operation.raises_write .clearEnd v t
      change (Engine.write engineControl v t.device).endOfVector = true ↔ _
      rw [Engine.endOfVector_write, hraises, standing_wrote, ← h.flag]
      cases Bits.bit v 0 <;> cases Bits.bit (held events) 0 <;> simp
  case latest =>
      change (Engine.write engineControl v t.device).latest engineControl = _
      rw [Engine.latest_write, if_pos rfl, held_wrote]

/-- A clear is two writes: the edge, and the bit back to low. -/
theorem clearEnd (h : Tallied events t) (g : Geometry) :
    Tallied (events ++ Operation.endEvents g (.host .clearEnd) t) t.clearEnd := by
  have hcontrols : (Operation.run g (.host .clearEnd) t).2.controls = t.controls ++
      [Bits.raise (t.read engineControl).1 clearBit,
        Bits.lower (t.read engineControl).1 clearBit] := by
    change (((t.read engineControl).2.write engineControl _).write engineControl _).controls = _
    rw [controls_write, controls_write, controls_read, List.append_assoc]
    rfl
  have hread := h.of_quiet ((Quiet.refl t).read engineControl)
  rw [Operation.endEvents_eq (by simp) hcontrols, List.map_cons, List.append_cons]
  exact (hread.write _).write _

theorem writeIndex (h : Tallied events t) (g : Geometry) (i : Nat) (v : UInt32) :
    Tallied (events ++ Operation.endEvents g (.host (.write i v)) t) (t.writeIndex i v).2 := by
  have hevents : ∀ {vs : List UInt32}, (t.writeIndex i v).2.controls = t.controls ++ vs →
      Operation.endEvents g (.host (.write i v)) t = vs.map .wrote := by
    intro vs hcontrols
    exact Operation.endEvents_eq (g := g) (by simp) hcontrols
  by_cases hi : i < 16
  · have hwrite : (t.writeIndex i v).2 = t.write ⟨i, hi⟩ v := by rw [Link.writeIndex, dif_pos hi]
    rw [hwrite, controls_write] at hevents
    rw [hwrite, hevents rfl]
    by_cases hengine : (⟨i, hi⟩ : Register) = engineControl
    · rw [hengine]
      exact h.write v
    · rw [Access.control?_write_of_ne hengine, Option.toList_none, List.map_nil, List.append_nil]
      exact h.of_quiet ((Quiet.refl t).write hengine v)
  · have hnone : (t.writeIndex i v).2 = t := by rw [Link.writeIndex, dif_neg hi]
    rw [hnone] at hevents
    rw [hnone, hevents (List.append_nil _).symm, List.map_nil, List.append_nil]
    exact h

theorem run (h : Tallied events t) (g : Geometry) (op : Operation) :
    Tallied (events ++ op.endEvents g t) (op.run g t).2 := by
  have hkept : ∀ {op : Operation}, op ≠ .engine .raiseEnd → Quiet t (op.run g t).2 →
      Tallied (events ++ op.endEvents g t) (op.run g t).2 := by
    intro op hop hquiet
    have hcontrols := hquiet.controls.trans (List.append_nil _).symm
    rw [Operation.endEvents_eq hop hcontrols, List.map_nil, List.append_nil]
    exact h.of_quiet hquiet
  cases op with
  | engine op =>
      by_cases hraise : op = .raiseEnd
      · subst hraise
        exact h.raise
      · exact hkept (by simpa using hraise) (Quiet.runEngine hraise t)
  | host op =>
      by_cases hclear : op = .clearEnd
      · subst hclear
        exact h.clearEnd g
      · by_cases hwrite : ∃ i v, op = .write i v
        · obtain ⟨i, v, rfl⟩ := hwrite
          exact h.writeIndex g i v
        · have hnot : ∀ i v, op ≠ .write i v := fun i v heq => hwrite ⟨i, v, heq⟩
          exact hkept (by simp) (Quiet.run g hclear hnot t)

theorem runAll (h : Tallied events t) (g : Geometry) (ops : List Operation) :
    Tallied (events ++ Operation.along g (Operation.endEvents g) ops t)
      (Operation.runAll g ops t) := by
  induction ops generalizing events t with
  | nil => exact (List.append_nil events).symm ▸ h
  | cons op ops ih =>
      have hrest := ih (h.run g op)
      rw [List.append_assoc] at hrest
      exact hrest

end Tallied

namespace Operation
open Link

theorem tallied_newLink (g : Geometry) (depth : Nat) (automatic : Bool) (limits : PollLimits)
    (wait : Wait) : Tallied [] (newLink g depth automatic limits wait) := by
  refine ⟨iff_of_false Bool.false_ne_true not_standing_nil, ?_⟩
  change (Vector.replicate 16 (0 : UInt32)).get engineControl = 0
  decide

/-- Only a write by hand leaves the clear bit high. -/
theorem low_run (g : Geometry) {op : Operation} (hop : ∀ i v, op ≠ .host (.write i v))
    {t : Link Engine} (hlow : t.device.isHigh .clearEnd = false) :
    (op.run g t).2.device.isHigh .clearEnd = false := by
  have hkept : ∀ {u : Link Engine}, Quiet t u → u.device.isHigh .clearEnd = false := by
    intro u hquiet
    rw [Engine.isHigh] at hlow ⊢
    exact (congrArg (Bits.bit · clearBit) hquiet.latest).trans hlow
  cases op with
  | engine op =>
      by_cases hraise : op = .raiseEnd
      · subst hraise
        exact hlow
      · exact hkept (Quiet.runEngine hraise t)
  | host op =>
      by_cases hclear : op = .clearEnd
      · subst hclear
        change t.clearEnd.device.isHigh .clearEnd = false
        rw [device_clearEnd, Engine.isHigh_pulse, hlow, Bool.false_and]
      · exact hkept (Quiet.run g hclear (fun i v heq => hop i v (congrArg _ heq)) t)

theorem low_runAll (g : Geometry) {ops : List Operation} (hops : ∀ i v, .host (.write i v) ∉ ops)
    {t : Link Engine} (hlow : t.device.isHigh .clearEnd = false) :
    (runAll g ops t).device.isHigh .clearEnd = false := by
  induction ops generalizing t with
  | nil => exact hlow
  | cons op ops ih =>
      refine ih (fun i v hmem => hops i v (List.mem_cons_of_mem op hmem)) ?_
      exact low_run g (fun i v heq => hops i v (heq ▸ List.mem_cons_self ..)) hlow

/-- The end-of-vector flag is sticky. Whatever is done over a link to a new engine, by its host, by
hand and by the surroundings of the engine, the flag is set exactly if some raise has not been
followed by a write to register 2 that takes bit 0 from low to high. A look reports the flag. A wait
for it succeeds exactly if it is set, with one look; if it is not, a bound ends the wait. Neither
touches the engine. As long as nobody writes by hand, a clear leaves the flag low. No other
operation of a host changes it, and neither does a word that is executed, or anything around the
engine but a raise. -/
theorem end_of_vector_sticky (g loader : Geometry) (depth : Nat) (automatic : Bool)
    (limits : PollLimits) (wait : Wait) (ops : List Operation) :
    let start := newLink g depth automatic limits wait
    let final := runAll loader ops start
    let e := final.device
    (e.endOfVector = true ↔ Standing (along loader (endEvents loader) ops start)) ∧
      (final.isEnd.1 = e.endOfVector ∧ final.isEnd.2.device = e) ∧
      (final.awaitEnd.1 = .ok () ↔ e.endOfVector = true) ∧
      (e.endOfVector = true → final.awaitEnd.2.trace = final.trace ++ [.read 10 1]) ∧
      (e.endOfVector = false → final.limits.Ends final.clock →
        ∃ attempts, final.awaitEnd.1 = .error (.timeout "end of vector" attempts)) ∧
      final.awaitEnd.2.device = e ∧
      ((∀ i v, .host (.write i v) ∉ ops) → final.clearEnd.device.endOfVector = false) ∧
      (∀ op : HostOp, op ≠ .clearEnd → (∀ i v, op ≠ .write i v) →
        (op.run loader final).2.device.endOfVector = e.endOfVector) ∧
      (∀ op : EngineOp, op ≠ .raiseEnd → (op.run final).2.device.endOfVector = e.endOfVector) ∧
      ∀ w, (e.execute w).endOfVector = e.endOfVector := by
  intro start final e
  have htallied : Tallied (along loader (endEvents loader) ops start) final :=
    (tallied_newLink g depth automatic limits wait).runAll loader ops
  obtain ⟨hreports, hlooked, htrace⟩ := final.isEnd_engine
  refine ⟨htallied.flag, ⟨hreports, hlooked⟩, ?_, ?_, ?_, ?_, ?_, ?_, ?_, fun _ => rfl⟩
  · rcases final.awaitEnd_engine with ⟨hset, hwait⟩ | ⟨hunset, err, u, hwait, -, -⟩
    · exact iff_of_true (congrArg Prod.fst hwait) hset
    · exact iff_of_false (by simp [hwait]) (Bool.eq_false_iff.1 hunset)
  · intro hset
    rcases final.awaitEnd_engine with ⟨-, hwait⟩ | ⟨hunset, -⟩
    · rw [hwait, trace_note, htrace, hset]
      rfl
    · exact absurd hset (Bool.eq_false_iff.1 hunset)
  · intro hunset hends
    rcases final.awaitEnd_engine with ⟨hset, -⟩ | ⟨-, err, u, hwait, -, hfailure⟩
    · exact absurd hset (Bool.eq_false_iff.1 hunset)
    · obtain ⟨attempts, rfl⟩ := hfailure.eq_timeout hends
      exact ⟨attempts, congrArg Prod.fst hwait⟩
  · rcases final.awaitEnd_engine with ⟨-, hwait⟩ | ⟨-, err, u, hwait, hdevice, -⟩
    · rw [hwait]
      exact hlooked
    · rw [hwait]
      exact hdevice
  · intro hops
    have hstart : start.device.isHigh .clearEnd = false := by
      change Bits.bit ((Vector.replicate 16 (0 : UInt32)).get engineControl) clearBit = false
      decide
    have hlow : final.device.isHigh .clearEnd = false := low_runAll loader hops hstart
    rw [device_clearEnd, Engine.pulse, hlow]
    rfl
  · exact fun op hclear hwrite => (Quiet.run loader hclear hwrite final).flag
  · exact fun op hraise => (Quiet.runEngine hraise final).flag

-- A clear bit that was left high by hand makes the next clear vain, and the one after it is seen.
example :
    let ops : List Operation := [.host (.write 2 1), .engine .raiseEnd, .host .clearEnd]
    let start := newLink .standard 1 false {} .spin
    (runAll .standard ops start).device.endOfVector = true ∧
      (runAll .standard (ops ++ [.host .clearEnd]) start).device.endOfVector = false := by
  decide

end Operation

end Gemv
