import Gemv.Proofs.Capacity
import Gemv.Proofs.CommandRuns
import Gemv.Proofs.EndOfVector
import Gemv.Proofs.PlannedLoad
import Gemv.Proofs.PollCalls
import Gemv.Proofs.VectorRegisters

/-! Programs pushed to the engine model.

A new engine is `Silent`: it takes the next word at once, and it has nothing to report. Whatever the
word, it is silent again afterwards (`push_silent`), so the length of a program does not matter
(`pushFrom_silent`), a wait for the end of the vector runs into its bound (`awaitEnd_of_low`) and
there is never a sample to pop (`popSamples_silent`). Each of these comes with the accesses and
pauses it makes, in full. -/
namespace Gemv

namespace Link

section Events

variable {σ : Type}

theorem events_pause (n : Nat) (t : Link σ) :
    (t.record (.pause n)).events = t.events ++ [.pause n] := by
  simp [events, record, Event.note?]

theorem events_recordAccess (a : Access) (notes : List Note) (t : Link σ) :
    (t.recordAccess a notes).events = t.events ++ [.access a] := by
  simp [events, recordAccess, Event.note?]

variable [Device σ]

theorem events_read (r : Register) (t : Link σ) :
    (t.read r).2.events = t.events ++ [.access (.read r (t.read r).1)] :=
  events_recordAccess ..

theorem events_write (r : Register) (v : UInt32) (t : Link σ) :
    (t.write r v).events = t.events ++ [.access (.write r v)] :=
  events_recordAccess ..

theorem events_pulse (r : Register) (bit : Nat) (t : Link σ) :
    (t.pulse r bit).events = t.events ++ (Exchange.strobe r bit (t.read r).1).map .access := by
  change (((t.read r).2.write r (Bits.raise (t.read r).1 bit)).write r
    (Bits.lower (t.read r).1 bit)).events = _
  rw [events_write, events_write, events_read, List.append_assoc, List.append_assoc]
  rfl

end Events

end Link

open Register

/-- An engine that takes the next word at once, with its strobes low and nothing to report. -/
structure Engine.Silent (e : Engine) : Prop where
  idle : e.Idle
  control : e.control = 0
  output : e.output = []
  endOfVector : e.endOfVector = false

theorem Engine.silent_new (g : Geometry) : (new g).Silent := by
  have hlow : (new g).control = 0 := by
    change (Vector.replicate 16 (0 : UInt32)).get queueControl = 0
    decide
  refine ⟨⟨rfl, rfl, by simp [new], rfl, ?_⟩, hlow, rfl, rfl⟩
  rw [hlow]
  decide

namespace Link

/-- The accesses of a word that is taken at the first look: a status without flags, the word, and
the push bit raised and lowered with no other bit set. -/
def takenAtOnce (w : Instruction) : List Event :=
  [.access (.read queueStatus 0), .access (.write inputData w.raw), .access (.read queueControl 0),
    .access (.write queueControl 2), .access (.write queueControl 0)]

/-- These words were taken at once and executed, and nothing else happened. -/
structure Streamed (ws : List Instruction) (t u : Link Engine) : Prop where
  silent : u.device.Silent
  executed : u.device.executed.toList = t.device.executed.toList ++ ws
  events : u.events = t.events ++ ws.flatMap takenAtOnce
  limits : u.limits = t.limits

theorem Streamed.cons {w : Instruction} {ws : List Instruction} {t u v : Link Engine}
    (h : Streamed [w] t u) (h' : Streamed ws u v) : Streamed (w :: ws) t v := by
  constructor
  case silent => exact h'.silent
  case executed =>
      rw [h'.executed, h.executed, List.append_assoc]
      rfl
  case events =>
      rw [h'.events, h.events, List.append_assoc, List.flatMap_singleton, List.flatMap_cons]
  case limits => exact h'.limits.trans h.limits

section Silent

variable {t : Link Engine}

theorem read_queueStatus_silent (h : t.device.Silent) :
    (t.read queueStatus).1 = 0 ∧ (t.read queueStatus).2.device = t.device := by
  have hfull := h.idle.isFull
  have hheld := h.idle.free
  constructor
  · change Bits.word [t.device.isFull, !t.device.output.isEmpty] = 0
    rw [hfull, h.output]
    decide
  · change { t.device with heldFull := t.device.heldFull - 1 } = t.device
    rw [hheld, Nat.zero_sub, ← hheld]

theorem push_of_status_zero (h : (t.read queueStatus).1 = 0) (w : Instruction) :
    t.push w = (.ok (), (t.read queueStatus).2.offer w) := by
  have hlook : t.lookForRoom 0 = (true, (t.read queueStatus).2) := by
    have hroom : ¬Bits.bit (t.read queueStatus).1 fullBit = true := by
      rw [h]
      decide
    exact if_neg hroom
  have hpoll := poll_of_ready t.limits t.clock
    (fun attempt t => t.record (.pause attempt)) (congrArg Prod.fst hlook)
  rw [hlook] at hpoll
  simp only [push, await, hpoll, Nat.lt_irrefl, if_false]

/-- Whatever the word, a silent engine takes it at once and is silent again. -/
theorem push_silent (h : t.device.Silent) (w : Instruction) :
    ∃ u, t.push w = (.ok (), u) ∧ Streamed [w] t u := by
  obtain ⟨hstatus, hdevice⟩ := read_queueStatus_silent h
  have hlooked := events_read queueStatus t
  have hlimits : (t.read queueStatus).2.limits = t.limits := rfl
  refine ⟨_, push_of_status_zero hstatus w, ?_⟩
  rw [hstatus] at hlooked
  generalize (t.read queueStatus).2 = v at hdevice hlooked hlimits
  rw [← hdevice] at h
  have htakes := takes_offer h.idle.low h.idle.isFull w
  have hoffered := device_offer w v
  have houtput := (Engine.SameOutput.offer w v.device).output
  rw [← hoffered] at houtput
  constructor
  case silent =>
      refine ⟨(htakes.ran h.idle).idle, ?_, houtput.trans h.output, ?_⟩
      · rw [htakes.control, h.control]
        decide
      · exact ((Quiet.refl v).offer w).flag.trans h.endOfVector
  case executed =>
      rw [(htakes.executes h.idle.automatic).1, Array.toList_push, hdevice]
  case events =>
      have hcontrol : (((v.note (.pushed w)).write inputData w.raw).read queueControl).1 = 0 :=
        (Engine.latest_latch_of_ne (by decide) w.raw v.device).trans h.control
      change (((v.note (.pushed w)).write inputData w.raw).pulse queueControl pushBit).events = _
      rw [events_pulse, events_write, events_note, hlooked, hcontrol]
      simp only [List.append_assoc]
      rfl
  case limits => exact hlimits

theorem pushFrom_silent (h : t.device.Silent) (count : Nat) (ws : List Instruction) :
    ∃ u, t.pushFrom count ws = (.ok (count + ws.length), u) ∧ Streamed ws t u := by
  induction ws generalizing t count with
  | nil => exact ⟨t, rfl, h, by simp, by simp, rfl⟩
  | cons w ws ih =>
      obtain ⟨u, hpush, hfirst⟩ := push_silent h w
      obtain ⟨v, hrest, hothers⟩ := ih hfirst.silent (count + 1)
      refine ⟨v, ?_, hfirst.cons hothers⟩
      rw [pushFrom_cons, hpush, List.length_cons, Nat.add_comm ws.length, ← Nat.add_assoc]
      exact hrest

theorem pushProgram_silent (h : t.device.Silent) (p : Program) :
    ∃ u, t.pushProgram p = (.ok (), u) ∧ Streamed p.words t u := by
  obtain ⟨u, hpush, hstreamed⟩ :=
    pushFrom_silent (t := t.note (.pushing p.name p.words.length)) h 0 p.words
  have hevents := hstreamed.events
  rw [events_note] at hevents
  refine ⟨u, ?_, hstreamed.silent, hstreamed.executed, hevents, hstreamed.limits⟩
  rw [pushProgram, pushAll, hpush]

theorem popSamples_silent (h : t.device.Silent) (max : Nat) :
    ∃ u, t.popSamples max = ([], u) ∧ u.device = t.device ∧
      u.events = t.events ++ if max = 0 then [] else [.access (.read queueStatus 0)] := by
  cases max with
  | zero => exact ⟨t, rfl, rfl, (List.append_nil _).symm⟩
  | succ max =>
      obtain ⟨hstatus, hdevice⟩ := read_queueStatus_silent h
      have hlooked := events_read queueStatus t
      have hpop : t.pop = (none, (t.read queueStatus).2) := by
        have hnone : ¬Bits.bit (t.read queueStatus).1 validBit = true := by
          rw [hstatus]
          decide
        exact if_neg hnone
      rw [hstatus] at hlooked
      refine ⟨_, ?_, hdevice, hlooked⟩
      rw [popSamples, popFrom, hpop]
      rfl

end Silent

/-- A call of a wait for the end of the vector, as long as the flag is low. -/
def endCall : PollCall → Event
  | .look => .access (.read engineStatus 0)
  | .pause attempt => .pause attempt

/-- The link that look number `n` of a wait for the end looks at. -/
abbrev atEndLook (t : Link Engine) (n : Nat) : Link Engine :=
  atLook (fun _ t => isEnd t) (fun attempt t => t.record (.pause attempt)) t n

section AwaitEnd

variable {t : Link Engine}

theorem isEnd_of_low (hlow : t.device.endOfVector = false) :
    t.isEnd.1 = false ∧ t.isEnd.2.device = t.device ∧
      t.isEnd.2.events = t.events ++ [endCall .look] := by
  obtain ⟨hseen, hdevice, -⟩ := isEnd_engine t
  have hlooked := events_read engineStatus t
  have hstatus : (t.read engineStatus).1 = 0 := by
    change Bits.word [t.device.endOfVector] = 0
    rw [hlow]
    decide
  rw [hstatus] at hlooked
  exact ⟨hseen.trans hlow, hdevice, hlooked⟩

/-- No look or pause of a wait raises the flag. -/
theorem atEndLook_of_low (hlow : t.device.endOfVector = false) (n : Nat) :
    (t.atEndLook n).device = t.device ∧
      (t.atEndLook n).events = t.events ++ (PollCall.failures n).map endCall := by
  induction n with
  | zero => exact ⟨rfl, (List.append_nil _).symm⟩
  | succ n ih =>
      change ((t.atEndLook n).isEnd.2.record (.pause (n + 1))).device = _ ∧
        ((t.atEndLook n).isEnd.2.record (.pause (n + 1))).events = _
      generalize t.atEndLook n = v at ih
      obtain ⟨hdevice, hevents⟩ := ih
      rw [← hdevice] at hlow
      obtain ⟨-, hsame, hlooked⟩ := isEnd_of_low hlow
      refine ⟨hsame.trans hdevice, ?_⟩
      rw [events_pause, hlooked, hevents, PollCall.failures_succ, List.map_append,
        List.append_assoc, List.append_assoc]
      rfl

/-- While the flag is low, a wait for the end looks as often as its bound allows, and fails. -/
theorem awaitEnd_of_low (hlow : t.device.endOfVector = false) {m : Nat} (hm : m < 2 ^ 64)
    (hlimits : t.limits = { maxAttempts := some m }) :
    ∃ u, t.awaitEnd = (.error (.timeout "end of vector" (max m 1)), u) ∧ u.device = t.device ∧
      u.events = t.events ++ (PollCall.upTo (max m 1)).map endCall := by
  obtain ⟨n, hn⟩ : ∃ n, max m 1 = n + 1 := ⟨max m 1 - 1, by omega⟩
  have hlook : ∀ i, (t.atEndLook i).device.endOfVector = false := fun i => by
    rw [(atEndLook_of_low hlow i).1, hlow]
  have hfail : ∀ i ≤ n, (t.atEndLook i).isEnd.1 = false := fun i _ => (isEnd_of_low (hlook i)).1
  have hopen : ∀ i, 0 < i → i ≤ n → t.limits.reached t.clock i = false := by
    intro i hpos hi
    rw [hlimits, PollLimits.reached_attempts m _ hpos]
    exact decide_eq_false (by omega)
  have hend : t.limits.reached t.clock (n + 1) = true := by
    rw [hlimits, PollLimits.reached_attempts m _ (Nat.succ_pos n)]
    exact decide_eq_true (Nat.le_of_eq hn)
  have hpoll := poll_eq_timedOut t.limits t.clock _ (by omega) hfail hopen hend
  obtain ⟨hdevice, hevents⟩ := atEndLook_of_low hlow n
  obtain ⟨-, hsame, hlooked⟩ := isEnd_of_low (hlook n)
  refine ⟨(t.atEndLook n).isEnd.2, ?_, hsame.trans hdevice, ?_⟩
  · rw [awaitEnd, await, hpoll, hn]
  · rw [hlooked, hevents, hn, PollCall.upTo, List.map_append, List.append_assoc]
    rfl

end AwaitEnd

end Link

namespace Command
open Link

/-- What a conversation with the engine model leaves behind: its output, the accesses and pauses it
made and the words that were executed. -/
structure Leaves (output : Output) (events : List Event) (executed : List Instruction)
    (talk : Output × Link Engine) : Prop where
  output : talk.1 = output
  events : talk.2.events = events
  executed : talk.2.device.executed.toList = executed

/-- The line that tells of a program that was pushed. -/
def pushedLine (p : Program) : String :=
  "Pushed '" ++ p.name ++ "': " ++ Text.decimal p.words.length ++ " words"

section Talk

variable (g : Geometry) (p : Program)

theorem pushProgram_simulatedLink :
    ∃ u, (simulatedLink g).pushProgram p = (.ok (), u) ∧ u.device.Silent ∧
      u.limits = { maxAttempts := some 1024 } ∧ u.events = p.words.flatMap takenAtOnce ∧
      u.device.executed.toList = p.words := by
  obtain ⟨u, hpush, hstreamed⟩ := pushProgram_silent (t := simulatedLink g) (Engine.silent_new g) p
  exact ⟨u, hpush, hstreamed.silent, hstreamed.limits, hstreamed.events, hstreamed.executed⟩

theorem leaves_talkPush_wait (pop : Option Nat) :
    Leaves ⟨[pushedLine p], some (.ofError (.timeout "end of vector" 1024))⟩
      (p.words.flatMap takenAtOnce ++ (PollCall.upTo 1024).map endCall) p.words
      (talkPush p true pop (simulatedLink g)) := by
  obtain ⟨u, hpush, hsilent, hlimits, hevents, hexecuted⟩ := pushProgram_simulatedLink g p
  obtain ⟨v, hwait, hdevice, hlooks⟩ :=
    awaitEnd_of_low hsilent.endOfVector (by decide : 1024 < 2 ^ 64) hlimits
  -- The failed wait ends the conversation, so it does not come to the pop.
  have htalk : talkPush p true pop (simulatedLink g) =
      (⟨[pushedLine p], some (.ofError (.timeout "end of vector" 1024))⟩, v) := by
    rw [talkPush, hpush]
    simp only [andThen, talkWait, hwait]
    rfl
  rw [htalk]
  exact ⟨rfl, by rw [hlooks, hevents]; rfl, by rw [hdevice, hexecuted]⟩

theorem leaves_talkPush_plain :
    Leaves (.ofLines [pushedLine p]) (p.words.flatMap takenAtOnce) p.words
      (talkPush p false none (simulatedLink g)) := by
  obtain ⟨u, hpush, -, -, hevents, hexecuted⟩ := pushProgram_simulatedLink g p
  have htalk : talkPush p false none (simulatedLink g) = (.ofLines [pushedLine p], u) := by
    rw [talkPush, hpush]
    rfl
  rw [htalk]
  exact ⟨rfl, hevents, hexecuted⟩

theorem leaves_talkPush_pop (n : Nat) :
    Leaves (.ofLines [pushedLine p, "0 samples"])
      (p.words.flatMap takenAtOnce ++ if n = 0 then [] else [.access (.read queueStatus 0)]) p.words
      (talkPush p false (some n) (simulatedLink g)) := by
  obtain ⟨u, hpush, hsilent, -, hevents, hexecuted⟩ := pushProgram_simulatedLink g p
  obtain ⟨v, hpop, hdevice, hlooked⟩ := popSamples_silent hsilent n
  have hzero : Text.decimal 0 ++ " samples" = "0 samples" := by decide +kernel
  have hnone : talkPop n (some p.config.fractionWidth.toNat) u = (.ofLines ["0 samples"], v) := by
    rw [talkPop, hpop, ← hzero]
    rfl
  have htalk : talkPush p false (some n) (simulatedLink g) =
      (.ofLines [pushedLine p, "0 samples"], v) := by
    rw [talkPush, hpush]
    change andThen (.ofLines [pushedLine p], u) (talkPop n (some p.config.fractionWidth.toNat)) = _
    rw [andThen, hnone]
    rfl
  rw [htalk]
  exact ⟨rfl, by rw [hlooked, hevents], by rw [hdevice, hexecuted]⟩

end Talk

/-- A program is pushed to the engine model, or refused because it was made for another engine.

If it is pushed, every word is taken at the first look, no pause comes before a wait for the end of
the vector, and the engine executes the whole program. A wait for the end looks 1024 times and
fails; without one the command succeeds, and there are no samples to pop. If the program is refused,
that is so whatever engine is named and however it would be opened. -/
theorem simulated_push_exact {s : Surroundings} {c : Settings} {g : Geometry} {path : String}
    {binary : Bool} {p : Program} (hg : Geometry.ofSizes c.lanes c.width = .ok g)
    (hread : readProgram s g path binary = .ok p) :
    let push (wait : Bool) (pop : Option Nat) := run s ⟨c, .push path binary wait pop⟩
    let talk (wait : Bool) (pop : Option Nat) := talkPush p wait pop (simulatedLink g)
    let line := "Pushed '" ++ p.name ++ "': " ++ Text.decimal p.words.length ++ " words"
    let taken := p.words.flatMap takenAtOnce
    (c.simulated = true → c.timeoutMillis = none → p.checkCompatible g = .ok () →
        (∀ wait pop, push wait pop = { output := (talk wait pop).1 }) ∧
        (∀ pop, Leaves ⟨[line], some (.ofError (.timeout "end of vector" 1024))⟩
          (taken ++ (PollCall.upTo 1024).map endCall) p.words (talk true pop)) ∧
        Leaves (.ofLines [line]) taken p.words (talk false none) ∧
        ∀ n, Leaves (.ofLines [line, "0 samples"])
          (taken ++ if n = 0 then [] else [.access (.read queueStatus 0)]) p.words
          (talk false (some n))) ∧
      ((∃ e, p.checkCompatible g = .error e) ↔ p.config.width.toNat ≠ g.width ∨
        p.config.lanes.toNat ≠ g.lanes ∨ 8 < p.config.blockIdWidth.toNat) ∧
      ∀ e wait pop, p.checkCompatible g = .error e →
        push wait pop = pushThrough (withLink s c g) g wait pop (.ok p) ∧
          ∀ opening, pushThrough opening g wait pop (.ok p) =
            { output := .ofFailure (.ofError e) } := by
  intro push talk line taken
  refine ⟨fun hsimulated htimeout hfits => ?_, Program.exists_checkCompatible_eq_error_iff, ?_⟩
  · refine ⟨fun wait pop => ?_, leaves_talkPush_wait g p, leaves_talkPush_plain g p,
      leaves_talkPush_pop g p⟩
    exact (run_push hg hread hfits wait pop).trans
      (withLink_simulated hsimulated htimeout s g (talkPush p wait pop))
  · intro e wait pop hrefused
    refine ⟨?_, fun opening => ?_⟩
    · rw [← hread]
      exact run_push_eq hg s path binary wait pop
    · simp only [pushThrough, hrefused]

/-- A listing of two words, the second of which makes a real engine wait. -/
theorem simulated_push_exact_two_words :
    let bytes := "0x18C00000\n0x40000000\n".toUTF8
    let s : Surroundings := { files := (FileTree.initial.add "k.lst" (.file bytes)).files }
    let c : Settings := { simulated := true }
    let p : Program := ⟨"k", [⟨0x18C00000⟩, ⟨0x40000000⟩], {}⟩
    let push (wait : Bool) (pop : Option Nat) := run s ⟨c, .push "k.lst" false wait pop⟩
    Geometry.ofSizes c.lanes c.width = .ok .standard ∧
      readProgram s .standard "k.lst" false = .ok p ∧ p.checkCompatible .standard = .ok () ∧
      (push true (some 4)).printed = "Pushed 'k': 2 words\n" ∧
      (push true (some 4)).complaint =
        "Error: Timed out waiting for end of vector after 1024 polls\n" ∧
      (push false (some 4)).printed = "Pushed 'k': 2 words\n0 samples\n" := by
  intro bytes s c p push
  have hfile : s.files.read "k.lst" = .ok bytes := rfl
  have hparse : Listing.parseBytes (programName "k.lst") bytes = .ok p := by
    rw [Listing.parseBytes_toUTF8]
    rfl
  have hread : readProgram s .standard "k.lst" false = .ok p := readProgram_listing hfile hparse
  have hfits : p.checkCompatible .standard = .ok () := rfl
  obtain ⟨haccepted, -⟩ := simulated_push_exact (c := c) rfl hread
  obtain ⟨hpush, hends, -, hpops⟩ := haccepted rfl rfl hfits
  have hwaited := hpush true (some 4)
  have hpopped := hpush false (some 4)
  rw [(hends (some 4)).output] at hwaited
  rw [(hpops 4).output] at hpopped
  refine ⟨rfl, hread, hfits, ?_, ?_, ?_⟩
  · simp only [push, hwaited]
    decide +kernel
  · simp only [push, hwaited]
    decide +kernel
  · simp only [push, hpopped]
    decide +kernel

end Command

end Gemv
