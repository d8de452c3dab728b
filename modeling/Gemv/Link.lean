import Gemv.Device
import Gemv.Error
import Gemv.Fixed
import Gemv.Poll
import Gemv.Program
import Gemv.Sample

/-! The host's end of the link: words go in and samples come out through a register window.

Every operation works on any `Device`. A word is offered only after a status read that showed
room, and a sample is taken only after one that showed a result; `pulse` raises a control bit and
lowers it again without touching the others. Each access and each pause is entered in the
journal. -/
namespace Gemv

structure Link (σ : Type) where
  device : σ
  limits : PollLimits := .unbounded
  wait : Wait := .spin
  /-- Words pushed so far. -/
  pushed : Nat := 0
  journal : Array Event := #[]
  deriving Inhabited

namespace Link

variable {σ : Type}

def record (e : Event) : Link σ → Link σ
  | ⟨device, limits, wait, pushed, journal⟩ => ⟨device, limits, wait, pushed, journal.push e⟩

def note (n : Note) (t : Link σ) : Link σ := t.record (.note n)

@[simp] theorem device_note (n : Note) (t : Link σ) : (t.note n).device = t.device := rfl

@[simp] theorem pushed_note (n : Note) (t : Link σ) : (t.note n).pushed = t.pushed := rfl

@[simp] theorem journal_note (n : Note) (t : Link σ) :
    (t.note n).journal = t.journal.push (.note n) := rfl

/-- Enters an access and what the device says about it. -/
def recordAccess (a : Access) (notes : List Note) : Link σ → Link σ
  | ⟨device, limits, wait, pushed, journal⟩ =>
    ⟨device, limits, wait, pushed, journal.push (.access a) ++ notes.map Event.note⟩

variable [Device σ]

def read (r : Register) : Link σ → UInt32 × Link σ
  | ⟨device, limits, wait, pushed, journal⟩ =>
    match Device.read r device with
    | (v, device) =>
      let notes := Device.notes (.read r v) device
      (v, recordAccess (.read r v) notes ⟨device, limits, wait, pushed, journal⟩)

def write (r : Register) (v : UInt32) : Link σ → Link σ
  | ⟨device, limits, wait, pushed, journal⟩ =>
    let notes := Device.notes (.write r v) device
    recordAccess (.write r v) notes ⟨Device.write r v device, limits, wait, pushed, journal⟩

@[simp] theorem fst_read (r : Register) (t : Link σ) :
    (t.read r).1 = (Device.read r t.device).1 := rfl

@[simp] theorem device_read (r : Register) (t : Link σ) :
    (t.read r).2.device = (Device.read r t.device).2 := rfl

@[simp] theorem pushed_read (r : Register) (t : Link σ) : (t.read r).2.pushed = t.pushed := rfl

@[simp] theorem device_write (r : Register) (v : UInt32) (t : Link σ) :
    (t.write r v).device = Device.write r v t.device := rfl

@[simp] theorem pushed_write (r : Register) (v : UInt32) (t : Link σ) :
    (t.write r v).pushed = t.pushed := rfl

def readIndex (i : Nat) (t : Link σ) : Except Error UInt32 × Link σ :=
  if h : i < 16 then
    match t.read ⟨i, h⟩ with
    | (v, t) => (.ok v, t)
  else (.error (.noSuchRegister i), t)

def writeIndex (i : Nat) (v : UInt32) (t : Link σ) : Except Error Unit × Link σ :=
  if h : i < 16 then (.ok (), t.write ⟨i, h⟩ v) else (.error (.noSuchRegister i), t)

/-- Raises a control bit and lowers it again. -/
def pulse (r : Register) (bit : Nat) (t : Link σ) : Link σ :=
  match t.read r with
  | (v, t) => (t.write r (Bits.raise v bit)).write r (Bits.lower v bit)

/-- The clock of a wait that starts now. -/
def clock (t : Link σ) : Nat → Nat := t.wait.elapsed t.pushed

/-- Waits for a condition that `look` tests, within the limits of the link. -/
def await (look : Nat → Link σ → Bool × Link σ) (awaited : String) (t : Link σ) :
    Except Error Nat × Link σ :=
  match poll t.limits t.clock look (fun attempt t => t.record (.pause attempt)) t with
  | (.ready failed, t) => (.ok failed, t)
  | (.timedOut attempts, t) => (.error (.timeout awaited attempts), t)
  | (.uncounted, t) => (.error (.overflow .addition), t)

/-- Looks for room in the input queue; the first look that finds none is noted. -/
def lookForRoom (failed : Nat) (t : Link σ) : Bool × Link σ :=
  match t.read Register.queueStatus with
  | (v, t) =>
    if Bits.bit v Register.fullBit then
      (false, if failed = 0 then t.note .inputFull else t)
    else (true, t)

def offer (w : Instruction) (t : Link σ) : Link σ :=
  let t := (t.note (.pushed w)).write Register.inputData w.raw
  let t := t.pulse Register.queueControl Register.pushBit
  { t with pushed := t.pushed + 1 }

def push (w : Instruction) (t : Link σ) : Except Error Unit × Link σ :=
  match t.await lookForRoom "FIFO-in space" with
  | (.error e, t) => (.error e, t)
  | (.ok failed, t) =>
    (.ok (), (if 0 < failed then t.note (.inputDrained failed) else t).offer w)

/-- Pushes words in order, on top of `count` others; the first failure ends it. -/
def pushFrom (count : Nat) (ws : List Instruction) (t : Link σ) : Except Error Nat × Link σ :=
  Sink.sendFrom push count ws t

theorem pushFrom_nil (count : Nat) (t : Link σ) : t.pushFrom count [] = (.ok count, t) := rfl

theorem pushFrom_cons (count : Nat) (w : Instruction) (ws : List Instruction) (t : Link σ) :
    t.pushFrom count (w :: ws) =
      match t.push w with
      | (.ok (), t) => t.pushFrom (count + 1) ws
      | (.error e, t) => (.error e, t) := by
  rw [pushFrom, Sink.sendFrom]
  obtain ⟨result, u⟩ := t.push w
  cases result <;> rfl

def pushAll (ws : List Instruction) (t : Link σ) : Except Error Nat × Link σ := t.pushFrom 0 ws

def pushProgram (p : Program) (t : Link σ) : Except Error Unit × Link σ :=
  match (t.note (.pushing p.name p.words.length)).pushAll p.words with
  | (.ok _, t) => (.ok (), t)
  | (.error e, t) => (.error e, t)

/-- Takes one sample, if a result is waiting. -/
def pop (t : Link σ) : Option Sample × Link σ :=
  match t.read Register.queueStatus with
  | (status, t) =>
    if Bits.bit status Register.validBit then
      match t.read Register.outputData with
      | (w, t) =>
        let t := t.pulse Register.queueControl Register.popBit
        (some (Sample.ofWord w), t.note (.popped w))
    else (none, t)

/-- Takes up to `max` samples and stops early when none is waiting; `taken` holds the earlier
ones, last first. -/
def popFrom (taken : List Sample) : (max : Nat) → Link σ → List Sample × Link σ
  | 0, t => (taken.reverse, t)
  | max + 1, t =>
    match t.pop with
    | (some s, t) => popFrom (s :: taken) max t
    | (none, t) => (taken.reverse, t)

def popSamples (max : Nat) (t : Link σ) : List Sample × Link σ := t.popFrom [] max

def popVector (max : Nat) (t : Link σ) : List Int16 × Link σ :=
  match t.popSamples max with
  | (samples, t) => (samples.map (·.value), t.note (.drained samples.length))

def isEnd (t : Link σ) : Bool × Link σ :=
  match t.read Register.engineStatus with
  | (v, t) => (Bits.bit v Register.endBit, t)

def clearEnd (t : Link σ) : Link σ := t.pulse Register.engineControl Register.clearBit

def awaitEnd (t : Link σ) : Except Error Unit × Link σ :=
  match t.await (fun _ t => t.isEnd) "end of vector" with
  | (.ok failed, t) => (.ok (), t.note (.completed failed))
  | (.error e, t) => (.error e, t)

def reset (t : Link σ) : Link σ :=
  (t.note .resetting).pulse Register.queueControl Register.resetBit

end Link

end Gemv
