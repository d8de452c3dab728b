import Gemv.Blocks
import Gemv.Device
import Gemv.Sample

/-! A model of the engine behind its register window.

Control registers act on rising edges: a write is compared with the value latched before it, and
the latch takes the new value last. An automatic engine executes a word as soon as it is pushed;
any other keeps it in the input queue until `step` runs it. -/
namespace Gemv

structure Engine where
  geometry : Geometry
  latched : Vector UInt32 16
  /-- Words accepted and not yet executed, oldest first. -/
  pending : List Instruction
  /-- Words the input queue holds at most. -/
  depth : Nat
  automatic : Bool
  /-- Status reads for which the input queue still claims to be full. -/
  heldFull : Nat
  /-- Results the host has not taken yet, oldest first. -/
  output : List Sample
  endOfVector : Bool
  blocks : Blocks
  /-- Every word executed so far. -/
  executed : Array Instruction
  /-- Words pushed into a full queue, and lost. -/
  overflows : Nat
  underflows : Nat
  pushStrobes : Nat
  popStrobes : Nat
  deriving Inhabited

namespace Engine

/-- An idle engine that executes words at once. -/
def new (g : Geometry) : Engine where
  geometry := g
  latched := Vector.replicate 16 0
  pending := []
  depth := 1024
  automatic := true
  heldFull := 0
  output := []
  endOfVector := false
  blocks := Blocks.initial
  executed := #[]
  overflows := 0
  underflows := 0
  pushStrobes := 0
  popStrobes := 0

def withDepth (e : Engine) (depth : Nat) : Engine := { e with depth }

def manual (e : Engine) : Engine := { e with automatic := false }

/-! What stands outside the host: the engine's surroundings. -/

/-- The input queue claims to be full for this many status reads. -/
def holdFull (e : Engine) (polls : Nat) : Engine := { e with heldFull := polls }

def pushOutput (e : Engine) (s : Sample) : Engine := { e with output := e.output ++ [s] }

def raiseEnd (e : Engine) : Engine := { e with endOfVector := true }

def fill (e : Engine) (pattern : UInt16) : Engine :=
  { e with blocks := { e.blocks with memory := .filled pattern } }

/-! Execution. -/

def execute (e : Engine) (w : Instruction) : Engine :=
  { e with blocks := e.blocks.execute w, executed := e.executed.push w }

/-- Executes up to `n` pending words; the result tells how many. -/
def step (e : Engine) (n : Nat) : Nat × Engine :=
  let batch := e.pending.take n
  (batch.length, batch.foldl execute { e with pending := e.pending.drop n })

def drain (e : Engine) : Nat × Engine := e.step (2 ^ 64 - 1)

/-! The register window. -/

/-- The value last written to a register. -/
def latest (r : Register) (e : Engine) : UInt32 := e.latched.get r

def isFull (e : Engine) : Bool := 0 < e.heldFull || e.depth ≤ e.pending.length

/-- A rising reset edge empties both queues. -/
def strobeReset (rising : UInt32) (e : Engine) : Engine :=
  if Bits.bit rising Register.resetBit then { e with pending := [], output := [] } else e

/-- Takes the latched input word: it is executed, queued, or lost in a full queue. -/
def accept (e : Engine) : Engine :=
  if e.isFull then { e with overflows := e.overflows + 1 }
  else
    let w : Instruction := ⟨e.latest Register.inputData⟩
    if e.automatic then e.execute w else { e with pending := e.pending ++ [w] }

def strobePush (rising : UInt32) (e : Engine) : Engine :=
  if Bits.bit rising Register.pushBit then
    accept { e with pushStrobes := e.pushStrobes + 1 }
  else e

/-- Drops the head of the output queue. -/
def release (e : Engine) : Engine :=
  match e.output with
  | [] => { e with underflows := e.underflows + 1 }
  | _ :: rest => { e with output := rest }

def strobePop (rising : UInt32) (e : Engine) : Engine :=
  if Bits.bit rising Register.popBit then
    release { e with popStrobes := e.popStrobes + 1 }
  else e

def controlQueues (v : UInt32) (e : Engine) : Engine :=
  let rising := Bits.rising (e.latest Register.queueControl) v
  strobePop rising (strobePush rising (strobeReset rising e))

def controlEngine (v : UInt32) (e : Engine) : Engine :=
  let rising := Bits.rising (e.latest Register.engineControl) v
  if Bits.bit rising Register.clearBit then { e with endOfVector := false } else e

def latch (r : Register) (v : UInt32) (e : Engine) : Engine :=
  { e with latched := e.latched.set r v r.val_lt }

def write (r : Register) (v : UInt32) (e : Engine) : Engine :=
  if r = Register.queueControl then latch r v (controlQueues v e)
  else if r = Register.engineControl then latch r v (controlEngine v e)
  else latch r v e

def queueStatus (e : Engine) : UInt32 := Bits.word [e.isFull, !e.output.isEmpty]

/-- The word at the head of the output queue, zero if it is empty. -/
def outputWord (e : Engine) : UInt32 := (e.output.head?.map Sample.toWord).getD 0

/-- Reads a register. Looking at the queue status uses up one held poll. -/
def read (r : Register) (e : Engine) : UInt32 × Engine :=
  if r = Register.outputData then (e.outputWord, e)
  else if r = Register.queueStatus then
    (e.queueStatus, { e with heldFull := e.heldFull - 1 })
  else if r = Register.engineStatus then (Bits.word [e.endOfVector], e)
  else (e.latest r, e)

/-- The word that a write would make the engine execute. -/
def executes (v : UInt32) (e : Engine) : List Instruction :=
  let rising := Bits.rising (e.latest Register.queueControl) v
  if Bits.bit rising Register.pushBit && e.automatic && !(strobeReset rising e).isFull then
    [⟨e.latest Register.inputData⟩]
  else []

instance : Device Engine where
  read := read
  write := write
  notes a e := match a with
    | .write r v => if r = Register.queueControl then (e.executes v).map .executed else []
    | .read _ _ => []

/-! Looking inside. -/

/-- The row of a block; the address wraps around at the end of the block. -/
def row (e : Engine) (block : Nat) (address : Nat) : UInt16 :=
  e.blocks.memory.get (blockAt block) (rowAt address)

/-- Lane `i` of the register whose rows start at `base`. Block numbers wrap around at 256. -/
def lane (e : Engine) (base i : Nat) : Int16 :=
  let g := e.geometry
  Lane.ofBits g.width (Bits.pack ((List.range g.width).map fun b =>
    (e.row (i / g.lanes) (base + b)).toNat.testBit (i % g.lanes)))

def lanes? (e : Engine) (register length : Nat) : Option (List Int16) :=
  (e.geometry.registerBase? register).map fun base => (List.range length).map (e.lane base)

end Engine

end Gemv
