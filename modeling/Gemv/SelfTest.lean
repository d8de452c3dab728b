import Gemv.Engine
import Gemv.Loader

/-! The self-test: load pseudo-random vectors into the engine model and read them back. -/
namespace Gemv.SelfTest

/-- One step of a 32-bit shift generator. -/
def next (state : UInt32) : UInt32 :=
  let state := state ^^^ (state <<< 13)
  let state := state ^^^ (state >>> 17)
  state ^^^ (state <<< 5)

/-- A generator state is never zero. -/
def start (seed : UInt32) : UInt32 := if seed = 0 then 1 else seed

/-- A lane value from a generator state; even states give zero. -/
def laneValue (width : Nat) (state : UInt32) : Int16 :=
  if state.toNat % 2 = 0 then 0 else Lane.ofBits width (state.toNat / 2 ^ 8 % 2 ^ 16)

/-- `n` lane values, before those already `drawn` in reverse order, and the state after them. -/
def drawValues (width : Nat) : (n : Nat) → (drawn : List Int16) → UInt32 → List Int16 × UInt32
  | 0, drawn, state => (drawn.reverse, state)
  | n + 1, drawn, state =>
    let state := next state
    drawValues width n (laneValue width state :: drawn) state

structure Trial where
  register : Nat
  values : List Int16
  deriving DecidableEq, Repr

/-- Longest vector that the test draws. -/
def maxLength (g : Geometry) : Nat := min g.maxVectorLength 512

/-- Draws a register, a length and the values, in this order. -/
def draw (g : Geometry) (state : UInt32) : Trial × UInt32 :=
  let first := next state
  let second := next first
  match drawValues g.width (second.toNat % maxLength g + 1) [] second with
  | (values, state) => (⟨first.toNat % g.registerCount, values⟩, state)

inductive Fault where
  | load (e : Error)
  | noRegister
  | readBack (index register length : Nat)
  deriving DecidableEq, Repr

/-- Loads one vector and reads it back; the result is the number of words it took. -/
def attempt (index : Nat) (trial : Trial) (t : Link Engine) : Except Fault Nat × Link Engine :=
  match t.load t.device.geometry trial.register trial.values with
  | (.error e, t) => (.error (.load e), t)
  | (.ok n, t) =>
    match t.device.lanes? trial.register trial.values.length with
    | none => (.error .noRegister, t)
    | some back =>
      if back = trial.values then (.ok n, t)
      else (.error (.readBack index trial.register trial.values.length), t)

/-- Runs the trials from `index` on; `words` have been pushed before. -/
def runFrom (g : Geometry) (index words : Nat) :
    (left : Nat) → UInt32 → Link Engine → Except Fault Nat × Link Engine
  | 0, _, t => (.ok words, t)
  | left + 1, state, t =>
    match draw g state with
    | (trial, state) =>
      match attempt index trial { t with journal := #[] } with
      | (.ok n, t) => runFrom g (index + 1) (words + n) left state t
      | (.error e, t) => (.error e, t)

/-- What a test that passed has counted. -/
structure Summary where
  instructions : Nat
  overflows : Nat
  deriving DecidableEq, Repr

/-- A link to a fresh engine whose memory holds a pattern of stale bits. -/
def bench (g : Geometry) : Link Engine := { device := (Engine.new g).fill 0xA5A5 }

def run (g : Geometry) (vectors : Nat) (seed : UInt32) : Except Fault Summary :=
  match runFrom g 0 0 vectors (start seed) (bench g) with
  | (.ok words, t) => .ok ⟨words, t.device.overflows⟩
  | (.error e, _) => .error e

end Gemv.SelfTest
