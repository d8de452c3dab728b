import Gemv.Duration

/-! What a host does between two looks at a status register: spin, or sleep.

`Backoff.interval?` doubles the sleep from one attempt to the next, sixteen times at most and
never past a limit. -/
namespace Gemv

/-- Spin for a while, then sleep for longer and longer. -/
structure Backoff where
  spins : Nat := 64
  initial : Duration := Duration.ofMicros 10
  longest : Duration := Duration.ofMillis 1
  deriving DecidableEq, Repr

namespace Backoff

/-- How often the first interval is doubled at an attempt after the spins. -/
def doublings (b : Backoff) (attempt : Nat) : Nat := min (attempt - b.spins - 1) 16

/-- The sleep at an attempt; none while it still spins. -/
def interval? (b : Backoff) (attempt : Nat) : Option Duration :=
  if attempt ≤ b.spins then none
  else some ((b.initial.scale (2 ^ b.doublings attempt)).shorter b.longest)

/-- Nanoseconds slept up to an attempt. From the seventeenth sleep on they are all equal. -/
def slept (b : Backoff) (attempts : Nat) : Nat :=
  let sleeps := attempts - b.spins
  let sleep (i : Nat) : Nat := ((b.interval? (b.spins + i)).map (·.nanoseconds)).getD 0
  total ((List.range (min sleeps 16)).map fun i => sleep (i + 1)) + (sleeps - 16) * sleep 17

end Backoff

inductive Wait where
  | spin
  | sleep (interval : Duration)
  | backoff (b : Backoff)
  /-- Any other way to wait, known by the nanoseconds gone by at each attempt. The clock starts anew
  with each wait and is told the words pushed before, so no two waits of a batch need be alike. -/
  | other (clock : (pushed attempts : Nat) → Nat)

namespace Wait

/-- Nanoseconds that one look at a status register takes. -/
def pollTime : Nat := 1000

/-- Nanoseconds gone by when the given number of looks, and the waits between them, are over;
`pushed` words were pushed before the first of them. -/
def elapsed (w : Wait) (pushed attempts : Nat) : Nat :=
  let looks := (attempts - 1) * pollTime
  match w with
  | .spin => looks
  | .sleep interval => looks + (attempts - 1) * interval.nanoseconds
  | .backoff b => looks + b.slept (attempts - 1)
  | .other clock => clock pushed attempts

end Wait

end Gemv
