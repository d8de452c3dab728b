import Gemv.Wait

/-! Waiting for a condition, with bounds.

`poll` looks, and waits after each look that fails, until the condition holds or a bound is
reached. The clock is an argument: it gives the nanoseconds gone by at each attempt. Attempts are
counted in 64 bits, so there are fewer than `2 ^ 64` of them. -/
namespace Gemv

/-- Bounds on a wait; without any it lasts as long as the condition fails. -/
structure PollLimits where
  maxAttempts : Option Nat := none
  deadline : Option Duration := none
  deriving DecidableEq, Repr

namespace PollLimits

def unbounded : PollLimits := {}

def isUnbounded (l : PollLimits) : Bool := l.maxAttempts.isNone && l.deadline.isNone

/-- Whether a bound is reached once the given number of looks have failed. -/
def reached (l : PollLimits) (clock : Nat → Nat) (attempts : Nat) : Bool :=
  l.maxAttempts.any (· ≤ attempts) || l.deadline.any (·.nanoseconds ≤ clock attempts)

end PollLimits

inductive PollEnd where
  /-- The condition held, after this many looks that failed. -/
  | ready (failed : Nat)
  /-- A bound was reached, with this many looks. -/
  | timedOut (attempts : Nat)
  /-- The attempts could not be counted any further. -/
  | uncounted
  deriving DecidableEq, Repr

/-- Looks until the condition holds, having failed `failed` times; `left` more looks can be
counted. Both `look` and `wait` are told how many looks have failed. -/
def pollFrom {σ : Type} (limits : PollLimits) (clock : Nat → Nat) (look : Nat → σ → Bool × σ)
    (wait : Nat → σ → σ) : (left failed : Nat) → σ → PollEnd × σ
  | 0, _, s => (.uncounted, s)
  | left + 1, failed, s =>
    match look failed s with
    | (true, s) => (.ready failed, s)
    | (false, s) =>
      if limits.reached clock (failed + 1) then (.timedOut (failed + 1), s)
      else pollFrom limits clock look wait left (failed + 1) (wait (failed + 1) s)

/-- Looks until the condition holds or a bound is reached. -/
def poll {σ : Type} (limits : PollLimits) (clock : Nat → Nat) (look : Nat → σ → Bool × σ)
    (wait : Nat → σ → σ) (s : σ) : PollEnd × σ :=
  pollFrom limits clock look wait (2 ^ 64 - 1) 0 s

end Gemv
