import Gemv.Numbers

/-! Spans of time in whole seconds and nanoseconds, with 64 bits for the seconds.

`nanoseconds` is the span as one number. Multiplication stops at the longest span. -/
namespace Gemv

structure Duration where
  seconds : Nat
  nanos : Nat
  seconds_lt : seconds < 2 ^ 64
  nanos_lt : nanos < 1000000000
  deriving DecidableEq, Repr

namespace Duration

def nanoseconds (d : Duration) : Nat := d.seconds * 1000000000 + d.nanos

def zero : Duration := ⟨0, 0, by decide, by decide⟩

instance : Inhabited Duration := ⟨zero⟩

def longest : Duration := ⟨2 ^ 64 - 1, 999999999, by decide, by decide⟩

/-- The span with the given parts; surplus nanoseconds count as seconds. -/
def ofParts (seconds nanos : Nat) : Duration :=
  let total := seconds + nanos / 1000000000
  if h : total < 2 ^ 64 then ⟨total, nanos % 1000000000, h, Nat.mod_lt _ (by decide)⟩
  else longest

def ofMicros (n : Nat) : Duration := ofParts 0 (n * 1000)

def ofMillis (n : Nat) : Duration := ofParts (n / 1000) (n % 1000 * 1000000)

/-- The span `k` times over, or the longest one. Surplus nanoseconds carry into the seconds. -/
def scale (d : Duration) (k : Nat) : Duration := ofParts (d.seconds * k) (d.nanos * k)

/-- Seconds decide before nanoseconds. -/
def le (a b : Duration) : Bool :=
  a.seconds < b.seconds || (a.seconds == b.seconds && a.nanos ≤ b.nanos)

def shorter (a b : Duration) : Duration := if a.le b then a else b

end Duration

end Gemv
