import Gemv.Error
import Gemv.Wait

/-! The sleeps of a backoff, in exact nanoseconds.

A span is the number of its nanoseconds: seconds and nanoseconds are the two digits of that number,
so the order of spans is the order of numbers (`Duration.le_iff`) and multiplication is exact up to
the longest span (`Duration.nanoseconds_scale`). The limit of a backoff is a span itself, so where
multiplication stops the limit has been passed, and every sleep is the exact product or the limit
(`Backoff.nanoseconds_interval?`). `Checked.interval` makes the sleep in machine words and stops at
the first operation that overflows; it never does (`Checked.interval_eq`). -/
namespace Gemv

namespace Duration

theorem nanoseconds_lt (d : Duration) : d.nanoseconds < 2 ^ 64 * 1000000000 := by
  have hseconds := d.seconds_lt
  have hnanos := d.nanos_lt
  rw [nanoseconds]
  omega

theorem nanoseconds_longest : longest.nanoseconds = 2 ^ 64 * 1000000000 - 1 := rfl

theorem le_iff (a b : Duration) : a.le b = true ↔ a.nanoseconds ≤ b.nanoseconds := by
  have ha := a.nanos_lt
  have hb := b.nanos_lt
  simp only [le, nanoseconds, Bool.or_eq_true, Bool.and_eq_true, decide_eq_true_eq, beq_iff_eq]
  omega

theorem nanoseconds_shorter (a b : Duration) :
    (a.shorter b).nanoseconds = min a.nanoseconds b.nanoseconds := by
  rw [shorter]
  by_cases h : a.le b = true
  · rw [if_pos h, Nat.min_eq_left ((le_iff a b).1 h)]
  · have hlt : b.nanoseconds < a.nanoseconds := Nat.lt_of_not_le (mt (le_iff a b).2 h)
    rw [if_neg h, Nat.min_eq_right (Nat.le_of_lt hlt)]

/-- The surplus of nanoseconds carries into the seconds, and nothing is lost short of the longest
span. -/
theorem nanoseconds_ofParts (seconds nanos : Nat) :
    (ofParts seconds nanos).nanoseconds =
      min (seconds * 1000000000 + nanos) longest.nanoseconds := by
  have hcarry := Nat.div_add_mod nanos 1000000000
  have hrest := Nat.mod_lt nanos (by decide : 1000000000 > 0)
  rw [nanoseconds_longest, ofParts]
  split
  · simp only [nanoseconds]
    omega
  · rw [nanoseconds_longest]
    omega

theorem nanoseconds_scale (d : Duration) (k : Nat) :
    (d.scale k).nanoseconds = min (d.nanoseconds * k) longest.nanoseconds := by
  have hproduct : d.seconds * k * 1000000000 + d.nanos * k = d.nanoseconds * k := by
    rw [nanoseconds, Nat.add_mul, Nat.mul_right_comm]
  rw [scale, nanoseconds_ofParts, hproduct]

end Duration

namespace Backoff

variable {b : Backoff} {attempt : Nat}

theorem interval?_eq_none_iff : b.interval? attempt = none ↔ attempt ≤ b.spins := by
  rw [interval?]
  split <;> simp [*]

/-- The sleep is the exact product, or the limit if that is shorter. -/
theorem nanoseconds_interval? (h : b.spins < attempt) :
    ∃ d, b.interval? attempt = some d ∧ d.nanoseconds =
      min b.longest.nanoseconds (b.initial.nanoseconds * 2 ^ b.doublings attempt) := by
  have hlimit := b.longest.nanoseconds_lt
  refine ⟨_, if_neg (Nat.not_le.2 h), ?_⟩
  -- A product that had to stop at the longest span lies past the limit anyway.
  rw [Duration.nanoseconds_shorter, Duration.nanoseconds_scale, Duration.nanoseconds_longest]
  omega

theorem interval?_le_later {later : Nat} (h : b.spins < attempt) (hle : attempt ≤ later) :
    ∃ d d', b.interval? attempt = some d ∧ b.interval? later = some d' ∧ d.le d' = true ∧
      d'.le b.longest = true := by
  obtain ⟨d, hd, hspan⟩ := nanoseconds_interval? h
  obtain ⟨d', hd', hspan'⟩ := nanoseconds_interval? (Nat.lt_of_lt_of_le h hle)
  have hdoublings : b.doublings attempt ≤ b.doublings later := by
    rw [doublings, doublings]
    omega
  have hproduct : b.initial.nanoseconds * 2 ^ b.doublings attempt ≤
      b.initial.nanoseconds * 2 ^ b.doublings later :=
    Nat.mul_le_mul_left _ (Nat.pow_le_pow_right (by decide) hdoublings)
  refine ⟨d, d', hd, hd', ?_, ?_⟩
  · rw [Duration.le_iff, hspan, hspan']
    omega
  · rw [Duration.le_iff, hspan']
    exact Nat.min_le_left ..

theorem interval?_succ_le_double (h : b.spins < attempt) :
    ∃ d d', b.interval? attempt = some d ∧ b.interval? (attempt + 1) = some d' ∧
      d'.nanoseconds ≤ 2 * d.nanoseconds := by
  obtain ⟨d, hd, hspan⟩ := nanoseconds_interval? h
  obtain ⟨d', hd', hspan'⟩ := nanoseconds_interval? (by omega : b.spins < attempt + 1)
  have hdoublings : b.doublings (attempt + 1) ≤ b.doublings attempt + 1 := by
    rw [doublings, doublings]
    omega
  have hproduct : b.initial.nanoseconds * 2 ^ b.doublings (attempt + 1) ≤
      2 * (b.initial.nanoseconds * 2 ^ b.doublings attempt) := by
    calc b.initial.nanoseconds * 2 ^ b.doublings (attempt + 1)
        ≤ b.initial.nanoseconds * 2 ^ (b.doublings attempt + 1) :=
          Nat.mul_le_mul_left _ (Nat.pow_le_pow_right (by decide) hdoublings)
      _ = 2 * (b.initial.nanoseconds * 2 ^ b.doublings attempt) := by
          rw [Nat.pow_succ, ← Nat.mul_assoc, Nat.mul_comm]
  refine ⟨d, d', hd, hd', ?_⟩
  rw [hspan, hspan']
  omega

end Backoff

/-- A span in machine words. -/
@[ext]
structure SpanWords where
  seconds : UInt64
  nanos : UInt32
  deriving DecidableEq, Repr


namespace SpanWords

def ofDuration (d : Duration) : SpanWords := ⟨UInt64.ofNat d.seconds, UInt32.ofNat d.nanos⟩

/-- Seconds decide before nanoseconds. -/
def le (a b : SpanWords) : Bool :=
  a.seconds < b.seconds || (a.seconds == b.seconds && a.nanos ≤ b.nanos)

theorem toNat_seconds (d : Duration) : (ofDuration d).seconds.toNat = d.seconds :=
  UInt64.toNat_ofNat_of_lt' d.seconds_lt

theorem toNat_nanos (d : Duration) : (ofDuration d).nanos.toNat = d.nanos :=
  UInt32.toNat_ofNat_of_lt' (Nat.lt_trans d.nanos_lt (by decide))

theorem le_ofDuration (a b : Duration) : (ofDuration a).le (ofDuration b) = a.le b := by
  have heq : ((ofDuration a).seconds == (ofDuration b).seconds) = (a.seconds == b.seconds) := by
    rw [Bool.eq_iff_iff, beq_iff_eq, beq_iff_eq, ← UInt64.toNat_inj, toNat_seconds, toNat_seconds]
  simp only [le, Duration.le, heq, UInt64.lt_iff_toNat_lt, UInt32.le_iff_toNat_le, toNat_seconds,
    toNat_nanos]

end SpanWords

namespace Checked

def subtract64 (a b : UInt64) : Except Overflow UInt64 :=
  if b.toNat ≤ a.toNat then .ok (a - b) else .error .subtraction

def add64 (a b : UInt64) : Except Overflow UInt64 :=
  if a.toNat + b.toNat < 2 ^ 64 then .ok (a + b) else .error .addition

def multiply64 (a b : UInt64) : Except Overflow UInt64 :=
  if a.toNat * b.toNat < 2 ^ 64 then .ok (a * b) else .error .multiplication

def shiftLeft32 (a n : UInt32) : Except Overflow UInt32 :=
  if n.toNat < 32 then .ok (a <<< n) else .error .shift

/-- A number of 64 bits in 32 bits, if it fits. -/
def narrow? (a : UInt64) : Option UInt32 :=
  if a.toNat < 2 ^ 32 then some a.toUInt32 else none

/-- The seconds of a span `k` times over, with the seconds that the nanoseconds carry. -/
def scaledSeconds (seconds carry k : UInt64) : Except Overflow UInt64 := do
  add64 (← multiply64 seconds k) carry

/-- The span `k` times over, or the longest one if its seconds overflow. -/
def scale (d : SpanWords) (k : UInt32) : Except Overflow SpanWords := do
  let nanos ← multiply64 d.nanos.toUInt64 k.toUInt64
  match scaledSeconds d.seconds (nanos / 1000000000) k.toUInt64 with
  | .ok seconds => return ⟨seconds, (nanos % 1000000000).toUInt32⟩
  | .error _ => return .ofDuration .longest

/-- How often the first interval is doubled, `past` attempts after the first sleep. What 32 bits
cannot hold counts as much as they can. -/
def doublings (past : UInt64) : UInt32 :=
  let all := (narrow? past).getD 0xFFFFFFFF
  if all.toNat ≤ 16 then all else 16

/-- The sleep at an attempt; none while it still spins. -/
def interval (spins : UInt64) (initial longest : SpanWords) (attempt : UInt64) :
    Except Overflow (Option SpanWords) :=
  if attempt.toNat ≤ spins.toNat then .ok none
  else do
    let past ← subtract64 (← subtract64 attempt spins) 1
    let factor ← shiftLeft32 1 (doublings past)
    let scaled ← scale initial factor
    return some (if scaled.le longest then scaled else longest)

theorem multiply64_eq_ok {a b : UInt64} (h : a.toNat * b.toNat < 2 ^ 64) :
    multiply64 a b = .ok (a * b) ∧ (a * b).toNat = a.toNat * b.toNat := by
  refine ⟨if_pos h, ?_⟩
  rw [UInt64.toNat_mul, Nat.mod_eq_of_lt h]

/-- The seconds overflow exactly if they do so with the carry. -/
theorem scaledSeconds_eq (seconds carry k : UInt64) :
    (seconds.toNat * k.toNat + carry.toNat < 2 ^ 64 →
        ∃ total, scaledSeconds seconds carry k = .ok total ∧
          total.toNat = seconds.toNat * k.toNat + carry.toNat) ∧
      (¬seconds.toNat * k.toNat + carry.toNat < 2 ^ 64 →
        ∃ fault, scaledSeconds seconds carry k = .error fault) := by
  refine ⟨fun hfits => ?_, fun hover => ?_⟩
  · obtain ⟨hproduct, hvalue⟩ := multiply64_eq_ok (a := seconds) (b := k) (by omega)
    refine ⟨seconds * k + carry, ?_, ?_⟩
    · rw [scaledSeconds, hproduct]
      exact if_pos (by rwa [hvalue])
    · rw [UInt64.toNat_add, hvalue, Nat.mod_eq_of_lt hfits]
  · by_cases hproduct : seconds.toNat * k.toNat < 2 ^ 64
    · obtain ⟨hok, hvalue⟩ := multiply64_eq_ok hproduct
      refine ⟨.addition, ?_⟩
      rw [scaledSeconds, hok]
      exact if_neg (by rwa [hvalue])
    · refine ⟨.multiplication, ?_⟩
      rw [scaledSeconds, multiply64, if_neg hproduct]
      rfl

/-- Multiplication never overflows: the nanoseconds have room, and the seconds stop at the longest
span. -/
theorem scale_eq (d : Duration) (k : UInt32) :
    scale (.ofDuration d) k = .ok (.ofDuration (d.scale k.toNat)) := by
  have hnanos := SpanWords.toNat_nanos d
  have hsmall : d.nanos * k.toNat < 2 ^ 64 := by
    have hk := k.toNat_lt
    have hd := d.nanos_lt
    calc d.nanos * k.toNat ≤ 1000000000 * 2 ^ 32 := Nat.mul_le_mul (by omega) (by omega)
      _ < 2 ^ 64 := by decide
  obtain ⟨hproduct, hvalue⟩ := multiply64_eq_ok (a := (SpanWords.ofDuration d).nanos.toUInt64)
    (b := k.toUInt64) (by rwa [UInt32.toNat_toUInt64, UInt32.toNat_toUInt64, hnanos])
  rw [UInt32.toNat_toUInt64, UInt32.toNat_toUInt64, hnanos] at hvalue
  generalize (SpanWords.ofDuration d).nanos.toUInt64 * k.toUInt64 = nanos at hproduct hvalue
  have hcarry : (nanos / 1000000000).toNat = d.nanos * k.toNat / 1000000000 := by
    rw [UInt64.toNat_div, hvalue]
    rfl
  have hrest : (nanos % 1000000000).toUInt32.toNat = d.nanos * k.toNat % 1000000000 := by
    have hless := Nat.mod_lt (d.nanos * k.toNat) (by decide : 1000000000 > 0)
    rw [UInt64.toNat_toUInt32, UInt64.toNat_mod, hvalue]
    exact Nat.mod_eq_of_lt (Nat.lt_trans hless (by decide))
  obtain ⟨hwhole, hstopped⟩ := scaledSeconds_eq (SpanWords.ofDuration d).seconds
    (nanos / 1000000000) k.toUInt64
  rw [SpanWords.toNat_seconds, UInt32.toNat_toUInt64, hcarry] at hwhole hstopped
  rw [scale, hproduct, Duration.scale, Duration.ofParts]
  split
  case isTrue hfits =>
      obtain ⟨total, htotal, hseconds⟩ := hwhole hfits
      change (match scaledSeconds _ _ _ with | .ok _ => _ | .error _ => _) = _
      rw [htotal]
      refine congrArg Except.ok (SpanWords.ext ?_ ?_)
      · rw [← UInt64.toNat_inj, hseconds, SpanWords.toNat_seconds]
      · rw [← UInt32.toNat_inj, hrest, SpanWords.toNat_nanos]
  case isFalse hover =>
      obtain ⟨fault, hfault⟩ := hstopped hover
      change (match scaledSeconds _ _ _ with | .ok _ => _ | .error _ => _) = _
      rw [hfault]
      rfl

theorem subtract64_eq_ok {a b : UInt64} (h : b.toNat ≤ a.toNat) :
    subtract64 a b = .ok (a - b) ∧ (a - b).toNat = a.toNat - b.toNat :=
  ⟨if_pos h, UInt64.toNat_sub_of_le a b (UInt64.le_iff_toNat_le.2 h)⟩

theorem toNat_doublings (past : UInt64) : (doublings past).toNat = min past.toNat 16 := by
  by_cases hnarrow : past.toNat < 2 ^ 32
  · have hsame : past.toUInt32.toNat = past.toNat := by
      rw [UInt64.toNat_toUInt32, Nat.mod_eq_of_lt hnarrow]
    simp only [doublings, narrow?, hnarrow, if_true, Option.getD_some, hsame]
    split
    · rw [hsame, Nat.min_eq_left ‹_›]
    · rw [Nat.min_eq_right (by omega)]
      rfl
  · simp only [doublings, narrow?, hnarrow, if_false, Option.getD_none]
    rw [Nat.min_eq_right (by omega)]
    rfl

theorem shiftLeft32_one {n : UInt32} (h : n.toNat ≤ 16) :
    ∃ power, shiftLeft32 1 n = .ok power ∧ power.toNat = 2 ^ n.toNat := by
  have hpower : 2 ^ n.toNat < 2 ^ 32 := Nat.pow_lt_pow_right (by decide) (by omega)
  refine ⟨1 <<< n, if_pos (by omega), ?_⟩
  rw [UInt32.toNat_shiftLeft, Nat.mod_eq_of_lt (by omega : n.toNat < 32), UInt32.toNat_one,
    Nat.one_shiftLeft, Nat.mod_eq_of_lt hpower]

/-- The sleep in machine words is the sleep: no difference, conversion or shift overflows. -/
theorem interval_eq (spins attempt : UInt64) (initial longest : Duration) :
    interval spins (.ofDuration initial) (.ofDuration longest) attempt =
      .ok (((⟨spins.toNat, initial, longest⟩ : Backoff).interval? attempt.toNat).map
        .ofDuration) := by
  by_cases hspins : attempt.toNat ≤ spins.toNat
  · rw [interval, Backoff.interval?, if_pos hspins, if_pos hspins]
    rfl
  · obtain ⟨hafter, hafter'⟩ := subtract64_eq_ok (a := attempt) (b := spins) (by omega)
    obtain ⟨hpast, hpast'⟩ := subtract64_eq_ok (a := attempt - spins) (b := 1)
      (by rw [hafter', UInt64.toNat_one]; omega)
    have hdoublings := toNat_doublings (attempt - spins - 1)
    rw [hpast', hafter', UInt64.toNat_one] at hdoublings
    obtain ⟨factor, hshift, hfactor⟩ :=
      shiftLeft32_one (n := doublings (attempt - spins - 1)) (by omega)
    rw [hdoublings] at hfactor
    simp only [interval, Backoff.interval?, hspins, if_false, bind, Except.bind, hafter, hpast,
      hshift, scale_eq, hfactor, SpanWords.le_ofDuration]
    rw [Option.map_some, Duration.shorter, apply_ite SpanWords.ofDuration]
    rfl

end Checked

/-- The sleep of a backoff at any attempt. There is none while it spins, and afterwards it is the
first interval doubled with each attempt, sixteen times at most, or the limit if that is shorter: to
the nanosecond, whatever a product that is too long does on the way. So the sleeps grow, at most
twofold from one to the next, and none is longer than the limit. In machine words nothing
overflows. -/
theorem Backoff.interval_exact (spins attempt : UInt64) (initial longest : Duration) :
    let b : Backoff := ⟨spins.toNat, initial, longest⟩
    let n := attempt.toNat
    (b.interval? n = none ↔ n ≤ b.spins) ∧
      (∀ d, b.interval? n = some d →
        d.nanoseconds =
            min longest.nanoseconds (initial.nanoseconds * 2 ^ min (n - b.spins - 1) 16) ∧
          (∀ later : UInt64, n ≤ later.toNat →
            ∃ d', b.interval? later.toNat = some d' ∧ d.le d' = true ∧ d'.le longest = true) ∧
          ∀ next : UInt64, next.toNat = n + 1 →
            ∃ d', b.interval? next.toNat = some d' ∧ d'.nanoseconds ≤ 2 * d.nanoseconds) ∧
      Checked.interval spins (.ofDuration initial) (.ofDuration longest) attempt =
        .ok ((b.interval? n).map .ofDuration) := by
  intro b n
  refine ⟨interval?_eq_none_iff, fun d hd => ?_, Checked.interval_eq spins attempt initial longest⟩
  have hspins : b.spins < n := by
    rw [← Nat.not_le, ← interval?_eq_none_iff, hd]
    simp
  obtain ⟨e, he, hspan⟩ := nanoseconds_interval? hspins
  cases hd.symm.trans he
  refine ⟨hspan, fun later hlater => ?_, fun next hnext => ?_⟩
  · obtain ⟨e, d', he, hd', hle, hlimit⟩ := interval?_le_later hspins hlater
    cases hd.symm.trans he
    exact ⟨d', hd', hle, hlimit⟩
  · obtain ⟨e, d', he, hd', htwice⟩ := interval?_succ_le_double hspins
    cases hd.symm.trans he
    exact ⟨d', hnext ▸ hd', htwice⟩

end Gemv
