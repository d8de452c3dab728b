import Gemv.Proofs.Polling

/-! A wait, call by call.

Looks and pauses are entered in a record, and the answers to the looks are given in advance, by the
number of the look. Before look `n + 1` the record holds `n` looks, each with the pause after it
(`atLook_record`), and the first bound that is reached is known from the limits alone
(`PollLimits.reached_of_lt`, `PollLimits.reached_lastLook?`). So a wait ends with the first look
that is answered yes or with the last look that its limits allow, whichever comes first, and makes
no call after that. -/
namespace Gemv

/-- A call that a wait makes. -/
inductive PollCall where
  | look
  /-- A pause that is told how many looks have failed. -/
  | pause (attempt : Nat)
  deriving DecidableEq, Repr

namespace PollCall

/-- Enters a look; the answer is that for its number, counted from one. -/
def answer (answers : Nat → Bool) (_failed : Nat) (record : List PollCall) :
    Bool × List PollCall :=
  (answers (record.count .look + 1), record ++ [.look])

def enterPause (attempt : Nat) (record : List PollCall) : List PollCall :=
  record ++ [.pause attempt]

/-- So many looks that fail, and the pause after each. -/
def failures (looks : Nat) : List PollCall :=
  (List.range looks).flatMap fun i => [.look, .pause (i + 1)]

/-- So many looks in all, with a pause after each but the last. -/
def upTo (looks : Nat) : List PollCall := failures (looks - 1) ++ [.look]

theorem failures_succ (n : Nat) : failures (n + 1) = failures n ++ [.look, .pause (n + 1)] := by
  rw [failures, failures, List.range_succ, List.flatMap_append, List.flatMap_singleton]

theorem count_look_failures (n : Nat) : (failures n).count .look = n := by
  induction n with
  | zero => rfl
  | succ n ih =>
      rw [failures_succ, List.count_append, ih]
      rfl

theorem atLook_record (answers : Nat → Bool) (n : Nat) :
    atLook (answer answers) enterPause [] n = failures n := by
  induction n with
  | zero => rfl
  | succ n ih =>
      rw [atLook, ih, failures_succ]
      exact List.append_assoc ..

theorem answer_atLook (answers : Nat → Bool) (n : Nat) :
    answer answers n (atLook (answer answers) enterPause [] n) =
      (answers (n + 1), upTo (n + 1)) := by
  rw [atLook_record, answer, count_look_failures]
  rfl

end PollCall

/-- The first look that is answered yes, by number. -/
structure FirstYes (answers : Nat → Bool) (look : Nat) : Prop where
  pos : 0 < look
  yes : answers look = true
  first : ∀ i, 0 < i → i < look → answers i = false

theorem exists_firstYes {answers : Nat → Bool} {k : Nat} (hk : 0 < k) (hyes : answers k = true) :
    ∃ j, FirstYes answers j ∧ j ≤ k := by
  induction k using Nat.strongRecOn with
  | ind k ih =>
      by_cases hearlier : ∃ i, 0 < i ∧ i < k ∧ answers i = true
      · obtain ⟨i, hi, hlt, hanswer⟩ := hearlier
        obtain ⟨j, hj, hle⟩ := ih i hlt hi hanswer
        exact ⟨j, hj, Nat.le_trans hle (Nat.le_of_lt hlt)⟩
      · refine ⟨k, ⟨hk, hyes, fun i hi hlt => ?_⟩, Nat.le_refl k⟩
        rw [← Bool.not_eq_true]
        exact fun hanswer => hearlier ⟨i, hi, hlt, hanswer⟩

/-- The last look that a deadline allows: no other after the first if it has passed by then, and
any number if there is none or if it never passes. -/
inductive DeadlineAllows (clock : Nat → Nat) : Option Duration → Option Nat → Prop where
  | absent : DeadlineAllows clock none none
  | passed {d : Duration} (h : d.nanoseconds ≤ clock 1) : DeadlineAllows clock (some d) (some 1)
  | never {d : Duration} (h : ∀ n, clock n < d.nanoseconds) : DeadlineAllows clock (some d) none

namespace PollLimits

/-- The last look that is allowed by the number of attempts, of which there is always one, and by
what the deadline allows. -/
def lastLook? (l : PollLimits) (byTime : Option Nat) : Option Nat :=
  match l.maxAttempts, byTime with
  | some m, some n => some (min (max m 1) n)
  | some m, none => some (max m 1)
  | none, byTime => byTime

variable {l : PollLimits} {clock : Nat → Nat} {byTime : Option Nat}

theorem lastLook?_le {last : Nat} (hlast : l.lastLook? byTime = some last) :
    ∀ k ∈ byTime, last ≤ k := by
  rintro k rfl
  unfold lastLook? at hlast
  generalize l.maxAttempts = attempts at hlast
  cases attempts <;> cases hlast
  case none => exact Nat.le_refl last
  case some m => exact Nat.min_le_right ..

theorem lastLook?_pos (h : DeadlineAllows clock l.deadline byTime) {last : Nat}
    (hlast : l.lastLook? byTime = some last) : 0 < last := by
  have hmany : ∀ m, 0 < max m 1 := fun m => Nat.lt_of_lt_of_le Nat.one_pos (Nat.le_max_right m 1)
  unfold lastLook? at hlast
  generalize l.deadline = deadline at h
  generalize l.maxAttempts = attempts at hlast
  cases h <;> cases attempts <;> cases hlast
  case absent.some m => exact hmany m
  case passed.none => exact Nat.one_pos
  case passed.some m => exact Nat.lt_min.2 ⟨hmany m, Nat.one_pos⟩
  case never.some m => exact hmany m

theorem lastLook?_lt (h : DeadlineAllows clock l.deadline byTime)
    (hattempts : ∀ m ∈ l.maxAttempts, m < 2 ^ 64) {last : Nat}
    (hlast : l.lastLook? byTime = some last) : last < 2 ^ 64 := by
  have hone : ∀ k ∈ byTime, k < 2 ^ 64 := by
    rintro k rfl
    generalize l.deadline = deadline at h
    cases h
    decide
  unfold lastLook? at hlast
  generalize l.maxAttempts = attempts at hlast hattempts
  cases attempts with
  | none => exact hone last hlast
  | some m =>
      have hm := hattempts m rfl
      cases byTime <;> cases hlast <;> omega

theorem any_le_lastLook? (l : PollLimits) (byTime : Option Nat) {n : Nat} (hn : 0 < n) :
    (l.lastLook? byTime).any (· ≤ n) = (l.maxAttempts.any (· ≤ n) || byTime.any (· ≤ n)) := by
  unfold lastLook?
  cases l.maxAttempts with
  | none => exact (Bool.false_or _).symm
  | some m =>
      have hm : decide (max m 1 ≤ n) = decide (m ≤ n) := by
        rw [decide_eq_decide]
        omega
      cases byTime with
      | none =>
          simp only [Option.any_some, Option.any_none, Bool.or_false]
          exact hm
      | some k =>
          simp only [Option.any_some, ← hm, ← Bool.decide_or, decide_eq_decide]
          omega

/-- Within what the deadline allows, a bound is reached as the number of the last look says. -/
theorem reached_eq (h : DeadlineAllows clock l.deadline byTime) {n : Nat} (hn : 0 < n)
    (hopen : ∀ k ∈ byTime, n ≤ k) :
    l.reached clock n = (l.lastLook? byTime).any (· ≤ n) := by
  rw [any_le_lastLook? l byTime hn, reached]
  congr 1
  generalize l.deadline = deadline at h
  cases h with
  | absent => rfl
  | passed hpassed =>
      obtain rfl : n = 1 := Nat.le_antisymm (hopen 1 rfl) hn
      rw [Option.any_some, Option.any_some, decide_eq_true hpassed, decide_eq_true (Nat.le_refl 1)]
  | never hnever =>
      rw [Option.any_some, Option.any_none, decide_eq_false (Nat.not_le.2 (hnever n))]

/-- No bound is reached before the last look that is allowed. -/
theorem reached_of_lt (h : DeadlineAllows clock l.deadline byTime) {n : Nat} (hn : 0 < n)
    (hlt : ∀ last ∈ l.lastLook? byTime, n < last) : l.reached clock n = false := by
  have hopen : ∀ k ∈ byTime, n ≤ k := by
    intro k hk
    cases hlast : l.lastLook? byTime with
    | some last => exact Nat.le_trans (Nat.le_of_lt (hlt last hlast)) (lastLook?_le hlast k hk)
    | none =>
        obtain rfl := hk
        unfold lastLook? at hlast
        split at hlast <;> cases hlast
  rw [reached_eq h hn hopen, Option.any_eq_false]
  intro last hlast
  simpa using hlt last hlast

theorem reached_lastLook? (h : DeadlineAllows clock l.deadline byTime) {last : Nat}
    (hlast : l.lastLook? byTime = some last) : l.reached clock last = true := by
  rw [reached_eq h (lastLook?_pos h hlast) (lastLook?_le hlast), hlast, Option.any_some]
  exact decide_eq_true (Nat.le_refl last)

end PollLimits

open PollCall PollLimits

/-- A wait makes its looks in order, with a pause after each that fails, told how many have failed.
If the first look that is answered yes is within the limits, the wait ends with it and tells how
many looks failed before. If not, it ends with the last look that the limits allow and tells how
many there were. There is no call after that. -/
theorem poll_calls_exact (answers : Nat → Bool) (limits : PollLimits) (clock : Nat → Nat)
    {byTime : Option Nat} (hdeadline : DeadlineAllows clock limits.deadline byTime)
    (hattempts : ∀ m ∈ limits.maxAttempts, m < 2 ^ 64) :
    let run := poll limits clock (answer answers) enterPause []
    let last? := limits.lastLook? byTime
    (∀ j, FirstYes answers j → (∀ last ∈ last?, j ≤ last) → j < 2 ^ 64 →
        run = (.ready (j - 1), upTo j)) ∧
      ∀ last, last? = some last → (∀ j, FirstYes answers j → last < j) →
        run = (.timedOut last, upTo last) := by
  intro run last?
  refine ⟨?_, ?_⟩
  · intro j hj hwithin hcounted
    obtain ⟨n, rfl⟩ : ∃ n, j = n + 1 := ⟨j - 1, by have := hj.pos; omega⟩
    have hfail : ∀ i < n,
        (answer answers i (atLook (answer answers) enterPause [] i)).1 = false := by
      intro i hi
      rw [answer_atLook]
      exact hj.first (i + 1) (Nat.succ_pos i) (by omega)
    have hopen : ∀ i, 0 < i → i ≤ n → limits.reached clock i = false := by
      intro i hi hle
      apply reached_of_lt hdeadline hi
      intro last hlast
      exact Nat.lt_of_le_of_lt hle (hwithin last hlast)
    have hready : (answer answers n (atLook (answer answers) enterPause [] n)).1 = true := by
      rw [answer_atLook]
      exact hj.yes
    have hpoll := poll_eq_ready limits clock enterPause hcounted hfail hopen hready
    rwa [answer_atLook] at hpoll
  · intro last hlast hnone
    obtain ⟨n, rfl⟩ : ∃ n, last = n + 1 :=
      ⟨last - 1, by have := lastLook?_pos hdeadline hlast; omega⟩
    have hfail : ∀ i ≤ n,
        (answer answers i (atLook (answer answers) enterPause [] i)).1 = false := by
      intro i hi
      rw [answer_atLook, ← Bool.not_eq_true]
      intro hyes
      obtain ⟨j, hj, hle⟩ := exists_firstYes (Nat.succ_pos i) hyes
      have := hnone j hj
      omega
    have hopen : ∀ i, 0 < i → i ≤ n → limits.reached clock i = false := by
      intro i hi hle
      apply reached_of_lt hdeadline hi
      intro last hlast'
      cases hlast.symm.trans hlast'
      exact Nat.lt_succ_of_le hle
    have hpoll := poll_eq_timedOut limits clock enterPause (lastLook?_lt hdeadline hattempts hlast)
      hfail hopen (reached_lastLook? hdeadline hlast)
    rwa [answer_atLook] at hpoll

/-- The third look is answered yes. With three attempts that is also the last one, and it counts;
with none there is still one look. -/
theorem poll_calls_exact_at_the_bound :
    let run := fun m => poll { maxAttempts := some m } (fun _ => 0) (answer (· == 3)) enterPause []
    run 3 = (.ready 2, [.look, .pause 1, .look, .pause 2, .look]) ∧
      run 0 = (.timedOut 1, [.look]) := by
  intro run
  have hyes : FirstYes (· == 3) 3 :=
    ⟨by decide, rfl, fun i _ hlt => beq_false_of_ne (Nat.ne_of_lt hlt)⟩
  have hrun (m : Nat) (hm : ∀ k ∈ some m, k < 2 ^ 64) :=
    poll_calls_exact (· == 3) { maxAttempts := some m } (fun _ => 0) .absent hm
  have hfits : ∀ m < 4, ∀ k ∈ some m, k < 2 ^ 64 := by
    rintro m hm _ ⟨⟩
    exact Nat.lt_trans hm (by decide)
  refine ⟨(hrun 3 (hfits 3 (by decide))).1 3 hyes ?_ (by decide),
    (hrun 0 (hfits 0 (by decide))).2 1 rfl ?_⟩
  · rintro _ ⟨⟩
    exact Nat.le_refl 3
  · intro j hj
    rw [eq_of_beq hj.yes]
    decide

end Gemv
