import Gemv.Link

/-! What a wait keeps.

A wait is a chain of looks and pauses. What each pause and each look that said no keeps holds at the
end of the wait, but for the look that said yes and ended it well. A wait that fails has reached a
bound, or it has none that could end it (`Link.waitFailure_of_await`). Two waits whose looks see the
same end in the same way. Where every look is known, so is the end: the first look that says yes, or
the first bound that is reached (`poll_eq_ready`, `poll_eq_timedOut`). -/
namespace Gemv

section

variable {σ : Type} (limits : PollLimits) (clock : Nat → Nat) {look : Nat → σ → Bool × σ}
  (wait : Nat → σ → σ)

/-- `poll_cases` for a wait that is under way. -/
theorem pollFrom_cases {Keeps : σ → Prop}
    (hlook : ∀ n s, Keeps s → (look n s).1 = false → Keeps (look n s).2)
    (hwait : ∀ n s, Keeps s → Keeps (wait n s)) (left failed : Nat) {s : σ} (hs : Keeps s) :
    (∃ n last, Keeps last ∧ (look n last).1 = true ∧
        pollFrom limits clock look wait left failed s = (.ready n, (look n last).2)) ∨
      ∃ result final, Keeps final ∧ (∀ n, result ≠ .ready n) ∧
        pollFrom limits clock look wait left failed s = (result, final) := by
  induction left generalizing failed s with
  | zero => exact .inr ⟨.uncounted, s, hs, by simp, rfl⟩
  | succ left ih =>
      have hnext := hlook failed s hs
      rw [pollFrom]
      cases hl : look failed s with
      | mk seen s' =>
          rw [hl] at hnext
          cases seen with
          | true => exact .inl ⟨failed, s, hs, by rw [hl], by rw [hl]⟩
          | false =>
              replace hnext := hnext rfl
              by_cases hend : limits.reached clock (failed + 1)
              · refine .inr ⟨.timedOut (failed + 1), s', hnext, by simp, ?_⟩
                simp only [hend, if_true]
              · simp only [hend, Bool.false_eq_true, if_false]
                exact ih (failed + 1) (hwait (failed + 1) s' hnext)

/-- A wait ends with a look that said yes, or with what every other look and every pause keeps. -/
theorem poll_cases {Keeps : σ → Prop}
    (hlook : ∀ n s, Keeps s → (look n s).1 = false → Keeps (look n s).2)
    (hwait : ∀ n s, Keeps s → Keeps (wait n s)) {s : σ} (hs : Keeps s) :
    (∃ n last, Keeps last ∧ (look n last).1 = true ∧
        poll limits clock look wait s = (.ready n, (look n last).2)) ∨
      ∃ result final, Keeps final ∧ (∀ n, result ≠ .ready n) ∧
        poll limits clock look wait s = (result, final) := by
  rw [poll]
  exact pollFrom_cases limits clock wait hlook hwait _ _ hs

/-- What the end of a wait says of its bounds, with `left` looks to count after `failed` others. -/
def PollEnd.Reflects (failed left : Nat) : PollEnd → Prop
  | .ready _ => True
  | .timedOut attempts => limits.reached clock attempts = true
  | .uncounted => ∀ n, failed < n → n ≤ failed + left → limits.reached clock n = false

theorem pollFrom_reflects (left failed : Nat) (s : σ) :
    PollEnd.Reflects limits clock failed left
      (pollFrom limits clock look wait left failed s).1 := by
  induction left generalizing failed s with
  | zero =>
      intro n hlow hhigh
      omega
  | succ left ih =>
      rw [pollFrom]
      cases look failed s with
      | mk seen s' =>
          cases seen with
          | true => trivial
          | false =>
              cases hend : limits.reached clock (failed + 1) with
              | true =>
                  simp only [if_true]
                  exact hend
              | false =>
                  have hrest := ih (failed + 1) (wait (failed + 1) s')
                  simp only [Bool.false_eq_true, if_false]
                  generalize (pollFrom limits clock look wait left (failed + 1)
                    (wait (failed + 1) s')).1 = result at hrest ⊢
                  cases result with
                  | ready | timedOut => exact hrest
                  | uncounted =>
                      intro n hlow hhigh
                      by_cases hn : n = failed + 1
                      · rw [hn, hend]
                      · exact hrest n (by omega) (by omega)

theorem poll_of_ready {s : σ} (hlook : (look 0 s).1 = true) :
    poll limits clock look wait s = (.ready 0, (look 0 s).2) := by
  rw [poll, show 2 ^ 64 - 1 = (2 ^ 64 - 2) + 1 from rfl, pollFrom]
  cases hl : look 0 s with
  | mk seen s' =>
      rw [hl] at hlook
      subst hlook
      rfl

/-- Waits that start alike end alike, as long as looks and pauses keep them so. -/
theorem pollFrom_alike {Alike : σ → σ → Prop}
    (hlook : ∀ n s s', Alike s s' → (look n s).1 = (look n s').1 ∧ Alike (look n s).2 (look n s').2)
    (hwait : ∀ n s s', Alike s s' → Alike (wait n s) (wait n s')) (left failed : Nat) {s s' : σ}
    (hs : Alike s s') :
    (pollFrom limits clock look wait left failed s).1 =
        (pollFrom limits clock look wait left failed s').1 ∧
      Alike (pollFrom limits clock look wait left failed s).2
        (pollFrom limits clock look wait left failed s').2 := by
  induction left generalizing failed s s' with
  | zero => exact ⟨rfl, hs⟩
  | succ left ih =>
      obtain ⟨hseen, hnext⟩ := hlook failed s s' hs
      rw [pollFrom, pollFrom]
      cases hl : look failed s with
      | mk seen u =>
          cases hl' : look failed s' with
          | mk seen' u' =>
              rw [hl, hl'] at hseen hnext
              simp only at hseen hnext
              subst hseen
              cases seen with
              | true => exact ⟨rfl, hnext⟩
              | false =>
                  by_cases hend : limits.reached clock (failed + 1)
                  · simp only [hend, if_true]
                    exact ⟨trivial, hnext⟩
                  · simp only [hend, Bool.false_eq_true, if_false]
                    exact ih (failed + 1) (hwait (failed + 1) u u' hnext)

/-- The state that look number `n` looks at, after `n` looks and as many pauses. -/
def atLook (look : Nat → σ → Bool × σ) (wait : Nat → σ → σ) (s : σ) : Nat → σ
  | 0 => s
  | n + 1 => wait (n + 1) (look n (atLook look wait s n)).2

/-- Looks that fail within the bounds bring a wait to the next look, and nothing else. -/
theorem pollFrom_advance {s : σ} {n : Nat}
    (hfail : ∀ i < n, (look i (atLook look wait s i)).1 = false)
    (hopen : ∀ i, 0 < i → i ≤ n → limits.reached clock i = false) (left : Nat) :
    pollFrom limits clock look wait (left + n) 0 s =
      pollFrom limits clock look wait left n (atLook look wait s n) := by
  induction n generalizing left with
  | zero => rfl
  | succ n ih =>
      have hnext := hfail n (by omega)
      have hbound := hopen (n + 1) (by omega) (by omega)
      rw [show left + (n + 1) = (left + 1) + n by omega,
        ih (fun i hi => hfail i (by omega)) (fun i hlow hhigh => hopen i hlow (by omega)),
        pollFrom, atLook]
      cases hl : look n (atLook look wait s n) with
      | mk seen s' =>
          rw [hl] at hnext
          cases hnext
          simp only [hbound, Bool.false_eq_true, if_false]

theorem exists_poll_eq {s : σ} {n : Nat} (hn : n + 1 < 2 ^ 64)
    (hfail : ∀ i < n, (look i (atLook look wait s i)).1 = false)
    (hopen : ∀ i, 0 < i → i ≤ n → limits.reached clock i = false) :
    ∃ left, poll limits clock look wait s =
      pollFrom limits clock look wait (left + 1) n (atLook look wait s n) := by
  obtain ⟨left, hleft⟩ : ∃ left, 2 ^ 64 - 1 = (left + 1) + n := ⟨2 ^ 64 - 2 - n, by omega⟩
  refine ⟨left, ?_⟩
  rw [poll, hleft]
  exact pollFrom_advance limits clock wait hfail hopen (left + 1)

/-- The first look that says yes ends the wait well, if no bound is reached before it. -/
theorem poll_eq_ready {s : σ} {n : Nat} (hn : n + 1 < 2 ^ 64)
    (hfail : ∀ i < n, (look i (atLook look wait s i)).1 = false)
    (hopen : ∀ i, 0 < i → i ≤ n → limits.reached clock i = false)
    (hready : (look n (atLook look wait s n)).1 = true) :
    poll limits clock look wait s = (.ready n, (look n (atLook look wait s n)).2) := by
  obtain ⟨left, hpoll⟩ := exists_poll_eq limits clock wait hn hfail hopen
  rw [hpoll, pollFrom]
  cases hl : look n (atLook look wait s n) with
  | mk seen s' =>
      rw [hl] at hready
      cases hready
      rfl

/-- The first bound that is reached ends the wait, if every look so far has failed. -/
theorem poll_eq_timedOut {s : σ} {n : Nat} (hn : n + 1 < 2 ^ 64)
    (hfail : ∀ i ≤ n, (look i (atLook look wait s i)).1 = false)
    (hopen : ∀ i, 0 < i → i ≤ n → limits.reached clock i = false)
    (hend : limits.reached clock (n + 1) = true) :
    poll limits clock look wait s = (.timedOut (n + 1), (look n (atLook look wait s n)).2) := by
  obtain ⟨left, hpoll⟩ :=
    exists_poll_eq limits clock wait hn (fun i hi => hfail i (Nat.le_of_lt hi)) hopen
  have hlast := hfail n (Nat.le_refl n)
  rw [hpoll, pollFrom]
  cases hl : look n (atLook look wait s n) with
  | mk seen s' =>
      rw [hl] at hlast
      cases hlast
      simp only [hend, if_true]

end

/-- A bound ends every wait while its looks can still be counted. -/
def PollLimits.Ends (limits : PollLimits) (clock : Nat → Nat) : Prop :=
  ∃ n, 0 < n ∧ n < 2 ^ 64 ∧ limits.reached clock n = true

theorem PollLimits.ends_of_maxAttempts {limits : PollLimits} {m : Nat}
    (h : limits.maxAttempts = some m) (hm : m < 2 ^ 64) (clock : Nat → Nat) :
    limits.Ends clock := by
  refine ⟨max m 1, by omega, by omega, ?_⟩
  rw [reached, h, Option.any_some, decide_eq_true (Nat.le_max_left m 1), Bool.true_or]

namespace Link

/-- How a wait can fail. A wait that no bound ends goes on for as long as its looks can be
counted. -/
inductive WaitFailure (limits : PollLimits) (clock : Nat → Nat) (awaited : String) :
    Error → Prop where
  | timeout {attempts : Nat} (h : limits.reached clock attempts = true) :
      WaitFailure limits clock awaited (.timeout awaited attempts)
  | uncounted (h : ∀ n, 0 < n → n < 2 ^ 64 → limits.reached clock n = false) :
      WaitFailure limits clock awaited (.overflow .addition)

theorem WaitFailure.eq_timeout {limits : PollLimits} {clock : Nat → Nat} {awaited : String}
    {e : Error} (h : WaitFailure limits clock awaited e) (hends : limits.Ends clock) :
    ∃ attempts, e = .timeout awaited attempts := by
  cases h with
  | timeout => exact ⟨_, rfl⟩
  | uncounted hnone =>
      obtain ⟨n, hpos, hlt, hreached⟩ := hends
      rw [hnone n hpos hlt] at hreached
      cases hreached

theorem waitFailure_of_await {σ : Type} {look : Nat → Link σ → Bool × Link σ} {awaited : String}
    {t u : Link σ} {e : Error} (h : t.await look awaited = (.error e, u)) :
    WaitFailure t.limits t.clock awaited e := by
  have hreflects : PollEnd.Reflects t.limits t.clock 0 (2 ^ 64 - 1)
      (pollFrom t.limits t.clock look (fun attempt t => t.record (.pause attempt))
        (2 ^ 64 - 1) 0 t).1 := pollFrom_reflects ..
  rw [await, poll] at h
  generalize pollFrom t.limits t.clock look (fun attempt t => t.record (.pause attempt))
    (2 ^ 64 - 1) 0 t = p at h hreflects
  obtain ⟨result, final⟩ := p
  cases result with
  | ready n => cases h
  | timedOut attempts =>
      cases h
      exact .timeout hreflects
  | uncounted =>
      cases h
      exact .uncounted fun n hpos hlt => hreflects n hpos (by omega)

/-- A wait ends with a look that said yes, or with an error and what every other look and every
pause keeps. -/
theorem await_cases {σ : Type} {Keeps : Link σ → Prop} {look : Nat → Link σ → Bool × Link σ}
    (hlook : ∀ n u, Keeps u → (look n u).1 = false → Keeps (look n u).2)
    (hpause : ∀ n u, Keeps u → Keeps (record (.pause n) u)) (awaited : String) {t : Link σ}
    (ht : Keeps t) :
    (∃ n last, Keeps last ∧ (look n last).1 = true ∧
        t.await look awaited = (.ok n, (look n last).2)) ∨
      ∃ e final, Keeps final ∧ t.await look awaited = (.error e, final) := by
  rcases poll_cases t.limits t.clock (fun attempt t => t.record (.pause attempt)) hlook
      hpause ht with
    ⟨n, last, hlast, hready, hpoll⟩ | ⟨result, final, hfinal, hnot, hpoll⟩
  · refine .inl ⟨n, last, hlast, hready, ?_⟩
    rw [await, hpoll]
  · cases result with
    | ready n => exact absurd rfl (hnot n)
    | timedOut attempts =>
        refine .inr ⟨.timeout awaited attempts, final, hfinal, ?_⟩
        rw [await, hpoll]
    | uncounted =>
        refine .inr ⟨.overflow .addition, final, hfinal, ?_⟩
        rw [await, hpoll]

end Link

end Gemv
