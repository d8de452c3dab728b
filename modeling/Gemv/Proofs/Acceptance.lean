import Gemv.Link
import Gemv.Proofs.Polling

/-! Which words of a batch are accepted.

A batch goes out word by word until a push fails; `accepts` are the words that went before. The
journal has no part in that: `Alike` links accept the same words. -/
namespace Gemv.Link

/-- Links that differ in their journals alone. -/
inductive Alike {σ : Type} : Link σ → Link σ → Prop where
  | intro (device : σ) (limits : PollLimits) (wait : Wait) (pushed : Nat)
      (journal journal' : Array Event) :
      Alike ⟨device, limits, wait, pushed, journal⟩ ⟨device, limits, wait, pushed, journal'⟩

theorem alike_note {σ : Type} (n : Note) (t : Link σ) : Alike (t.note n) t := .intro ..

namespace Alike

variable {σ : Type} {t u : Link σ}

theorem record (h : Alike t u) (e : Event) : Alike (t.record e) (u.record e) := by
  cases h
  exact .intro ..

theorem await {look : Nat → Link σ → Bool × Link σ}
    (hlook : ∀ n t u, Alike t u → (look n t).1 = (look n u).1 ∧ Alike (look n t).2 (look n u).2)
    (awaited : String) (h : Alike t u) :
    (t.await look awaited).1 = (u.await look awaited).1 ∧
      Alike (t.await look awaited).2 (u.await look awaited).2 := by
  have hpause : ∀ n (t u : Link σ), Alike t u →
      Alike (t.record (.pause n)) (u.record (.pause n)) := fun n _ _ h => h.record (.pause n)
  have hsame : t.limits = u.limits ∧ t.clock = u.clock := by
    cases h
    exact ⟨rfl, rfl⟩
  have hpoll := pollFrom_alike t.limits t.clock (fun attempt t => t.record (.pause attempt))
    hlook hpause (2 ^ 64 - 1) 0 h
  rw [Link.await, Link.await, ← hsame.1, ← hsame.2, poll, poll]
  generalize pollFrom t.limits t.clock look (fun attempt t => t.record (.pause attempt))
    (2 ^ 64 - 1) 0 t = p at hpoll
  generalize pollFrom t.limits t.clock look (fun attempt t => t.record (.pause attempt))
    (2 ^ 64 - 1) 0 u = q at hpoll
  obtain ⟨result, t'⟩ := p
  obtain ⟨result', u'⟩ := q
  obtain ⟨rfl, hend⟩ := hpoll
  cases result <;> exact ⟨rfl, hend⟩

end Alike

variable {σ : Type} [Device σ]

/-- The words of a batch whose push succeeds, in order. -/
def accepts : List Instruction → Link σ → List Instruction
  | [], _ => []
  | w :: ws, t =>
    match t.push w with
    | (.ok (), t) => w :: accepts ws t
    | (.error _, _) => []

/-- The words accepted are the first ones of a batch, and all of it exactly if nothing failed. -/
theorem accepts_append (count : Nat) (ws : List Instruction) (t : Link σ) :
    ∃ rest, ws = t.accepts ws ++ rest ∧ (rest = [] ↔ ∃ n, (t.pushFrom count ws).1 = .ok n) := by
  induction ws generalizing t count with
  | nil => exact ⟨[], rfl, by simp [pushFrom_nil]⟩
  | cons w ws ih =>
      rw [pushFrom_cons, accepts]
      generalize t.push w = p
      obtain ⟨result, u⟩ := p
      cases result with
      | error e => exact ⟨w :: ws, rfl, by simp⟩
      | ok done =>
          obtain ⟨rest, hws, hrest⟩ := ih (count + 1) u
          exact ⟨rest, congrArg (w :: ·) hws, hrest⟩

theorem accepts_of_pushAll {ws : List Instruction} {t u : Link σ} {n : Nat}
    (h : t.pushAll ws = (.ok n, u)) : t.accepts ws = ws := by
  obtain ⟨rest, hws, hrest⟩ := accepts_append 0 ws t
  have hall : rest = [] := hrest.2 ⟨n, congrArg Prod.fst h⟩
  rw [hall, List.append_nil] at hws
  exact hws.symm

namespace Alike

variable {t u : Link σ}

theorem read (h : Alike t u) (r : Register) :
    (t.read r).1 = (u.read r).1 ∧ Alike (t.read r).2 (u.read r).2 := by
  cases h
  exact ⟨rfl, .intro ..⟩

theorem lookForRoom (h : Alike t u) (failed : Nat) :
    (t.lookForRoom failed).1 = (u.lookForRoom failed).1 ∧
      Alike (t.lookForRoom failed).2 (u.lookForRoom failed).2 := by
  obtain ⟨hsame, hread⟩ := h.read Register.queueStatus
  rw [Link.lookForRoom, Link.lookForRoom]
  generalize t.read Register.queueStatus = p at hsame hread
  generalize u.read Register.queueStatus = q at hsame hread
  obtain ⟨v, t'⟩ := p
  obtain ⟨v', u'⟩ := q
  simp only at hsame hread
  subst hsame
  by_cases hfull : Bits.bit v Register.fullBit = true
  · by_cases hfirst : failed = 0
    · simp only [hfull, hfirst, if_true, true_and]
      exact hread.record (.note .inputFull)
    · simp only [hfull, hfirst, if_true, if_false, true_and]
      exact hread
  · simp only [hfull, Bool.false_eq_true, if_false, true_and]
    exact hread

theorem offer (h : Alike t u) (w : Instruction) : Alike (t.offer w) (u.offer w) := by
  cases h
  exact .intro ..

theorem push (h : Alike t u) (w : Instruction) :
    (t.push w).1 = (u.push w).1 ∧ Alike (t.push w).2 (u.push w).2 := by
  have hwait := h.await (fun n _ _ h => h.lookForRoom n) "FIFO-in space"
  rw [Link.push, Link.push]
  generalize t.await Link.lookForRoom "FIFO-in space" = p at hwait
  generalize u.await Link.lookForRoom "FIFO-in space" = q at hwait
  obtain ⟨result, t'⟩ := p
  obtain ⟨result', u'⟩ := q
  obtain ⟨rfl, hend⟩ := hwait
  cases result with
  | error e => exact ⟨rfl, hend⟩
  | ok failed =>
      refine ⟨rfl, Alike.offer ?_ w⟩
      split
      · exact hend.record (.note (.inputDrained failed))
      · exact hend

theorem accepts (h : Alike t u) (ws : List Instruction) : t.accepts ws = u.accepts ws := by
  induction ws generalizing t u with
  | nil => rfl
  | cons w ws ih =>
      obtain ⟨hsame, hnext⟩ := h.push w
      rw [Link.accepts, Link.accepts]
      generalize t.push w = p at hsame hnext
      generalize u.push w = q at hsame hnext
      obtain ⟨result, t'⟩ := p
      obtain ⟨result', u'⟩ := q
      simp only at hsame hnext
      subst hsame
      cases result with
      | error e => rfl
      | ok done => exact congrArg (w :: ·) (ih hnext)

end Alike

end Gemv.Link
