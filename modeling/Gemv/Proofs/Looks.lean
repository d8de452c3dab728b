import Gemv.Operation
import Gemv.Proofs.Polling

/-! What looking at a device keeps.

Most of what a host does is reading, pausing and taking notes. A property of links that these keep
is kept by every wait, and by a push or a pop as well if the strobe of that operation keeps it. -/
namespace Gemv.Link
open Register

variable {σ : Type} [Device σ]

/-- Reads, notes and pauses keep the property. -/
structure Looks (Keeps : Link σ → Prop) : Prop where
  read : ∀ {t : Link σ}, Keeps t → ∀ r, Keeps (t.read r).2
  note : ∀ {t : Link σ}, Keeps t → ∀ n, Keeps (t.note n)
  pause : ∀ {t : Link σ}, Keeps t → ∀ n, Keeps (t.record (.pause n))

namespace Looks

variable {Keeps : Link σ → Prop} {t : Link σ}

theorem readIndex (h : Looks Keeps) (ht : Keeps t) (i : Nat) : Keeps (t.readIndex i).2 := by
  unfold Link.readIndex
  split
  · exact h.read ht _
  · exact ht

theorem isEnd (h : Looks Keeps) (ht : Keeps t) : Keeps t.isEnd.2 := h.read ht engineStatus

theorem awaitEnd (h : Looks Keeps) (ht : Keeps t) : Keeps t.awaitEnd.2 := by
  have hlook : ∀ (n : Nat) u, Keeps u → Keeps ((fun _ u => Link.isEnd u) n u).2 := fun _ _ hu =>
    h.isEnd hu
  rcases await_cases (fun n u hu _ => hlook n u hu) (fun n _ hu => h.pause hu n) "end of vector"
      ht with
    ⟨n, last, hlast, -, hwait⟩ | ⟨e, final, hfinal, hwait⟩
  · rw [Link.awaitEnd, hwait]
    exact h.note (hlook n last hlast) _
  · rw [Link.awaitEnd, hwait]
    exact hfinal

theorem lookForRoom (h : Looks Keeps) (ht : Keeps t) (failed : Nat) :
    Keeps (t.lookForRoom failed).2 := by
  have hread := h.read ht queueStatus
  unfold Link.lookForRoom
  generalize t.read queueStatus = p at hread
  obtain ⟨status, u⟩ := p
  simp only
  split
  · split
    · exact h.note hread .inputFull
    · exact hread
  · exact hread

theorem awaitRoom (h : Looks Keeps) (ht : Keeps t) :
    Keeps (t.await Link.lookForRoom "FIFO-in space").2 := by
  have hlook : ∀ n u, Keeps u → Keeps (Link.lookForRoom n u).2 := fun n _ hu => h.lookForRoom hu n
  rcases await_cases (fun n u hu _ => hlook n u hu) (fun n _ hu => h.pause hu n) "FIFO-in space"
      ht with
    ⟨n, last, hlast, -, hwait⟩ | ⟨e, final, hfinal, hwait⟩
  · rw [hwait]
    exact hlook n last hlast
  · rw [hwait]
    exact hfinal

theorem push (h : Looks Keeps) (hoffer : ∀ {t : Link σ}, Keeps t → ∀ w, Keeps (t.offer w))
    (ht : Keeps t) (w : Instruction) : Keeps (t.push w).2 := by
  have hwait := h.awaitRoom ht
  unfold Link.push
  generalize t.await Link.lookForRoom "FIFO-in space" = p at hwait
  obtain ⟨result, u⟩ := p
  cases result with
  | error e => exact hwait
  | ok failed =>
      apply hoffer
      split
      · exact h.note hwait _
      · exact hwait

/-- A push that fails has only looked. -/
theorem of_push_eq_error (h : Looks Keeps) (ht : Keeps t) {w : Instruction} {e : Error}
    {u : Link σ} (hpush : t.push w = (.error e, u)) : Keeps u := by
  have hwait := h.awaitRoom ht
  unfold Link.push at hpush
  generalize t.await Link.lookForRoom "FIFO-in space" = p at hwait hpush
  obtain ⟨result, v⟩ := p
  cases result with
  | error e' =>
      cases hpush
      exact hwait
  | ok failed => cases hpush

section Pop

variable (h : Looks Keeps)
  (hpulse : ∀ {t : Link σ}, Keeps t → Keeps (t.pulse queueControl popBit))

include h hpulse

theorem pop (ht : Keeps t) : Keeps t.pop.2 := by
  have hstatus := h.read ht queueStatus
  unfold Link.pop
  generalize t.read queueStatus = p at hstatus
  obtain ⟨status, u⟩ := p
  simp only
  split
  · exact h.note (hpulse (h.read hstatus outputData)) _
  · exact hstatus

theorem popFrom (ht : Keeps t) (taken : List Sample) (max : Nat) :
    Keeps (t.popFrom taken max).2 := by
  induction max generalizing taken t with
  | zero => exact ht
  | succ max ih =>
      have hpop := h.pop hpulse ht
      unfold Link.popFrom
      generalize t.pop = p at hpop
      obtain ⟨sample, u⟩ := p
      cases sample with
      | none => exact hpop
      | some s => exact ih hpop _

theorem popVector (ht : Keeps t) (max : Nat) : Keeps (t.popVector max).2 :=
  h.note (h.popFrom hpulse ht [] max) _

end Pop

end Looks

end Gemv.Link
