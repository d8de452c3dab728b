import Gemv.Instruction

/-! Sinks for instruction words.

A sink takes one word at a time and may refuse it. A list of words is handed on until one of them is
refused, so it can be cut in two anywhere (`sendFrom_append`). -/
namespace Gemv

/-- What takes words, one at a time, or refuses one. -/
abbrev Sink (σ : Type) := Instruction → σ → Except Error Unit × σ

namespace Sink

/-- Takes every word and keeps none. -/
def discard : Sink Unit := fun _ s => (.ok (), s)

/-- Takes every word and keeps them all, in order. -/
def collect : Sink (Array Instruction) := fun w ws => (.ok (), ws.push w)

variable {σ : Type} (sink : Sink σ)

/-- Hands words on in order, on top of `count` others; the first that is refused ends it. -/
def sendFrom (count : Nat) : List Instruction → σ → Except Error Nat × σ
  | [], s => (.ok count, s)
  | w :: ws, s =>
    match sink w s with
    | (.ok (), s) => sendFrom (count + 1) ws s
    | (.error e, s) => (.error e, s)

theorem sendFrom_append (count : Nat) (ws vs : List Instruction) (s : σ) :
    sink.sendFrom count (ws ++ vs) s =
      match sink.sendFrom count ws s with
      | (.ok n, s) => sink.sendFrom n vs s
      | (.error e, s) => (.error e, s) := by
  induction ws generalizing count s with
  | nil => rfl
  | cons w ws ih =>
      rw [List.cons_append, sendFrom, sendFrom]
      split
      · exact ih _ _
      · rfl

theorem sendFrom_add (more count : Nat) (ws : List Instruction) (s : σ) :
    sink.sendFrom (more + count) ws s =
      ((sink.sendFrom count ws s).1.map (more + ·), (sink.sendFrom count ws s).2) := by
  induction ws generalizing count s with
  | nil => rfl
  | cons w ws ih =>
      rw [sendFrom, sendFrom]
      split
      · rw [Nat.add_assoc]
        exact ih _ _
      · rfl

theorem count_of_sendFrom {sink : Sink σ} {count n : Nat} {ws : List Instruction} {s s' : σ}
    (h : sink.sendFrom count ws s = (.ok n, s')) : n = count + ws.length := by
  induction ws generalizing count s with
  | nil =>
      rw [sendFrom] at h
      simpa using congrArg Prod.fst h.symm
  | cons w ws ih =>
      rw [sendFrom] at h
      split at h
      · have := ih h
        rw [List.length_cons]
        omega
      · cases h

theorem sendFrom_discard (count : Nat) (ws : List Instruction) (s : Unit) :
    discard.sendFrom count ws s = (.ok (count + ws.length), s) := by
  induction ws generalizing count with
  | nil => rfl
  | cons w ws ih =>
      rw [sendFrom, discard, List.length_cons, Nat.add_comm ws.length, ← Nat.add_assoc]
      exact ih (count + 1)

theorem sendFrom_collect (count : Nat) (ws : List Instruction) (kept : Array Instruction) :
    collect.sendFrom count ws kept = (.ok (count + ws.length), kept ++ ws) := by
  induction ws generalizing count kept with
  | nil => simp [sendFrom]
  | cons w ws ih =>
      rw [sendFrom, collect, List.length_cons, Nat.add_comm ws.length, ← Nat.add_assoc,
        Array.appendList_cons]
      exact ih (count + 1) (kept.push w)

end Sink

end Gemv
