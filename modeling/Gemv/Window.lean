/-! Vectors cut into windows: the consecutive pieces that go into one block each. -/
namespace Gemv

/-- Cuts a list into consecutive pieces of `n` elements; the last may be shorter. -/
def windows {α : Type} (n : Nat) (xs : List α) : List (List α) :=
  if _ : xs = [] ∨ n = 0 then []
  else xs.take n :: windows n (xs.drop n)
termination_by xs.length
decreasing_by
  rename_i h
  have := List.length_pos_iff.2 fun hx => h (.inl hx)
  simp only [List.length_drop]
  omega

@[simp] theorem windows_nil {α : Type} (n : Nat) : windows n ([] : List α) = [] := by
  rw [windows]
  simp

theorem windows_of_ne_nil {α : Type} {n : Nat} (hn : 0 < n) {xs : List α} (hx : xs ≠ []) :
    windows n xs = xs.take n :: windows n (xs.drop n) := by
  rw [windows]
  simp [hx, Nat.pos_iff_ne_zero.1 hn]

/-- Nothing is lost or moved. -/
theorem flatten_windows {α : Type} {n : Nat} (hn : 0 < n) (xs : List α) :
    (windows n xs).flatten = xs := by
  induction h : xs.length using Nat.strongRecOn generalizing xs with
  | ind k ih =>
    by_cases hx : xs = []
    · subst hx
      simp
    · have hpos := List.length_pos_iff.2 hx
      rw [windows_of_ne_nil hn hx, List.flatten_cons,
        ih (xs.drop n).length (by simp only [List.length_drop]; omega) (xs.drop n) rfl,
        List.take_append_drop]

theorem length_windows {α : Type} {n : Nat} (hn : 0 < n) (xs : List α) :
    (windows n xs).length = (xs.length + n - 1) / n := by
  induction h : xs.length using Nat.strongRecOn generalizing xs with
  | ind k ih =>
    by_cases hx : xs = []
    · subst hx
      rw [windows_nil, List.length_nil, Nat.div_eq_of_lt (by simp only [List.length_nil] at h; omega)]
    · have hpos := List.length_pos_iff.2 hx
      rw [windows_of_ne_nil hn hx, List.length_cons,
        ih (xs.drop n).length (by simp only [List.length_drop]; omega) (xs.drop n) rfl,
        List.length_drop, h]
      by_cases hk : n ≤ k
      · have hstep : k + n - 1 = (k - n + n - 1) + n := by omega
        rw [hstep, Nat.add_div_right _ hn]
      · have hshort : k - n = 0 := by omega
        have hone : k + n - 1 = (k - 1) + n := by omega
        rw [hshort, hone, Nat.add_div_right _ hn, Nat.div_eq_of_lt (by omega),
          Nat.div_eq_of_lt (by omega)]

theorem length_le_of_mem_windows {α : Type} {n : Nat} (xs : List α) {w : List α}
    (hw : w ∈ windows n xs) : w.length ≤ n := by
  induction h : xs.length using Nat.strongRecOn generalizing xs with
  | ind k ih =>
    rw [windows] at hw
    split at hw
    · simp at hw
    · next hx =>
      have hpos : 0 < xs.length := List.length_pos_iff.2 fun hnil => hx (.inl hnil)
      rcases List.mem_cons.1 hw with rfl | hw
      · exact List.length_take_le n xs
      · exact ih (xs.drop n).length (by simp only [List.length_drop]; omega) (xs.drop n) hw rfl

end Gemv
