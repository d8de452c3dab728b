import Gemv.Text.Numeral

/-! Numerals read back.

The digits of a number, with any zeros in front, have the number as their value, and `read?` finds
no sign to take off them. -/
namespace Gemv.Text

variable {base : Nat}

theorem digitValue?_digitChar {d : Nat} (hd : d < base) (hbase : base ≤ 16) :
    digitValue? base (digitChar d) = some d := by
  have hall : ∀ b : Fin 17, ∀ d : Fin 16, d.val < b.val →
      digitValue? b (digitChar d) = some d.val := by decide
  exact hall ⟨base, by omega⟩ ⟨d, by omega⟩ hd

/-- A digit at the end counts once, and those before it `base` times. -/
theorem value?_append_singleton (cs : List Char) (c : Char) :
    value? base (cs ++ [c]) =
      (value? base cs).bind fun v => (digitValue? base c).map (base * v + ·) := by
  simp only [value?, List.foldl_append, List.foldl_cons, List.foldl_nil]

theorem value?_digits (htwo : 2 ≤ base) (hbase : base ≤ 16) (n : Nat) :
    value? base (digits base n) = some n := by
  induction n using Nat.strongRecOn with
  | ind n ih =>
      rw [digits]
      split
      · have hdigit := digitValue?_digitChar (by omega : n < base) hbase
        simp [value?, hdigit]
      · have hlast := digitValue?_digitChar (Nat.mod_lt n (by omega)) hbase
        have hrest := ih (n / base) (Nat.div_lt_self (by omega) (by omega))
        rw [value?_append_singleton, hrest, hlast]
        simp only [Option.bind_some, Option.map_some, Nat.div_add_mod]

theorem value?_padded (hpos : 0 < base) (width : Nat) (cs : List Char) :
    value? base (padded '0' width cs) = value? base cs := by
  have hzero : digitValue? base '0' = some 0 := by
    simp [digitValue?, hpos]
  rw [padded]
  induction width - cs.length with
  | zero => rfl
  | succ k ih =>
      rw [← ih, List.replicate_succ, List.cons_append]
      simp [value?, hzero]

theorem ne_nil_digits (n : Nat) : digits base n ≠ [] := by
  rw [digits]
  split <;> simp

theorem exists_digitChar_of_mem_digits (htwo : 2 ≤ base) {n : Nat} {c : Char}
    (hc : c ∈ digits base n) : ∃ d < base, c = digitChar d := by
  induction n using Nat.strongRecOn with
  | ind n ih =>
      rw [digits] at hc
      split at hc
      · exact ⟨n, by omega, by simpa using hc⟩
      · rcases List.mem_append.1 hc with hc | hc
        · exact ih (n / base) (Nat.div_lt_self (by omega) (by omega)) hc
        · exact ⟨n % base, Nat.mod_lt n (by omega), by simpa using hc⟩

/-- What is no digit spoils the value, so a text that has one starts with no sign. -/
theorem read?_of_value? {cs : List Char} (hne : cs ≠ []) {n : Nat}
    (hvalue : value? base cs = some n) : read? base cs = some n := by
  cases cs with
  | nil => exact absurd rfl hne
  | cons c cs =>
      by_cases hplus : c = '+'
      · subst hplus
        have hnone : digitValue? base '+' = none := by simp [digitValue?]
        have hlost : ∀ cs : List Char, cs.foldl (fun acc c => acc.bind fun v =>
            (digitValue? base c).map (base * v + ·)) none = none := by
          intro cs
          induction cs with
          | nil => rfl
          | cons c cs ih => exact ih
        rw [value?, List.foldl_cons, Option.bind_some, hnone, Option.map_none, hlost] at hvalue
        cases hvalue
      · unfold read?
        split
        · rename_i h
          exact absurd (List.cons.inj h).1 hplus
        · exact hvalue

theorem readBelow?_of_value? {cs : List Char} (hne : cs ≠ []) {n bound : Nat}
    (hvalue : value? base cs = some n) (hlt : n < bound) : readBelow? base bound cs = some n := by
  rw [readBelow?, read?_of_value? hne hvalue]
  simp [hlt]

end Gemv.Text
