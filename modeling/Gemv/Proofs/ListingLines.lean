import Gemv.Listing
import Gemv.Proofs.Numerals
import Gemv.Proofs.TextPieces

/-! Lines of a listing, and what they contribute.

Comments and a carriage return at the end of a line contribute nothing. A line that was written for
a setting or a word reads back as that setting or word (`entry_settingLine`, `entry_wordLine`); the
decoded form of a word goes with its comment. -/
namespace Gemv.Listing
open Text

section Comments

theorem stripComment_cons {c : Char} (hc : c ≠ '#' ∧ c ≠ '/') (cs : List Char) :
    stripComment (c :: cs) = c :: stripComment cs := by
  rw [stripComment]
  · exact hc.1
  · exact fun _ h => absurd h hc.2

theorem stripComment_append {a : List Char} (ha : ∀ c ∈ a, c ≠ '#' ∧ c ≠ '/') (b : List Char) :
    stripComment (a ++ b) = a ++ stripComment b := by
  induction a with
  | nil => rfl
  | cons c a ih =>
      rw [List.cons_append, stripComment_cons (ha c (List.mem_cons_self ..)),
        ih fun c' hc' => ha c' (List.mem_cons_of_mem c hc')]
      rfl

/-- A carriage return at the end of a line is part of its comment, or stands after the rest. -/
theorem stripComment_append_return (l : List Char) :
    stripComment (l ++ ['\r']) = stripComment l ∨
      stripComment (l ++ ['\r']) = stripComment l ++ ['\r'] := by
  fun_induction stripComment l with
  | case1 => exact .inr rfl
  | case2 => exact .inl rfl
  | case3 => exact .inl rfl
  | case4 c cs hhash hslash ih =>
      have hstep : stripComment (c :: (cs ++ ['\r'])) = c :: stripComment (cs ++ ['\r']) := by
        rw [stripComment]
        · exact hhash
        · intro tail hc hcs
          cases cs with
          | nil => simp at hcs
          | cons x cs =>
              obtain ⟨rfl, -⟩ := List.cons.inj hcs
              exact hslash cs hc rfl
      rw [List.cons_append, hstep]
      rcases ih with h | h
      · exact .inl (congrArg (c :: ·) h)
      · exact .inr (congrArg (c :: ·) h)

theorem trim_stripComment_dropReturn (l : List Char) :
    trim (stripComment (dropReturn l)) = trim (stripComment l) := by
  unfold dropReturn
  split
  · rename_i hreturn
    obtain ⟨body, rfl⟩ : ∃ body, l = body ++ ['\r'] := List.getLast?_eq_some_iff.1 hreturn
    rw [List.dropLast_concat]
    rcases stripComment_append_return body with h | h
    · rw [h]
    · rw [h, trim_append_blank (by decide)]
  · rfl

theorem entry_dropReturn (l : List Char) : entry (dropReturn l) = entry l := by
  rw [entry, entry, trim_stripComment_dropReturn]

theorem entry_comment (cs : List Char) : entry ('#' :: cs) = .ok (.words []) := rfl

end Comments

/-- Characters without a meaning of their own in a listing. -/
def isPlain (c : Char) : Bool := !isBlank c && c != '#' && c != '/' && c != ',' && c != '.'

theorem isPlain_digitChar {d : Nat} (hd : d < 16) : isPlain (digitChar d) = true := by
  have hall : ∀ d : Fin 16, isPlain (digitChar d) = true := by decide
  exact hall ⟨d, hd⟩

theorem isPlain_key (s : Setting) : ∀ c ∈ s.key.toList, isPlain c = true := by
  have hall : s.key.toList.all isPlain = true := by cases s <;> decide
  exact List.all_eq_true.1 hall

theorem isPlain_of_mem_digits {base n : Nat} (htwo : 2 ≤ base) (hbase : base ≤ 16) :
    ∀ c ∈ digits base n, isPlain c = true := by
  intro c hc
  obtain ⟨d, hd, rfl⟩ := exists_digitChar_of_mem_digits htwo hc
  exact isPlain_digitChar (by omega)

section Plain

variable {c : Char} (hc : isPlain c = true)

include hc

theorem isBlank_of_isPlain : isBlank c = false := by
  simp [isPlain] at hc
  exact hc.1.1.1.1

theorem ne_of_isPlain : c ≠ '#' ∧ c ≠ '/' ∧ c ≠ ',' ∧ c ≠ '.' := by
  simp [isPlain] at hc
  exact ⟨hc.1.1.1.2, hc.1.1.2, hc.1.2, hc.2⟩

theorem separatesWords_of_isPlain : separatesWords c = false := by
  have hcomma := (ne_of_isPlain hc).2.2.1
  simp [separatesWords, isBlank_of_isPlain hc, hcomma]

theorem ne_feed_of_isPlain : c ≠ '\n' := by
  rintro rfl
  exact absurd hc (by decide)

end Plain

section Settings

theorem get_lt_bound (c : Config) (s : Setting) : s.get c < s.bound := by
  cases s <;> first | exact UInt32.toNat_lt _ | exact UInt64.toNat_lt _

theorem bound_le (s : Setting) : s.bound ≤ 2 ^ 64 := by
  cases s <;> decide

theorem ofKey?_key (s : Setting) : Setting.ofKey? s.key = some s := by
  cases s <;> decide

theorem toList_settingLine (c : Config) (s : Setting) :
    (settingLine c s).toList = '.' :: (s.key.toList ++ ' ' :: digits 10 (s.get c)) := by
  simp [settingLine, decimal]

theorem settingValue_digits (c : Config) (s : Setting) :
    settingValue s (digits 10 (s.get c)) = .ok (s.get c) := by
  have hlt := get_lt_bound c s
  have hvalue : value? 10 (digits 10 (s.get c)) = some (s.get c) :=
    value?_digits (by decide) (by decide) _
  have hread := readBelow?_of_value? (ne_nil_digits _) hvalue
    (Nat.lt_of_lt_of_le hlt (bound_le s))
  rw [settingValue, hread]
  exact if_pos hlt

theorem directive_settingLine (c : Config) (s : Setting) :
    directive (s.key.toList ++ ' ' :: digits 10 (s.get c)) = .ok (.setting s (s.get c)) := by
  have hkey : fields isBlank s.key.toList = [s.key.toList] :=
    fields_of_forall (by cases s <;> decide) fun c hc => isBlank_of_isPlain (isPlain_key s c hc)
  have hvalue : fields isBlank (digits 10 (s.get c)) = [digits 10 (s.get c)] :=
    fields_of_forall (ne_nil_digits _) fun c hc =>
      isBlank_of_isPlain (isPlain_of_mem_digits (by decide) (by decide) c hc)
  rw [directive, fields_append_cons (by decide), hkey, hvalue]
  simp only [List.singleton_append, String.ofList_toList, ofKey?_key, settingValue_digits]
  rfl

theorem entry_settingLine (c : Config) (s : Setting) :
    entry (settingLine c s).toList = .ok (.setting s (s.get c)) := by
  have hplain : ∀ x ∈ s.key.toList ++ ' ' :: digits 10 (s.get c), x ≠ '#' ∧ x ≠ '/' := by
    intro x hx
    rcases List.mem_append.1 hx with hx | hx
    · have := ne_of_isPlain (isPlain_key s x hx)
      exact ⟨this.1, this.2.1⟩
    · rcases List.mem_cons.1 hx with rfl | hx
      · decide
      · have := ne_of_isPlain (isPlain_of_mem_digits (by decide) (by decide) x hx)
        exact ⟨this.1, this.2.1⟩
  have hstrip : stripComment (settingLine c s).toList =
      '.' :: (s.key.toList ++ ' ' :: digits 10 (s.get c)) := by
    have hall := stripComment_append hplain []
    rw [List.append_nil, stripComment, List.append_nil] at hall
    rw [toList_settingLine, stripComment_cons (by decide), hall]
  obtain ⟨front, last, hdigits⟩ : ∃ front last, digits 10 (s.get c) = front ++ [last] :=
    ⟨_, _, (List.dropLast_concat_getLast (ne_nil_digits _)).symm⟩
  have hmem : last ∈ digits 10 (s.get c) := by simp [hdigits]
  have hlast : isBlank last = false :=
    isBlank_of_isPlain (isPlain_of_mem_digits (by decide) (by decide) last hmem)
  have htrim : trim ('.' :: (s.key.toList ++ ' ' :: digits 10 (s.get c))) =
      '.' :: (s.key.toList ++ ' ' :: digits 10 (s.get c)) := by
    have hends := trim_cons_concat (by decide : isBlank '.' = false) hlast
      (s.key.toList ++ ' ' :: front)
    simpa [hdigits] using hends
  rw [entry, hstrip, htrim]
  exact directive_settingLine c s

end Settings

section Words

/-- The hexadecimal digits of a word. -/
def wordDigits (w : Instruction) : List Char := padded '0' 8 (digits 16 w.raw.toNat)

theorem toList_hex (w : Instruction) : w.hex.toList = '0' :: 'x' :: wordDigits w := by
  simp [Instruction.hex, hexadecimal, wordDigits]

theorem isPlain_wordDigits (w : Instruction) : ∀ c ∈ wordDigits w, isPlain c = true := by
  intro c hc
  rcases List.mem_append.1 hc with hc | hc
  · rw [List.eq_of_mem_replicate hc]
    decide
  · exact isPlain_of_mem_digits (by decide) (by decide) c hc

theorem isPlain_hex (w : Instruction) : ∀ c ∈ w.hex.toList, isPlain c = true := by
  intro c hc
  rw [toList_hex] at hc
  rcases List.mem_cons.1 hc with rfl | hc
  · decide
  · rcases List.mem_cons.1 hc with rfl | hc
    · decide
    · exact isPlain_wordDigits w c hc

theorem word_hex (w : Instruction) : word w.hex.toList = .ok w := by
  have hvalue : value? 16 (wordDigits w) = some w.raw.toNat := by
    rw [wordDigits, value?_padded (by decide), value?_digits (by decide) (by decide)]
  have hne : wordDigits w ≠ [] := by simp [wordDigits, padded, ne_nil_digits]
  have hread := readBelow?_of_value? hne hvalue w.raw.toNat_lt
  rw [toList_hex, word, unmarked]
  simp only [hread, UInt32.ofNat_toNat]


/-- The part of a word's line that counts: its comment goes, and the blanks before it. -/
theorem trim_stripComment_wordLine (w : Instruction) :
    trim (stripComment (wordLine w).toList) = w.hex.toList ++ [','] := by
  have hcode : ∀ c ∈ w.hex.toList, c ≠ '#' ∧ c ≠ '/' := by
    intro c hc
    have := ne_of_isPlain (isPlain_hex w c hc)
    exact ⟨this.1, this.2.1⟩
  have hends : trim (w.hex.toList ++ [',']) = w.hex.toList ++ [','] := by
    rw [toList_hex]
    exact trim_cons_concat (by decide) (by decide) ('x' :: wordDigits w)
  unfold wordLine
  split
  · rw [String.toList_append, stripComment_append hcode]
    exact hends
  · have hcomment : stripComment (",  // ".toList ++ w.decoded.toList) = [','] ++ [' '] ++ [' '] := rfl
    rw [String.toList_append, String.toList_append, List.append_assoc, stripComment_append hcode,
      hcomment, ← List.append_assoc, ← List.append_assoc, trim_append_blank (by decide),
      trim_append_blank (by decide), hends]

theorem entry_wordLine (w : Instruction) : entry (wordLine w).toList = .ok (.words [w]) := by
  have hfields : fields separatesWords (w.hex.toList ++ [',']) = [w.hex.toList] := by
    rw [fields_append_cons (by decide), fields_nil, List.append_nil]
    exact fields_of_forall (by simp [toList_hex]) fun c hc =>
      separatesWords_of_isPlain (isPlain_hex w c hc)
  have hdirective : ∀ rest, w.hex.toList ++ [','] ≠ '.' :: rest := by
    intro rest h
    rw [toList_hex] at h
    exact absurd (List.cons.inj h).1 (by decide)
  rw [entry, trim_stripComment_wordLine]
  split
  · rename_i rest h
    exact absurd h (hdirective rest)
  · rw [hfields]
    simp only [List.mapM_cons, List.mapM_nil, word_hex]
    rfl

end Words

section Feeds

theorem feed_not_mem_of_isPlain {cs : List Char} (h : ∀ c ∈ cs, isPlain c = true) : '\n' ∉ cs :=
  fun hmem => ne_feed_of_isPlain (h '\n' hmem) rfl

theorem feed_not_mem_decimal (n : Nat) : '\n' ∉ (decimal n).toList := by
  rw [decimal, String.toList_ofList]
  exact feed_not_mem_of_isPlain (isPlain_of_mem_digits (by decide) (by decide))

theorem feed_not_mem_hexadecimal (width n : Nat) : '\n' ∉ (hexadecimal width n).toList := by
  simp only [hexadecimal, String.toList_append, String.toList_ofList, padded, List.mem_append,
    not_or]
  refine ⟨by simp, fun hfill => ?_, ?_⟩
  · exact absurd (List.eq_of_mem_replicate hfill) (by decide)
  · exact feed_not_mem_of_isPlain (isPlain_of_mem_digits (by decide) (by decide))

theorem feed_not_mem_settingLine (c : Config) (s : Setting) :
    '\n' ∉ (settingLine c s).toList := by
  simp only [settingLine, String.toList_append, List.mem_append, not_or]
  exact ⟨⟨⟨by simp, feed_not_mem_of_isPlain (isPlain_key s)⟩, by simp⟩, feed_not_mem_decimal _⟩

theorem feed_not_mem_mnemonic (w : Instruction) : '\n' ∉ (w.mnemonic?.getD "").toList := by
  unfold Instruction.mnemonic?
  split <;> simp

theorem feed_not_mem_decoded (w : Instruction) : '\n' ∉ w.decoded.toList := by
  rw [Instruction.decoded]
  cases w.kind with
  | write row data =>
      simp only [String.toList_append, List.mem_append, not_or]
      exact ⟨⟨⟨by simp, feed_not_mem_decimal _⟩, by simp⟩, feed_not_mem_hexadecimal 4 _⟩
  | selectAll => simp
  | selectColumn block =>
      simp only [String.toList_append, List.mem_append, not_or]
      exact ⟨by simp, feed_not_mem_decimal _⟩
  | nop | vectorSync | other => exact feed_not_mem_mnemonic w

theorem feed_not_mem_wordLine (w : Instruction) : '\n' ∉ (wordLine w).toList := by
  have hhex := feed_not_mem_of_isPlain (isPlain_hex w)
  unfold wordLine
  split
  · simp only [String.toList_append, List.mem_append, not_or]
    exact ⟨hhex, by simp⟩
  · simp only [String.toList_append, List.mem_append, not_or]
    exact ⟨⟨hhex, by simp⟩, feed_not_mem_decoded w⟩

end Feeds

end Gemv.Listing
