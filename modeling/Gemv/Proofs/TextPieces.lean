import Gemv.Text.Split

/-! Texts taken apart.

Fields and lines are both cut at separators, so each splits where a separator stands:
`fields_append_cons` and `lines_append` are the two laws. -/
namespace Gemv.Text

section Fields

variable {separates : Char → Bool}

theorem fields_append_cons {c : Char} (hc : separates c = true) (a b : List Char) :
    fields separates (a ++ c :: b) = fields separates a ++ fields separates b := by
  rw [fields, List.splitOnP_append_cons a b hc, List.filter_append]
  rfl

@[simp] theorem fields_nil : fields separates [] = [] := by simp [fields]

theorem fields_of_forall {cs : List Char} (hne : cs ≠ []) (h : ∀ c ∈ cs, separates c = false) :
    fields separates cs = [cs] := by
  simp [fields, List.splitOnP_eq_singleton h, hne]

end Fields

section Trim

theorem trim_append_blank {c : Char} (hc : isBlank c = true) (cs : List Char) :
    trim (cs ++ [c]) = trim cs := by
  rw [trim, trim, List.dropWhile_append]
  split
  · rename_i hall
    rw [List.isEmpty_iff.1 hall]
    simp [hc]
  · simp [hc]

theorem dropWhile_isBlank_cons {c : Char} (hc : isBlank c = false) (cs : List Char) :
    (c :: cs).dropWhile isBlank = c :: cs := by
  simp [hc]

theorem trim_cons_concat {c d : Char} (hc : isBlank c = false) (hd : isBlank d = false)
    (cs : List Char) : trim (c :: (cs ++ [d])) = c :: (cs ++ [d]) := by
  have hreverse : (c :: (cs ++ [d])).reverse = d :: (cs.reverse ++ [c]) := by simp
  rw [trim, dropWhile_isBlank_cons hc, hreverse, dropWhile_isBlank_cons hd, ← hreverse,
    List.reverse_reverse]

end Trim

section Lines

@[simp] theorem lines_nil : lines [] = [] := by simp [lines]

theorem exists_splitOnP_eq (cs : List Char) :
    ∃ ls last, cs.splitOnP (· == '\n') = ls ++ [last] :=
  ⟨_, _, (List.dropLast_concat_getLast (List.splitOnP_ne_nil (· == '\n') cs)).symm⟩

/-- A line feed cuts a text: every segment before it is a whole line. -/
theorem lines_append_feed (a b : List Char) :
    lines (a ++ '\n' :: b) = (a.splitOnP (· == '\n')).map dropReturn ++ lines b := by
  obtain ⟨ls, last, hsplit⟩ := exists_splitOnP_eq b
  rw [lines, lines, List.splitOnP_append_cons a b (by decide), hsplit, ← List.append_assoc]
  simp

theorem lines_append (a b : List Char) : lines (a ++ '\n' :: b) = lines (a ++ ['\n']) ++ lines b := by
  rw [lines_append_feed, lines_append_feed a [], lines_nil, List.append_nil]

theorem splitOnP_of_feed_not_mem {l : List Char} (hl : '\n' ∉ l) :
    l.splitOnP (· == '\n') = [l] := by
  apply List.splitOnP_eq_singleton
  intro c hc
  rw [beq_eq_false_iff_ne]
  rintro rfl
  exact hl hc

theorem lines_feed {l : List Char} (hl : '\n' ∉ l) : lines (l ++ ['\n']) = [dropReturn l] := by
  rw [lines_append_feed, splitOnP_of_feed_not_mem hl, lines_nil]
  rfl

theorem lines_flatMap {ls : List (List Char)} (hls : ∀ l ∈ ls, '\n' ∉ l) :
    lines (ls.flatMap (· ++ ['\n'])) = ls.map dropReturn := by
  induction ls with
  | nil => exact lines_nil
  | cons l ls ih =>
      rw [List.flatMap_cons, List.append_assoc, List.singleton_append, lines_append,
        lines_feed (hls l (List.mem_cons_self ..)),
        ih fun l' hl' => hls l' (List.mem_cons_of_mem l hl')]
      rfl

/-- A line feed at the end of a text ends its last line, or adds an empty one. -/
theorem lines_append_feed_end (cs : List Char) :
    (∃ ls last, lines cs = ls ++ [last] ∧ lines (cs ++ ['\n']) = ls ++ [dropReturn last]) ∨
      lines (cs ++ ['\n']) = lines cs ++ [[]] := by
  obtain ⟨ls, last, hsplit⟩ := exists_splitOnP_eq cs
  have hfeed : lines (cs ++ ['\n']) = ls.map dropReturn ++ [dropReturn last] := by
    rw [lines_append_feed, hsplit, lines_nil]
    simp
  by_cases hlast : last = []
  · refine .inr ?_
    rw [hfeed, lines, hsplit]
    simp [hlast, dropReturn]
  · refine .inl ⟨ls.map dropReturn, last, ?_, hfeed⟩
    rw [lines, hsplit]
    simp [hlast]

end Lines

end Gemv.Text
