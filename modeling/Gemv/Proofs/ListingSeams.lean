import Gemv.Proofs.ListingGrammar

/-! Listings joined at a line feed.

A listing is read line by line, so a list of lines is read as its front and then its back, and lines
further down are read alike and reported further down (`entriesFrom_add`). The line feed at the seam
ends the last line of the first text, or adds an empty one; either way nothing is read that was not
there before. -/
namespace Gemv

theorem Text.length_lines_append_feed (cs : List Char) :
    (lines (cs ++ ['\n'])).length = 1 + cs.count '\n' := by
  have hsplit : (cs.splitOnP (· == '\n')).length = 1 + cs.count '\n' := by
    induction cs with
    | nil => rfl
    | cons c cs ih =>
        rw [List.splitOnP_cons_eq_if_modifyHead, List.count_cons]
        by_cases hc : (c == '\n') = true
        · rw [if_pos hc, if_pos hc, List.length_cons, ih, Nat.add_assoc]
        · rw [if_neg hc, if_neg hc, List.length_modifyHead, ih, Nat.add_zero]
  rw [lines_append_feed, lines_nil, List.append_nil, List.length_map, hsplit]

namespace Listing
open Text

/-- The error as it is reported when `k` more lines stand in front. -/
def later (k : Nat) : Error → Error
  | .listing line fault => .listing (line + k) fault
  | e => e

theorem entriesFrom_add (first k : Nat) (ls : List (List Char)) :
    entriesFrom (first + k) ls = (entriesFrom first ls).mapError (later k) := by
  induction ls generalizing first with
  | nil => rfl
  | cons l ls ih =>
      rw [entriesFrom_cons, entriesFrom_cons]
      cases entry l with
      | error fault => rfl
      | ok e =>
          simp only [Nat.add_right_comm first k 1, ih]
          cases entriesFrom (first + 1) ls <;> rfl

section Directives

/-- Some line of the text is a directive for the setting. -/
def Directs (text : String) (s : Setting) : Prop :=
  ∃ ls l n, Lines Eq text.toList ls ∧ l ∈ ls ∧ Means l (.setting s n)

theorem directs_iff_of_reads {text : String} {entries : List Entry}
    (h : Reads text.toList entries) {s : Setting} :
    Directs text s ↔ ∃ n, .setting s n ∈ entries := by
  have hlines : ∀ ls, Lines Eq text.toList ls ↔ lines text.toList = ls := by
    intro ls
    have hiff := @lines_iff _ _ id id text.toList ls
    rwa [List.map_id, List.map_id] at hiff
  have hentry : ∀ e, e ∈ entries ↔ ∃ l ∈ lines text.toList, entry l = .ok e := by
    intro e
    rw [← List.mem_map, h]
    simp
  simp only [Directs, hlines, hentry, means_iff]
  constructor
  · rintro ⟨_, l, n, rfl, hl, hn⟩
    exact ⟨n, l, hl, hn⟩
  · rintro ⟨n, l, hl, hn⟩
    exact ⟨_, l, n, rfl, hl, hn⟩

theorem get_set_eq (s : Setting) (c c' : Config) (n : Nat) :
    s.get (s.set c n) = s.get (s.set c' n) := by
  cases s <;> rfl

/-- A setting that the entries give does not depend on what was configured before them. -/
theorem get_configure_of_mem {s : Setting} {n : Nat} {entries : List Entry}
    (h : .setting s n ∈ entries) (c c' : Config) :
    s.get (entries.foldl Entry.configure c) = s.get (entries.foldl Entry.configure c') := by
  induction entries generalizing n c c' with
  | nil => cases h
  | cons e entries ih =>
      by_cases hlater : ∃ m, .setting s m ∈ entries
      · obtain ⟨m, hm⟩ := hlater
        exact ih hm _ _
      · have hlast : ∀ m, .setting s m ∉ entries := fun m hm => hlater ⟨m, hm⟩
        rw [List.foldl_cons, List.foldl_cons, get_configure_of_not_mem hlast,
          get_configure_of_not_mem hlast]
        rcases List.mem_cons.1 h with rfl | hmem
        · exact get_set_eq s c c' n
        · exact absurd hmem (hlast n)

end Directives

/-- Two texts with a line feed between them: the entries of both, or the fault of the first that has
one. -/
theorem parse_joined (name a b : String) :
    parse name (a ++ "\n" ++ b) =
      match entriesFrom 1 (lines (a ++ "\n").toList) with
      | .error e => .error e
      | .ok front =>
        ((entriesFrom 1 (lines b.toList)).mapError (later (1 + a.toList.count '\n'))).map
          fun back => ofEntries name (front ++ back) := by
  have hfeed : (a ++ "\n").toList = a.toList ++ ['\n'] := String.toList_append
  have hjoined : (a ++ "\n" ++ b).toList = a.toList ++ '\n' :: b.toList := by simp
  rw [parse, hfeed, hjoined, lines_append, entriesFrom_append, length_lines_append_feed,
    entriesFrom_add]
  cases entriesFrom 1 (lines (a.toList ++ ['\n'])) with
  | error e => rfl
  | ok front =>
      cases (entriesFrom 1 (lines b.toList)).mapError (later (1 + a.toList.count '\n')) <;> rfl

theorem entriesFrom_of_parse_eq_error {name text : String} {e : Error}
    (h : parse name text = .error e) : entriesFrom 1 (lines text.toList) = .error e :=
  map_eq_error_iff.1 h

theorem entriesFrom_of_parse_eq_ok {name text : String} {p : Program}
    (h : parse name text = .ok p) :
    ∃ entries, entriesFrom 1 (lines text.toList) = .ok entries ∧ ofEntries name entries = p :=
  map_eq_ok_iff.1 h

/-- Two listings joined at a line feed. A fault of the first is the fault of the whole. Otherwise a
fault of the second is reported as many lines further down as stand in front of it. If neither has a
fault, the words of the second follow those of the first, and each setting is that of the second if
it has a directive for it, and that of the first if not. -/
theorem parse_line_by_line (name a b : String) :
    let joined := a ++ "\n" ++ b
    let k := 1 + a.toList.count '\n'
    (∀ e, parse name a = .error e → parse name joined = .error e) ∧
      (∀ p e, parse name a = .ok p → parse name b = .error e →
        ∃ l fault, e = .listing l fault ∧ parse name joined = .error (.listing (l + k) fault)) ∧
      ∀ p q, parse name a = .ok p → parse name b = .ok q →
        ∃ r, parse name joined = .ok r ∧ r.name = name ∧ r.words = p.words ++ q.words ∧
          ∀ s : Setting, (Directs b s → s.get r.config = s.get q.config) ∧
            (¬Directs b s → s.get r.config = s.get p.config) := by
  intro joined k
  have hjoined := parse_joined name a b
  rw [← parse_append_feed name a]
  refine ⟨?_, ?_, ?_⟩
  · intro e ha
    rw [hjoined, entriesFrom_of_parse_eq_error ha]
  · intro p e ha hb
    obtain ⟨front, hfront, -⟩ := entriesFrom_of_parse_eq_ok ha
    obtain ⟨before, bad, after, fault, -, -, -, rfl⟩ := parse_eq_error_iff.1 hb
    refine ⟨before.length + 1, fault, rfl, ?_⟩
    rw [hjoined, hfront, entriesFrom_of_parse_eq_error hb]
    rfl
  · intro p q ha hb
    obtain ⟨front, hfront, rfl⟩ := entriesFrom_of_parse_eq_ok ha
    obtain ⟨back, hback, rfl⟩ := entriesFrom_of_parse_eq_ok hb
    have hdirects : ∀ s, Directs b s ↔ ∃ n, .setting s n ∈ back := fun _ =>
      directs_iff_of_reads (entriesFrom_eq_ok_iff.1 hback)
    have hconfig : (ofEntries name (front ++ back)).config =
        back.foldl Entry.configure (ofEntries name front).config := List.foldl_append
    refine ⟨ofEntries name (front ++ back), ?_, rfl, List.flatMap_append, ?_⟩
    · rw [hjoined, hfront, hback]
      rfl
    · intro s
      rw [hdirects, hconfig]
      refine ⟨?_, ?_⟩
      · rintro ⟨n, hn⟩
        exact get_configure_of_mem hn _ _
      · intro hnone
        exact get_configure_of_not_mem (fun n hn => hnone ⟨n, hn⟩) _

-- A directive counts even if it gives the standard value, which is what its absence would give.
example : (parse "k" ".lanes 8\r\n.lanes 16").toOption.map (·.config.lanes) = some 16 ∧
    (parse "k" ".lanes 8\r\n7").toOption.map (·.config.lanes) = some 8 := by
  decide +kernel

end Listing

end Gemv
