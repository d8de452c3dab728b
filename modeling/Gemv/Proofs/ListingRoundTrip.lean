import Gemv.Proofs.ListingLines
import Gemv.Proofs.Traversal

/-! Listings read back.

`Reads` says what entries the lines of a text make up. A list of lines is read as its front and then
its back (`entriesFrom_append`), and a line feed at the end of a text adds nothing
(`parse_append_feed`). Written settings and words read as themselves, so a written listing fails to
read back only through its first line: a name with a line feed in it puts the rest of the header on
lines of their own, where it is read like any other text. -/
namespace Gemv.Listing
open Text

/-- Every line of the text is good, and these are its entries. -/
def Reads (text : List Char) (entries : List Entry) : Prop :=
  (lines text).map entry = entries.map .ok

theorem numberedEntry_eq_ok_iff {l : List Char} {n : Nat} {e : Entry} :
    numberedEntry (l, n) = .ok e ↔ entry l = .ok e := by
  rw [numberedEntry]
  cases entry l with
  | error fault => exact iff_of_false nofun nofun
  | ok e' =>
      constructor
      · intro h
        cases h
        rfl
      · intro h
        cases h
        rfl

theorem entriesFrom_eq_ok_iff {first : Nat} {ls : List (List Char)} {entries : List Entry} :
    entriesFrom first ls = .ok entries ↔ ls.map entry = entries.map .ok := by
  rw [entriesFrom, mapM_eq_ok_iff]
  induction ls generalizing first entries with
  | nil => cases entries <;> simp
  | cons l ls ih =>
      cases entries with
      | nil => simp [List.zipIdx_cons]
      | cons e entries =>
          simp only [List.zipIdx_cons, List.map_cons, List.cons.injEq, numberedEntry_eq_ok_iff, ih]

theorem parse_eq_ok_iff {name text : String} {p : Program} :
    parse name text = .ok p ↔
      ∃ entries, Reads text.toList entries ∧ ofEntries name entries = p := by
  have hreads : ∀ entries, Reads text.toList entries ↔
      entriesFrom 1 (lines text.toList) = .ok entries := by
    intro entries
    exact entriesFrom_eq_ok_iff.symm
  simp only [hreads, parse, map_eq_ok_iff]

theorem reads_iff_eq {text : List Char} {known : List Entry} (h : Reads text known)
    {entries : List Entry} : Reads text entries ↔ entries = known := by
  rw [Reads, h, List.map_inj_right (by simp), eq_comm]

/-- A text is read line by line, so a line feed cuts it in two. -/
theorem reads_append_iff {a b : List Char} {entries : List Entry} :
    Reads (a ++ '\n' :: b) entries ↔
      ∃ front back, entries = front ++ back ∧ Reads (a ++ ['\n']) front ∧ Reads b back := by
  rw [Reads, lines_append, List.map_append, eq_comm, List.map_eq_append_iff]
  simp only [Reads, eq_comm]

section Entries

theorem entriesFrom_cons (first : Nat) (l : List Char) (ls : List (List Char)) :
    entriesFrom first (l :: ls) =
      match entry l with
      | .error fault => .error (.listing first fault)
      | .ok e => (entriesFrom (first + 1) ls).map (e :: ·) := by
  rw [entriesFrom, List.zipIdx_cons, mapM_cons_eq, numberedEntry]
  cases entry l <;> rfl

/-- The front of a list of lines is read first, and a bad line in it decides. -/
theorem entriesFrom_append (first : Nat) (xs ys : List (List Char)) :
    entriesFrom first (xs ++ ys) =
      match entriesFrom first xs with
      | .error e => .error e
      | .ok front => (entriesFrom (first + xs.length) ys).map (front ++ ·) := by
  induction xs generalizing first with
  | nil =>
      change entriesFrom first ys = (entriesFrom first ys).map ([] ++ ·)
      cases entriesFrom first ys <;> rfl
  | cons l xs ih =>
      rw [List.cons_append, entriesFrom_cons, entriesFrom_cons, List.length_cons]
      cases entry l with
      | error fault => rfl
      | ok e =>
          simp only [ih, Nat.add_assoc, Nat.add_comm 1]
          cases entriesFrom (first + 1) xs with
          | error e' => rfl
          | ok front => cases entriesFrom (first + (xs.length + 1)) ys <;> rfl

theorem entriesFrom_congr {xs ys : List (List Char)} (h : xs.map entry = ys.map entry)
    (first : Nat) : entriesFrom first xs = entriesFrom first ys := by
  induction xs generalizing ys first with
  | nil => rw [List.map_eq_nil_iff.1 h.symm]
  | cons l xs ih =>
      obtain ⟨l', ys, rfl, hl, hrest⟩ := List.map_eq_cons_iff.1 h.symm
      rw [entriesFrom_cons, entriesFrom_cons, hl, ih hrest.symm]

/-- A line feed at the end of a text changes nothing. -/
theorem parse_append_feed (name text : String) : parse name (text ++ "\n") = parse name text := by
  have hfeed : (text ++ "\n").toList = text.toList ++ ['\n'] := String.toList_append
  rw [parse, parse, hfeed]
  -- The feed ends a last line, which may lose a carriage return to it, or makes an empty line.
  rcases lines_append_feed_end text.toList with ⟨ls, last, hlines, hended⟩ | hmore
  · have hsame : (lines (text.toList ++ ['\n'])).map entry = (lines text.toList).map entry := by
      rw [hlines, hended, List.map_append, List.map_append, List.map_singleton, List.map_singleton,
        entry_dropReturn]
    rw [entriesFrom_congr hsame]
  · have hempty : ∀ first, entriesFrom first [[]] = .ok [.words []] := fun _ => rfl
    rw [hmore, entriesFrom_append, hempty]
    cases entriesFrom 1 (lines text.toList) with
    | error e => rfl
    | ok entries =>
        change Except.ok (ofEntries name (entries ++ [.words []])) = .ok (ofEntries name entries)
        simp [ofEntries, Entry.instructions, Entry.configure]

/-- The words that a text is read as, if it is good. -/
theorem exists_reads_iff (name : String) {text : List Char} {ws : List Instruction} :
    (∃ entries, Reads text entries ∧ entries.flatMap (·.instructions) = ws) ↔
      ∃ p, parse name (String.ofList text) = .ok p ∧ p.words = ws := by
  simp only [parse_eq_ok_iff, String.toList_ofList]
  constructor
  · rintro ⟨entries, hreads, hwords⟩
    exact ⟨ofEntries name entries, ⟨entries, hreads, rfl⟩, hwords⟩
  · rintro ⟨_, ⟨entries, hreads, rfl⟩, hwords⟩
    exact ⟨entries, hreads, hwords⟩

theorem exists_reads_append_feed {cs : List Char} {ws : List Instruction} :
    (∃ entries, Reads (cs ++ ['\n']) entries ∧ entries.flatMap (·.instructions) = ws) ↔
      ∃ entries, Reads cs entries ∧ entries.flatMap (·.instructions) = ws := by
  have hfeed : String.ofList (cs ++ ['\n']) = String.ofList cs ++ "\n" := String.ofList_append
  rw [exists_reads_iff "", exists_reads_iff "", hfeed, parse_append_feed]

end Entries

section Header

/-- What stands after the first line feed of a text; nothing if there is none. -/
def afterFeed (cs : List Char) : List Char := (cs.dropWhile (· != '\n')).drop 1

theorem dropWhile_of_feed_not_mem {a : List Char} (ha : '\n' ∉ a) (b : List Char) :
    (a ++ b).dropWhile (· != '\n') = b.dropWhile (· != '\n') := by
  apply List.dropWhile_append_of_pos
  intro c hc
  rw [bne_iff_ne]
  rintro rfl
  exact ha hc

theorem afterFeed_of_not_mem {cs : List Char} (h : '\n' ∉ cs) : afterFeed cs = [] := by
  have hall := dropWhile_of_feed_not_mem h []
  rw [List.append_nil] at hall
  rw [afterFeed, hall]
  rfl

theorem afterFeed_append {a : List Char} (ha : '\n' ∉ a) (b : List Char) :
    afterFeed (a ++ '\n' :: b) = b := by
  rw [afterFeed, dropWhile_of_feed_not_mem ha]
  rfl

theorem reads_comment {a : List Char} (ha : '\n' ∉ a) {entries : List Entry} :
    Reads ('#' :: a ++ ['\n']) entries ↔ entries = [.words []] := by
  have hline : '\n' ∉ '#' :: a := by simpa using ha
  apply reads_iff_eq
  rw [Reads, lines_feed hline, List.map_singleton, entry_dropReturn, entry_comment]
  rfl

/-- A comment that goes on after a line feed is a comment no more. -/
theorem exists_reads_comment {cs : List Char} {ws : List Instruction} :
    (∃ entries, Reads ('#' :: cs ++ ['\n']) entries ∧ entries.flatMap (·.instructions) = ws) ↔
      ∃ entries, Reads (afterFeed cs) entries ∧ entries.flatMap (·.instructions) = ws := by
  by_cases hfeed : '\n' ∈ cs
  · obtain ⟨a, b, rfl, ha⟩ := List.eq_append_cons_of_mem hfeed
    have hcut : '#' :: (a ++ '\n' :: b) ++ ['\n'] = '#' :: a ++ '\n' :: (b ++ ['\n']) := by simp
    rw [afterFeed_append ha, hcut]
    refine Iff.trans ?_ exists_reads_append_feed
    constructor
    · rintro ⟨_, hreads, rfl⟩
      obtain ⟨_, back, rfl, hfront, hback⟩ := reads_append_iff.1 hreads
      rw [reads_comment ha] at hfront
      exact ⟨back, hback, by simp [hfront, Entry.instructions]⟩
    · rintro ⟨back, hback, rfl⟩
      exact ⟨[.words []] ++ back,
        reads_append_iff.2 ⟨_, _, rfl, (reads_comment ha).2 rfl, hback⟩, rfl⟩
  · have hnone : Reads [] [] := rfl
    rw [afterFeed_of_not_mem hfeed]
    simp only [reads_comment hfeed, reads_iff_eq hnone, exists_eq_left]
    rfl

end Header

section Body

/-- The entries that a program is written as, after the header. -/
def writtenEntries (p : Program) : List Entry :=
  Setting.all.map (fun s => .setting s (s.get p.config)) ++ p.words.map fun w => .words [w]

/-- The written text after the header. -/
def writtenBody (p : Program) : List Char :=
  ((Setting.all.map (settingLine p.config) ++ p.words.map wordLine).map String.toList).flatMap
    (· ++ ['\n'])

theorem toList_render (p : Program) :
    (render p).toList = '#' :: ' ' :: (header p).toList ++ '\n' :: writtenBody p := by
  simp [render, renderLines, writtenBody, List.flatMap_map]

theorem reads_writtenBody (p : Program) {entries : List Entry} :
    Reads (writtenBody p) entries ↔ entries = writtenEntries p := by
  apply reads_iff_eq
  have hfeeds : ∀ l ∈ (Setting.all.map (settingLine p.config) ++ p.words.map wordLine).map
      String.toList, '\n' ∉ l := by
    intro l hl
    obtain ⟨line, hline, rfl⟩ := List.mem_map.1 hl
    rcases List.mem_append.1 hline with hline | hline
    · obtain ⟨s, -, rfl⟩ := List.mem_map.1 hline
      exact feed_not_mem_settingLine p.config s
    · obtain ⟨w, -, rfl⟩ := List.mem_map.1 hline
      exact feed_not_mem_wordLine w
  rw [Reads, writtenBody, lines_flatMap hfeeds]
  simp [writtenEntries, Function.comp_def, entry_dropReturn, entry_settingLine, entry_wordLine]

/-- The written settings give the whole configuration, whatever came before them. -/
theorem configure_writtenEntries (p : Program) (c : Config) :
    (writtenEntries p).foldl Entry.configure c = p.config := by
  have hwords : ∀ (ws : List Instruction) (c : Config),
      (ws.map fun w => Entry.words [w]).foldl Entry.configure c = c := by
    intro ws c
    induction ws with
    | nil => rfl
    | cons w ws ih => exact ih
  rw [writtenEntries, List.foldl_append, hwords]
  simp [Setting.all, Entry.configure, Setting.set, Setting.get]

theorem instructions_writtenEntries (p : Program) :
    (writtenEntries p).flatMap (·.instructions) = p.words := by
  simp [writtenEntries, Setting.all, Entry.instructions, List.flatMap_map]

/-- A program comes back unless something before its settings adds words to it. -/
theorem ofEntries_append_writtenEntries (p : Program) (front : List Entry) :
    ofEntries p.name (front ++ writtenEntries p) = p ↔ front.flatMap (·.instructions) = [] := by
  obtain ⟨name, words, config⟩ := p
  simp only [ofEntries, List.flatMap_append, List.foldl_append, configure_writtenEntries,
    instructions_writtenEntries, Program.mk.injEq, and_true, true_and, List.append_left_eq_self]

end Body

/-- A written listing reads back when what follows the first line feed of its header is good and
adds no words. -/
theorem parse_render_eq_ok_iff (p : Program) :
    parse p.name (render p) = .ok p ↔
      ∃ entries, Reads (afterFeed (header p).toList) entries ∧
        entries.flatMap (·.instructions) = [] := by
  have hspace : afterFeed (' ' :: (header p).toList) = afterFeed (header p).toList := by
    simp [afterFeed]
  rw [← hspace, ← exists_reads_comment, parse_eq_ok_iff, toList_render]
  constructor
  · rintro ⟨entries, hreads, hprogram⟩
    obtain ⟨front, back, rfl, hfront, hback⟩ := reads_append_iff.1 hreads
    rw [reads_writtenBody] at hback
    subst hback
    exact ⟨front, hfront, (ofEntries_append_writtenEntries p front).1 hprogram⟩
  · rintro ⟨front, hfront, hnone⟩
    refine ⟨front ++ writtenEntries p, ?_, (ofEntries_append_writtenEntries p front).2 hnone⟩
    exact reads_append_iff.2 ⟨front, _, rfl, hfront, (reads_writtenBody p).2 rfl⟩

theorem feed_not_mem_header {p : Program} (hname : '\n' ∉ p.name.toList) :
    '\n' ∉ (header p).toList := by
  simp only [header, String.toList_append, List.mem_append, not_or]
  exact ⟨⟨⟨hname, by simp⟩, feed_not_mem_decimal _⟩, by simp⟩

theorem parse_render_of_feed_not_mem {p : Program} (h : '\n' ∉ p.name.toList) :
    parse p.name (render p) = .ok p := by
  rw [parse_render_eq_ok_iff, afterFeed_of_not_mem (feed_not_mem_header h)]
  exact ⟨[], rfl, rfl⟩

/-- Exactly when a program reads back from its listing: what follows the first line feed of the
header, if there is one, must be a listing without words. A name without line feeds is safe. -/
theorem parse_render_iff (p : Program) :
    (parse p.name (render p) = .ok p ↔
        ∃ q, parse p.name (String.ofList (afterFeed (header p).toList)) = .ok q ∧ q.words = []) ∧
      ('\n' ∉ p.name.toList → parse p.name (render p) = .ok p) := by
  refine ⟨?_, parse_render_of_feed_not_mem⟩
  rw [parse_render_eq_ok_iff, exists_reads_iff p.name]

end Gemv.Listing
