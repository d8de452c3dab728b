import Gemv.Proofs.ListingRoundTrip
import Gemv.Proofs.TextGrammar

/-! The grammar of listings.

`Means` gives the lines that a listing may have and what each contributes. A line is read exactly if
it is one of these (`means_iff`), so a text is read exactly if all its lines are, and the first line
that is not is the one reported. -/
namespace Gemv.Listing
open Text

section Comments

def StartsComment (cs : List Char) : Prop :=
  (∃ rest, cs = '#' :: rest) ∨ ∃ rest, cs = '/' :: '/' :: rest

/-- The line is `code` and then a comment or nothing, and no comment starts before. -/
def BeforeComment (line code : List Char) : Prop :=
  ∃ comment, line = code ++ comment ∧ (comment = [] ∨ StartsComment comment) ∧
    ∀ back, back <:+ code → back ≠ [] → ¬StartsComment (back ++ comment)

theorem stripComment_of_startsComment {cs : List Char} (h : StartsComment cs) :
    stripComment cs = [] := by
  rcases h with ⟨rest, rfl⟩ | ⟨rest, rfl⟩
  · rfl
  · rfl

theorem stripComment_of_not_startsComment {c : Char} {cs : List Char}
    (h : ¬StartsComment (c :: cs)) : stripComment (c :: cs) = c :: stripComment cs := by
  rw [stripComment]
  · rintro rfl
    exact h (.inl ⟨cs, rfl⟩)
  · rintro rest rfl rfl
    exact h (.inr ⟨rest, rfl⟩)

theorem stripComment_of_beforeComment {line code : List Char} (h : BeforeComment line code) :
    stripComment line = code := by
  obtain ⟨comment, rfl, hcomment, hfree⟩ := h
  induction code with
  | nil =>
      rcases hcomment with rfl | hstarts
      · rfl
      · exact stripComment_of_startsComment hstarts
  | cons c code ih =>
      have hc : ¬StartsComment (c :: (code ++ comment)) :=
        hfree (c :: code) (List.suffix_refl _) (List.cons_ne_nil c code)
      rw [List.cons_append, stripComment_of_not_startsComment hc, ih]
      intro back hback
      exact hfree back (hback.trans (List.suffix_cons c code))

theorem beforeComment_stripComment (line : List Char) :
    BeforeComment line (stripComment line) := by
  induction line with
  | nil => exact ⟨[], rfl, .inl rfl, by simp [stripComment]⟩
  | cons c cs ih =>
      by_cases hstarts : StartsComment (c :: cs)
      · rw [stripComment_of_startsComment hstarts]
        exact ⟨c :: cs, rfl, .inr hstarts, by simp⟩
      · rw [stripComment_of_not_startsComment hstarts]
        obtain ⟨comment, hcs, hcomment, hfree⟩ := ih
        refine ⟨comment, congrArg (c :: ·) hcs, hcomment, ?_⟩
        intro back hback hne
        rcases List.suffix_cons_iff.1 hback with rfl | hback
        · rwa [List.cons_append, ← hcs]
        · exact hfree back hback hne

/-- What is left of a line without its comment and the blanks around the rest. -/
def Code (line code : List Char) : Prop := ∃ text, BeforeComment line text ∧ Trimmed text code

theorem code_iff {line code : List Char} : Code line code ↔ trim (stripComment line) = code := by
  constructor
  · rintro ⟨text, hbefore, htrimmed⟩
    rw [stripComment_of_beforeComment hbefore]
    exact trimmed_iff.1 htrimmed
  · intro h
    exact ⟨stripComment line, beforeComment_stripComment line, trimmed_iff.2 h⟩

end Comments

section Words

/-- A word of 32 bits in hexadecimal, with or without a mark in front. -/
inductive Word : List Char → Instruction → Prop where
  | bare {digits : List Char} {n : Nat} (h : Numeral 16 digits n) (hn : n < 2 ^ 32) :
      Word digits ⟨UInt32.ofNat n⟩
  | marked {digits : List Char} {x : Char} {n : Nat} (hx : x = 'x' ∨ x = 'X')
      (h : Numeral 16 digits n) (hn : n < 2 ^ 32) : Word ('0' :: x :: digits) ⟨UInt32.ofNat n⟩

theorem not_digit_mark {x : Char} (hx : x = 'x' ∨ x = 'X') (d : Nat) : ¬Digit 16 x d := by
  intro h
  have hvalue := digitValue?_of_digit (Nat.le_refl 16) h
  rcases hx with rfl | rfl
  · cases hvalue
  · cases hvalue

theorem not_numeral_mark {x : Char} (hx : x = 'x' ∨ x = 'X') (rest : List Char) (n : Nat) :
    ¬Numeral 16 ('0' :: x :: rest) n := by
  intro h
  cases h with
  | plain h =>
      obtain ⟨d, hd⟩ := h.digit_of_mem (List.mem_cons_of_mem _ (List.mem_cons_self ..))
      exact not_digit_mark hx d hd

theorem word_eq_ok_iff {token : List Char} {w : Instruction} :
    word token = .ok w ↔
      ∃ n, Numeral 16 (unmarked token) n ∧ n < 2 ^ 32 ∧ w = ⟨UInt32.ofNat n⟩ := by
  have hread := @readBelow?_eq_some_iff 16 (Nat.le_refl 16) (2 ^ 32) (unmarked token)
  constructor
  · intro hw
    unfold word at hw
    split at hw
    · rename_i n h
      obtain ⟨hnumeral, hn⟩ := hread.1 h
      cases hw
      exact ⟨n, hnumeral, hn, rfl⟩
    · cases hw
  · rintro ⟨n, hnumeral, hn, rfl⟩
    rw [word, hread.2 ⟨hnumeral, hn⟩]

theorem word_iff {token : List Char} {w : Instruction} : Word token w ↔ word token = .ok w := by
  rw [word_eq_ok_iff]
  constructor
  · intro h
    cases h with
    | bare h hn =>
        refine ⟨_, ?_, hn, rfl⟩
        -- A mark here would be part of the digits.
        unfold unmarked
        split
        · exact absurd h (not_numeral_mark (.inl rfl) _ _)
        · exact absurd h (not_numeral_mark (.inr rfl) _ _)
        · exact h
    | marked hx h hn =>
        rcases hx with rfl | rfl
        · exact ⟨_, h, hn, rfl⟩
        · exact ⟨_, h, hn, rfl⟩
  · rintro ⟨n, h, hn, rfl⟩
    unfold unmarked at h
    split at h
    · exact .marked (.inl rfl) h hn
    · exact .marked (.inr rfl) h hn
    · exact .bare h hn

end Words

section Directives

/-- The keys of directives, what they set, and where their values end. -/
def directives : List (String × Setting × Nat) :=
  [("frac_width", .fractionWidth, 2 ^ 32), ("max_rows", .maxRows, 2 ^ 64),
   ("max_cols", .maxColumns, 2 ^ 64), ("reg_width", .width, 2 ^ 64),
   ("id_width", .blockIdWidth, 2 ^ 32), ("lanes", .lanes, 2 ^ 64)]

theorem mem_directives_iff {key : String} {s : Setting} {bound : Nat} :
    (key, s, bound) ∈ directives ↔ key = s.key ∧ bound = s.bound := by
  cases s <;> simp [directives, Setting.key, Setting.bound]

theorem ofKey?_eq_some_iff {key : String} {s : Setting} :
    Setting.ofKey? key = some s ↔ key = s.key := by
  constructor
  · intro h
    have hkey := List.find?_some h
    exact (eq_of_beq hkey).symm
  · rintro rfl
    exact ofKey?_key s

theorem settingValue_eq_ok_iff {s : Setting} {text : List Char} {n : Nat} :
    settingValue s text = .ok n ↔ Numeral 10 text n ∧ n < s.bound := by
  have hread := @readBelow?_eq_some_iff 10 (by decide) (2 ^ 64) text
  have hbound := bound_le s
  constructor
  · intro hvalue
    unfold settingValue at hvalue
    split at hvalue
    · cases hvalue
    · rename_i m h
      by_cases hm : m < s.bound
      · rw [if_pos hm] at hvalue
        cases hvalue
        exact ⟨(hread.1 h).1, hm⟩
      · rw [if_neg hm] at hvalue
        cases hvalue
  · rintro ⟨hnumeral, hn⟩
    rw [settingValue, hread.2 ⟨hnumeral, Nat.lt_of_lt_of_le hn hbound⟩]
    exact if_pos hn

theorem directive_eq_ok_iff {rest : List Char} {e : Entry} :
    directive rest = .ok e ↔
      ∃ key value s bound n, Pieces isBlank Eq rest [key, value] ∧
        (String.ofList key, s, bound) ∈ directives ∧ Numeral 10 value n ∧ n < bound ∧
        e = .setting s n := by
  have hfields : ∀ ps, Pieces isBlank Eq rest ps ↔ fields isBlank rest = ps := by
    intro ps
    have hpieces := @pieces_iff isBlank _ _ id id rest ps
    rwa [List.map_id, List.map_id] at hpieces
  simp only [hfields, mem_directives_iff, ← ofKey?_eq_some_iff]
  constructor
  · intro h
    unfold directive at h
    split at h
    · cases h
    · cases h
    · rename_i key value hparts
      cases hkey : Setting.ofKey? (String.ofList key) with
      | none =>
          rw [hkey] at h
          cases h
      | some s =>
          simp only [hkey] at h
          obtain ⟨n, hvalue, rfl⟩ := map_eq_ok_iff.1 h
          obtain ⟨hnumeral, hn⟩ := settingValue_eq_ok_iff.1 hvalue
          exact ⟨key, value, s, s.bound, n, hparts, ⟨hkey, rfl⟩, hnumeral, hn, rfl⟩
    · cases h
  · rintro ⟨key, value, s, bound, n, hparts, ⟨hkey, rfl⟩, hnumeral, hn, rfl⟩
    rw [directive, hparts]
    simp only [hkey, settingValue_eq_ok_iff.2 ⟨hnumeral, hn⟩]
    rfl

end Directives

/-- What a line of a listing contributes: nothing, a setting or words. -/
inductive Means (line : List Char) : Entry → Prop where
  | blank (hcode : Code line []) : Means line (.words [])
  | directive {rest key value : List Char} {s : Setting} {bound n : Nat}
      (hcode : Code line ('.' :: rest)) (hfields : Pieces isBlank Eq rest [key, value])
      (hkey : (String.ofList key, s, bound) ∈ directives) (hvalue : Numeral 10 value n)
      (hbound : n < bound) : Means line (.setting s n)
  | words {code : List Char} {ws : List Instruction} (hcode : Code line code)
      (hpoint : code.head? ≠ some '.')
      (hpieces : Pieces (fun c => c == ',' || isBlank c) Word code ws) : Means line (.words ws)

theorem words_eq_ok_iff {code : List Char} {ws : List Instruction} :
    (fields separatesWords code).mapM word = .ok ws ↔
      Pieces (fun c => c == ',' || isBlank c) Word code ws := by
  have hword : Word = fun token w => word token = .ok w := by
    funext token w
    exact propext word_iff
  rw [mapM_eq_ok_iff, hword, pieces_iff]
  rfl

theorem means_iff {line : List Char} {e : Entry} : Means line e ↔ entry line = .ok e := by
  constructor
  · intro h
    cases h with
    | blank hcode =>
        rw [entry, code_iff.1 hcode]
        rfl
    | directive hcode hfields hkey hvalue hbound =>
        rw [entry, code_iff.1 hcode]
        exact directive_eq_ok_iff.2 ⟨_, _, _, _, _, hfields, hkey, hvalue, hbound, rfl⟩
    | words hcode hpoint hpieces =>
        rw [entry, code_iff.1 hcode]
        split
        · simp at hpoint
        · rw [words_eq_ok_iff.2 hpieces]
          rfl
  · intro h
    unfold entry at h
    split at h
    · rename_i rest hcode
      obtain ⟨key, value, s, bound, n, hfields, hkey, hvalue, hbound, rfl⟩ :=
        directive_eq_ok_iff.1 h
      exact .directive (code_iff.2 hcode) hfields hkey hvalue hbound
    · rename_i hpoint
      obtain ⟨ws, hwords, rfl⟩ := map_eq_ok_iff.1 h
      refine .words (code_iff.2 rfl) ?_ (words_eq_ok_iff.1 hwords)
      intro hhead
      obtain ⟨rest, hrest⟩ := List.head?_eq_some_iff.1 hhead
      exact hpoint rest hrest

section FirstFault

theorem numberedEntry_eq_error_iff {l : List Char} {n : Nat} {e : Error} :
    numberedEntry (l, n) = .error e ↔ ∃ fault, entry l = .error fault ∧ e = .listing n fault := by
  rw [numberedEntry]
  cases entry l with
  | ok x =>
      constructor
      · intro h
        cases h
      · rintro ⟨fault, hfault, -⟩
        cases hfault
  | error fault =>
      constructor
      · intro h
        cases h
        exact ⟨fault, rfl, rfl⟩
      · rintro ⟨_, ⟨⟩, rfl⟩
        rfl

/-- The first line that cannot be read decides, by its number. -/
theorem entriesFrom_eq_error_iff {first : Nat} {ls : List (List Char)} {e : Error} :
    entriesFrom first ls = .error e ↔
      ∃ before bad after fault, ls = before ++ bad :: after ∧
        (∀ l ∈ before, ∃ x, entry l = .ok x) ∧ entry bad = .error fault ∧
        e = .listing (first + before.length) fault := by
  have hread : ∀ p, (∃ x, numberedEntry p = .ok x) ↔ ∃ x, entry p.1 = .ok x := by
    rintro ⟨l, n⟩
    simp only [numberedEntry_eq_ok_iff]
  have hcut := @exists_zipIdx_cut_iff _ (fun l => ∃ x, entry l = .ok x)
    (fun p => numberedEntry p = .error e) ls first
  rw [entriesFrom, mapM_eq_error_iff]
  simp only [hread]
  refine hcut.trans ?_
  constructor
  · rintro ⟨before, bad, after, hls, hbefore, hbad⟩
    obtain ⟨fault, hfault, he⟩ := numberedEntry_eq_error_iff.1 hbad
    exact ⟨before, bad, after, fault, hls, hbefore, hfault, he⟩
  · rintro ⟨before, bad, after, fault, hls, hbefore, hfault, he⟩
    exact ⟨before, bad, after, hls, hbefore, numberedEntry_eq_error_iff.2 ⟨fault, hfault, he⟩⟩

end FirstFault

section Settings

theorem get_set {s : Setting} {n : Nat} (h : n < s.bound) (c : Config) : s.get (s.set c n) = n := by
  cases s with
  | fractionWidth | blockIdWidth => exact UInt32.toNat_ofNat_of_lt' h
  | maxRows | maxColumns | width | lanes => exact UInt64.toNat_ofNat_of_lt' h

theorem get_set_of_ne {s s' : Setting} (h : s' ≠ s) (c : Config) (n : Nat) :
    s.get (s'.set c n) = s.get c := by
  cases s' <;> cases s <;> simp [Setting.get, Setting.set] at h ⊢

theorem get_configure_of_not_mem {s : Setting} {entries : List Entry}
    (h : ∀ n, .setting s n ∉ entries) (c : Config) :
    s.get (entries.foldl Entry.configure c) = s.get c := by
  induction entries generalizing c with
  | nil => rfl
  | cons e entries ih =>
      have hrest : ∀ n, .setting s n ∉ entries := fun n hn => h n (List.mem_cons_of_mem e hn)
      rw [List.foldl_cons, ih hrest]
      cases e with
      | words ws => rfl
      | setting s' n =>
          apply get_set_of_ne
          rintro rfl
          exact h n (List.mem_cons_self ..)

/-- The last of several values of a setting is the one that counts. -/
theorem get_configure_of_last {s : Setting} {n : Nat} (hn : n < s.bound)
    {after : List Entry} (hlast : ∀ m, .setting s m ∉ after) (before : List Entry) (c : Config) :
    s.get ((before ++ .setting s n :: after).foldl Entry.configure c) = n := by
  rw [List.foldl_append, List.foldl_cons, get_configure_of_not_mem hlast]
  exact get_set hn _

end Settings

/-- Each setting has the last value that an entry gives it, and its standard value if none does. -/
def Configures (entries : List Entry) (c : Config) : Prop :=
  ∀ s : Setting,
    (∀ before n after, entries = before ++ .setting s n :: after →
      (∀ m, .setting s m ∉ after) → s.get c = n) ∧
    ((∀ n, .setting s n ∉ entries) → s.get c = s.get {})

theorem Means.lt_bound {line : List Char} {s : Setting} {n : Nat}
    (h : Means line (.setting s n)) : n < s.bound := by
  cases h with
  | directive _ _ hkey _ hbound =>
      obtain ⟨-, rfl⟩ := mem_directives_iff.1 hkey
      exact hbound

theorem configures_of_lines {cs : List Char} {entries : List Entry} (h : Lines Means cs entries) :
    Configures entries (entries.foldl Entry.configure {}) := by
  intro s
  constructor
  · rintro before n after rfl hlast
    obtain ⟨l, hl⟩ := h.exists_of_mem (List.mem_append_right before (List.mem_cons_self ..))
    exact get_configure_of_last hl.lt_bound hlast before {}
  · intro hnever
    exact get_configure_of_not_mem hnever {}

theorem parse_eq_ok_iff_lines {name text : String} {p : Program} :
    parse name text = .ok p ↔
      ∃ entries, Lines Means text.toList entries ∧ ofEntries name entries = p := by
  have hmeans : Means = fun line e => entry line = .ok e := by
    funext line e
    exact propext means_iff
  rw [parse_eq_ok_iff, hmeans]
  simp only [Reads, lines_iff]

theorem parse_eq_error_iff {name text : String} {e : Error} :
    parse name text = .error e ↔
      ∃ before bad after fault, lines text.toList = before ++ bad :: after ∧
        (∀ l ∈ before, ∃ x, Means l x) ∧ entry bad = .error fault ∧
        e = .listing (before.length + 1) fault := by
  rw [parse, map_eq_error_iff, entriesFrom_eq_error_iff]
  simp only [means_iff, Nat.add_comm 1]

theorem not_means_of_entry_eq_error {line : List Char} {fault : ListingFault}
    (h : entry line = .error fault) : ¬∃ x, Means line x := by
  rintro ⟨x, hx⟩
  rw [means_iff.1 hx] at h
  cases h

/-- A text is read exactly if each of its lines is blank, a directive or words. The program has the
words in the order of the text and is configured by the directives. A text that is not read is
reported by the number of its first bad line, counted from one. -/
theorem parse_grammar (name text : String) :
    ∃ ls, Lines Eq text.toList ls ∧
      ((∃ p, parse name text = .ok p) ↔ ∀ l ∈ ls, ∃ x, Means l x) ∧
      (∀ p, parse name text = .ok p → ∃ entries, Lines Means text.toList entries ∧
        p.name = name ∧ p.words = entries.flatMap (·.instructions) ∧ Configures entries p.config) ∧
      ∀ e, parse name text = .error e →
        ∃ before bad after fault, ls = before ++ bad :: after ∧
          (∀ l ∈ before, ∃ x, Means l x) ∧ (¬∃ x, Means bad x) ∧
          e = .listing (before.length + 1) fault := by
  have hlines : Lines Eq text.toList (lines text.toList) :=
    (@lines_iff _ _ id id text.toList _).2 rfl
  refine ⟨lines text.toList, hlines, ⟨?_, ?_⟩, ?_, ?_⟩
  · rintro ⟨p, hp⟩ l hl
    obtain ⟨entries, hreads, -⟩ := parse_eq_ok_iff.1 hp
    have hentry : entry l ∈ entries.map .ok := hreads ▸ List.mem_map_of_mem hl
    obtain ⟨x, -, hx⟩ := List.mem_map.1 hentry
    exact ⟨x, means_iff.2 hx.symm⟩
  · intro hgood
    cases hparse : parse name text with
    | ok p => exact ⟨p, rfl⟩
    | error e =>
        obtain ⟨before, bad, after, fault, hls, -, hbad, -⟩ := parse_eq_error_iff.1 hparse
        have hmem : bad ∈ lines text.toList := by
          rw [hls]
          exact List.mem_append_right before (List.mem_cons_self ..)
        exact absurd (hgood bad hmem) (not_means_of_entry_eq_error hbad)
  · intro p hp
    obtain ⟨entries, hentries, rfl⟩ := parse_eq_ok_iff_lines.1 hp
    exact ⟨entries, hentries, rfl, rfl, configures_of_lines hentries⟩
  · intro e he
    obtain ⟨before, bad, after, fault, hls, hbefore, hbad, he⟩ := parse_eq_error_iff.1 he
    exact ⟨before, bad, after, fault, hls, hbefore, not_means_of_entry_eq_error hbad, he⟩

end Gemv.Listing
