import Gemv.Proofs.Numerals
import Gemv.Proofs.TextPieces

/-! The form of texts, said without the functions that take them apart.

Each relation gives the parts of a text: the pieces between separators, the text without blanks at
its ends, the lines, the value of a numeral. Each is met by what the corresponding function finds,
and by nothing else: `pieces_iff`, `trimmed_iff`, `lines_iff`, `numeral_iff`. -/
namespace Gemv.Text

section Pieces

variable {separates : Char → Bool} {α β : Type}

/-- The maximal pieces of a text without separators, each read as a value. -/
inductive Pieces (separates : Char → Bool) (Reads : List Char → α → Prop) :
    List Char → List α → Prop where
  | nil : Pieces separates Reads [] []
  | gap {c : Char} {cs : List Char} {xs : List α} (hc : separates c = true)
      (hrest : Pieces separates Reads cs xs) : Pieces separates Reads (c :: cs) xs
  | piece {p cs : List Char} {x : α} {xs : List α} (hne : p ≠ [])
      (hp : ∀ c ∈ p, separates c = false) (hend : ∀ c ∈ cs.head?, separates c = true)
      (hread : Reads p x) (hrest : Pieces separates Reads cs xs) :
      Pieces separates Reads (p ++ cs) (x :: xs)

theorem fields_gap {c : Char} (hc : separates c = true) (cs : List Char) :
    fields separates (c :: cs) = fields separates cs := by
  have hcut := fields_append_cons hc [] cs
  rwa [fields_nil, List.nil_append, List.nil_append] at hcut

theorem fields_piece {p cs : List Char} (hne : p ≠ []) (hp : ∀ c ∈ p, separates c = false)
    (hend : ∀ c ∈ cs.head?, separates c = true) :
    fields separates (p ++ cs) = p :: fields separates cs := by
  cases cs with
  | nil => rw [List.append_nil, fields_of_forall hne hp, fields_nil]
  | cons c cs =>
      have hc : separates c = true := hend c rfl
      rw [fields_append_cons hc, fields_of_forall hne hp, fields_gap hc]
      rfl

theorem exists_piece {c : Char} (hc : separates c = false) (cs : List Char) :
    ∃ p rest, cs = p ++ rest ∧ (∀ d ∈ c :: p, separates d = false) ∧
      ∀ d ∈ rest.head?, separates d = true := by
  refine ⟨cs.takeWhile (!separates ·), cs.dropWhile (!separates ·),
    List.takeWhile_append_dropWhile.symm, ?_, ?_⟩
  · intro d hd
    rcases List.mem_cons.1 hd with rfl | hd
    · exact hc
    · simpa using List.all_eq_true.1 List.all_takeWhile d hd
  · intro d hd
    simpa [Option.mem_def.1 hd] using List.head?_dropWhile_not (!separates ·) cs

theorem pieces_iff {f : List Char → β} {g : α → β} {cs : List Char} {xs : List α} :
    Pieces separates (fun p x => f p = g x) cs xs ↔ (fields separates cs).map f = xs.map g := by
  constructor
  · intro h
    induction h with
    | nil =>
        rw [fields_nil]
        rfl
    | gap hc _ ih => rw [fields_gap hc, ih]
    | piece hne hp hend hread _ ih =>
        rw [fields_piece hne hp hend, List.map_cons, List.map_cons, hread, ih]
  · -- A piece takes any number of characters, so the induction is on the length of the text.
    induction hlen : cs.length using Nat.strongRecOn generalizing cs xs with
    | ind n ih =>
        intro h
        cases cs with
        | nil =>
            rw [fields_nil] at h
            cases List.map_eq_nil_iff.1 h.symm
            exact .nil
        | cons c cs =>
            rw [List.length_cons] at hlen
            cases hc : separates c with
            | true =>
                rw [fields_gap hc] at h
                exact .gap hc (ih cs.length (by omega) rfl h)
            | false =>
                obtain ⟨p, rest, rfl, hp, hend⟩ := exists_piece hc cs
                rw [← List.cons_append, fields_piece (List.cons_ne_nil c p) hp hend,
                  List.map_cons] at h
                obtain ⟨x, ys, rfl, hread, hrest⟩ := List.map_eq_cons_iff.1 h.symm
                have hshort : rest.length < n := by
                  rw [List.length_append] at hlen
                  omega
                exact .piece (List.cons_ne_nil c p) hp hend hread.symm
                  (ih rest.length hshort rfl hrest.symm)

end Pieces

section Trimmed

/-- The text is `core` with blanks around it, and `core` neither starts nor ends with one. -/
def Trimmed (cs core : List Char) : Prop :=
  ∃ left right, cs = left ++ core ++ right ∧ (∀ c ∈ left ++ right, isBlank c = true) ∧
    (∀ c ∈ core.head?, isBlank c = false) ∧ ∀ c ∈ core.getLast?, isBlank c = false

theorem dropWhile_of_head? {cs : List Char} (h : ∀ c ∈ cs.head?, isBlank c = false) :
    cs.dropWhile isBlank = cs := by
  cases cs with
  | nil => rfl
  | cons c cs => exact dropWhile_isBlank_cons (h c rfl) cs

theorem isBlank_of_mem_head?_dropWhile {c : Char} {cs : List Char}
    (h : c ∈ (cs.dropWhile isBlank).head?) : isBlank c = false := by
  simpa [Option.mem_def.1 h] using List.head?_dropWhile_not isBlank cs

theorem trim_of_trimmed {cs core : List Char} (h : Trimmed cs core) : trim cs = core := by
  obtain ⟨left, right, rfl, hblank, hhead, hlast⟩ := h
  have hleft : ∀ c ∈ left, isBlank c = true := fun c hc => hblank c (List.mem_append_left _ hc)
  have hright : ∀ c ∈ right.reverse, isBlank c = true := fun c hc =>
    hblank c (List.mem_append_right _ (List.mem_reverse.1 hc))
  rw [trim, List.append_assoc, List.dropWhile_append_of_pos hleft]
  cases core with
  | nil =>
      have hblanks : ∀ c ∈ right, isBlank c = true := fun c hc => hright c (List.mem_reverse.2 hc)
      rw [List.nil_append, ← List.append_nil right, List.dropWhile_append_of_pos hblanks]
      rfl
  | cons c core =>
      have hfront : ((c :: core) ++ right).dropWhile isBlank = (c :: core) ++ right :=
        dropWhile_of_head? hhead
      have hback : ((c :: core).reverse).dropWhile isBlank = (c :: core).reverse := by
        apply dropWhile_of_head?
        rwa [List.head?_reverse]
      rw [hfront, List.reverse_append, List.dropWhile_append_of_pos hright, hback,
        List.reverse_reverse]

theorem trimmed_trim (cs : List Char) : Trimmed cs (trim cs) := by
  let back := (cs.dropWhile isBlank).reverse
  have hback : back.takeWhile isBlank ++ back.dropWhile isBlank = back :=
    List.takeWhile_append_dropWhile
  have hrest : cs.dropWhile isBlank = trim cs ++ (back.takeWhile isBlank).reverse := by
    rw [trim, ← List.reverse_append, hback, List.reverse_reverse]
  refine ⟨cs.takeWhile isBlank, (back.takeWhile isBlank).reverse, ?_, ?_, ?_, ?_⟩
  · rw [List.append_assoc, ← hrest, List.takeWhile_append_dropWhile]
  · intro c hc
    rcases List.mem_append.1 hc with hc | hc
    · exact List.all_eq_true.1 List.all_takeWhile c hc
    · exact List.all_eq_true.1 List.all_takeWhile c (List.mem_reverse.1 hc)
  · intro c hc
    have hfirst : c ∈ (cs.dropWhile isBlank).head? := by
      rw [hrest, List.head?_append, Option.mem_def.1 hc]
      rfl
    exact isBlank_of_mem_head?_dropWhile hfirst
  · intro c hc
    rw [trim, List.getLast?_reverse] at hc
    exact isBlank_of_mem_head?_dropWhile hc

theorem trimmed_iff {cs core : List Char} : Trimmed cs core ↔ trim cs = core := by
  constructor
  · exact trim_of_trimmed
  · rintro rfl
    exact trimmed_trim cs

end Trimmed

section Lines

variable {α β : Type}

/-- The lines of a text, each read as a value. A line feed ends a line, and a carriage return
before it is no part of the line. -/
inductive Lines (Reads : List Char → α → Prop) : List Char → List α → Prop where
  | nil : Lines Reads [] []
  | last {l : List Char} {x : α} (hne : l ≠ []) (hl : '\n' ∉ l) (hread : Reads l x) :
      Lines Reads l [x]
  | feed {l rest : List Char} {x : α} {xs : List α} (hl : '\n' ∉ l) (hend : l.getLast? ≠ some '\r')
      (hread : Reads l x) (hrest : Lines Reads rest xs) : Lines Reads (l ++ '\n' :: rest) (x :: xs)
  | returnFeed {l rest : List Char} {x : α} {xs : List α} (hl : '\n' ∉ l) (hread : Reads l x)
      (hrest : Lines Reads rest xs) : Lines Reads (l ++ '\r' :: '\n' :: rest) (x :: xs)

theorem lines_cons {l : List Char} (hl : '\n' ∉ l) (rest : List Char) :
    lines (l ++ '\n' :: rest) = dropReturn l :: lines rest := by
  rw [lines_append, lines_feed hl]
  rfl

theorem lines_last {l : List Char} (hne : l ≠ []) (hl : '\n' ∉ l) : lines l = [l] := by
  simp [lines, splitOnP_of_feed_not_mem hl, hne]

theorem dropReturn_concat (l : List Char) : dropReturn (l ++ ['\r']) = l := by
  simp [dropReturn]

theorem lines_iff {f : List Char → β} {g : α → β} {cs : List Char} {xs : List α} :
    Lines (fun l x => f l = g x) cs xs ↔ (lines cs).map f = xs.map g := by
  constructor
  · intro h
    induction h with
    | nil =>
        rw [lines_nil]
        rfl
    | last hne hl hread => rw [lines_last hne hl, List.map_singleton, List.map_singleton, hread]
    | feed hl hend hread _ ih =>
        rw [lines_cons hl, dropReturn, if_neg hend, List.map_cons, List.map_cons, hread, ih]
    | @returnFeed l rest x xs hl hread _ ih =>
        have hl' : '\n' ∉ l ++ ['\r'] := by simpa using hl
        rw [List.append_cons, lines_cons hl', dropReturn_concat, List.map_cons, List.map_cons,
          hread, ih]
  · induction hlen : cs.length using Nat.strongRecOn generalizing cs xs with
    | ind n ih =>
        intro h
        by_cases hfeed : '\n' ∈ cs
        · obtain ⟨l, rest, rfl, hl⟩ := List.eq_append_cons_of_mem hfeed
          have hshort : rest.length < n := by
            rw [List.length_append, List.length_cons] at hlen
            omega
          rw [lines_cons hl, List.map_cons] at h
          obtain ⟨x, ys, rfl, hread, hrest⟩ := List.map_eq_cons_iff.1 h.symm
          have hmore := ih rest.length hshort rfl hrest.symm
          by_cases hreturn : l.getLast? = some '\r'
          · obtain ⟨body, rfl⟩ := List.getLast?_eq_some_iff.1 hreturn
            rw [dropReturn_concat] at hread
            rw [← List.append_cons]
            exact .returnFeed (fun hbody => hl (List.mem_append_left _ hbody)) hread.symm hmore
          · rw [dropReturn, if_neg hreturn] at hread
            exact .feed hl hreturn hread.symm hmore
        · by_cases hne : cs = []
          · subst hne
            rw [lines_nil] at h
            cases List.map_eq_nil_iff.1 h.symm
            exact .nil
          · rw [lines_last hne hfeed, List.map_singleton] at h
            obtain ⟨x, rfl, hread⟩ := List.map_eq_singleton_iff.1 h.symm
            exact .last hne hfeed hread.symm

theorem Lines.exists_of_mem {Reads : List Char → α → Prop} {cs : List Char} {xs : List α} {x : α}
    (h : Lines Reads cs xs) (hx : x ∈ xs) : ∃ l, Reads l x := by
  induction h with
  | nil => cases hx
  | last _ _ hread =>
      cases List.mem_singleton.1 hx
      exact ⟨_, hread⟩
  | feed _ _ hread _ ih =>
      rcases List.mem_cons.1 hx with rfl | hx
      · exact ⟨_, hread⟩
      · exact ih hx
  | returnFeed _ hread _ ih =>
      rcases List.mem_cons.1 hx with rfl | hx
      · exact ⟨_, hread⟩
      · exact ih hx

end Lines

section Numerals

variable {base : Nat}

/-- The digits below `base`, at most sixteen of them; letters stand in either case. -/
def Digit (base : Nat) (c : Char) (d : Nat) : Prop :=
  d < base ∧ ("0123456789abcdef".toList[d]? = some c ∨ "0123456789ABCDEF".toList[d]? = some c)

/-- A run of at least one digit, and its value. -/
inductive Digits (base : Nat) : List Char → Nat → Prop where
  | one {c : Char} {d : Nat} (hc : Digit base c d) : Digits base [c] d
  | more {cs : List Char} {n : Nat} {c : Char} {d : Nat} (hcs : Digits base cs n)
      (hc : Digit base c d) : Digits base (cs ++ [c]) (base * n + d)

/-- Digits, with or without a plus sign in front. -/
inductive Numeral (base : Nat) : List Char → Nat → Prop where
  | plain {cs : List Char} {n : Nat} (h : Digits base cs n) : Numeral base cs n
  | plus {cs : List Char} {n : Nat} (h : Digits base cs n) : Numeral base ('+' :: cs) n

theorem digitValue?_of_digit (hbase : base ≤ 16) {c : Char} {d : Nat} (h : Digit base c d) :
    digitValue? base c = some d := by
  have htable : ∀ b : Fin 17, ∀ d : Fin 16, d.val < b.val →
      ("0123456789abcdef".toList[d.val]?.all fun c => digitValue? b c == some d.val) ∧
        "0123456789ABCDEF".toList[d.val]?.all fun c => digitValue? b c == some d.val := by
    decide
  obtain ⟨hd, hc⟩ := h
  have hrow := htable ⟨base, by omega⟩ ⟨d, by omega⟩ hd
  rcases hc with hc | hc
  · simp only [hc, Option.all_some, beq_iff_eq] at hrow
    exact hrow.1
  · simp only [hc, Option.all_some, beq_iff_eq] at hrow
    exact hrow.2

theorem digit_of_digitValue? (hbase : base ≤ 16) {c : Char} {d : Nat}
    (h : digitValue? base c = some d) : Digit base c d := by
  have htable : ∀ d : Fin 16,
      (d < 10 → "0123456789abcdef".toList[d.val]? = some (Char.ofNat (48 + d.val))) ∧
      (10 ≤ d → "0123456789abcdef".toList[d.val]? = some (Char.ofNat (87 + d.val))) ∧
      (10 ≤ d → "0123456789ABCDEF".toList[d.val]? = some (Char.ofNat (55 + d.val))) := by
    decide
  have hcode : ∀ n, c.toNat = n → c = Char.ofNat n := by
    rintro _ rfl
    rw [Char.ofNat_toNat]
  obtain ⟨hvalue, hd⟩ := Option.filter_eq_some_iff.1 h
  have hd : d < base := by simpa using hd
  obtain ⟨hdecimal, hlower, hupper⟩ := htable ⟨d, by omega⟩
  refine ⟨hd, ?_⟩
  split at hvalue
  · rename_i hrange
    have hfirst : 48 ≤ c.toNat := hrange.1
    have hlast : c.toNat ≤ 57 := hrange.2
    have hsame : c.toNat - 48 = d := Option.some.inj hvalue
    rw [hcode (48 + d) (by omega)]
    exact .inl (hdecimal (by change d < 10; omega))
  · split at hvalue
    · rename_i hrange
      have hfirst : 97 ≤ c.toNat := hrange.1
      have hsame : c.toNat - 97 + 10 = d := Option.some.inj hvalue
      rw [hcode (87 + d) (by omega)]
      exact .inl (hlower (by change 10 ≤ d; omega))
    · split at hvalue
      · rename_i hrange
        have hfirst : 65 ≤ c.toNat := hrange.1
        have hsame : c.toNat - 65 + 10 = d := Option.some.inj hvalue
        rw [hcode (55 + d) (by omega)]
        exact .inr (hupper (by change 10 ≤ d; omega))
      · cases hvalue

theorem digits_iff (hbase : base ≤ 16) {cs : List Char} {n : Nat} :
    Digits base cs n ↔ cs ≠ [] ∧ value? base cs = some n := by
  constructor
  · intro h
    induction h with
    | one hc =>
        refine ⟨List.cons_ne_nil _ _, ?_⟩
        simp [value?, digitValue?_of_digit hbase hc]
    | more _ hc ih =>
        refine ⟨by simp, ?_⟩
        rw [value?_append_singleton, ih.2, digitValue?_of_digit hbase hc]
        rfl
  · induction hlen : cs.length generalizing cs n with
    | zero =>
        rintro ⟨hne, -⟩
        exact absurd (List.length_eq_zero_iff.1 hlen) hne
    | succ k ih =>
        rintro ⟨hne, hvalue⟩
        obtain ⟨front, c, rfl⟩ := (List.eq_nil_or_concat cs).resolve_left hne
        rw [List.concat_eq_append] at hlen hvalue ⊢
        rw [value?_append_singleton] at hvalue
        obtain ⟨m, hfront, hvalue⟩ := Option.bind_eq_some_iff.1 hvalue
        obtain ⟨d, hdigit, rfl⟩ := Option.map_eq_some_iff.1 hvalue
        have hc := digit_of_digitValue? hbase hdigit
        by_cases hfirst : front = []
        · subst hfirst
          cases hfront
          rw [Nat.mul_zero, Nat.zero_add]
          exact .one hc
        · have hshort : front.length = k := by simpa using hlen
          exact .more (ih hshort ⟨hfirst, hfront⟩) hc

theorem numeral_iff (hbase : base ≤ 16) {cs : List Char} {n : Nat} :
    Numeral base cs n ↔ read? base cs = some n := by
  constructor
  · intro h
    cases h with
    | plain h =>
        obtain ⟨hne, hvalue⟩ := (digits_iff hbase).1 h
        exact read?_of_value? hne hvalue
    | plus h =>
        obtain ⟨hne, hvalue⟩ := (digits_iff hbase).1 h
        simp [read?, hne, hvalue]
  · intro h
    unfold read? at h
    split at h
    · rename_i digits
      by_cases hne : digits = []
      · simp [hne] at h
      · exact .plus ((digits_iff hbase).2 ⟨hne, by simpa [hne] using h⟩)
    · by_cases hne : cs = []
      · simp [hne] at h
      · exact .plain ((digits_iff hbase).2 ⟨hne, by simpa [hne] using h⟩)

/-- A numeral below a bound. -/
theorem readBelow?_eq_some_iff (hbase : base ≤ 16) {bound : Nat} {cs : List Char} {n : Nat} :
    readBelow? base bound cs = some n ↔ Numeral base cs n ∧ n < bound := by
  rw [readBelow?, Option.filter_eq_some_iff, numeral_iff hbase, decide_eq_true_iff]

/-- No letter beyond the digits stands in a numeral. -/
theorem Digits.digit_of_mem {cs : List Char} {n : Nat} (h : Digits base cs n) {c : Char}
    (hc : c ∈ cs) : ∃ d, Digit base c d := by
  induction h with
  | one hdigit =>
      cases List.mem_singleton.1 hc
      exact ⟨_, hdigit⟩
  | more _ hdigit ih =>
      rcases List.mem_append.1 hc with hc | hc
      · exact ih hc
      · cases List.mem_singleton.1 hc
        exact ⟨_, hdigit⟩

end Numerals

end Gemv.Text
