import Gemv.Loader
import Gemv.Proofs.PlanShape

/-! What a load sends.

The words of a load are handed on as they are made, and yet whatever takes them gets one list: the
`sequence` of the load, in order, up to the first word that is refused (`emit_eq`). A plan keeps
that list (`words_eq`), its counts are those kept on the way (`stats_eq`), and a load over a link is
the plan, pushed, and a note (`Link.load_eq`): on any device, and for any point at which a push may
fail. -/
namespace Gemv

namespace LoadPlan

/-- Adds the counts of further windows, of which `words` words were made. -/
def Stats.extend (stats : Stats) (images : List RowImage) (words : Nat) : Stats :=
  { stats with
    instructions := words
    zeroWindows := stats.zeroWindows + images.countP (·.isZero)
    rowWrites := stats.rowWrites + total (images.map (·.nonZeroCount)) }

theorem Stats.extend_extend (stats : Stats) (images more : List RowImage) (words total : Nat) :
    (stats.extend images words).extend more total = stats.extend (images ++ more) total := by
  simp only [extend, List.countP_append, List.map_append, total_append, Nat.add_assoc]

section Emission

variable {σ : Type} (sink : Sink σ)

theorem sendWindows_cons (g : Geometry) (base block : Nat) (stats : Stats) {window : List Int16}
    (hlen : window.length ≤ g.lanes) (hfits : ∀ v ∈ window, Lane.fits g.width v = true)
    (cut : List (List Int16)) (s : σ) :
    sendWindows sink g base block stats (window :: cut) s =
      match sink.sendFrom stats.instructions
          (windowWords base block (RowImage.ofWindow g.width window)) s with
      | (.ok n, s) =>
          sendWindows sink g base (block + 1)
            (stats.extend [RowImage.ofWindow g.width window] n) cut s
      | (.error e, s) => (.error e, s) := by
  rw [sendWindows, RowImage.transpose_eq_ok hlen hfits]
  generalize RowImage.ofWindow g.width window = image
  by_cases hzero : image.isZero = true
  · simp only [windowWords, hzero, if_true, Sink.sendFrom]
    simp [Stats.extend, hzero, nonZeroCount_of_isZero hzero]
  · simp only [windowWords, hzero, Bool.false_eq_true, if_false, Sink.sendFrom]
    cases sink (.selectColumn block) s with
    | mk result s =>
        cases result with
        | error e => rfl
        | ok u =>
            have hcount := sink.sendFrom_add (stats.instructions + 1) 0 (rowWords base image) s
            simp only [Nat.add_zero] at hcount
            simp only [hcount]
            cases hrows : sink.sendFrom 0 (rowWords base image) s with
            | mk result s =>
                cases result with
                | error e => rfl
                | ok n =>
                    have hn := Sink.count_of_sendFrom hrows
                    rw [length_rowWords, Nat.zero_add] at hn
                    simp [Except.map, Stats.extend, hzero, hn]

theorem sendWindows_eq (g : Geometry) (base block : Nat) (stats : Stats) {cut : List (List Int16)}
    (hcut : ∀ window ∈ cut, window.length ≤ g.lanes ∧ ∀ v ∈ window, Lane.fits g.width v = true)
    (s : σ) :
    sendWindows sink g base block stats cut s =
      match sink.sendFrom stats.instructions (windowsWords g base block cut) s with
      | (.ok n, s) => (.ok (stats.extend (cut.map (RowImage.ofWindow g.width)) n), s)
      | (.error e, s) => (.error e, s) := by
  induction cut generalizing block stats s with
  | nil => rfl
  | cons window cut ih =>
      obtain ⟨hlen, hfits⟩ := hcut window (List.mem_cons_self ..)
      have hrest := fun w hw => hcut w (List.mem_cons_of_mem window hw)
      rw [sendWindows_cons sink g base block stats hlen hfits, windowsWords_cons,
        Sink.sendFrom_append]
      cases sink.sendFrom stats.instructions
          (windowWords base block (RowImage.ofWindow g.width window)) s with
      | mk result s =>
          cases result with
          | error e => rfl
          | ok n =>
              simp only [ih _ _ hrest, Stats.extend_extend]
              rfl

/-- The counts of a load of `words` words. -/
def counts (g : Geometry) (values : List Int16) (words : Nat) : Stats where
  instructions := words
  windows := windowCount g values.length
  zeroWindows := (images g values).countP (·.isZero)
  rowWrites := total ((images g values).map (·.nonZeroCount))

theorem extend_eq_counts (g : Geometry) (values : List Int16) (first words : Nat) :
    Stats.extend ⟨first, (windows g.lanes values).length, 0, 0⟩ (images g values) words =
      counts g values words := by
  simp only [Stats.extend, Nat.zero_add, length_windows g.lanes_pos]
  rfl

/-- Whatever takes the words of a load gets its sequence, up to the first word that it refuses. -/
theorem emit_eq (g : Geometry) (register : Nat) (values : List Int16) (s : σ) :
    emit sink g register values s =
      match check g register values with
      | .error e => (.error e, s)
      | .ok base =>
        match sink.sendFrom 0 (sequence g base values) s with
        | (.ok n, s) => (.ok (counts g values n), s)
        | (.error e, s) => (.error e, s) := by
  rw [emit]
  cases hcheck : check g register values with
  | error e => rfl
  | ok base =>
      obtain ⟨-, hadmits, -⟩ := check_eq_ok_iff.1 hcheck
      simp only [sequence_eq, Sink.sendFrom_append]
      cases sink.sendFrom 0 (Instruction.clearRows base g.width) s with
      | mk result s =>
          cases result with
          | error e => rfl
          | ok n =>
              simp only [sendWindows_eq sink g base 0 _ hadmits.window,
                ← extend_eq_counts g values n]
              rfl

end Emission

theorem words_eq (g : Geometry) (register : Nat) (values : List Int16) :
    words g register values = (check g register values).map fun base => sequence g base values := by
  rw [words, emit_eq]
  cases check g register values with
  | error e => rfl
  | ok base =>
      simp only [Sink.sendFrom_collect]
      simp [Except.map]

/-- The counts of a plan are those that are kept while its words go out. -/
theorem stats_eq (g : Geometry) (register : Nat) (values : List Int16) :
    stats g register values = (check g register values).map fun base =>
      counts g values (sequence g base values).length := by
  rw [stats, emit_eq]
  cases check g register values with
  | error e => rfl
  | ok base =>
      simp only [Sink.sendFrom_discard, Nat.zero_add]
      rfl

/-- The counts of a load add up to its words. -/
theorem stats_instructions (g : Geometry) (register : Nat) (values : List Int16) :
    (stats g register values).map (·.instructions) =
      (words g register values).map List.length := by
  rw [stats_eq, words_eq]
  cases check g register values <;> rfl

theorem words_eq_ok {g : Geometry} (register : Fin g.registerCount) {values : List Int16}
    (hvalues : g.Admits values) :
    words g register values = .ok (sequence g (register * g.width) values) := by
  rw [words_eq, check_eq_ok_iff.2 ⟨register.isLt, hvalues, rfl⟩]
  rfl

theorem of_words_eq_ok {g : Geometry} {register : Nat} {values : List Int16}
    {ws : List Instruction} (h : words g register values = .ok ws) :
    register < g.registerCount ∧ g.Admits values ∧ ws = sequence g (register * g.width) values := by
  rw [words_eq] at h
  cases hcheck : check g register values with
  | error e =>
      rw [hcheck] at h
      cases h
  | ok base =>
      obtain ⟨hregister, hvalues, hbase⟩ := check_eq_ok_iff.1 hcheck
      rw [hcheck] at h
      exact ⟨hregister, hvalues, hbase ▸ (Except.ok.inj h).symm⟩

end LoadPlan

/-- A load pushes the words of its plan and notes their counts. -/
theorem Link.load_eq {σ : Type} [Device σ] (g : Geometry) (register : Nat) (values : List Int16)
    (t : Link σ) :
    t.load g register values =
      match LoadPlan.words g register values with
      | .error e => (.error e, t)
      | .ok ws =>
        match t.pushAll ws with
        | (.ok n, t) => (.ok n, t.note (.loaded register (LoadPlan.counts g values n)))
        | (.error e, t) => (.error e, t) := by
  rw [load, LoadPlan.emit_eq, LoadPlan.words_eq]
  cases LoadPlan.check g register values with
  | error e => rfl
  | ok base =>
      simp only [Except.map, pushAll, pushFrom]
      cases Sink.sendFrom push 0 (LoadPlan.sequence g base values) t with
      | mk result t =>
          cases result with
          | error e => rfl
          | ok n => rfl

end Gemv
