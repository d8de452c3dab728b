import Gemv.Proofs.CheckedPlan
import Gemv.Proofs.Looks

/-! Which loads are refused, and what else can stop one.

A load is refused for its register, for the length of its vector or for a value, and the first of
these that applies is the one reported (`check_eq_error_iff`). Nothing has gone over the link by
then. A load that is not refused can only be stopped by a wait (`waitFailure_of_pushFrom`). -/
namespace Gemv

theorem Geometry.registerCount_le_iff (g : Geometry) (register : Nat) :
    g.registerCount ≤ register ↔ rowCount < register * g.width + g.width := by
  have hexists : register + 1 ≤ rowCount / g.width ↔ (register + 1) * g.width ≤ rowCount :=
    Nat.le_div_iff_mul_le g.width_pos
  rw [Nat.succ_mul] at hexists
  rw [registerCount]
  omega

/-- The numbers that a lane of this geometry can hold. -/
def Geometry.Holds (g : Geometry) (v : Int16) : Prop :=
  -(2 ^ (g.width - 1) : Int) ≤ v.toInt ∧ v.toInt < 2 ^ (g.width - 1)

theorem Geometry.fits_iff_holds (g : Geometry) (v : Int16) :
    Lane.fits g.width v = true ↔ g.Holds v := Lane.fits_iff g.width_pos g.width_le v

namespace RowImage

/-- The first value that does not fit stands after values that do. -/
theorem find?_unfit_eq_some_iff {width first index : Nat} {v : Int16} {values : List Int16} :
    (values.zipIdx first).find? (fun p => !Lane.fits width p.1) = some (v, index) ↔
      ∃ before after, values = before ++ v :: after ∧ index = first + before.length ∧
        (∀ u ∈ before, Lane.fits width u = true) ∧ Lane.fits width v = false := by
  have hcut := @exists_zipIdx_cut_iff _ (fun u => Lane.fits width u = true)
    (fun p => p = (v, index) ∧ Lane.fits width v = false) values first
  rw [List.find?_eq_some_iff_append]
  constructor
  · rintro ⟨hv, numbered, others, hnumbered, hfits⟩
    obtain ⟨before, x, after, hvalues, hbefore, hx, hunfit⟩ := hcut.1
      ⟨numbered, _, others, hnumbered, by simpa using hfits, rfl, by simpa using hv⟩
    cases hx
    exact ⟨before, after, hvalues, rfl, hbefore, hunfit⟩
  · rintro ⟨before, after, hvalues, rfl, hbefore, hv⟩
    obtain ⟨numbered, _, others, hnumbered, hfits, rfl, -⟩ := hcut.2
      ⟨before, v, after, hvalues, hbefore, rfl, hv⟩
    exact ⟨by simpa using hv, numbered, others, hnumbered, by simpa using hfits⟩

theorem checkFits_eq_error_iff {width : Nat} {values : List Int16} {e : Error} :
    checkFits width values = .error e ↔
      ∃ before v after, values = before ++ v :: after ∧ e = .valueOutOfRange before.length v width ∧
        (∀ u ∈ before, Lane.fits width u = true) ∧ Lane.fits width v = false := by
  have hfirst : ∀ v index, firstUnfit? width values = some (v, index) ↔ _ :=
    fun v index => @find?_unfit_eq_some_iff width 0 index v values
  rw [checkFits]
  constructor
  · intro h
    cases hfound : firstUnfit? width values with
    | none => simp [hfound] at h
    | some p =>
        obtain ⟨v, index⟩ := p
        rw [hfound] at h
        cases h
        obtain ⟨before, after, hvalues, rfl, hbefore, hv⟩ := (hfirst v index).1 hfound
        exact ⟨before, v, after, hvalues, by rw [Nat.zero_add], hbefore, hv⟩
  · rintro ⟨before, v, after, hvalues, rfl, hbefore, hv⟩
    rw [(hfirst v before.length).2 ⟨before, after, hvalues, (Nat.zero_add _).symm, hbefore, hv⟩]

end RowImage

namespace LoadPlan

/-- Why a load is refused. The register is looked at first, then the length, then the values in
order. -/
inductive Refusal (g : Geometry) (register : Nat) (values : List Int16) : Error → Prop where
  | register (hregister : g.registerCount ≤ register) :
      Refusal g register values (.registerOutOfRange register g.registerCount)
  | length (hregister : register < g.registerCount) (hlength : g.maxVectorLength < values.length) :
      Refusal g register values
        (.vectorTooLong ((values.length + g.lanes - 1) / g.lanes) 256)
  | value (hregister : register < g.registerCount) (hlength : values.length ≤ g.maxVectorLength)
      {before after : List Int16} {v : Int16} (hvalues : values = before ++ v :: after)
      (hbefore : ∀ u ∈ before, g.Holds u) (hv : ¬g.Holds v) :
      Refusal g register values (.valueOutOfRange before.length v g.width)

theorem base_of_le {g : Geometry} {register : Nat} (h : g.registerCount ≤ register) :
    base g register = .error (.registerOutOfRange register g.registerCount) := by
  rw [base, Geometry.registerBase?, if_neg (Nat.not_lt.2 h)]

/-- The checks that follow once the register is known to exist. -/
theorem check_of_lt {g : Geometry} {register : Nat} (h : register < g.registerCount)
    (values : List Int16) :
    check g register values =
      if g.maxVectorLength < values.length then
        .error (.vectorTooLong (windowCount g values.length) blockCount)
      else (RowImage.checkFits g.width values).map fun _ => register * g.width := by
  have hlength : blockCount < windowCount g values.length ↔ g.maxVectorLength < values.length := by
    have := windowCount_le_iff g values.length
    omega
  rw [check, base_eq_ok_iff.2 ⟨h, rfl⟩]
  simp only [← hlength]
  by_cases hlong : blockCount < windowCount g values.length
  · simp [bind, Except.bind, hlong]
  · cases RowImage.checkFits g.width values <;>
      simp [bind, Except.bind, pure, Except.pure, Except.map, hlong]

theorem check_eq_error_iff {g : Geometry} {register : Nat} {values : List Int16} {e : Error} :
    check g register values = .error e ↔ Refusal g register values e := by
  by_cases hr : register < g.registerCount
  · rw [check_of_lt hr]
    by_cases hlong : g.maxVectorLength < values.length
    · rw [if_pos hlong]
      constructor
      · intro h
        cases h
        exact .length hr hlong
      · intro h
        cases h with
        | register hregister => exact absurd hr (Nat.not_lt.2 hregister)
        | length => rfl
        | value _ hlength => exact absurd hlong (Nat.not_lt.2 hlength)
    · have hshort := Nat.le_of_not_lt hlong
      rw [if_neg hlong, map_eq_error_iff, RowImage.checkFits_eq_error_iff]
      constructor
      · rintro ⟨before, v, after, hvalues, rfl, hbefore, hv⟩
        refine .value hr hshort hvalues (fun u hu => (g.fits_iff_holds u).1 (hbefore u hu)) ?_
        rw [← g.fits_iff_holds, hv]
        decide
      · intro h
        cases h with
        | register hregister => exact absurd hr (Nat.not_lt.2 hregister)
        | length _ hlength => exact absurd hlength hlong
        | value _ _ hvalues hbefore hv =>
            refine ⟨_, _, _, hvalues, rfl, fun u hu => (g.fits_iff_holds u).2 (hbefore u hu), ?_⟩
            rwa [← g.fits_iff_holds, Bool.not_eq_true] at hv
  · have hregister := Nat.le_of_not_lt hr
    rw [check, base_of_le hregister]
    constructor
    · intro h
      cases h
      exact .register hregister
    · intro h
      cases h with
      | register => rfl
      | length hlt => exact absurd hlt hr
      | value hlt => exact absurd hlt hr

theorem words_eq_error_iff {g : Geometry} {register : Nat} {values : List Int16} {e : Error} :
    words g register values = .error e ↔ Refusal g register values e := by
  rw [words_eq, map_eq_error_iff, check_eq_error_iff]

theorem stats_eq_error_iff {g : Geometry} {register : Nat} {values : List Int16} {e : Error} :
    stats g register values = .error e ↔ Refusal g register values e := by
  rw [stats_eq, map_eq_error_iff, check_eq_error_iff]

end LoadPlan

namespace Link

variable {σ : Type} [Device σ]

/-- Neither looks nor words change how long a link waits. -/
theorem bounds_push (w : Instruction) (t : Link σ) :
    (t.push w).2.limits = t.limits ∧ (t.push w).2.wait = t.wait := by
  have hlooks : Looks fun u : Link σ => u.limits = t.limits ∧ u.wait = t.wait :=
    ⟨fun h _ => h, fun h _ => h, fun h _ => h⟩
  exact hlooks.push (fun h _ => h) ⟨rfl, rfl⟩ w

theorem waitFailure_of_push {w : Instruction} {t u : Link σ} {e : Error}
    (h : t.push w = (.error e, u)) :
    WaitFailure t.limits t.clock "FIFO-in space" e ∧ u.pushed = t.pushed := by
  have hlooks : Looks fun u : Link σ => u.pushed = t.pushed :=
    ⟨fun h _ => h, fun h _ => h, fun h _ => h⟩
  refine ⟨?_, hlooks.of_push_eq_error rfl h⟩
  rw [push] at h
  split at h
  · rename_i hwait
    cases h
    exact waitFailure_of_await hwait
  · cases h

/-- The wait that stops a batch is the one for the word after those that were pushed. -/
theorem waitFailure_of_pushFrom {count : Nat} {ws : List Instruction} {t u : Link σ} {e : Error}
    (h : t.pushFrom count ws = (.error e, u)) :
    WaitFailure t.limits (t.wait.elapsed u.pushed) "FIFO-in space" e := by
  induction ws generalizing t count with
  | nil => cases h
  | cons w ws ih =>
      rw [pushFrom_cons] at h
      split at h
      · rename_i v hpush
        have hbounds := bounds_push w t
        rw [hpush] at hbounds
        rw [← hbounds.1, ← hbounds.2]
        exact ih h
      · rename_i hpush
        cases h
        obtain ⟨hfailure, hpushed⟩ := waitFailure_of_push hpush
        rw [hpushed]
        exact hfailure

theorem load_of_refusal {g : Geometry} {register : Nat} {values : List Int16} {e : Error}
    (h : LoadPlan.Refusal g register values e) (t : Link σ) :
    t.load g register values = (.error e, t) := by
  rw [load_eq, LoadPlan.words_eq_error_iff.2 h]

theorem load_error_cases {g : Geometry} {register : Nat} {values : List Int16} {t : Link σ}
    {e : Error} (h : (t.load g register values).1 = .error e) :
    LoadPlan.Refusal g register values e ∨
      WaitFailure t.limits (t.wait.elapsed (t.load g register values).2.pushed) "FIFO-in space"
        e := by
  rw [load_eq] at h ⊢
  cases hwords : LoadPlan.words g register values with
  | error e' =>
      rw [hwords] at h
      cases h
      exact .inl (LoadPlan.words_eq_error_iff.1 hwords)
  | ok ws =>
      refine .inr ?_
      cases hpush : t.pushFrom 0 ws with
      | mk result u =>
          simp only [hwords, pushAll, hpush] at h ⊢
          cases result with
          | ok n => cases h
          | error e' =>
              cases h
              exact waitFailure_of_pushFrom hpush

/-- A load is refused for exactly one of three causes, and then the link is as it was. Otherwise only
a wait can stop it, the one for the word after those that went out. The plan and its counts fail for
the same causes and no other. All of the plan's arithmetic stays in its range: made with checks, the
words are the same. -/
theorem load_refused_exactly (g : Geometry) (register : Nat) (values : List Int16) (t : Link σ) :
    (g.registerCount ≤ register ↔ 1024 < register * g.width + g.width) ∧
      (∀ e, LoadPlan.Refusal g register values e → t.load g register values = (.error e, t)) ∧
      (∀ e, (t.load g register values).1 = .error e →
        LoadPlan.Refusal g register values e ∨
          WaitFailure t.limits (t.wait.elapsed (t.load g register values).2.pushed)
            "FIFO-in space" e) ∧
      (∀ e, LoadPlan.words g register values = .error e ↔ LoadPlan.Refusal g register values e) ∧
      (∀ e, LoadPlan.stats g register values = .error e ↔ LoadPlan.Refusal g register values e) ∧
      (∀ v, Lane.fits? g.width v = .ok (Lane.fits g.width v)) ∧
      LoadPlan.checkedWords g register values = LoadPlan.words g register values := by
  refine ⟨g.registerCount_le_iff register, ?_, ?_, ?_, ?_, ?_, ?_⟩
  · intro e h
    exact load_of_refusal h t
  · intro e h
    exact load_error_cases h
  · intro e
    exact LoadPlan.words_eq_error_iff
  · intro e
    exact LoadPlan.stats_eq_error_iff
  · intro v
    rw [Lane.fits?, if_neg (Nat.ne_of_gt g.width_pos)]
  · exact LoadPlan.checkedWords_eq g register values

end Link

end Gemv
