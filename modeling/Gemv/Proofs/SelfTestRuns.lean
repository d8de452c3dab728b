import Gemv.Command.Run
import Gemv.Proofs.Recovery

/-! Every self-test passes.

Whatever state the generator is in, the next trial names a register that the engine has and a
vector that fits it (`inRange_draw`), and an idle engine that has loaded such a vector reads it
back (`passes_of_inRange`). So none of the ways in which a test can fail is ever taken, and the
words it counts are those of the plans. -/
namespace Gemv

theorem Lane.fits_ofBits {width : Nat} (hpos : 0 < width) (hle : width ≤ 16) (bits : Nat) :
    fits width (ofBits width bits) = true := by
  have hlow := BitVec.le_toInt (BitVec.ofNat width bits)
  have hhigh := BitVec.toInt_lt (x := BitVec.ofNat width bits)
  rw [fits_iff hpos hle, ofBits, Int16.toInt_ofBitVec, BitVec.toInt_signExtend_of_le hle]
  exact ⟨hlow, hhigh⟩

namespace LoadPlan

theorem length_windowsWords_le (g : Geometry) (base first : Nat) (cut : List (List Int16)) :
    (windowsWords g base first cut).length ≤ cut.length * (g.width + 1) := by
  induction cut generalizing first with
  | nil => exact Nat.zero_le _
  | cons window cut ih =>
      have hwindow := length_windowWords base first (RowImage.ofWindow g.width window)
      have hrows : (RowImage.ofWindow g.width window).nonZeroCount ≤ g.width := by
        refine Nat.le_trans List.countP_le_length (Nat.le_of_eq ?_)
        simp [RowImage.ofWindow]
      have hrest := ih (first + 1)
      rw [windowsWords_cons, List.length_append, List.length_cons, Nat.succ_mul]
      omega

/-- Seventeen words at most clear a register, and as many fill it in each of 256 blocks. -/
theorem length_sequence_le (g : Geometry) (base : Nat) {values : List Int16}
    (h : values.length ≤ g.maxVectorLength) : (sequence g base values).length ≤ 4369 := by
  have hwidth := g.width_le
  have hclear : (Instruction.clearRows base g.width).length = g.width + 1 := by
    simp [Instruction.clearRows]
  have hwindows : (windows g.lanes values).length ≤ 256 := by
    rw [length_windows g.lanes_pos]
    exact (windowCount_le_iff g values.length).2 h
  have hfilled : (windowsWords g base 0 (windows g.lanes values)).length ≤ 256 * 17 :=
    Nat.le_trans (length_windowsWords_le g base 0 _) (Nat.mul_le_mul hwindows (by omega))
  rw [sequence_eq, List.length_append, hclear]
  omega

end LoadPlan

namespace SelfTest

/-- What the generator is meant to draw. -/
structure Trial.InRange (g : Geometry) (trial : Trial) : Prop where
  register : trial.register < g.registerCount
  nonempty : 1 ≤ trial.values.length
  short : trial.values.length ≤ min g.maxVectorLength 512
  fits : ∀ v ∈ trial.values, Lane.fits g.width v = true

theorem Trial.InRange.admits {g : Geometry} {trial : Trial} (h : trial.InRange g) :
    g.Admits trial.values :=
  ⟨Nat.le_trans h.short (Nat.min_le_left _ _),
    fun v hv => (Lane.fits_iff g.width_pos g.width_le v).1 (h.fits v hv)⟩

theorem fits_laneValue (g : Geometry) (state : UInt32) :
    Lane.fits g.width (laneValue g.width state) = true := by
  rw [laneValue]
  split
  · exact Lane.fits_zero g.width_pos g.width_le
  · exact Lane.fits_ofBits g.width_pos g.width_le _

theorem length_drawValues (width n : Nat) (drawn : List Int16) (state : UInt32) :
    (drawValues width n drawn state).1.length = drawn.length + n := by
  induction n generalizing drawn state with
  | zero => exact List.length_reverse
  | succ n ih =>
      rw [drawValues, ih, List.length_cons]
      omega

theorem fits_drawValues (g : Geometry) (n : Nat) {drawn : List Int16}
    (hdrawn : ∀ v ∈ drawn, Lane.fits g.width v = true) (state : UInt32) :
    ∀ v ∈ (drawValues g.width n drawn state).1, Lane.fits g.width v = true := by
  induction n generalizing drawn state with
  | zero => exact fun v hv => hdrawn v (List.mem_reverse.1 hv)
  | succ n ih =>
      apply ih
      rw [List.forall_mem_cons]
      exact ⟨fits_laneValue g _, hdrawn⟩

/-- Every generator state yields a vector that fits a register of the engine. -/
theorem inRange_draw (g : Geometry) (state : UInt32) : (draw g state).1.InRange g := by
  have hlanes := g.lanes_pos
  have hmost : 0 < maxLength g := by
    rw [maxLength, Geometry.maxVectorLength, blockCount]
    omega
  have hlength := length_drawValues g.width ((next (next state)).toNat % maxLength g + 1) []
    (next (next state))
  have hless := Nat.mod_lt (next (next state)).toNat hmost
  rw [List.length_nil, Nat.zero_add] at hlength
  constructor
  case register => exact Nat.mod_lt _ g.registerCount_pos
  case nonempty => exact hlength ▸ Nat.succ_pos _
  case short => exact hlength ▸ hless
  case fits =>
      exact fits_drawValues g ((next (next state)).toNat % maxLength g + 1)
        (fun _ hv => absurd hv List.not_mem_nil) (next (next state))

/-- The trials that a generator state leads to. -/
def trials (g : Geometry) : Nat → UInt32 → List Trial
  | 0, _ => []
  | n + 1, state => (draw g state).1 :: trials g n (draw g state).2

theorem length_trials (g : Geometry) (n : Nat) (state : UInt32) :
    (trials g n state).length = n := by
  induction n generalizing state with
  | zero => rfl
  | succ n ih => rw [trials, List.length_cons, ih]

theorem inRange_trials (g : Geometry) (n : Nat) (state : UInt32) :
    ∀ trial ∈ trials g n state, trial.InRange g := by
  induction n generalizing state with
  | zero => exact fun _ hmem => absurd hmem List.not_mem_nil
  | succ n ih =>
      rw [trials, List.forall_mem_cons]
      exact ⟨inRange_draw g state, ih _⟩

/-- The load of a trial, entered in a journal of its own, is accepted, takes the words of its plan
and leaves its vector to be read back. -/
structure Passes (g : Geometry) (trial : Trial) (plan : List Instruction) (t u : Link Engine) :
    Prop where
  planned : LoadPlan.words g trial.register trial.values = .ok plan
  loaded : Link.load g trial.register trial.values { t with journal := #[] } = (.ok plan.length, u)
  readBack : u.device.lanes? trial.register trial.values.length = some trial.values

/-- Trials that pass one after the other, with their plans. -/
inductive AllPass (g : Geometry) :
    List Trial → List (List Instruction) → Link Engine → Link Engine → Prop where
  | nil (t : Link Engine) : AllPass g [] [] t t
  | cons {trial : Trial} {plan : List Instruction} {rest : List Trial}
      {plans : List (List Instruction)} {t u v : Link Engine} (first : Passes g trial plan t u)
      (others : AllPass g rest plans u v) : AllPass g (trial :: rest) (plan :: plans) t v

variable {g : Geometry} {t : Link Engine}

theorem passes_of_inRange {trial : Trial} (h : trial.InRange g) (hidle : t.device.Idle)
    (hg : t.device.geometry = g) :
    ∃ plan u, Passes g trial plan t u ∧ plan.length ≤ 4369 ∧ u.device.Idle ∧
      u.device.geometry = g ∧ u.device.overflows = t.device.overflows := by
  have hcall : (RegisterCall.load trial.register trial.values).Admissible g :=
    ⟨h.register, h.admits⟩
  have hwords := RegisterCall.words_eq_ok hcall
  have hbench : ({ t with journal := #[] } : Link Engine).device.Idle := hidle
  obtain ⟨hanswer, hran⟩ := RegisterCall.run_of_words_eq_ok hwords hbench
  have hsame := hran.geometry.trans hg
  have hstores := LoadPlan.stores_run_sequence ⟨trial.register, h.register⟩ h.admits.short
    t.device.blocks
  refine ⟨_, _, ⟨hwords, Prod.ext hanswer rfl, ?_⟩, LoadPlan.length_sequence_le g _ h.admits.short,
    hran.idle, hsame, hran.overflows⟩
  exact Engine.lanes?_of_stores hsame h.admits (hran.blocks ▸ hstores)

theorem Passes.attempt {trial : Trial} {plan : List Instruction} {u : Link Engine}
    (h : Passes g trial plan t u) (hg : t.device.geometry = g) (index : Nat) :
    attempt index trial { t with journal := #[] } = (.ok plan.length, u) := by
  simp only [SelfTest.attempt, hg, h.loaded, h.readBack, if_true]

/-- Trials on an idle engine all pass, and the words counted are those of their plans. -/
theorem runFrom_idle (hidle : t.device.Idle) (hg : t.device.geometry = g)
    (index words n : Nat) (state : UInt32) :
    ∃ plans final, AllPass g (trials g n state) plans t final ∧
      runFrom g index words n state t = (.ok (words + total (plans.map List.length)), final) ∧
      total (plans.map List.length) ≤ 4369 * n ∧
      final.device.overflows = t.device.overflows := by
  induction n generalizing index words state t with
  | zero => exact ⟨[], t, .nil t, rfl, Nat.le_refl _, rfl⟩
  | succ n ih =>
      obtain ⟨plan, u, hpasses, hshort, hidle', hg', hflows⟩ :=
        passes_of_inRange (inRange_draw g state) hidle hg
      obtain ⟨plans, final, hall, hrun, hbound, hflows'⟩ :=
        ih hidle' hg' (index + 1) (words + plan.length) (draw g state).2
      have hattempt := hpasses.attempt hg index
      refine ⟨plan :: plans, final, .cons hpasses hall, ?_, ?_, hflows'.trans hflows⟩
      · rw [List.map_cons, total_cons, ← Nat.add_assoc, ← hrun]
        simp only [runFrom, hattempt]
      · rw [List.map_cons, total_cons]
        omega

/-- The self-test of any engine passes with every seed. Each trial names a register that there is
and a vector of fitting values, neither empty nor too long; its load is accepted and its vector is
read back, one trial after the other from the bench to where the test itself ends. What is printed
are the trials, the words of their plans, which 64 bits can count, and no overflow. -/
theorem selfTest_passes (g : Geometry) (seed : UInt32) {vectors : Nat} (h : vectors ≤ 2 ^ 48) :
    let drawn := trials g vectors (start seed)
    drawn.length = vectors ∧ (∀ trial ∈ drawn, trial.InRange g) ∧
      ∃ plans final, AllPass g drawn plans (bench g) final ∧
        runFrom g 0 0 vectors (start seed) (bench g) =
          (.ok (total (plans.map List.length)), final) ∧
        final.device.overflows = 0 ∧ total (plans.map List.length) < 2 ^ 64 ∧
        run g vectors seed = .ok ⟨total (plans.map List.length), 0⟩ ∧
        Command.selfTest g vectors seed.toNat =
          .ofLines ["selftest: " ++ Text.decimal vectors ++ " vectors OK, "
            ++ Text.decimal (total (plans.map List.length)) ++ " instructions, 0 overflows"] := by
  intro drawn
  obtain ⟨plans, final, hall, hrun, hbound, hflows⟩ :=
    runFrom_idle (g := g) (t := bench g) (Engine.idle_new g 0xA5A5) rfl 0 0 vectors (start seed)
  rw [Nat.zero_add] at hrun
  have hnone : final.device.overflows = 0 := hflows
  have hresult : run g vectors seed = .ok ⟨total (plans.map List.length), 0⟩ := by
    rw [run, hrun, ← hnone]
  refine ⟨length_trials g vectors _, inRange_trials g vectors _, plans, final, hall, hrun, hnone,
    by omega, hresult, ?_⟩
  have hzero : " instructions, " ++ (Text.decimal 0 ++ " overflows") =
      " instructions, 0 overflows" := by decide +kernel
  simp only [Command.selfTest, UInt32.ofNat_toNat, hresult, String.append_assoc, hzero]

/-- The narrowest engine, a seed that the generator cannot start from and as many vectors as may
be. -/
theorem selfTest_passes_longest :
    let vectors := 2 ^ 48
    let drawn := trials .smallest vectors (start 0)
    vectors ≤ 2 ^ 48 ∧ drawn.length = vectors ∧ (∀ trial ∈ drawn, trial.InRange .smallest) ∧
      ∃ words < 2 ^ 64, run .smallest vectors 0 = .ok ⟨words, 0⟩ := by
  intro vectors drawn
  obtain ⟨hlength, hrange, plans, -, -, -, -, hcount, hrun, -⟩ :=
    selfTest_passes .smallest 0 (Nat.le_refl (2 ^ 48))
  exact ⟨Nat.le_refl _, hlength, hrange, total (plans.map List.length), hcount, hrun⟩

end SelfTest

end Gemv
