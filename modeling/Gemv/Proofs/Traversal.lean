/-! Computations that may fail, over a list.

A traversal succeeds if each of its steps does (`mapM_eq_ok_iff`), and otherwise fails as the first
of its steps that fails (`mapM_eq_error_iff`). Where the elements are numbered, the number of that
step is the count of those before it (`exists_zipIdx_cut_iff`). -/
namespace Gemv

variable {ε α β : Type}

theorem map_eq_error_iff {x : Except ε α} {f : α → β} {e : ε} :
    x.map f = .error e ↔ x = .error e := by
  cases x <;> simp [Except.map]

theorem map_eq_ok_iff {x : Except ε α} {f : α → β} {y : β} :
    x.map f = .ok y ↔ ∃ a, x = .ok a ∧ f a = y := by
  cases x <;> simp [Except.map]

theorem mapM_cons_eq (f : α → Except ε β) (x : α) (xs : List α) :
    (x :: xs).mapM f =
      match f x with
      | .error e => .error e
      | .ok y => (xs.mapM f).map (y :: ·) := by
  rw [List.mapM_cons]
  cases f x with
  | error e => rfl
  | ok y => cases xs.mapM f <;> rfl

theorem mapM_eq_ok_iff {f : α → Except ε β} {xs : List α} {ys : List β} :
    xs.mapM f = .ok ys ↔ xs.map f = ys.map .ok := by
  induction xs generalizing ys with
  | nil => simp [pure, Except.pure, eq_comm]
  | cons x xs ih =>
      rw [mapM_cons_eq, List.map_cons]
      cases f x with
      | error e => cases ys <;> simp
      | ok y =>
          cases ys with
          | nil => cases xs.mapM f <;> simp [Except.map]
          | cons z ys =>
              rw [List.map_cons, List.cons.injEq, Except.ok.injEq, ← ih]
              cases xs.mapM f <;> simp [Except.map]

theorem mapM_eq_ok_map {f : α → Except ε β} {h : α → β} {xs : List α}
    (hf : ∀ x ∈ xs, f x = .ok (h x)) : xs.mapM f = .ok (xs.map h) := by
  rw [mapM_eq_ok_iff, List.map_map]
  exact List.map_congr_left hf

theorem mapM_eq_error_iff {f : α → Except ε β} {xs : List α} {e : ε} :
    xs.mapM f = .error e ↔
      ∃ before x after, xs = before ++ x :: after ∧ (∀ y ∈ before, ∃ z, f y = .ok z) ∧
        f x = .error e := by
  induction xs with
  | nil => simp [pure, Except.pure]
  | cons x xs ih =>
      rw [mapM_cons_eq]
      cases hx : f x with
      | error e' =>
          constructor
          · intro h
            cases h
            exact ⟨[], x, xs, rfl, by simp, hx⟩
          · rintro ⟨before, y, after, hxs, hbefore, hy⟩
            cases before with
            | nil =>
                cases hxs
                rw [hx] at hy
                exact congrArg Except.error (Except.error.inj hy)
            | cons y' before =>
                cases hxs
                obtain ⟨z, hz⟩ := hbefore x (List.mem_cons_self ..)
                rw [hx] at hz
                cases hz
      | ok y =>
          simp only [map_eq_error_iff, ih]
          constructor
          · rintro ⟨before, x', after, rfl, hbefore, hx'⟩
            refine ⟨x :: before, x', after, rfl, ?_, hx'⟩
            intro y' hy'
            rcases List.mem_cons.1 hy' with rfl | hy'
            · exact ⟨y, hx⟩
            · exact hbefore y' hy'
          · rintro ⟨before, x', after, hxs, hbefore, hx'⟩
            cases before with
            | nil =>
                cases hxs
                rw [hx] at hx'
                cases hx'
            | cons y' before =>
                cases hxs
                exact ⟨before, x', after, rfl,
                  fun y' hy' => hbefore y' (List.mem_cons_of_mem x hy'), hx'⟩

/-- The element at which a numbered list is cut has the number of elements before it. -/
theorem exists_zipIdx_cut_iff {P : α → Prop} {Q : α × Nat → Prop} {xs : List α} {first : Nat} :
    (∃ before p after, xs.zipIdx first = before ++ p :: after ∧ (∀ q ∈ before, P q.1) ∧ Q p) ↔
      ∃ before x after, xs = before ++ x :: after ∧ (∀ y ∈ before, P y) ∧
        Q (x, first + before.length) := by
  constructor
  · rintro ⟨_, p, others, hcut, hbefore, hp⟩
    obtain ⟨before, rest, rfl, rfl, hrest⟩ := List.zipIdx_eq_append_iff.1 hcut
    obtain ⟨x, after, rfl, rfl, -⟩ := List.zipIdx_eq_cons_iff.1 hrest.symm
    refine ⟨before, x, after, rfl, ?_, hp⟩
    intro y hy
    rw [← List.zipIdx_map_fst first before] at hy
    obtain ⟨q, hq, rfl⟩ := List.mem_map.1 hy
    exact hbefore q hq
  · rintro ⟨before, x, after, rfl, hbefore, hx⟩
    refine ⟨before.zipIdx first, _, _, List.zipIdx_append, ?_, hx⟩
    intro q hq
    exact hbefore q.1 (List.fst_mem_of_mem_zipIdx hq)

end Gemv
