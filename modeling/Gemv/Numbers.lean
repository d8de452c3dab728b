/-! Powers and sums of numbers. -/
namespace Gemv

/-- The power of the core library, in every module and whatever else that module imports. -/
@[default_instance 20000]
instance (priority := 20000) power {M : Type} [NatPow M] : Pow M Nat := instPowNat

def total (ns : List Nat) : Nat := ns.foldr (· + ·) 0

@[simp] theorem total_nil : total [] = 0 := rfl

@[simp] theorem total_cons (n : Nat) (ns : List Nat) : total (n :: ns) = n + total ns := rfl

theorem total_append (ns ms : List Nat) : total (ns ++ ms) = total ns + total ms := by
  induction ns with
  | nil => simp
  | cons n ns ih => simp [ih, Nat.add_assoc]

end Gemv
