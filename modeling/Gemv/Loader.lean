import Gemv.Link

/-! Loading vector registers over a link.

Words are pushed as they are made, so a load that is cut off leaves the register with some of the
new rows; loading it again mends that. -/
namespace Gemv.Link

variable {σ : Type} [Device σ]

/-- Loads a vector into a register; the result is the number of words it took. -/
def load (g : Geometry) (register : Nat) (values : List Int16) (t : Link σ) :
    Except Error Nat × Link σ :=
  match LoadPlan.emit push g register values t with
  | (.error e, t) => (.error e, t)
  | (.ok stats, t) => (.ok stats.instructions, t.note (.loaded register stats))

/-- Loads numbers through a conversion to lane values. -/
def loadConverted {α : Type} (convert : α → Int16) (g : Geometry) (register : Nat)
    (values : List α) (t : Link σ) : Except Error Nat × Link σ :=
  t.load g register (Fixed.fill convert values (List.replicate values.length 0)).2

theorem loadConverted_eq {α : Type} (convert : α → Int16) (g : Geometry) (register : Nat)
    (values : List α) (t : Link σ) :
    t.loadConverted convert g register values = t.load g register (values.map convert) := by
  rw [loadConverted, Fixed.fill_of_length convert (List.length_replicate ..)]

/-- Clears a register; the result is the number of words it took. -/
def clearRegister (g : Geometry) (register : Nat) (t : Link σ) : Except Error Nat × Link σ :=
  match LoadPlan.clearWords g register with
  | .error e => (.error e, t)
  | .ok words => t.pushAll words

end Gemv.Link
