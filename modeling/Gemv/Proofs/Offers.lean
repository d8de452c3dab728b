import Gemv.Operation
import Gemv.Proofs.Acceptance
import Gemv.Proofs.Streaming

/-! What operations offer, take and keep to.

An operation that pushes has a list of words to offer and pushes them one after the other until a
push fails. Whatever single pushes and notes keep, in terms of the words accepted so far, every such
operation keeps (`Tracks.run`). What a whole run yields is what its operations yield, one after the
other (`along`). -/
namespace Gemv

/-- What the steps of a run yield, each seen from the state before it; `next` is the one after. -/
def along {ι τ α : Type} (next : ι → τ → τ) (part : ι → τ → List α) : List ι → τ → List α
  | [], _ => []
  | step :: steps, t => part step t ++ along next part steps (next step t)

/-- The words of a plan; none if there is no plan. -/
def HostOp.planned : Except Error (List Instruction) → List Instruction
  | .ok ws => ws
  | .error _ => []

/-- The words that an operation pushes one after the other, until a push fails. -/
def HostOp.offers (g : Geometry) : HostOp → List Instruction
  | .push w => [w]
  | .pushAll ws => ws
  | .pushProgram p => p.words
  | .pushListing name text => planned do
    let p ← Listing.parse name text
    p.checkCompatible g
    return p.words
  | .load register values => planned (LoadPlan.words g register values)
  | .loadSingles register values fraction =>
    planned (LoadPlan.words g register (values.map (Fixed.ofSingle fraction)))
  | .clearRegister register => planned (LoadPlan.clearWords g register)
  | _ => []

def HostOp.pushes : HostOp → Bool
  | .push _ | .pushAll _ | .pushProgram _ | .pushListing _ _ | .load _ _ | .loadSingles _ _ _
  | .clearRegister _ => true
  | _ => false

/-- Every operation but a write to a register by hand, and those of a second host. -/
def HostOp.isRegular : HostOp → Bool
  | .write _ _ | .lendPush _ | .renew => false
  | _ => true

section Runs

variable {σ : Type} [Device σ] {α : Type}

/-- The samples that an operation takes. -/
def HostOp.takes (op : HostOp) (t : Link σ) : List Sample :=
  match op with
  | .pop => t.pop.1.toList
  | .popVector max | .popSingles max _ => (t.popSamples max).1
  | _ => []

/-- What the operations of a host yield. -/
def HostOp.along (g : Geometry) (part : HostOp → Link σ → List α) (ops : List HostOp)
    (t : Link σ) : List α :=
  Gemv.along (fun op t => (op.run g t).2) part ops t

@[simp] theorem HostOp.along_nil (g : Geometry) (part : HostOp → Link σ → List α) (t : Link σ) :
    along g part [] t = [] := rfl

@[simp] theorem HostOp.along_cons (g : Geometry) (part : HostOp → Link σ → List α) (op : HostOp)
    (ops : List HostOp) (t : Link σ) :
    along g part (op :: ops) t = part op t ++ along g part ops (op.run g t).2 := rfl

end Runs

namespace Operation

variable {α : Type}

def isRegular : Operation → Bool
  | .host op => op.isRegular
  | .engine _ => true

/-- What the operations of a run yield. -/
def along (g : Geometry) (part : Operation → Link Engine → List α) (ops : List Operation)
    (t : Link Engine) : List α :=
  Gemv.along (fun op t => (op.run g t).2) part ops t

@[simp] theorem along_nil (g : Geometry) (part : Operation → Link Engine → List α)
    (t : Link Engine) : along g part [] t = [] := rfl

@[simp] theorem along_cons (g : Geometry) (part : Operation → Link Engine → List α)
    (op : Operation) (ops : List Operation) (t : Link Engine) :
    along g part (op :: ops) t = part op t ++ along g part ops (op.run g t).2 := rfl

theorem along_singleton (g : Geometry) (part : Operation → Link Engine → List α) (op : Operation)
    (t : Link Engine) : along g part [op] t = part op t := List.append_nil _

end Operation

namespace Link

variable {σ : Type} [Device σ]

/-- A relation between a link and the words it has accepted that single pushes and notes keep. -/
structure Tracks (Q : List Instruction → Link σ → Prop) : Prop where
  push : ∀ {sent : List Instruction} {t : Link σ}, Q sent t →
    ∀ w, Q (sent ++ t.accepts [w]) (t.push w).2
  note : ∀ {sent : List Instruction} {t : Link σ}, Q sent t → ∀ n, Q sent (t.note n)

namespace Tracks

variable {Q : List Instruction → Link σ → Prop} {sent : List Instruction} {t : Link σ}

theorem pushFrom (h : Tracks Q) (ht : Q sent t) (count : Nat) (ws : List Instruction) :
    Q (sent ++ t.accepts ws) (t.pushFrom count ws).2 := by
  induction ws generalizing t sent count with
  | nil => simpa [accepts, pushFrom_nil] using ht
  | cons w ws ih =>
      have hfirst := h.push ht w
      -- Both sides go on exactly when the first push succeeds.
      rw [accepts] at hfirst ⊢
      rw [pushFrom_cons]
      generalize t.push w = p at hfirst ⊢
      obtain ⟨result, u⟩ := p
      cases result with
      | error e => exact hfirst
      | ok done =>
          have hrest := ih hfirst (count + 1)
          simpa [accepts] using hrest

theorem pushProgram (h : Tracks Q) (ht : Q sent t) (p : Program) :
    Q (sent ++ t.accepts p.words) (t.pushProgram p).2 := by
  have hpush := h.pushFrom (h.note ht (.pushing p.name p.words.length)) 0 p.words
  rw [(alike_note _ t).accepts] at hpush
  rw [Link.pushProgram, pushAll]
  generalize (t.note (.pushing p.name p.words.length)).pushFrom 0 p.words = q at hpush ⊢
  obtain ⟨result, u⟩ := q
  cases result <;> exact hpush

theorem pushListing (h : Tracks Q) (ht : Q sent t) (g : Geometry) (name text : String) :
    Q (sent ++ t.accepts ((HostOp.pushListing name text).offers g))
      (HostOp.runListing g name text t).2 := by
  rw [HostOp.runListing, HostOp.offers]
  cases Listing.parse name text with
  | error e => simpa [bind, Except.bind, HostOp.planned, accepts] using ht
  | ok p =>
      have hnoted := h.note ht (.parsed "listing" name p.words.length)
      cases hfit : p.checkCompatible g with
      | error e => simpa [hfit, bind, Except.bind, HostOp.planned, accepts] using hnoted
      | ok done =>
          have hpush := h.pushProgram hnoted p
          rw [(alike_note _ t).accepts] at hpush
          simp only [hfit, bind, Except.bind, pure, Except.pure, HostOp.planned]
          exact hpush

theorem load (h : Tracks Q) (ht : Q sent t) (g : Geometry) (register : Nat)
    (values : List Int16) :
    Q (sent ++ t.accepts (HostOp.planned (LoadPlan.words g register values)))
      (t.load g register values).2 := by
  rw [load_eq]
  cases LoadPlan.words g register values with
  | error e => simpa [HostOp.planned, accepts] using ht
  | ok ws =>
      have hpush := h.pushFrom ht 0 ws
      simp only [HostOp.planned, pushAll]
      generalize t.pushFrom 0 ws = p at hpush ⊢
      obtain ⟨result, u⟩ := p
      cases result with
      | error e => exact hpush
      | ok n => exact h.note hpush _

theorem clearRegister (h : Tracks Q) (ht : Q sent t) (g : Geometry) (register : Nat) :
    Q (sent ++ t.accepts (HostOp.planned (LoadPlan.clearWords g register)))
      (t.clearRegister g register).2 := by
  rw [Link.clearRegister]
  cases LoadPlan.clearWords g register with
  | error e => simpa [HostOp.planned, accepts] using ht
  | ok ws => exact h.pushFrom ht 0 ws

theorem run (h : Tracks Q) (ht : Q sent t) (g : Geometry) {op : HostOp} (hop : op.pushes = true) :
    Q (sent ++ t.accepts (op.offers g)) (op.run g t).2 := by
  cases op with
  | push w => exact h.push ht w
  | pushAll ws => exact h.pushFrom ht 0 ws
  | pushProgram p => exact h.pushProgram ht p
  | pushListing name text => exact h.pushListing ht g name text
  | load register values => exact h.load ht g register values
  | loadSingles register values fraction =>
      simp only [HostOp.run, loadConverted_eq]
      exact h.load ht g register _
  | clearRegister register => exact h.clearRegister ht g register
  | _ => simp [HostOp.pushes] at hop

end Tracks

end Link

end Gemv
