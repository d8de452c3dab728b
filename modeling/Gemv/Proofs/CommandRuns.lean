import Gemv.Command.Run

/-! What commands come to.

A command about a program reads it first. `run_push_eq` says the rest of a push for any way to open
an engine: it is opened only once the program has passed its check, and the conversation over it is
all that follows. -/
namespace Gemv

theorem Listing.parseBytes_toUTF8 (name text : String) :
    parseBytes name text.toUTF8 = parse name text := by
  have htext : String.fromUTF8? text.toUTF8 = some text := by
    rw [String.fromUTF8?]
    exact dif_pos text.isValidUTF8
  rw [parseBytes, htext]

namespace Command

/-- A way to open an engine and to have a conversation with it. -/
abbrev Opening := ({σ : Type} → [Device σ] → Link σ → Output × Link σ) → Report

/-- Pushes a program that was read, if it was, through any way to open an engine. -/
def pushThrough (opening : Opening) (g : Geometry) (wait : Bool) (pop : Option Nat) :
    Except Failure Program → Report
  | .error f => { output := .ofFailure f }
  | .ok p =>
    match p.checkCompatible g with
    | .error e => { output := .ofFailure (.ofError e) }
    | .ok () => opening (talkPush p wait pop)

section Programs

variable {s : Surroundings} {g : Geometry} {path : String} {bytes : ByteArray} {p : Program}

theorem readProgram_binary (hread : s.files.read path = .ok bytes)
    (hparse : Listing.parseBinary (programName path) bytes (.ofGeometry g) = .ok p) :
    readProgram s g path true = .ok p := by
  have hfile : s.files.binary path (.ofGeometry g) = .ok p := by
    rw [Files.binary, hread]
    exact hparse
  rw [readProgram, if_pos rfl, hfile]
  rfl

theorem readProgram_listing (hread : s.files.read path = .ok bytes)
    (hparse : Listing.parseBytes (programName path) bytes = .ok p) :
    readProgram s g path false = .ok p := by
  have hfile : s.files.listing path = .ok p := by
    rw [Files.listing, hread]
    exact hparse
  rw [readProgram, if_neg (by decide), hfile]
  rfl

end Programs

section Runs

variable {s : Surroundings} {c : Settings} {g : Geometry} {path : String} {binary : Bool}
  {p : Program} (hg : Geometry.ofSizes c.lanes c.width = .ok g)

include hg

theorem run_push_eq (s : Surroundings) (path : String) (binary wait : Bool) (pop : Option Nat) :
    run s ⟨c, .push path binary wait pop⟩ =
      pushThrough (withLink s c g) g wait pop (readProgram s g path binary) := by
  simp only [run, hg, act]
  cases readProgram s g path binary <;> rfl

variable (hread : readProgram s g path binary = .ok p)

include hread

theorem run_push (hfits : p.checkCompatible g = .ok ()) (wait : Bool) (pop : Option Nat) :
    run s ⟨c, .push path binary wait pop⟩ = withLink s c g (talkPush p wait pop) := by
  rw [run_push_eq hg, hread]
  simp only [pushThrough, hfits]

theorem run_disassemble :
    run s ⟨c, .disassemble path binary⟩ = { output := disassembly p } := by
  simp only [run, hg, act, hread]

end Runs

/-- The link to a new engine that a simulated command has. -/
def simulatedLink (g : Geometry) : Link Engine :=
  { device := Engine.new g, limits := { maxAttempts := some simulatedAttempts } }

theorem withLink_simulated {c : Settings} (hsimulated : c.simulated = true)
    (htimeout : c.timeoutMillis = none) (s : Surroundings) (g : Geometry)
    (talk : {σ : Type} → [Device σ] → Link σ → Output × Link σ) :
    withLink s c g talk = { output := (talk (simulatedLink g)).1 } := by
  have hlimits : pollLimits c = { maxAttempts := some simulatedAttempts } := by
    rw [pollLimits, htimeout, hsimulated]
    rfl
  rw [withLink, if_pos hsimulated, hlimits]
  rfl

end Command

end Gemv
