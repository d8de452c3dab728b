import Gemv.Command.Run
import Gemv.Proofs.BusTrace
import Gemv.Proofs.LoadRefusal

/-! A load against its plan.

Words go out as they are made, and yet a load is its plan, made in full and then pushed: over any
device the same accesses and pauses, the same count or error and the same link but for the log
(`streams_load`). A load that is cut off has sent the beginning of the plan and never all of it. -/
namespace Gemv

/-- The accesses and pauses over a link so far, without the notes. -/
def Link.events {σ : Type} (t : Link σ) : List Event :=
  t.journal.toList.filter fun e => e.note?.isNone

theorem Link.events_note {σ : Type} (n : Note) (t : Link σ) : (t.note n).events = t.events := by
  simp [events, Event.note?]

namespace Link

variable {σ : Type} [Device σ]

/-- Pushes the words of a plan, if there is one. -/
def pushPlan (plan : Except Error (List Instruction)) (t : Link σ) : Except Error Nat × Link σ :=
  match plan with
  | .error e => (.error e, t)
  | .ok ws => t.pushAll ws

/-- An outcome that cannot be told from that of pushing a plan. All words of the plan have gone out,
or it was cut off and they are the first ones of the plan, with some left. -/
structure Streams (plan : Except Error (List Instruction)) (t : Link σ)
    (outcome : Except Error Nat × Link σ) : Prop where
  result : outcome.1 = (t.pushPlan plan).1
  link : Alike outcome.2 (t.pushPlan plan).2
  events : outcome.2.events = (t.pushPlan plan).2.events
  sent : ∀ ws, plan = .ok ws → ∃ sent rest, ws = sent ++ rest ∧
    (rest = [] ↔ ∃ n, outcome.1 = .ok n) ∧
    outcome.2.pushed = t.pushed + sent.length ∧
    outcome.2.trace.filterMap Access.offered? =
      t.trace.filterMap Access.offered? ++ sent.map (·.raw)
  timeout : ∀ awaited polls, outcome.1 = .error (.timeout awaited polls) → ∃ ws, plan = .ok ws

theorem streams_load (g : Geometry) (register : Nat) (values : List Int16) (t : Link σ) :
    Streams (LoadPlan.words g register values) t (t.load g register values) := by
  rw [load_eq]
  cases hplan : LoadPlan.words g register values with
  | error e =>
      refine ⟨rfl, .intro .., rfl, ?_, ?_⟩
      · intro ws hws
        cases hws
      · intro awaited polls htimeout
        cases htimeout
        cases LoadPlan.words_eq_error_iff.1 hplan
  | ok ws =>
      obtain ⟨rest, hws, hrest⟩ := accepts_append 0 ws t
      have hsent := (tracks_carries t).pushFrom (.refl t) 0 ws
      rw [List.nil_append] at hsent
      cases hpush : t.pushFrom 0 ws with
      | mk result u =>
          have houtcome : t.pushPlan (.ok ws) = (result, u) := hpush
          rw [hpush] at hrest hsent
          cases result with
          | error e =>
              simp only [pushAll, hpush]
              refine ⟨by rw [houtcome], by rw [houtcome]; exact .intro .., by rw [houtcome], ?_,
                fun _ _ _ => ⟨ws, rfl⟩⟩
              rintro _ ⟨⟩
              exact ⟨t.accepts ws, rest, hws, hrest, hsent.pushed, hsent.offered⟩
          | ok n =>
              simp only [pushAll, hpush]
              refine ⟨by rw [houtcome], ?_, ?_, ?_, ?_⟩
              · rw [houtcome]
                exact alike_note _ u
              · rw [houtcome]
                exact events_note _ u
              · rintro _ ⟨⟩
                refine ⟨t.accepts ws, rest, hws, hrest, hsent.pushed, ?_⟩
                rw [trace_note]
                exact hsent.offered
              · intro awaited polls htimeout
                cases htimeout

end Link

namespace Command

theorem readValues_of_read {texts : List String} {xs : List Single} (fraction : Nat)
    (h : texts.mapM Single.read = .ok xs) :
    readValues true fraction texts = .ok (xs.map (Fixed.ofSingle fraction)) := by
  rw [mapM_eq_ok_iff] at h
  rw [readValues, mapM_eq_ok_iff, List.map_map]
  induction texts generalizing xs with
  | nil =>
      cases List.map_eq_nil_iff.1 h.symm
      rfl
  | cons text texts ih =>
      obtain ⟨x, rest, rfl, hread, hrest⟩ := List.map_eq_cons_iff.1 h.symm
      rw [List.map_cons, List.map_cons, ih hrest.symm]
      simp only [if_true, ← hread]
      rfl

end Command

/-- A load is its plan, pushed: nothing on the link or in the result tells one from the other,
whatever the device answers and wherever a push fails. Numbers that are converted first are no
different, and a dry run prints the words of that same plan. Its length is what the counts say. -/
theorem Link.load_streams_plan {σ : Type} [Device σ] (g : Geometry) (register : Nat) (t : Link σ) :
    (∀ values, Streams (LoadPlan.words g register values) t (t.load g register values)) ∧
      (∀ {α : Type} (convert : α → Int16) (xs : List α),
        Streams (LoadPlan.words g register (xs.map convert)) t
          (t.loadConverted convert g register xs)) ∧
      (∀ s c fraction texts xs, texts.mapM Single.read = .ok xs →
        (Command.act s c g (.load register true fraction true texts)).output =
          match LoadPlan.words g register (xs.map (Fixed.ofSingle fraction)) with
          | .ok ws => .ofLines (ws.map (·.render))
          | .error e => .ofFailure (.ofError e)) ∧
      ∀ values, (LoadPlan.stats g register values).map (·.instructions) =
        (LoadPlan.words g register values).map List.length := by
  refine ⟨?_, ?_, ?_, ?_⟩
  · intro values
    exact streams_load g register values t
  · intro α convert xs
    rw [loadConverted_eq]
    exact streams_load g register (xs.map convert) t
  · intro s c fraction texts xs hread
    rw [Command.act, Command.readValues_of_read fraction hread]
    rfl
  · intro values
    exact LoadPlan.stats_instructions g register values

end Gemv
