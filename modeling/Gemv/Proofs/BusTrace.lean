import Gemv.Proofs.Offers

/-! What goes over the bus.

Whatever a device answers, the accesses of a host fall into exchanges: a look at a status register,
a word offered after a look that showed room, a sample taken after a look that showed one, or a
strobe by itself. `Carries` says this of the traffic from one link to a later one and names the
words that were offered in it. One exchange keeps the rules of the bus, hence every sequence of them
does (`orderly_flatMap`). -/
namespace Gemv

/-- The accesses over a link so far. -/
def Link.trace {σ : Type} (t : Link σ) : List Access := t.journal.toList.filterMap Event.access?

/-- The value that an access puts into the input register. -/
def Access.offered? : Access → Option UInt32
  | .write r v => if r = Register.inputData then some v else none
  | .read _ _ => none

/-- The rules of the bus, by register number: 0 is for input words, 1 and 2 hold the strobes, 8
shows the next sample and 9 the state of both queues. -/
structure Orderly (trace : List Access) : Prop where
  writes : ∀ r v, Access.write r v ∈ trace → r = 0 ∨ r = 1 ∨ r = 2
  offers : ∀ before v after, trace = before ++ .write 0 v :: after →
    (∃ earlier status, before = earlier ++ [.read 9 status] ∧ Bits.bit status 0 = false) ∧
      ∃ control later, after =
        .read 1 control :: .write 1 (control ||| 2) :: .write 1 (control &&& ~~~2) :: later
  takes : ∀ before v after, trace = before ++ .read 8 v :: after →
    ∃ earlier status, before = earlier ++ [.read 9 status] ∧ Bits.bit status 1 = true

theorem orderly_nil : Orderly [] := ⟨by simp, by simp, by simp⟩

/-- An access in a trace of two parts stands in one of them. -/
theorem append_eq_append_cons {xs ys before after : List Access} {a : Access}
    (h : xs ++ ys = before ++ a :: after) :
    (∃ middle, xs = before ++ a :: middle ∧ after = middle ++ ys) ∨
      ∃ middle, before = xs ++ middle ∧ ys = middle ++ a :: after := by
  rcases List.append_eq_append_iff.1 h with ⟨middle, hbefore, hys⟩ | ⟨middle, hxs, hrest⟩
  · exact .inr ⟨middle, hbefore, hys⟩
  · cases middle with
    | nil => exact .inr ⟨[], by simpa using hxs.symm, by simpa using hrest.symm⟩
    | cons b middle =>
        obtain ⟨rfl, rfl⟩ := List.cons.inj hrest
        exact .inl ⟨middle, hxs, rfl⟩

theorem Orderly.append {xs ys : List Access} (hx : Orderly xs) (hy : Orderly ys) :
    Orderly (xs ++ ys) := by
  constructor
  case writes =>
      intro r v hmem
      rcases List.mem_append.1 hmem with hmem | hmem
      · exact hx.writes r v hmem
      · exact hy.writes r v hmem
  case offers =>
      intro before v after h
      rcases append_eq_append_cons h with ⟨middle, hxs, rfl⟩ | ⟨middle, rfl, hys⟩
      · obtain ⟨hbefore, control, later, rfl⟩ := hx.offers before v middle hxs
        exact ⟨hbefore, control, later ++ ys, rfl⟩
      · obtain ⟨⟨earlier, status, rfl, hroom⟩, hafter⟩ := hy.offers middle v after hys
        exact ⟨⟨xs ++ earlier, status, by simp, hroom⟩, hafter⟩
  case takes =>
      intro before v after h
      rcases append_eq_append_cons h with ⟨middle, hxs, rfl⟩ | ⟨middle, rfl, hys⟩
      · exact hx.takes before v middle hxs
      · obtain ⟨earlier, status, rfl, hwaiting⟩ := hy.takes middle v after hys
        exact ⟨xs ++ earlier, status, by simp, hwaiting⟩

/-- Accesses that the rules leave free to stand anywhere. -/
def Access.Free : Access → Prop
  | .read r _ => r ≠ Register.outputData
  | .write r _ => r = Register.queueControl ∨ r = Register.engineControl

theorem Access.not_free_offer (v : UInt32) : ¬(Access.write 0 v).Free := by
  simp [Free, Register.queueControl, Register.engineControl]

theorem orderly_of_free {trace : List Access} (h : ∀ a ∈ trace, a.Free) : Orderly trace := by
  constructor
  case writes => exact fun r v hmem => .inr (h _ hmem)
  case offers =>
      intro before v after heq
      exact absurd (h (.write 0 v) (by simp [heq])) (Access.not_free_offer v)
  case takes =>
      intro before v after heq
      exact absurd rfl (h (.read 8 v) (by simp [heq]))

/-- Where only the second of some accesses can be the one looked for, that is where it stands. -/
theorem eq_of_cons_cons_eq {x y a : Access} {rest before after : List Access} (hx : x ≠ a)
    (hrest : a ∉ rest) (h : x :: y :: rest = before ++ a :: after) :
    before = [x] ∧ y = a ∧ rest = after := by
  rcases before with _ | ⟨x', _ | ⟨y', before⟩⟩
  · exact absurd (List.cons.inj h).1 hx
  · simpa [eq_comm] using h
  · simp only [List.cons_append, List.cons.injEq] at h
    exact absurd (by simp [h.2.2]) hrest

open Register

/-- Accesses that belong together. -/
inductive Exchange where
  | lookAtQueues (status : UInt32)
  | lookAtEngine (status : UInt32)
  | push (status control : UInt32) (w : Instruction) (room : Bits.bit status fullBit = false)
  | pop (status sample control : UInt32) (waiting : Bits.bit status validBit = true)
  | reset (control : UInt32)
  | clearEnd (control : UInt32)

namespace Exchange

/-- A control bit raised and lowered again. -/
def strobe (r : Register) (bit : Nat) (control : UInt32) : List Access :=
  [.read r control, .write r (Bits.raise control bit), .write r (Bits.lower control bit)]

def accesses : Exchange → List Access
  | lookAtQueues status => [.read queueStatus status]
  | lookAtEngine status => [.read engineStatus status]
  | push status control w _ =>
    .read queueStatus status :: .write inputData w.raw :: strobe queueControl pushBit control
  | pop status sample control _ =>
    .read queueStatus status :: .read outputData sample :: strobe queueControl popBit control
  | reset control => strobe queueControl resetBit control
  | clearEnd control => strobe engineControl clearBit control

def word? : Exchange → Option Instruction
  | push _ _ w _ => some w
  | _ => none

theorem free_of_mem_strobe {r : Register} (hr : r = 1 ∨ r = 2) {bit : Nat} {control : UInt32} :
    ∀ a ∈ strobe r bit control, a.Free := by
  intro a ha
  simp only [strobe, List.mem_cons, List.not_mem_nil, or_false] at ha
  rcases ha with rfl | rfl | rfl
  · rcases hr with rfl | rfl <;> simp [Access.Free, outputData]
  · exact hr
  · exact hr

theorem orderly_push {status control : UInt32} {w : Instruction}
    (hroom : Bits.bit status fullBit = false) :
    Orderly (.read queueStatus status :: .write inputData w.raw ::
      strobe queueControl pushBit control) := by
  have hfree : ∀ a ∈ strobe queueControl pushBit control, a.Free := free_of_mem_strobe (.inl rfl)
  constructor
  case writes =>
      intro r v hmem
      simp only [List.mem_cons, reduceCtorEq, false_or, Access.write.injEq] at hmem
      rcases hmem with ⟨rfl, -⟩ | hmem
      · exact .inl rfl
      · exact .inr (hfree _ hmem)
  case offers =>
      intro before v after h
      have hnone : .write 0 v ∉ strobe queueControl pushBit control := by
        intro hmem
        exact Access.not_free_offer v (hfree _ hmem)
      obtain ⟨rfl, -, rfl⟩ := eq_of_cons_cons_eq (by simp) hnone h
      exact ⟨⟨[], status, rfl, hroom⟩, control, [], rfl⟩
  case takes =>
      intro before v after h
      have hmem : .read 8 v ∈ before ++ .read 8 v :: after := by simp
      rw [← h] at hmem
      simp only [List.mem_cons, reduceCtorEq, false_or, Access.read.injEq] at hmem
      rcases hmem with ⟨heq, -⟩ | hmem
      · exact absurd heq (by decide)
      · exact absurd rfl (hfree _ hmem)

theorem orderly_pop {status sample control : UInt32} (hwaiting : Bits.bit status validBit = true) :
    Orderly (.read queueStatus status :: .read outputData sample ::
      strobe queueControl popBit control) := by
  have hfree : ∀ a ∈ strobe queueControl popBit control, a.Free := free_of_mem_strobe (.inl rfl)
  constructor
  case writes =>
      intro r v hmem
      simp only [List.mem_cons, reduceCtorEq, false_or] at hmem
      exact .inr (hfree _ hmem)
  case offers =>
      intro before v after h
      have hmem : .write 0 v ∈ before ++ .write 0 v :: after := by simp
      rw [← h] at hmem
      simp only [List.mem_cons, reduceCtorEq, false_or] at hmem
      exact absurd (hfree _ hmem) (Access.not_free_offer v)
  case takes =>
      intro before v after h
      have hnone : .read 8 v ∉ strobe queueControl popBit control :=
        fun hmem => absurd rfl (hfree _ hmem)
      have hfirst : Access.read queueStatus status ≠ .read 8 v := by
        intro heq
        exact absurd (Access.read.inj heq).1 (by decide)
      obtain ⟨rfl, -, -⟩ := eq_of_cons_cons_eq hfirst hnone h
      exact ⟨[], status, rfl, hwaiting⟩

theorem orderly_accesses (x : Exchange) : Orderly x.accesses := by
  cases x with
  | lookAtQueues status =>
      apply orderly_of_free
      simp [accesses, Access.Free, queueStatus, outputData]
  | lookAtEngine status =>
      apply orderly_of_free
      simp [accesses, Access.Free, engineStatus, outputData]
  | push status control w room => exact orderly_push room
  | pop status sample control waiting => exact orderly_pop waiting
  | reset control => exact orderly_of_free (free_of_mem_strobe (.inl rfl))
  | clearEnd control => exact orderly_of_free (free_of_mem_strobe (.inr rfl))

theorem orderly_flatMap (xs : List Exchange) : Orderly (xs.flatMap accesses) := by
  induction xs with
  | nil => exact orderly_nil
  | cons x xs ih =>
      rw [List.flatMap_cons]
      exact x.orderly_accesses.append ih

theorem offered_accesses (x : Exchange) :
    x.accesses.filterMap Access.offered? = x.word?.toList.map (·.raw) := by
  cases x <;> rfl

theorem offered_flatMap (xs : List Exchange) :
    (xs.flatMap accesses).filterMap Access.offered? = (xs.filterMap word?).map (·.raw) := by
  induction xs with
  | nil => rfl
  | cons x xs ih =>
      rw [List.flatMap_cons, List.filterMap_append, ih, offered_accesses, List.filterMap_cons]
      cases x.word? <;> rfl

end Exchange

namespace Link

section Trace

variable {σ : Type}

@[simp] theorem trace_note (n : Note) (t : Link σ) : (t.note n).trace = t.trace := by
  simp [trace, Event.access?]

theorem trace_pause (n : Nat) (t : Link σ) : (t.record (.pause n)).trace = t.trace := by
  simp [trace, record, Event.access?]

theorem trace_recordAccess (a : Access) (notes : List Note) (t : Link σ) :
    (t.recordAccess a notes).trace = t.trace ++ [a] := by
  have hnotes : (notes.map Event.note).filterMap Event.access? = [] := by
    simp [Event.access?]
  simp [trace, recordAccess, Event.access?, hnotes]

variable [Device σ]

theorem trace_read (r : Register) (t : Link σ) :
    (t.read r).2.trace = t.trace ++ [.read r (t.read r).1] :=
  trace_recordAccess ..

theorem trace_write (r : Register) (v : UInt32) (t : Link σ) :
    (t.write r v).trace = t.trace ++ [.write r v] :=
  trace_recordAccess ..

theorem trace_pulse (r : Register) (bit : Nat) (t : Link σ) :
    (t.pulse r bit).trace = t.trace ++ Exchange.strobe r bit (t.read r).1 := by
  change (((t.read r).2.write r (Bits.raise (t.read r).1 bit)).write r
    (Bits.lower (t.read r).1 bit)).trace = _
  rw [trace_write, trace_write, trace_read, List.append_assoc, List.append_assoc]
  rfl

theorem trace_offer (w : Instruction) (t : Link σ) :
    ∃ control, (t.offer w).trace =
      t.trace ++ .write inputData w.raw :: Exchange.strobe queueControl pushBit control := by
  refine ⟨(((t.note (.pushed w)).write inputData w.raw).read queueControl).1, ?_⟩
  change (((t.note (.pushed w)).write inputData w.raw).pulse queueControl pushBit).trace = _
  rw [trace_pulse, trace_write, trace_note]
  simp

end Trace

variable {σ : Type} {t u v : Link σ}

/-- The traffic from one link to a later one: whole exchanges, with these words offered in them. -/
structure Carries (words : List Instruction) (t u : Link σ) : Prop where
  exchanges : ∃ xs : List Exchange, u.trace = t.trace ++ xs.flatMap Exchange.accesses ∧
    xs.filterMap Exchange.word? = words
  pushed : u.pushed = t.pushed + words.length

namespace Carries

theorem refl (t : Link σ) : Carries [] t t := ⟨⟨[], by simp, rfl⟩, rfl⟩

theorem trans {ws vs : List Instruction} (h : Carries ws t u) (h' : Carries vs u v) :
    Carries (ws ++ vs) t v := by
  obtain ⟨⟨xs, htrace, rfl⟩, hpushed⟩ := h
  obtain ⟨⟨ys, htrace', rfl⟩, hpushed'⟩ := h'
  refine ⟨⟨xs ++ ys, ?_, List.filterMap_append⟩, ?_⟩
  · rw [htrace', htrace, List.flatMap_append, List.append_assoc]
  · rw [hpushed', hpushed, List.length_append, Nat.add_assoc]

theorem note (t : Link σ) (n : Note) : Carries [] t (t.note n) :=
  ⟨⟨[], by simp, rfl⟩, rfl⟩

theorem offered {words : List Instruction} (h : Carries words t u) :
    u.trace.filterMap Access.offered? =
      t.trace.filterMap Access.offered? ++ words.map (·.raw) := by
  obtain ⟨⟨xs, htrace, rfl⟩, -⟩ := h
  rw [htrace, List.filterMap_append, Exchange.offered_flatMap]

end Carries

/-- The link has looked for room in the input queue and found none. -/
structure Looked (t u : Link σ) : Prop where
  statuses : ∃ seen : List UInt32, u.trace = t.trace ++ seen.map (.read queueStatus) ∧
    ∀ status ∈ seen, Bits.bit status fullBit = true
  pushed : u.pushed = t.pushed

namespace Looked

theorem refl (t : Link σ) : Looked t t := ⟨⟨[], by simp, by simp⟩, rfl⟩

theorem pause (h : Looked t u) (n : Nat) : Looked t (u.record (.pause n)) := by
  obtain ⟨⟨seen, htrace, hfull⟩, hpushed⟩ := h
  exact ⟨⟨seen, by rw [trace_pause, htrace], hfull⟩, hpushed⟩

theorem carries (h : Looked t u) : Carries [] t u := by
  obtain ⟨⟨seen, htrace, -⟩, hpushed⟩ := h
  refine ⟨⟨seen.map .lookAtQueues, ?_, ?_⟩, hpushed⟩
  · rw [htrace, List.flatMap_map, List.map_eq_flatMap]
    rfl
  · simp [Exchange.word?]

end Looked

variable [Device σ]

/-- A look for room is one status read, and says what that shows. -/
theorem lookForRoom_read (failed : Nat) (t : Link σ) :
    ∃ status, (t.lookForRoom failed).2.trace = t.trace ++ [.read queueStatus status] ∧
      (t.lookForRoom failed).2.pushed = t.pushed ∧
      (t.lookForRoom failed).1 = !Bits.bit status fullBit := by
  have htrace := trace_read queueStatus t
  have hpushed := pushed_read queueStatus t
  unfold lookForRoom
  generalize t.read queueStatus = p at htrace hpushed ⊢
  obtain ⟨status, u⟩ := p
  refine ⟨status, ?_⟩
  cases hfull : Bits.bit status fullBit with
  | true => by_cases hfirst : failed = 0 <;> simp_all
  | false => simp_all

theorem Looked.lookForRoom (h : Looked t u) {failed : Nat}
    (hfull : (u.lookForRoom failed).1 = false) : Looked t (u.lookForRoom failed).2 := by
  obtain ⟨⟨seen, htrace, hseen⟩, hpushed⟩ := h
  obtain ⟨status, hlook, hcount, hsays⟩ := lookForRoom_read failed u
  have hstatus : Bits.bit status fullBit = true := by simpa [hfull] using hsays
  refine ⟨⟨seen ++ [status], ?_, ?_⟩, hcount.trans hpushed⟩
  · rw [hlook, htrace, List.append_assoc, List.map_append]
    rfl
  · intro v hv
    rcases List.mem_append.1 hv with hv | hv
    · exact hseen v hv
    · rwa [List.mem_singleton.1 hv]

/-- A word goes out right after the look that found room for it. -/
theorem carries_offer (h : Looked t u) {failed : Nat} (hroom : (u.lookForRoom failed).1 = true)
    {v : Link σ} (htrace : v.trace = (u.lookForRoom failed).2.trace)
    (hpushed : v.pushed = (u.lookForRoom failed).2.pushed) (w : Instruction) :
    Carries [w] t (v.offer w) := by
  obtain ⟨status, hlook, hcount, hsays⟩ := lookForRoom_read failed u
  have hstatus : Bits.bit status fullBit = false := by simpa [hroom] using hsays
  obtain ⟨control, hoffer⟩ := trace_offer w v
  refine List.nil_append [w] ▸ h.carries.trans ⟨⟨[.push status control w hstatus], ?_, rfl⟩, ?_⟩
  · rw [hoffer, htrace, hlook, List.append_assoc]
    rfl
  · change v.pushed + 1 = _
    rw [hpushed, hcount]
    rfl

/-- A push sends its word once there is room, or it has only looked. -/
theorem push_traffic (w : Instruction) (t : Link σ) :
    (∃ u, t.push w = (.ok (), u) ∧ Carries [w] t u) ∨
      ∃ e u, t.push w = (.error e, u) ∧ Looked t u := by
  have hlook : ∀ n (u : Link σ), Looked t u → (u.lookForRoom n).1 = false →
      Looked t (u.lookForRoom n).2 := fun _ _ h hfull => h.lookForRoom hfull
  have hpause : ∀ n (u : Link σ), Looked t u → Looked t (u.record (.pause n)) :=
    fun n _ h => h.pause n
  rcases await_cases hlook hpause "FIFO-in space" (Looked.refl t) with
    ⟨n, last, hlast, hroom, hwait⟩ | ⟨e, final, hfinal, hwait⟩
  · refine .inl ⟨_, by rw [push, hwait], ?_⟩
    by_cases hn : 0 < n
    · simp only [hn, if_true]
      exact carries_offer hlast hroom (trace_note _ _) rfl w
    · simp only [hn, if_false]
      exact carries_offer hlast hroom rfl rfl w
  · exact .inr ⟨e, final, by rw [push, hwait], hfinal⟩

theorem tracks_carries (t : Link σ) : Tracks fun sent u => Carries sent t u where
  push {sent u} h w := by
    rcases push_traffic w u with ⟨v, hpush, hsent⟩ | ⟨e, v, hpush, hlooked⟩
    · rw [accepts, hpush]
      exact h.trans hsent
    · rw [accepts, hpush]
      exact h.trans hlooked.carries
  note h n := by simpa using h.trans (.note _ n)

namespace Carries

theorem clearEnd (t : Link σ) : Carries [] t t.clearEnd := by
  refine ⟨⟨[.clearEnd (t.read engineControl).1], ?_, rfl⟩, rfl⟩
  exact (trace_pulse engineControl clearBit t).trans (by simp [Exchange.accesses])

theorem reset (t : Link σ) : Carries [] t t.reset := by
  refine ⟨⟨[.reset ((t.note .resetting).read queueControl).1], ?_, rfl⟩, rfl⟩
  rw [Link.reset, trace_pulse, trace_note]
  simp [Exchange.accesses]

theorem isEnd (t : Link σ) : Carries [] t t.isEnd.2 :=
  ⟨⟨[.lookAtEngine (t.read engineStatus).1], trace_read engineStatus t, rfl⟩, rfl⟩

theorem awaitEnd (t : Link σ) : Carries [] t t.awaitEnd.2 := by
  have hlook : ∀ (n : Nat) (u : Link σ), Carries [] t u →
      Carries [] t ((fun _ t => Link.isEnd t) n u).2 := fun _ u h => h.trans (isEnd u)
  have hpause : ∀ n (u : Link σ), Carries [] t u → Carries [] t (u.record (.pause n)) := by
    intro n u h
    exact h.trans ⟨⟨[], by simp [trace_pause], rfl⟩, rfl⟩
  rcases await_cases (fun n u h _ => hlook n u h) hpause "end of vector" (refl t) with
    ⟨n, last, hlast, -, hwait⟩ | ⟨e, final, hfinal, hwait⟩
  · rw [Link.awaitEnd, hwait]
    exact (hlook n last hlast).trans (.note _ _)
  · rw [Link.awaitEnd, hwait]
    exact hfinal

/-- A sample is read right after the look that found one. -/
theorem pop (t : Link σ) : Carries [] t t.pop.2 := by
  have hstatus := trace_read queueStatus t
  have hpushed := pushed_read queueStatus t
  unfold Link.pop
  generalize t.read queueStatus = p at hstatus hpushed ⊢
  obtain ⟨status, u⟩ := p
  simp only at hstatus hpushed ⊢
  cases hvalid : Bits.bit status validBit with
  | false => exact ⟨⟨[.lookAtQueues status], hstatus, rfl⟩, hpushed⟩
  | true =>
      have hsample := trace_read outputData u
      have hcount := pushed_read outputData u
      simp only [if_true]
      generalize u.read outputData = q at hsample hcount ⊢
      obtain ⟨sample, v⟩ := q
      simp only at hsample hcount ⊢
      refine ⟨⟨[.pop status sample (v.read queueControl).1 hvalid], ?_, rfl⟩, hcount.trans hpushed⟩
      rw [trace_note, trace_pulse, hsample, hstatus]
      simp [Exchange.accesses]

theorem popFrom (taken : List Sample) (max : Nat) (t : Link σ) :
    Carries [] t (t.popFrom taken max).2 := by
  induction max generalizing taken t with
  | zero => exact refl t
  | succ max ih =>
      have hpop := pop t
      unfold Link.popFrom
      generalize t.pop = p at hpop ⊢
      obtain ⟨sample, u⟩ := p
      cases sample with
      | none => exact hpop
      | some s => exact hpop.trans (ih _ u)

theorem popVector (max : Nat) (t : Link σ) : Carries [] t (t.popVector max).2 :=
  (popFrom [] max t).trans (.note _ _)

end Carries

end Link

namespace HostOp
open Link

variable {σ : Type} [Device σ]

/-- Regular operations that read no register by hand: every access is by the rules of the link. -/
def keepsRules : HostOp → Bool
  | .read _ => false
  | op => op.isRegular

def runAll (g : Geometry) (ops : List HostOp) (t : Link σ) : Link σ :=
  ops.foldl (fun t op => (op.run g t).2) t

/-- The words of a run whose push succeeded, in order. -/
def accepted (g : Geometry) : List HostOp → Link σ → List Instruction :=
  along g fun op t => t.accepts (op.offers g)

theorem carries_run (g : Geometry) {op : HostOp} (hop : op.keepsRules = true) (t : Link σ) :
    Carries (t.accepts (op.offers g)) t (op.run g t).2 := by
  have hpushing : ∀ {op : HostOp}, op.pushes = true →
      Carries (t.accepts (op.offers g)) t (op.run g t).2 := by
    intro op hpushes
    exact (tracks_carries t).run (.refl t) g hpushes
  cases op with
  | push | pushAll | pushProgram | pushListing | load | loadSingles | clearRegister =>
      exact hpushing rfl
  | pop => exact .pop t
  | popVector max => exact .popVector max t
  | popSingles max fraction => exact .popVector max t
  | isEnd => exact .isEnd t
  | clearEnd => exact .clearEnd t
  | awaitEnd => exact .awaitEnd t
  | reset => exact .reset t
  | setLimits | setWait => exact ⟨⟨[], (List.append_nil _).symm, rfl⟩, rfl⟩
  | read | write | lendPush | renew => simp [keepsRules, isRegular] at hop

theorem carries_runAll (g : Geometry) {ops : List HostOp} (hops : ∀ op ∈ ops, op.keepsRules = true)
    (t : Link σ) : Carries (accepted g ops t) t (runAll g ops t) := by
  induction ops generalizing t with
  | nil => exact .refl t
  | cons op ops ih =>
      have hrest := ih (fun op' hop' => hops op' (List.mem_cons_of_mem op hop')) (op.run g t).2
      exact (carries_run g (hops op (List.mem_cons_self ..)) t).trans hrest

/-- The bus is used by its rules whatever the device answers. In a run from a new link on, only the
registers 0, 1 and 2 are written; a word is written right after a status that showed room and
strobed in right after that; a sample is read right after a status that showed one. The words
written are those accepted, and the link has counted them. A push that fails has only read
statuses, and each showed a full queue. -/
theorem bus_protocol_safe (g : Geometry) (device : σ) (limits : PollLimits) (wait : Wait)
    {ops : List HostOp} (hops : ∀ op ∈ ops, op.keepsRules = true) :
    let start : Link σ := { device, limits, wait }
    let final := runAll g ops start
    Orderly final.trace ∧
      final.trace.filterMap Access.offered? = (accepted g ops start).map (·.raw) ∧
      final.pushed = (accepted g ops start).length ∧
      ∀ (t : Link σ) (w : Instruction) (e : Error) (u : Link σ), t.push w = (.error e, u) →
        ∃ seen : List UInt32, u.trace = t.trace ++ seen.map (.read 9) ∧
          ∀ status ∈ seen, Bits.bit status 0 = true := by
  intro start final
  obtain ⟨⟨xs, htrace, hwords⟩, hpushed⟩ := carries_runAll g hops start
  change final.trace = [] ++ _ at htrace
  rw [List.nil_append] at htrace
  refine ⟨?_, ?_, ?_, ?_⟩
  · rw [htrace]
    exact Exchange.orderly_flatMap xs
  · rw [htrace, Exchange.offered_flatMap, hwords]
  · rw [← Nat.zero_add (accepted g ops start).length]
    exact hpushed
  · intro t w e u hpush
    rcases push_traffic w t with ⟨v, hsent, -⟩ | ⟨e', v, hfailed, hlooked⟩
    · rw [hsent] at hpush
      cases hpush
    · rw [hfailed] at hpush
      cases hpush
      exact hlooked.statuses

/-- Plain memory whose status always shows room and a sample, and never the end of a vector. -/
theorem bus_protocol_safe_plain_memory :
    let memory : RegisterFile := ⟨(Vector.replicate 16 0).set 9 2⟩
    let limits : PollLimits := { maxAttempts := some 3 }
    let ops : List HostOp := [.push .selectAll, .popVector 2, .awaitEnd, .load 3 [1, -1], .reset]
    let start : Link RegisterFile := { device := memory, limits }
    let final := runAll .standard ops start
    (∀ op ∈ ops, op.keepsRules = true) ∧ Orderly final.trace ∧
      final.pushed = (accepted .standard ops start).length := by
  intro memory limits ops
  have hops : ∀ op ∈ ops, op.keepsRules = true := by simp [ops, keepsRules, isRegular]
  have h := bus_protocol_safe .standard memory limits .spin hops
  exact ⟨hops, h.1, h.2.2.1⟩

end HostOp

end Gemv
