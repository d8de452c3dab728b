import Gemv.Main
import Gemv.Operation
import Gemv.Proofs.BusTrace
import Gemv.Proofs.InputQueue
import Gemv.Proofs.ListingGrammar
import Gemv.Proofs.ListingRoundTrip
import Gemv.Proofs.LoadRefusal
import Gemv.Proofs.PlannedLoad
import Gemv.Proofs.VectorRegisters
import Gemv.Proofs.Moves
import Gemv.Proofs.OutputQueue
import Gemv.Proofs.Schedules
import Gemv.Proofs.Recovery
import Gemv.Proofs.LostPulses
import Gemv.Proofs.Capacity
import Gemv.Proofs.Resumption
import Gemv.Proofs.SelfTestRuns
import Gemv.Proofs.StrobeAccounts
import Gemv.Proofs.PlanFaithfulness
import Gemv.Proofs.LastWrite
import Gemv.Proofs.ListingSeams
import Gemv.Proofs.PollCalls
import Gemv.Proofs.EndOfVector
import Gemv.Proofs.PlainMemory
import Gemv.Proofs.BackoffSchedule
import Gemv.Proofs.BinaryForm
import Gemv.Proofs.SimulatedPush
