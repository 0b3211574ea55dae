import KeyIndexMachine.Demo
import KeyIndexMachine.Main
import KeyIndexMachine.Proofs.Assembly.LineRoundTrip
import KeyIndexMachine.Proofs.Assembly.ProgramRoundTrip
import KeyIndexMachine.Proofs.FaultReport
import KeyIndexMachine.Proofs.ReportingIndependence
import KeyIndexMachine.Proofs.WriteLedger
import KeyIndexMachine.Proofs.InstructionEffect
import KeyIndexMachine.Proofs.LeashBudget
import KeyIndexMachine.Proofs.StraightLine
import KeyIndexMachine.Proofs.WriteRecord
import KeyIndexMachine.Proofs.UnreadMemory
import KeyIndexMachine.Proofs.TraceAccount
import KeyIndexMachine.Proofs.ReassembledWord
import KeyIndexMachine.Proofs.ReloadedMachine
import KeyIndexMachine.Proofs.ListingReading
import KeyIndexMachine.Proofs.Assembly.ProgramLines
import KeyIndexMachine.Proofs.LoadEffect
import KeyIndexMachine.Proofs.AllocationRecord
import KeyIndexMachine.Proofs.RunFrame
import KeyIndexMachine.Proofs.Assembly.Diagnosis
import KeyIndexMachine.Proofs.Assembly.MoveSpelling
import KeyIndexMachine.Proofs.Assembly.QuotedText
import KeyIndexMachine.Proofs.DisplayReading
