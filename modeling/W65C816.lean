import W65C816.Board
import W65C816.Bus.Recorded
import W65C816.Configuration
import W65C816.Memory
import W65C816.Proofs.Cells
import W65C816.Proofs.Simulation
import W65C816.Proofs.Backplane.Attachments
import W65C816.Proofs.Requests
import W65C816.Proofs.Backplane.Windows
import W65C816.Proofs.Backplane.Tidy
import W65C816.Proofs.Backplane.Assembly
import W65C816.Proofs.Machine.Agreement
import W65C816.Proofs.Machine.Lockstep
import W65C816.Proofs.Machine.Ensures
import W65C816.Proofs.Machine.Sound
import W65C816.Proofs.Machine.Reachable
import W65C816.Proofs.Machine.Inversion
import W65C816.Proofs.Machine.Entitlement
import W65C816.Proofs.Machine.Rounds
import W65C816.Proofs.Machine.History
import W65C816.Proofs.Pushes
import W65C816.Proofs.Machine.Entry
import W65C816.Proofs.Machine.Return
import W65C816.Proofs.Traffic
import W65C816.Proofs.Machine.Fetch
import W65C816.Proofs.Machine.Cycles
import W65C816.Proofs.Machine.Budget
import W65C816.Proofs.Machine.Rest
import W65C816.Proofs.Backplane.Regions
import W65C816.Proofs.Backplane.Handover
import W65C816.Proofs.Machine.Spares
import W65C816.Proofs.Machine.Footprint
import W65C816.Proofs.Machine.Saving
import W65C816.Proofs.Machine.SingleStep
import W65C816.Proofs.Machine.BlockMove
import W65C816.Proofs.Machine.Addressing
import W65C816.Proofs.Machine.Reading
import W65C816.Proofs.Arithmetic.Binary
import W65C816.Proofs.Arithmetic.Decimal
import W65C816.Proofs.Machine.Timing
import W65C816.Proofs.Machine.Recasting
import W65C816.Proofs.Machine.HighByte
import W65C816.Proofs.Machine.DirectPage
import W65C816.Proofs.Machine.InterruptFrame
import W65C816.Proofs.Machine.Results
import W65C816.Proofs.Machine.DataAccess
import W65C816.Proofs.Machine.LastInFirstOut
import W65C816.Proofs.Backplane.Chunks
import W65C816.Proofs.Board.Wiring
import W65C816.Proofs.Board.CycleCounts
import W65C816.Proofs.Displacements
import W65C816.Proofs.Machine.TraceText
