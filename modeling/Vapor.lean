import Vapor.Command.Run
import Vapor.Json.Analysis
import Vapor.Main
import Vapor.Proofs.Liveness.Exact
import Vapor.Proofs.Allocation.LinearScan
import Vapor.Proofs.Allocation.Optimal
import Vapor.Proofs.Emission.Function
import Vapor.Proofs.Emission.Program
import Vapor.Proofs.Emission.Preservation
import Vapor.Proofs.Emission.Slots
import Vapor.Proofs.Emission.Failure
import Vapor.Proofs.Emission.Levels
import Vapor.Proofs.Compile
import Vapor.Proofs.Grammar.Exact
import Vapor.Proofs.Grammar.Abreast
import Vapor.Proofs.Source.Tiling
import Vapor.Proofs.Source.Layout
import Vapor.Proofs.Grammar.Faults
import Vapor.Proofs.Source.Numbers
import Vapor.Proofs.Rejection
import Vapor.Proofs.Printing.Basic
import Vapor.Proofs.Printing.Reading
import Vapor.Proofs.Printing.RoundTrip
import Vapor.Proofs.Emission.Independence
import Vapor.Proofs.Emission.Legal
import Vapor.Proofs.Emission.Notes
import Vapor.Proofs.Emission.Reserved
import Vapor.Proofs.Enumeration
import Vapor.Proofs.Spans
import Vapor.Proofs.Printing.Writable
import Vapor.Proofs.Printing.Segments
import Vapor.Proofs.Rendering.Atoms
import Vapor.Proofs.Rendering.Lines
import Vapor.Proofs.Rendering.Rows
import Vapor.Proofs.Rendering.Text
import Vapor.Proofs.Emission.Blocks
import Vapor.Proofs.Grammar.Visits
import Vapor.Proofs.Source.FirstFault
import Vapor.Proofs.Source.Extent
import Vapor.Proofs.Grammar.Origins
import Vapor.Proofs.Faithful
import Vapor.Proofs.Borrowing
import Vapor.Proofs.Allocation.Hulls
import Vapor.Proofs.Command.Requests
import Vapor.Proofs.Command.Tracing
import Vapor.Proofs.Json.Strings
import Vapor.Proofs.Json.Canonical
import Vapor.Proofs.Json.Dump
