import HostServices.Bytes.Records
import HostServices.Clock
import HostServices.Console.Line
import HostServices.Console.Output
import HostServices.Region.Flat
import HostServices.Region.LinearMemory
import HostServices.Region.ProgramBreak
import HostServices.Thread.Process
import HostServices.Proofs.Thread.History
import HostServices.Proofs.Thread.Ledger
import HostServices.Proofs.Thread.Accounting
import HostServices.Proofs.Thread.Outcome
import HostServices.Proofs.Thread.Parts
import HostServices.Proofs.Thread.Capacity
import HostServices.Proofs.Thread.DepthFirst
import HostServices.Proofs.Thread.Descent
import HostServices.Proofs.Thread.HandingOver
import HostServices.Proofs.Thread.Interleaving
import HostServices.Proofs.Service
import HostServices.Proofs.Region.Rounding
import HostServices.Proofs.Region.WordRounding
import HostServices.Proofs.Region.Exactness
import HostServices.Proofs.Region.Run
import HostServices.Proofs.Region.Extension
import HostServices.Proofs.Region.Growth
import HostServices.Proofs.Region.Agreement
import HostServices.Proofs.Region.Observer
import HostServices.Proofs.Region.Shared
import HostServices.Proofs.Region.PageSize
import HostServices.Proofs.Region.Misuse
import HostServices.Proofs.Console.Stream
import HostServices.Proofs.Console.Delivery
import HostServices.Proofs.Console.Lines
import HostServices.Proofs.Host.Write
import HostServices.Proofs.Host.Offers
import HostServices.Proofs.Console.Routing
import HostServices.Proofs.Console.Writing
import HostServices.Proofs.Console.Printing
import HostServices.Proofs.Console.SignedLength
import HostServices.Proofs.Text.Filling
import HostServices.Proofs.Log.Record
import HostServices.Proofs.Bytes.Cutting
import HostServices.Proofs.Bytes.Occurrence
import HostServices.Proofs.Bytes.Terminated
import HostServices.Proofs.Clock
