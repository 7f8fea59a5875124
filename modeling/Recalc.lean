import Recalc.Time
import Recalc.Table
import Recalc.Graph.Order
import Recalc.Graph.Cycle
import Recalc.Graph.Conflict
import Recalc.Graph.Reach
import Recalc.Json.Reader
import Recalc.Json.Printer
import Recalc.Engine.Tick
import Recalc.Engine.Feed
import Recalc.Engine.History
import Recalc.Codec.Record
import Recalc.NotebookFile
import Recalc.Main
import Recalc.Proofs.Graph.Order
import Recalc.Proofs.Graph.Restriction
import Recalc.Proofs.Graph.Cycle
import Recalc.Proofs.Graph.Conflict
import Recalc.Proofs.Graph.Reach
import Recalc.Proofs.Notebook
import Recalc.Proofs.Notebook.Freshness
import Recalc.Proofs.Plan.Entries
import Recalc.Proofs.Plan.Classification
import Recalc.Proofs.Choice
import Recalc.Proofs.Engine.Imprint
import Recalc.Proofs.Engine.Tick
import Recalc.Proofs.Engine.History
import Recalc.Proofs.Engine.Quiet
import Recalc.Proofs.Engine.Results
import Recalc.Proofs.Engine.Settling
import Recalc.Proofs.Engine.Reruns
import Recalc.Proofs.Engine.Termination
import Recalc.Proofs.Engine.Invalidation
import Recalc.Proofs.Engine.Inputs
import Recalc.Proofs.Engine.Events
import Recalc.Proofs.Engine.Progress
import Recalc.Proofs.Engine.Tokens
import Recalc.Proofs.Engine.Records
import Recalc.Proofs.Engine.Restamping
import Recalc.Proofs.Literal
import Recalc.Proofs.CommandLine.Agreement
import Recalc.Proofs.Graph.Enumeration
import Recalc.Proofs.Graph.Sorting
import Recalc.Proofs.Engine.Limit
import Recalc.Proofs.SecondPass
import Recalc.Proofs.Engine.Settled
import Recalc.Proofs.Engine.OpenRequests
import Recalc.Proofs.Engine.Overwriting
import Recalc.Proofs.Plan.CyclePaths
import Recalc.Proofs.Graph.Distance
import Recalc.Proofs.Engine.Dependencies
import Recalc.Proofs.Codec
import Recalc.Proofs.NotebookFile
