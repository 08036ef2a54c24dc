import RenderMemo.Main
import RenderMemo.Proofs.ClosedFunctions
import RenderMemo.Proofs.Layout
import RenderMemo.Proofs.RoundTrip
import RenderMemo.Proofs.Unchanged
import RenderMemo.Proofs.Mentions
import RenderMemo.Proofs.Schedule
import RenderMemo.Proofs.References
import RenderMemo.Proofs.CallSites
import RenderMemo.Proofs.Balance
import RenderMemo.Proofs.Eclipsed
import RenderMemo.Proofs.Partition
import RenderMemo.Proofs.Options
import RenderMemo.Proofs.Parts
import RenderMemo.Proofs.Descent
import RenderMemo.Proofs.Trace
import RenderMemo.Proofs.ProgramKinds
import RenderMemo.Proofs.Footprint
import RenderMemo.Proofs.Verbatim
import RenderMemo.Proofs.Delivery
import RenderMemo.Proofs.Verbosity
import RenderMemo.Proofs.Scoping
import RenderMemo.Proofs.LocalNames
import RenderMemo.Proofs.FreeVariables
import RenderMemo.Proofs.Erasure
import RenderMemo.Proofs.TypedNames
import RenderMemo.Proofs.TypeScopes
import RenderMemo.Proofs.LeadingParameters
import RenderMemo.Proofs.LegalNames
import RenderMemo.Proofs.Redeclarations
import RenderMemo.Proofs.Writes
import RenderMemo.Proofs.Supers
import RenderMemo.Proofs.Detection
import RenderMemo.Proofs.Enclosing
import RenderMemo.Proofs.Capacity
import RenderMemo.Proofs.Restoring
import RenderMemo.Proofs.Merging
import RenderMemo.Proofs.NamedPaths
import RenderMemo.Proofs.NameSearch
