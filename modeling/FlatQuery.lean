import FlatQuery.Main
import FlatQuery.Proofs.Outline
import FlatQuery.Proofs.TypeConditions
import FlatQuery.Proofs.Reachability
import FlatQuery.Proofs.Containment
import FlatQuery.Proofs.Nesting
import FlatQuery.Proofs.Provenance
import FlatQuery.Proofs.Batches
import FlatQuery.Proofs.Agreement
import FlatQuery.Proofs.Lookups
import FlatQuery.Proofs.Legible
import FlatQuery.Proofs.Spelling
import FlatQuery.Proofs.Readability
import FlatQuery.Proofs.Places
import FlatQuery.Proofs.Together
import FlatQuery.Proofs.Sessions
import FlatQuery.Proofs.Origins
import FlatQuery.Proofs.Fragments
import FlatQuery.Proofs.Entries
import FlatQuery.Proofs.Selection
import FlatQuery.Proofs.Verdicts
import FlatQuery.Proofs.Problems
import FlatQuery.Proofs.StrictOrder
import FlatQuery.Proofs.References
import FlatQuery.Proofs.Formats
import FlatQuery.Proofs.Constants
import FlatQuery.Proofs.Defaults
import FlatQuery.Proofs.Nullability
import FlatQuery.Proofs.ReportedPlaces
import FlatQuery.Proofs.Capabilities
import FlatQuery.Proofs.Integers
import FlatQuery.Proofs.Stack
