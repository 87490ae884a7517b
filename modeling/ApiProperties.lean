import ApiProperties.Json.Document
import ApiProperties.Json.Double
import ApiProperties.Main
import ApiProperties.Proofs.Outline
import ApiProperties.Proofs.Consistency
import ApiProperties.Proofs.Definitions
import ApiProperties.Proofs.Traversal
import ApiProperties.Proofs.Ancestors
import ApiProperties.Proofs.Verdict
import ApiProperties.Proofs.Tags
import ApiProperties.Proofs.Assembly
import ApiProperties.Proofs.Attachment
import ApiProperties.Proofs.Collection
import ApiProperties.Proofs.Settlement
import ApiProperties.Proofs.Processing
import ApiProperties.Proofs.Run
import ApiProperties.Proofs.Rerun
import ApiProperties.Proofs.NameClash
import ApiProperties.Proofs.Outcome
import ApiProperties.Proofs.Ownership
import ApiProperties.Proofs.Evolution
import ApiProperties.Proofs.PropertyNames
import ApiProperties.Proofs.Convergence
import ApiProperties.Proofs.Safety
import ApiProperties.Proofs.Schedule
import ApiProperties.Proofs.Coverage
import ApiProperties.Proofs.Independence
import ApiProperties.Proofs.Reordering
import ApiProperties.Proofs.Preorder
import ApiProperties.Proofs.BaseSearch
import ApiProperties.Proofs.Provenance
import ApiProperties.Proofs.Finalization
import ApiProperties.Proofs.Traits
import ApiProperties.Proofs.Actions
import ApiProperties.Proofs.Overriding
import ApiProperties.Proofs.Conformance
import ApiProperties.Proofs.Frame
import ApiProperties.Proofs.Balance
import ApiProperties.Proofs.Filtering
import ApiProperties.Proofs.Exposure
import ApiProperties.Proofs.Ledger
import ApiProperties.Proofs.Retirement
import ApiProperties.Proofs.Merging
import ApiProperties.Proofs.Letters
import ApiProperties.Proofs.FirstWords
import ApiProperties.Proofs.ReadWrite
import ApiProperties.Proofs.Pass
import ApiProperties.Proofs.Appending
import ApiProperties.Proofs.Histories
import ApiProperties.Proofs.Pairing
import ApiProperties.Proofs.Agreement
import ApiProperties.Proofs.PairedSetter
import ApiProperties.Proofs.Disagreement
import ApiProperties.Proofs.LateSetter
import ApiProperties.Proofs.Partners
import ApiProperties.Proofs.Rereading
import ApiProperties.Proofs.Redecoding
import ApiProperties.Proofs.Writing
import ApiProperties.Proofs.Paths
import ApiProperties.Proofs.Saving
import ApiProperties.Proofs.Joining
import ApiProperties.Proofs.Extent
import ApiProperties.Proofs.Compactness
import ApiProperties.Proofs.Storable
import ApiProperties.Proofs.Trees
import ApiProperties.Proofs.Workers
import ApiProperties.Proofs.Outputs
import ApiProperties.Proofs.NameGrammar
import ApiProperties.Proofs.AccessorNames
import ApiProperties.Proofs.Components
import ApiProperties.Proofs.Requirements
import ApiProperties.Proofs.OutputPaths
import ApiProperties.Proofs.Turns
import ApiProperties.Proofs.Accounting
