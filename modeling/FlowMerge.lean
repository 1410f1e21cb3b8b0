import FlowMerge.CommandLine.Machine
import FlowMerge.Main
import FlowMerge.Proofs.Tree.Store
import FlowMerge.Proofs.Tree.WellFormed
import FlowMerge.Proofs.Tree.Walks
import FlowMerge.Proofs.Tree.Moves
import FlowMerge.Proofs.Fields
import FlowMerge.Proofs.Tree.Mirror
import FlowMerge.Proofs.Tree.Copies
import FlowMerge.Proofs.Tree.Transcripts
import FlowMerge.Proofs.Matching.OneToOne
import FlowMerge.Proofs.Sequence
import FlowMerge.Proofs.Sequence.Longest
import FlowMerge.Proofs.Script.Survey
import FlowMerge.Proofs.Script.Phases
import FlowMerge.Proofs.Script.Groundwork
import FlowMerge.Proofs.Script.Growth
import FlowMerge.Proofs.Script.Filling
import FlowMerge.Proofs.Script.RoundTrip
import FlowMerge.Proofs.Script.Reverting
import FlowMerge.Proofs.Annotations
import FlowMerge.Proofs.Script.Links
import FlowMerge.Proofs.Script.Underway
import FlowMerge.Proofs.Script.Custody
import FlowMerge.Proofs.Script.Numbering
import FlowMerge.Proofs.Script.Account
import FlowMerge.Proofs.Script.Showing
import FlowMerge.Proofs.Script.Annotated
import FlowMerge.Proofs.Script.Strict
import FlowMerge.Proofs.Matching.Live
import FlowMerge.Proofs.Merge.Align
import FlowMerge.Proofs.Merge.Ascription
import FlowMerge.Proofs.Merge.Turns
import FlowMerge.Proofs.Merge.Placement
import FlowMerge.Proofs.Merge.Rewriting
import FlowMerge.Proofs.Merge.Removal
import FlowMerge.Proofs.Merge.Outcome
import FlowMerge.Proofs.Merge.Decisions
import FlowMerge.Proofs.Merge.Loss
import FlowMerge.Proofs.Merge.Edited
import FlowMerge.Proofs.Merge.Siblings
import FlowMerge.Proofs.Merge.Replay
import FlowMerge.Proofs.Merge.Uncontested
import FlowMerge.Proofs.Merge.Solo
import FlowMerge.Proofs.Merge.Unchanged
import FlowMerge.Proofs.Merge.Survivors
import FlowMerge.Proofs.Merge.Contents
import FlowMerge.Proofs.Merge.Annotated
import FlowMerge.Proofs.Merge.Insertions
import FlowMerge.Proofs.Merge.Strict
import FlowMerge.Proofs.Merge.Proper
import FlowMerge.Proofs.Score
import FlowMerge.Proofs.Compare
import FlowMerge.Proofs.Matching.Twins
import FlowMerge.Proofs.Merge.Twins
import FlowMerge.Proofs.Tree.Fingerprint
import FlowMerge.Proofs.Variables
import FlowMerge.Proofs.Text.Escaping
import FlowMerge.Proofs.Xml.Reading
import FlowMerge.Proofs.Xml.Tags
import FlowMerge.Proofs.Xml.RoundTrip
import FlowMerge.Proofs.Merge.LogDocument
import FlowMerge.Proofs.Assignment.Optimal
import FlowMerge.Proofs.Matching.Seed
import FlowMerge.Proofs.Script.Coverage
import FlowMerge.Proofs.Script.Reordering
import FlowMerge.Proofs.Matching.Itself
import FlowMerge.Proofs.Matching.Promotion
import FlowMerge.Proofs.Matching.Ancestry
import FlowMerge.Proofs.Matching.Costs
import FlowMerge.Proofs.Script.Itself
import FlowMerge.Proofs.Tree.Akin
import FlowMerge.Proofs.Script.Shuffling
import FlowMerge.Proofs.Script.Restoring
import FlowMerge.Proofs.Matching.Kinds
import FlowMerge.Proofs.Matching.Thresholds
import FlowMerge.Proofs.Matching.Alignment
import FlowMerge.Proofs.Matching.Descent
import FlowMerge.Proofs.Matching.Ascent
import FlowMerge.Proofs.Matching.LeastCost
import FlowMerge.Proofs.Merge.States
import FlowMerge.Proofs.Matching.Propagation
import FlowMerge.Proofs.Dissimilarity
import FlowMerge.Proofs.Merge.Alarms
import FlowMerge.Proofs.Merge.Relocation
import FlowMerge.Proofs.Merge.Provenance
import FlowMerge.Proofs.Path
import FlowMerge.Proofs.Matching.Inverse
import FlowMerge.Proofs.Tree.Building
import FlowMerge.Proofs.Tree.Traversals
