import ValueFlow.Context
import ValueFlow.Engine.Analysis
import ValueFlow.Engine.Routine
import ValueFlow.Engine.Run
import ValueFlow.Engine.World
import ValueFlow.Failure
import ValueFlow.Filter
import ValueFlow.Flow.Basic
import ValueFlow.Flow.Bounds
import ValueFlow.Flow.Condense
import ValueFlow.Flow.Fuse
import ValueFlow.Flow.Round
import ValueFlow.Graph.Basic
import ValueFlow.Graph.Node
import ValueFlow.Graph.Survey
import ValueFlow.Graph.Text
import ValueFlow.Proofs.Engine.Accounting
import ValueFlow.Proofs.Engine.CallStrings
import ValueFlow.Proofs.Engine.Course
import ValueFlow.Proofs.Engine.Deeds
import ValueFlow.Proofs.Engine.Depth
import ValueFlow.Proofs.Engine.Discoveries
import ValueFlow.Proofs.Engine.Filtering
import ValueFlow.Proofs.Engine.Handles
import ValueFlow.Proofs.Engine.Identity
import ValueFlow.Proofs.Engine.Isolation
import ValueFlow.Proofs.Engine.Listening
import ValueFlow.Proofs.Engine.Notes
import ValueFlow.Proofs.Engine.Ownership
import ValueFlow.Proofs.Engine.Pending
import ValueFlow.Proofs.Engine.Recasting
import ValueFlow.Proofs.Engine.Replaying
import ValueFlow.Proofs.Engine.Requests
import ValueFlow.Proofs.Engine.Resuming
import ValueFlow.Proofs.Engine.Setup
import ValueFlow.Proofs.FirstOccurrences
import ValueFlow.Proofs.Flow.Addresses
import ValueFlow.Proofs.Flow.Arrangement
import ValueFlow.Proofs.Flow.Condense
import ValueFlow.Proofs.Flow.Delivery
import ValueFlow.Proofs.Flow.Fuse
import ValueFlow.Proofs.Flow.Handles
import ValueFlow.Proofs.Flow.Hearing
import ValueFlow.Proofs.Flow.Histories
import ValueFlow.Proofs.Flow.Interleaving
import ValueFlow.Proofs.Flow.Invariant
import ValueFlow.Proofs.Flow.Machine
import ValueFlow.Proofs.Flow.Marks
import ValueFlow.Proofs.Flow.Merging
import ValueFlow.Proofs.Flow.Operations
import ValueFlow.Proofs.Flow.Passing
import ValueFlow.Proofs.Flow.Progress
import ValueFlow.Proofs.Flow.Repetition
import ValueFlow.Proofs.Flow.Termination
import ValueFlow.Proofs.Graph.Frames
import ValueFlow.Proofs.Graph.Logical
import ValueFlow.Proofs.Graph.Reading
import ValueFlow.Proofs.Graph.Survey
import ValueFlow.Proofs.Graph.WellFormed
import ValueFlow.Proofs.Network.Basic
import ValueFlow.Proofs.Network.Convergence
import ValueFlow.Proofs.Network.Discovery
import ValueFlow.Proofs.Network.Rounds
import ValueFlow.Proofs.Network.Stage
import ValueFlow.Proofs.Network.Values
import ValueFlow.Proofs.Settings.RoundTrip
import ValueFlow.Proofs.TokenSets
import ValueFlow.Proofs.Types.Calls
import ValueFlow.Proofs.Types.Climbing
import ValueFlow.Proofs.Types.Growth
import ValueFlow.Proofs.Types.Numbering
import ValueFlow.Proofs.Types.Subtyping
import ValueFlow.Proofs.Variant.Registration
import ValueFlow.Proofs.Variant.Rows
import ValueFlow.Proofs.Variant.Sharing
import ValueFlow.Proofs.Work.Agenda
import ValueFlow.Proofs.Work.Bag
import ValueFlow.Proofs.Work.Contents
import ValueFlow.Proofs.Work.Discipline
import ValueFlow.Proofs.Yaml.Blocks
import ValueFlow.Proofs.Yaml.Decimal
import ValueFlow.Proofs.Yaml.Lines
import ValueFlow.Script.Basic
import ValueFlow.Script.Run
import ValueFlow.Settings.Basic
import ValueFlow.Settings.Document
import ValueFlow.SortedSet
import ValueFlow.Stats
import ValueFlow.Table
import ValueFlow.Text.Quoted
import ValueFlow.Text.Visible
import ValueFlow.Token
import ValueFlow.Types.Manager
import ValueFlow.Types.Registry
import ValueFlow.Types.Tables
import ValueFlow.Usage
import ValueFlow.Variant.Basic
import ValueFlow.Variant.Index
import ValueFlow.Variant.Table
import ValueFlow.Work.Agenda
import ValueFlow.Work.Bag
import ValueFlow.Work.Item
import ValueFlow.Yaml.Blocks
import ValueFlow.Yaml.Cursor
import ValueFlow.Yaml.Library
import ValueFlow.Yaml.Node
import ValueFlow.Yaml.Scalar
import ValueFlow.Yaml.Token
