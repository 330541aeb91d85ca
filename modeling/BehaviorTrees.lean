import BehaviorTrees.Identifier
import BehaviorTrees.Tree.Describe
import BehaviorTrees.Tree.Dump
import BehaviorTrees.Tree.Load
import BehaviorTrees.Proofs.KeyMap
import BehaviorTrees.Proofs.Catalog
import BehaviorTrees.Proofs.Node.Orderly
import BehaviorTrees.Proofs.Trace.Chronicle
import BehaviorTrees.Proofs.Execution.Course
import BehaviorTrees.Proofs.Execution.Footprint
import BehaviorTrees.Proofs.Execution.Release
import BehaviorTrees.Proofs.Execution.Settled
import BehaviorTrees.Proofs.Execution.Reach
import BehaviorTrees.Proofs.Tree.Diff
import BehaviorTrees.Proofs.Tree.OpenNodes
import BehaviorTrees.Proofs.Tree.Activation
import BehaviorTrees.Proofs.Tree.Reopening
import BehaviorTrees.Proofs.Record.Links
import BehaviorTrees.Proofs.Tree.Claims
import BehaviorTrees.Proofs.Tree.Loading
import BehaviorTrees.Proofs.Tree.Inventory
import BehaviorTrees.Proofs.Tree.LoadedIds
import BehaviorTrees.Proofs.Tree.RoundTrip
import BehaviorTrees.Proofs.Execution.Renaming
import BehaviorTrees.Proofs.Tree.Session
import BehaviorTrees.Proofs.Execution.Turn
import BehaviorTrees.Proofs.Tree.TickTrace
import BehaviorTrees.Proofs.Tree.Reloading
import BehaviorTrees.Proofs.Tree.Removal
import BehaviorTrees.Proofs.Execution.Lockstep
import BehaviorTrees.Proofs.Execution.Seclusion
import BehaviorTrees.Proofs.Tree.Sharing
import BehaviorTrees.Proofs.Execution.Alike
import BehaviorTrees.Proofs.Execution.Mirror
import BehaviorTrees.Proofs.Execution.Work
import BehaviorTrees.Proofs.Tree.Duality
import BehaviorTrees.Proofs.Json.Document
import BehaviorTrees.Proofs.Json.Reading
import BehaviorTrees.Proofs.Record.Decoder
import BehaviorTrees.Proofs.Record.Decoding
import BehaviorTrees.Proofs.Tree.Text
import BehaviorTrees.Proofs.Execution.Visit
import BehaviorTrees.Proofs.Tree.Halting
import BehaviorTrees.Proofs.Execution.Echo
import BehaviorTrees.Proofs.Execution.Place
import BehaviorTrees.Proofs.Execution.Group
import BehaviorTrees.Proofs.Execution.Flatten
import BehaviorTrees.Proofs.Execution.Swap
import BehaviorTrees.Proofs.Tree.Grouping
import BehaviorTrees.Proofs.Trace.Deeds
import BehaviorTrees.Proofs.Execution.Ledger
import BehaviorTrees.Proofs.Execution.Conduct
import BehaviorTrees.Proofs.Tree.Conduct
import BehaviorTrees.Proofs.Tree.Budget
import BehaviorTrees.Proofs.Tree.Repetition
import BehaviorTrees.Proofs.Tree.Resuming
import BehaviorTrees.Proofs.Tree.Timers
import BehaviorTrees.Proofs.Tree.Editing
import BehaviorTrees.Proofs.Tree.TypeList
import BehaviorTrees.Proofs.Tree.Configured
import BehaviorTrees.Proofs.Tree.LoadFaults
import BehaviorTrees.Proofs.Tree.InPlace
import BehaviorTrees.Proofs.Execution.Descent
import BehaviorTrees.Proofs.Tree.Counters
import BehaviorTrees.Proofs.Tree.Termination
import BehaviorTrees.Proofs.Blackboard
import BehaviorTrees.Proofs.Tree.LookUp
import BehaviorTrees.Proofs.Execution.Discipline
