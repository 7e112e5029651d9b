import Dimeta.Dataflow.Explore
import Dimeta.Dataflow.Targets
import Dimeta.Serial.Mapping
import Dimeta.Serial.RoundTrip
import Dimeta.DI.Visitor
import Dimeta.DI.Walk
import Dimeta.Parse.Recursive
import Dimeta.Parse.Chain
import Dimeta.Parse.Records
import Dimeta.Parse.Complete
import Dimeta.Parse.Siblings
import Dimeta.Parse.Independence
import Dimeta.DI.Layout
import Dimeta.DI.Resolve
import Dimeta.DI.Search
import Dimeta.Extract.Deref
import Dimeta.Extract.GEP
import Dimeta.Extract.Reset
import Dimeta.Extract.Levels
import Dimeta.Extract.Chains
import Dimeta.Extract.Fields
import Dimeta.Extract.Bases
import Dimeta.Extract.Wrappers
import Dimeta.Extract.Records
import Dimeta.Extract.Splits
import Dimeta.Extract.Arrays
import Dimeta.Extract.FirstMember
import Dimeta.Parse.Stacks
import Dimeta.Parse.StackRuns
import Dimeta.Core.Recursion
import Dimeta.Core.Rules
import Dimeta.TypeFor.MemoryOps
import Dimeta.TypeFor.Root
import Dimeta.TypeFor.Find
import Dimeta.TypeFor.Call
import Dimeta.TypeFor.Queries
import Dimeta.TypeFor.Engaged
import Dimeta.DI.Candidates
import Dimeta.DI.Inheritance
import Dimeta.DI.Sugar
import Dimeta.DI.Lockstep
import Dimeta.Core.Backtracking
import Dimeta.TypeFor.Copies
import Dimeta.TypeFor.Allocations
import Dimeta.Extract.Nulls
import Dimeta.Extract.NullAccesses
import Dimeta.Extract.NullElements
import Dimeta.Extract.NullWalk
import Dimeta.Extract.Nowhere
import Dimeta.Extract.Kept
import Dimeta.Core.StableSort
import Dimeta.TypeFor.Located
import Dimeta.Dataflow.Once
import Dimeta.TypeFor.Extents
import Dimeta.TypeFor.PointerLevel
import Dimeta.Parse.Members
import Dimeta.TypeFor.Arguments
import Dimeta.TypeFor.Anchors
import Dimeta.Parse.Translation
import Dimeta.Parse.Pending
import Dimeta.Parse.EmptyStack
import Dimeta.TypeFor.FrontEnds
import Dimeta.Dataflow.Repeated
import Dimeta.Extract.TBAA
import Dimeta.Extract.LookThrough
import Dimeta.DI.Machine
import Dimeta.DI.Ancestors
import Dimeta.Core.Brackets
import Dimeta.Core.Contracts
import Dimeta.DI.Nesting
import Dimeta.DI.Closed
import Dimeta.Dataflow.Paths
import Dimeta.Dataflow.Flows
import Dimeta.Parse.Denotation
import Dimeta.TypeFor.Variables
import Dimeta.TypeFor.CompileUnits
import Dimeta.Extract.Bytes
import Dimeta.Extract.Accesses
import Dimeta.Extract.Tagged
import Dimeta.Extract.Within
import Dimeta.TypeFor.Places
import Dimeta.TypeFor.Addresses
import Dimeta.TypeFor.Sites
import Dimeta.TypeFor.Provenance
