import Prevail.Library.WeakOrder
import Prevail.Wto.Builder
import Prevail.Wto.Search
import Prevail.Wto.Correct
import Prevail.Wto.Cycle
import Prevail.Wto.Components
import Prevail.Fixpoint.Analyzer
import Prevail.Fixpoint.Soundness
import Prevail.Asm.Assertions
import Prevail.Library.OrderedSet
import Prevail.Cfg.Builder
import Prevail.Cfg.Inline
import Prevail.Cfg.Prepare
import Prevail.Crab.Interval
import Prevail.Crab.IntervalDomain
import Prevail.Ebpf.Assume
import Prevail.Ebpf.AssumeSound
import Prevail.Ebpf.AssumeSound64
import Prevail.Crab.BitsetDomain
import Prevail.Crab.TypeDomain
import Prevail.Ebpf.Checker
import Prevail.Ebpf.CheckerSound
import Prevail.Ebpf.MapArguments
import Prevail.Crab.AdaptGraph
import Prevail.Crab.Closure
import Prevail.Crab.SplitDbm.State
import Prevail.Crab.SplitDbm.Lattice
import Prevail.Crab.SplitDbm.Invariant
import Prevail.Crab.SplitDbm.Constraint
import Prevail.Crab.SplitDbm.Entailment
import Prevail.Crab.SplitDbm.Removal
import Prevail.Crab.SplitDbm.Assign
import Prevail.Crab.SplitDbm.Numbering
import Prevail.Crab.SplitDbm.JoinGraph
import Prevail.Crab.SplitDbm.Join
import Prevail.Crab.SplitDbm.Reachable
import Prevail.Cfg.Order
import Prevail.Library.Execution
import Prevail.Cfg.FirstPass
import Prevail.Asm.LabelText
import Prevail.Cfg.Expansion
import Prevail.Cfg.Refinement
import Prevail.Library.LeastFirst
import Prevail.Cfg.CalleeWalk
import Prevail.Cfg.FrameClones
import Prevail.Cfg.Callees
import Prevail.Cfg.FrameDiscipline
import Prevail.Asm.Isa
import Prevail.Asm.Unmarshal
import Prevail.Asm.Marshal
import Prevail.Asm.RoundTrip
import Prevail.Asm.Alu
import Prevail.Asm.RawExecution
import Prevail.Asm.RawFidelity
import Prevail.Asm.Decoding
import Prevail.Crab.SplitDbm.AddBottom
import Prevail.Crab.TypeJoin
import Prevail.Crab.IntervalBitwise
import Prevail.Crab.IntervalDivision
import Prevail.Library.Quotient
import Prevail.Crab.IntervalUDiv
import Prevail.Crab.IntervalURem
import Prevail.Crab.IntervalOperators
import Prevail.Crab.SplitDbm.FiniteWidth
import Prevail.Ebpf.Domain
import Prevail.Crab.SplitDbm.Disequation
import Prevail.Crab.SplitDbm.CutOff
import Prevail.Crab.SplitDbm.Strengthening
import Prevail.Ebpf.AddressOrder
import Prevail.Ebpf.AssumePointers
import Prevail.Ebpf.InnerMap
import Prevail.Crab.OffsetMap
import Prevail.Crab.SymbolicOverlap
import Prevail.Crab.SplitDbm.AddBottomUpdate
import Prevail.Ebpf.WrapAround
import Prevail.Crab.SplitDbm.AssignBounds
import Prevail.Ebpf.NumberRegisters
import Prevail.Ebpf.SignExtend
import Prevail.Ebpf.Shifts
import Prevail.Ebpf.RightShifts
import Prevail.Library.ShortestPaths
import Prevail.Crab.ExactAround
import Prevail.Crab.ExactOverEdge
import Prevail.Library.HeapOrder
import Prevail.Library.PriorityQueue
import Prevail.Crab.Heap
import Prevail.Crab.HeapSearch
import Prevail.Crab.ChromaticClosure
import Prevail.Cfg.BasicBlocks
import Prevail.Library.Nesting
import Prevail.Wto.Nesting
import Prevail.Cfg.Nesting
import Prevail.Cfg.Branches
import Prevail.Library.DepthFirst
import Prevail.Wto.OuterHeads
import Prevail.Cfg.LoopCounters
import Prevail.Ebpf.BinImmediate
import Prevail.Crab.StackBits
import Prevail.Crab.ArrayDomain
import Prevail.Crab.CellReads
import Prevail.Crab.StackAccess
import Prevail.Crab.StackOffsets
import Prevail.Crab.IntervalTruncation
import Prevail.Crab.SparseGraph
import Prevail.Crab.GraphStorage
import Prevail.Crab.GraphHistory
import Prevail.Cfg.Edits
import Prevail.Crab.VariableNames
import Prevail.Library.Fuel
import Prevail.Library.Ranking
import Prevail.Fixpoint.Termination
import Prevail.Cfg.Halting
import Prevail.Crab.SplitDbm.Inclusion
import Prevail.Crab.SplitDbm.Projection
import Prevail.Crab.SplitDbm.History
import Prevail.Crab.HeapRepair
import Prevail.Ebpf.AssertionMeaning
import Prevail.Ebpf.InstructionSafety
import Prevail.Cfg.Safety
import Prevail.Asm.WellFormed
import Prevail.Cfg.RawPrograms
import Prevail.Cfg.Verdict
import Prevail.Ebpf.MapTable
