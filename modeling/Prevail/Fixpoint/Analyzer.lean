import Prevail.Wto.Builder

namespace Prevail
namespace Fixpoint

/-!
# The interleaved forward fixpoint iterator

This is `interleaved_fwd_fixpoint_iterator_t` and `run_forward_analyzer` of
`crab/fwd_analyzer.cpp`, over an arbitrary control-flow graph and an arbitrary
abstract domain.  A domain is given by its operations only: they may throw
where the source may throw, and no law relates them here.

Both iteration loops of a cycle have no bound of their own, so each takes at
most `fuel` rounds, and `none` stands for a run that has not returned.
-/

/-- A control-flow graph as the iterator reads it: the children and the parents
of a label are stored separately, and each list records the edges of the
other. -/
structure FlowGraph (Label : Type) where
  labels : List Label
  children : Label -> List Label
  parents : Label -> List Label
  entry : Label
  converse : forall source target, target ∈ children source ↔ source ∈ parents target
  entry_mem : entry ∈ labels
  child_mem : forall source target, target ∈ children source -> target ∈ labels

/-- A graph together with the instruction and the assertions of each label. -/
structure Program (Label : Type) (Instr : Type) (Assertion : Type) extends FlowGraph Label where
  instructionAt : Label -> Instr
  assertionsAt : Label -> List Assertion

/-- The operations of `ebpf_domain_t` and the free functions on it. -/
structure Domain (D : Type) (Label : Type) (Instr : Type) (Assertion : Type) (Warning : Type) where
  bottom : D
  isBottom : D -> Bool
  le : D -> D -> Bool
  joinAssign : D -> D -> D
  join : D -> D -> D
  widen : D -> D -> Bool -> D
  meet : D -> D -> D
  narrow : D -> D -> D
  transform : D -> Instr -> Option D
  assume : D -> Assertion -> Option D
  check : D -> Assertion -> List Warning
  initializeLoopCounter : D -> Label -> D

/-- `invariant_map_pair`. -/
structure InvariantPair (D : Type) where
  pre : D
  post : D
  deriving DecidableEq

/-- The options that the iterator reads. -/
structure Options where
  assumeAssertions : Bool
  checkForTermination : Bool

/-- The members of the iterator that change: `_inv` and `_skip`. -/
structure IteratorState (Label : Type) (D : Type) where
  inv : Label -> InvariantPair D
  skip : Bool

section Iterator

variable {Label : Type} [DecidableEq Label] {Instr Assertion D Warning : Type}
variable (program : Program Label Instr Assertion) (domain : Domain D Label Instr Assertion Warning)
variable (options : Options)

def descendingIterations : UInt32 := 2000000

def setPre (label : Label) (value : D) (state : IteratorState Label D) : IteratorState Label D :=
  { state with inv := Function.update state.inv label { state.inv label with pre := value } }

/-- Assignment to the `post` entry of a label. -/
def setPost (label : Label) (value : D) (state : IteratorState Label D) : IteratorState Label D :=
  { state with inv := Function.update state.inv label { state.inv label with post := value } }

/-- The loop that assumes the assertions of a label. -/
def assumeAll (assertions : List Assertion) (pre : D) : Option D :=
  assertions.foldlM domain.assume pre

def transformToPost (label : Label) (pre : D) (state : IteratorState Label D) :
    Option (IteratorState Label D) := do
  let pre <- if options.assumeAssertions then assumeAll domain (program.assertionsAt label) pre
    else some pre
  let post <- domain.transform pre (program.instructionAt label)
  return setPost label post state

def joinAllPrevs (label : Label) (state : IteratorState Label D) : D :=
  if label = program.entry then (state.inv label).pre
  else (program.parents label).foldl (fun res prev => domain.joinAssign res (state.inv prev).post)
    domain.bottom

/-- `extrapolate`, with `_widening_delay` equal to two. -/
def extrapolate (before after : D) (iteration : UInt32) : D :=
  if iteration < 2 then domain.join before after else domain.widen before after (iteration == 2)

def refine (before after : D) (iteration : UInt32) : D :=
  if iteration = 1 then domain.meet before after else domain.narrow before after

/-- `operator()` for a vertex. -/
def visitLabel (label : Label) (state : IteratorState Label D) : Option (IteratorState Label D) :=
  let skip := if state.skip && label == program.entry then false else state.skip
  if skip then some { state with skip := skip }
  else
    let state := { state with skip := skip }
    let pre := joinAllPrevs program domain label state
    transformToPost program domain options label pre (setPre label pre state)

/-- The increasing iteration sequence of a cycle, from the given round on.  It
returns the invariant of the head. -/
def increase (head : Label) (visitBody : IteratorState Label D -> Option (IteratorState Label D)) :
    Nat -> UInt32 -> D -> IteratorState Label D -> Option (D × IteratorState Label D)
  | 0, _, _, _ => none
  | fuel + 1, iteration, invariant, state => do
      let state <- transformToPost program domain options head invariant
        (setPre head invariant state)
      let state <- visitBody state
      let newPre := joinAllPrevs program domain head state
      if domain.le newPre invariant then return (newPre, setPre head newPre state)
      else increase head visitBody fuel (iteration + 1) (extrapolate domain invariant newPre iteration) state

/-- The decreasing iteration sequence of a cycle, from the given round on. -/
def decrease (head : Label) (visitBody : IteratorState Label D -> Option (IteratorState Label D)) :
    Nat -> UInt32 -> D -> IteratorState Label D -> Option (IteratorState Label D)
  | 0, _, _, _ => none
  | fuel + 1, iteration, invariant, state => do
      let state <- transformToPost program domain options head invariant state
      let state <- visitBody state
      let newPre := joinAllPrevs program domain head state
      if domain.le invariant newPre then return state
      else if descendingIterations < iteration then return state
      else
        let invariant := refine domain invariant newPre iteration
        decrease head visitBody fuel (iteration + 1) invariant (setPre head invariant state)

/-- The predecessors of a cycle head from which the iteration starts: those
whose nesting does not exceed that of the head. -/
def outerPrevs (wto : Wto Label) (fuel : Nat) (head : Label) : Option (List Label) := do
  let cycleNesting <- wto.collectHeads fuel head
  (program.parents head).filterM (fun prev => do
    let nesting <- wto.collectHeads fuel prev
    return !(Wto.nestingGreater nesting cycleNesting))

/-- The invariant with which the first round of a cycle starts. -/
def initialInvariant (wto : Wto Label) (fuel : Nat) (head : Label) (entryInCycle : Bool)
    (state : IteratorState Label D) : Option D :=
  if entryInCycle then some (state.inv program.entry).pre
  else do
    let prevs <- outerPrevs program wto fuel head
    return prevs.foldl (fun res prev => domain.joinAssign res (state.inv prev).post) domain.bottom

/-- `operator()` for a cycle whose body is visited by `visitBody`. -/
def visitCycle (wto : Wto Label) (fuel : Nat) (head : Label) (components : Partition Label)
    (visitBody : IteratorState Label D -> Option (IteratorState Label D))
    (state : IteratorState Label D) : Option (IteratorState Label D) :=
  let entryInCycle := state.skip && Wto.isComponentMember program.entry components
  if state.skip && !entryInCycle then some state
  else do
    let state := { state with skip := false }
    let invariant <- initialInvariant program domain wto fuel head entryInCycle state
    let (invariant, state) <- increase program domain options head visitBody fuel 1 invariant state
    decrease program domain options head visitBody fuel 1 invariant state

/-- The visit of a list of components in order.  Inside a cycle the vertex
`cycleHead` is passed over; a cycle without a leading vertex is an error. -/
def visitComponents (wto : Wto Label) (fuel : Nat) (cycleHead : Option Label) :
    Partition Label -> IteratorState Label D -> Option (IteratorState Label D)
  | .nil, state => some state
  | .vertex label rest, state => do
      let state <- if cycleHead = some label then some state
        else visitLabel program domain options label state
      visitComponents wto fuel cycleHead rest state
  | .cycle components rest, state =>
      match components.head? with
      | none => none
      | some head => do
          let state <- visitCycle program domain options wto fuel head components
            (visitComponents wto fuel (some head) components) state
          visitComponents wto fuel cycleHead rest state

/-- The entry invariant with the counters of the given loop heads
initialized. -/
def initializeLoopCounters (heads : List Label) (entryInv : D) : D :=
  heads.foldl domain.initializeLoopCounter entryInv

/-- The labels whose loop counters `run_forward_analyzer` initializes. -/
def countedHeads (wto : Wto Label) : Option (List Label) :=
  if options.checkForTermination then Wto.loopHeads wto.components else some []

/-- `run_forward_analyzer`: the table of invariants. -/
def runForwardAnalyzer (fuel : Nat) (entryInv : D) : Option (Label -> InvariantPair D) := do
  let wto <- Wto.build program.children program.entry fuel
  let heads <- countedHeads options wto
  let start : IteratorState Label D := ⟨fun _ => ⟨domain.bottom, domain.bottom⟩, true⟩
  let start := setPre program.entry (initializeLoopCounters domain heads entryInv) start
  let final <- visitComponents program domain options wto fuel none wto.components start
  return final.inv

def verified (inv : Label -> InvariantPair D) : Bool :=
  program.labels.all (fun label =>
    domain.isBottom (inv label).pre ||
      (program.assertionsAt label).all
      (fun assertion => (domain.check (inv label).pre assertion).isEmpty))

end Iterator

end Fixpoint
end Prevail
