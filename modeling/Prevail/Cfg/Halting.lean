import Prevail.Library.Ranking
import Prevail.Cfg.LoopCounters
import Prevail.Fixpoint.Soundness
import Prevail.Ebpf.Checker

namespace Prevail
namespace Cfg

open DepthFirst
open Ebpf (loopLimit)
open Fixpoint (Domain Options Program Reaches SoundCheck SoundDomain runForwardAnalyzer verified)

/-!
# Verified programs halt

Under `check_for_termination`, `prepare_cfg` puts a counter behind every loop
head, and the precondition of a counter is that it has not passed its limit.  If
the analysis of the prepared graph raises no warning, then no concrete path
passes a counter more often than the limit allows.  Where no loop lies in
another one, every cycle that a path can take contains a counter, so that the
number of counters also bounds the length of the path.

The counters are no part of the machine.  They are taken as ghost variables of
the concrete states: they start at zero, and only the inserted instructions
change them.
-/

/-- The program that the analyzer is run on. -/
def analyzed (cfg : Cfg) (wellFormed : cfg.WellFormed) : Program Label Instruction Assertion where
  labels := cfg.labels.elements
  children := cfg.childrenOf
  parents label := (cfg.parents label).elements
  entry := Label.entry
  converse := wellFormed.converse
  entry_mem := wellFormed.entry
  child_mem := wellFormed.target
  instructionAt label := (cfg.instructions label).cmd
  assertionsAt label := (cfg.instructions label).preconditions

/-! ## The prepared graph -/

/-- Each annotated label has the assertions of its instruction. -/
theorem setAllAssertions_preconditions {isPrivileged : Bool} {labels : List Label}
    (distinct : labels.Nodup)
    {cfg next : Cfg} (run : setAllAssertions isPrivileged labels cfg = .ok next) :
    (∀ label ∈ labels, AssertionContext.getAssertions ⟨isPrivileged, some label⟩
      (next.instructions label).cmd =
      some (next.instructions label).preconditions) ∧
    forall label, label ∉ labels -> next.instructions label = cfg.instructions label := by
  induction labels generalizing cfg with
  | nil =>
      cases run
      exact ⟨by simp, fun _ _ => rfl⟩
  | cons label rest inductionHypothesis =>
      rcases bind_eq_ok.mp run with ⟨middle, step, later⟩
      rcases List.nodup_cons.mp distinct with ⟨notInRest, restDistinct⟩
      rcases inductionHypothesis restDistinct later with ⟨annotated, others⟩
      unfold setAssertions at step
      split at step
      · rename_i assertions found
        cases step
        constructor
        · intro other member
          rcases List.mem_cons.mp member with rfl | inRest
          · rw [others other notInRest]
            simpa [setInstruction] using found
          · exact annotated other inRest
        · intro other outside
          rw [List.mem_cons, not_or] at outside
          rw [others other outside.2]
          simp [setInstruction, outside.1]
      · cases step

/-- What `prepare_cfg` does to the graph, its instructions and its assertions
when it counts the given loop heads. -/
structure Counted (isPrivileged : Bool) (heads : List Label) (cfg result : Cfg) : Prop where
  spliced : Spliced {label | label ∈ cfg.labels} {head | head ∈ heads} Label.makeIncrementCounter
    cfg.childrenOf
    result.childrenOf
  labels : forall label, label ∈ result.labels ->
    label ∈ cfg.labels ∨ exists head, head ∈ heads ∧ label = head.makeIncrementCounter
  counter : forall head, head ∈ heads ->
    (result.instructions head.makeIncrementCounter).cmd = .incrementLoopCounter head
  instructions : forall label, label ∈ cfg.labels ->
    (result.instructions label).cmd = (cfg.instructions label).cmd
  assertions : forall label, label ∈ result.labels ->
    AssertionContext.getAssertions ⟨isPrivileged, some label⟩ (result.instructions label).cmd =
      some (result.instructions label).preconditions

section Prepared

variable {prog : InstructionSeq} {isPrivileged mustHaveExit : Bool} {fuel : Nat} {result cfg : Cfg}
  {wto : Wto Label} (prepared : prepareCfg prog isPrivileged ⟨true, mustHaveExit⟩ fuel = .ok result)
  (built : instructionSeqToCfg prog mustHaveExit = .ok cfg) (ordered : cfg.buildWto fuel = .ok wto)

include prepared built ordered

theorem prepareCfg_counted : Counted isPrivileged wto.components.outerHeads cfg result := by
  have wellFormed := instructionSeqToCfg_wellFormed built
  have wellOrdered := buildWto_wellOrdered ordered
  rcases prepareCfg_steps prepared with
    ⟨first, second, instrumented, firstBuilt, secondOrdered, counting, annotating⟩
  cases built.symm.trans firstBuilt
  cases ordered.symm.trans secondOrdered
  have distinct := wto.components.outerHeads_nodup wellOrdered.distinct
  have members : forall head, head ∈ wto.components.outerHeads -> head ∈ cfg.labels :=
    fun _ => outerHeads_mem_labels wellFormed wellOrdered
  have nonempty : forall head, head ∈ wto.components.outerHeads ->
      exists child, child ∈ cfg.children head := by
    intro head isHead
    rcases Wto.build_outerHeads (buildWto_eq_ok.mp ordered) with ⟨_, _, _, _, firsts⟩
    rcases Relation.TransGen.head'_iff.mp ((firsts head).mp isHead).cycle with ⟨child, isChild, _⟩
    exact ⟨child, isChild⟩
  have spec := insertCounters_spec distinct wellFormed members counting
  have spliced := insertCounters_spliced wellFormed distinct members counting nonempty
  rcases setAllAssertions_spec annotating with ⟨labels, children, instructions⟩
  rcases setAllAssertions_preconditions instrumented.labels.nodup annotating with ⟨annotated, _⟩
  have sameChildren : result.childrenOf = instrumented.childrenOf := by
    funext label
    rw [childrenOf, childrenOf, children]
  refine { spliced := ?_, labels := ?_, counter := ?_, instructions := ?_, assertions := ?_ }
  · rw [sameChildren]
    exact spliced
  · intro label member
    rw [labels] at member
    exact (spec.labels label).mp member
  · intro head isHead
    rw [instructions, spec.counter head isHead]
  · intro label member
    rw [instructions, spec.instructions label member]
  · intro label member
    rw [labels] at member
    exact annotated label member

/-- In the prepared graph no label that the entry reaches lies on a cycle
without a counter, if no loop of the original graph contains another one. -/
theorem prepareCfg_no_uncountedCycle (decoded : ∀ labelled ∈ prog, NotCounter labelled.2)
    (flat : wto.components.Flat) {label : Label} (reached : result.Reachable label) :
    ¬ result.UncountedCycle label := by
  intro uncounted
  have wellFormed := instructionSeqToCfg_wellFormed built
  have counterFree := instructionSeqToCfg_counterFree decoded built
  have counted := prepareCfg_counted prepared built ordered
  rcases prepareCfg_instrumented prepared built ordered with ⟨wellOrdered, instrumented, spec, same⟩
  have walk := (spec.uncountedCycle_iff wellFormed label).mp ((same label).mp uncounted)
  rcases Relation.TransGen.head'_iff.mp walk with ⟨next, ⟨child, _⟩, _⟩
  have isOld : label ∈ {label | label ∈ cfg.labels} := wellFormed.source label next child
  have reachedBefore : cfg.Reachable label := by
    rcases counted.spliced.reaches_before (.itself wellFormed.entry) reached with
      ⟨found, standsFor, before⟩
    rw [counted.spliced.standsFor_unique (.itself isOld) standsFor]
    exact before
  refine wellOrdered.ordered.no_closed_walk_avoiding_heads wellOrdered.distinct
    ((wellOrdered.members label).mpr reachedBefore) ?_
  refine Relation.TransGen.mono ?_ _ _ walk
  rintro source target ⟨isChild, _, notHead⟩
  rw [Partition.heads_eq_outerHeads_of_flat flat]
  exact ⟨isChild, notHead⟩

end Prepared

theorem Counted.entry_not_child {isPrivileged : Bool} {heads : List Label} {cfg result : Cfg}
    (counted : Counted isPrivileged heads cfg result) (wellFormed : cfg.WellFormed)
    (resultFormed : result.WellFormed)
    (noPredecessor : forall label, Label.entry ∉ cfg.children label) (label : Label) :
    Label.entry ∉ result.childrenOf label := by
  intro child
  have standsFor : exists stood, StandsFor {label | label ∈ cfg.labels} {head | head ∈ heads}
      Label.makeIncrementCounter label stood := by
    rcases counted.labels label (resultFormed.source label _ child) with isOld | ⟨head, isHead, rfl⟩
    · exact ⟨label, .itself isOld⟩
    · exact ⟨head, .behind isHead⟩
  rcases standsFor with ⟨stood, standsFor⟩
  rcases counted.spliced.edge standsFor child with ⟨_, isHead, same⟩ | ⟨_, before⟩
  · exact counted.spliced.fresh label isHead (same ▸ wellFormed.entry)
  · exact noPredecessor stood before

/-! ## Paths and their counters -/

section Paths

variable {State : Type}

/-- The concrete paths from the entry, with their number of steps. -/
inductive Path (program : Program Label Instruction Assertion)
    (step : Instruction -> State -> State -> Prop)
    (initial : State) : Nat -> Label -> State -> Prop where
  | entry : Path program step initial 0 program.entry initial
  | next {steps : Nat} {label successor : Label} {before after : State}
      (path : Path program step initial steps label before)
      (stepped : step (program.instructionAt label) before after)
      (child : successor ∈ program.children label) :
      Path program step initial (steps + 1) successor after

theorem Path.reaches {program : Program Label Instruction Assertion}
    {step : Instruction -> State -> State -> Prop}
    {initial : State} {steps : Nat} {label : Label} {state : State}
    (path : Path program step initial steps label state) :
    Reaches program step initial label state := by
  induction path with
  | entry => exact .entry
  | next _ stepped child inductionHypothesis => exact .next inductionHypothesis stepped child

/-- The counters are ghost variables that only the counting instructions change,
and the assertion of such an instruction bounds its counter. -/
structure CountsLoops (step : Instruction -> State -> State -> Prop)
    (counter : Label -> State -> Int) (holds : Assertion -> State -> Prop) : Prop where
  increments : forall {name : Label} {before after : State},
    step (.incrementLoopCounter name) before after -> counter name after = counter name before + 1
  keeps : forall {name : Label} {ins : Instruction} {before after : State}, step ins before after ->
    ins ≠ .incrementLoopCounter name -> counter name after = counter name before
  bounded : forall {name : Label} {state : State}, holds (.boundedLoopCount name) state ->
    counter name state ≤ loopLimit

variable {step : Instruction -> State -> State -> Prop} {counter : Label -> State -> Int}
  {holds : Assertion -> State -> Prop}

/-- The sum of the counters of some loop heads. -/
def total (counter : Label -> State -> Int) (heads : List Label) (state : State) : Int :=
  ∑ head ∈ heads.toFinset, counter head state

/-- A step adds one to the sum if it counts, and leaves the sum otherwise. -/
theorem total_step (counts : CountsLoops step counter holds) (heads : List Label)
    {ins : Instruction} {before after : State} (stepped : step ins before after) :
    (forall name, name ∈ heads -> ins = .incrementLoopCounter name ->
      total counter heads after = total counter heads before + 1) ∧
    ((forall name, ins ≠ .incrementLoopCounter name) ->
      total counter heads after = total counter heads before) := by
  constructor
  · rintro name member rfl
    have each : forall head, counter head after = counter head before + if head = name then 1
        else 0 := by
      intro head
      by_cases same : head = name
      · rw [if_pos same, same]
        exact counts.increments stepped
      · rw [if_neg same, add_zero]
        exact counts.keeps stepped (by simpa [eq_comm] using same)
    simp only [total, each, Finset.sum_add_distrib, Finset.sum_ite_eq',
      List.mem_toFinset.mpr member, if_true]
  · intro notCounter
    exact Finset.sum_congr rfl (fun head _ => counts.keeps stepped (notCounter head))

/-- A path whose assertions hold passes the counters as often as they say, and
no counter is above its limit by more than one. -/
theorem Path.counted {isPrivileged : Bool} {heads : List Label} {cfg result : Cfg}
    (counted : Counted isPrivileged heads cfg result) (counterFree : cfg.CounterFree)
    (resultFormed : result.WellFormed)
    (counts : CountsLoops step counter holds) {initial : State}
    (zero : forall label, counter label initial = 0)
    (asserted : forall label state,
      Reaches (result.analyzed resultFormed) step initial label state ->
      ∀ assertion ∈ (result.instructions label).preconditions, holds assertion state)
    {steps : Nat} {label : Label} {state : State}
    (path : Path (result.analyzed resultFormed) step initial steps label state) :
    exists visits : Nat, CountedWalk (fun source target => result.Reachable source ∧
      target ∈ result.children source)
        result.Counts Label.entry steps visits label ∧
      result.Reachable label ∧ (visits : Int) = total counter heads state ∧
        forall name, counter name state ≤ loopLimit + 1 := by
  induction path with
  | entry =>
      refine ⟨0, .start, .refl, ?_, ?_⟩
      · simp [total, zero]
      · intro name
        rw [zero, loopLimit]
        decide
  | @next steps label successor before after path stepped child inductionHypothesis =>
      rcases inductionHypothesis with ⟨visits, walk, reached, same, small⟩
      have isLabel : label ∈ result.labels := resultFormed.source label successor child
      have reachedNext : result.Reachable successor := reached.tail child
      have added := total_step counts heads stepped
      by_cases isCounter : result.Counts label
      · rcases isCounter with ⟨name, increments⟩
        have isHead : name ∈ heads := by
          rcases counted.labels label isLabel with isOld | ⟨head, isHead, rfl⟩
          · exact absurd ⟨name, (counted.instructions label isOld).symm.trans increments⟩
              (counterFree label)
          · cases (counted.counter head isHead).symm.trans increments
            exact isHead
        have within : counter name before ≤ loopLimit := by
          apply counts.bounded
          apply asserted label before path.reaches
          have assertions := counted.assertions label isLabel
          rw [increments] at assertions
          rw [<- Option.some.inj assertions]
          exact List.mem_singleton_self _
        refine ⟨visits + 1, walk.marked ⟨reached, child⟩ ⟨name, increments⟩, reachedNext, ?_, ?_⟩
        · rw [added.1 name isHead increments, <- same]
          rfl
        · intro other
          by_cases isOther : name = other
          · subst isOther
            have counting : step (.incrementLoopCounter name) before after := by
              rw [<- increments]
              exact stepped
            rw [counts.increments counting]
            omega
          · rw [counts.keeps stepped
              (fun counting => isOther (by cases increments.symm.trans counting; rfl))]
            exact small other
      · have notCounter : forall name, (result.instructions label).cmd ≠
            .incrementLoopCounter name :=
          fun name increments => isCounter ⟨name, increments⟩
        refine ⟨visits, walk.plain ⟨reached, child⟩ isCounter, reachedNext, ?_, ?_⟩
        · rw [added.2 notCounter, <- same]
        · intro other
          rw [counts.keeps stepped (notCounter other)]
          exact small other

/-- The reachable part of a graph without uncounted cycles. -/
theorem unmarked_acyclic {result : Cfg}
    (none : forall label, result.Reachable label -> ¬ result.UncountedCycle label)
    (label : Label) :
    ¬ Relation.TransGen (CountedWalk.Unmarked
      (fun source target => result.Reachable source ∧ target ∈ result.children source)
      result.Counts) label label := by
  intro walk
  rcases Relation.TransGen.head'_iff.mp walk with ⟨_, ⟨⟨reached, _⟩, _⟩, _⟩
  apply none label reached
  refine Relation.TransGen.mono ?_ _ _ (closed_walk_restrict walk)
  rintro source target ⟨⟨⟨_, child⟩, _⟩, _, ⟨_, _, uncounted⟩⟩
  exact ⟨child, uncounted⟩

end Paths

/-! ## The whole verification -/

/-- What the assertions say holds on every concrete path of a verified program. -/
theorem asserted_of_verified {result : Cfg} {resultFormed : result.WellFormed}
    {D Warning State : Type}
    {domain : Domain D Label Instruction Assertion Warning} {gamma : D -> Set State}
    {step : Instruction -> State -> State -> Prop} {counterZero : Label -> Set State}
    {holds : Assertion -> State -> Prop}
    (sound : SoundDomain domain gamma step counterZero) (soundCheck : SoundCheck domain gamma holds)
    (entryFirst : forall label, Label.entry ∉ result.childrenOf label) {options : Options}
    (assumeOff : options.assumeAssertions = false) {again : Nat} {entryInv : D}
    {inv : Label -> Fixpoint.InvariantPair D}
    (returned : runForwardAnalyzer (result.analyzed resultFormed) domain options again
      entryInv = some inv)
    (isVerified : verified (result.analyzed resultFormed) domain inv = true) {initial : State}
    (initialMember : initial ∈ gamma entryInv) (zero : forall label, initial ∈ counterZero label)
    {label : Label} {state : State}
    (reached : Reaches (result.analyzed resultFormed) step initial label state) :
    ∀ assertion ∈ (result.instructions label).preconditions, holds assertion state := by
  intro assertion member
  have contained := Fixpoint.contained_of_returned sound entryFirst assumeOff returned
    initialMember zero reached
  exact Fixpoint.holds_of_verified sound soundCheck isVerified reached.mem_labels contained.1 member

/-- Without nested loops, a path whose assertions hold takes fewer steps than there
are labels for each round that the loop counters allow. -/
theorem Path.steps_lt {prog : InstructionSeq} {isPrivileged mustHaveExit : Bool} {fuel : Nat}
    {result cfg : Cfg}
    {wto : Wto Label} {resultFormed : result.WellFormed} {State : Type}
    {step : Instruction -> State -> State -> Prop}
    {counter : Label -> State -> Int} {holds : Assertion -> State -> Prop} {initial state : State}
    {steps : Nat}
    {label : Label} (path : Path (result.analyzed resultFormed) step initial steps label state)
    (prepared : prepareCfg prog isPrivileged ⟨true, mustHaveExit⟩ fuel = .ok result)
    (built : instructionSeqToCfg prog mustHaveExit = .ok cfg)
    (ordered : cfg.buildWto fuel = .ok wto)
    (decoded : ∀ labelled ∈ prog, NotCounter labelled.2) (flat : wto.components.Flat)
    (counts : CountsLoops step counter holds) (zero : forall label, counter label initial = 0)
    (asserted : forall label state,
      Reaches (result.analyzed resultFormed) step initial label state ->
      ∀ assertion ∈ (result.instructions label).preconditions, holds assertion state) :
    steps < (wto.components.outerHeads.length * 100001 + 1) * result.labels.elements.length := by
  have counted := prepareCfg_counted prepared built ordered
  have counterFree := instructionSeqToCfg_counterFree decoded built
  rcases path.counted counted counterFree resultFormed counts zero asserted with
    ⟨visits, walk, _, same, small⟩
  have visited : visits ≤ wto.components.outerHeads.length * 100001 := by
    have bound : total counter wto.components.outerHeads state ≤
        wto.components.outerHeads.toFinset.card • (loopLimit + 1) :=
      Finset.sum_le_card_nsmul _ _ _ (fun head _ => small head)
    rw [List.toFinset_card_of_nodup
      (wto.components.outerHeads_nodup (buildWto_wellOrdered ordered).distinct),
      <- same, loopLimit, nsmul_eq_mul] at bound
    exact_mod_cast bound
  have first : Label.entry ∈ result.labels.elements.toFinset :=
    List.mem_toFinset.mpr resultFormed.entry
  have short := walk.length_lt first
    (fun source target edge => List.mem_toFinset.mpr (resultFormed.target source target edge.2))
    (unmarked_acyclic (fun label =>
      prepareCfg_no_uncountedCycle prepared built ordered decoded flat))
  rw [List.toFinset_card_of_nodup result.labels.nodup] at short
  exact Nat.lt_of_lt_of_le short (Nat.mul_le_mul_right _ (Nat.add_le_add_right visited 1))

/-- A program without nested loops that the analysis accepts under
`check_for_termination` halts: every concrete path takes fewer steps than there
are labels for each round that the loop counters allow.  `noPredecessor` is what
`instructionSeqToCfg_entry_not_child` says of decoded programs. -/
theorem verified_halts {prog : InstructionSeq} {isPrivileged mustHaveExit : Bool} {fuel : Nat}
    {result cfg : Cfg}
    {wto : Wto Label} (prepared : prepareCfg prog isPrivileged
      ⟨true, mustHaveExit⟩ fuel = .ok result)
    (built : instructionSeqToCfg prog mustHaveExit = .ok cfg)
    (ordered : cfg.buildWto fuel = .ok wto)
    (decoded : ∀ labelled ∈ prog, NotCounter labelled.2) (flat : wto.components.Flat)
    (noPredecessor : forall label, Label.entry ∉ cfg.children label)
    (resultFormed : result.WellFormed)
    {D Warning State : Type} {domain : Domain D Label Instruction Assertion Warning}
    {gamma : D -> Set State}
    {step : Instruction -> State -> State -> Prop} {counter : Label -> State -> Int}
    {holds : Assertion -> State -> Prop}
    (sound : SoundDomain domain gamma step (fun label => {state | counter label state = 0}))
    (soundCheck : SoundCheck domain gamma holds) (counts : CountsLoops step counter holds)
    {options : Options} (assumeOff : options.assumeAssertions = false) {again : Nat} {entryInv : D}
    {inv : Label -> Fixpoint.InvariantPair D}
    (returned : runForwardAnalyzer (result.analyzed resultFormed) domain options again
      entryInv = some inv)
    (isVerified : verified (result.analyzed resultFormed) domain inv = true) {initial : State}
    (initialMember : initial ∈ gamma entryInv) (zero : forall label, counter label initial = 0)
    {steps : Nat} {label : Label} {state : State}
    (path : Path (result.analyzed resultFormed) step initial steps label state) :
    steps < (wto.components.outerHeads.length * 100001 + 1) * result.labels.elements.length := by
  have wellFormed := instructionSeqToCfg_wellFormed built
  have entryFirst : forall label, Label.entry ∉ result.childrenOf label :=
    (prepareCfg_counted prepared built ordered).entry_not_child wellFormed resultFormed
      noPredecessor
  exact path.steps_lt prepared built ordered decoded flat counts zero
    (fun _ _ reached => asserted_of_verified sound soundCheck entryFirst assumeOff returned
      isVerified initialMember zero
      reached)

/-! ## States one by one -/

section Listed

variable {Listed State : Type} [DecidableEq Listed] (exec : Instruction -> Listed ->
  Option (List Listed))
  (holds : Assertion -> Listed -> Bool) (view : State -> Listed)

/-- Sets of states, with what is seen of each state listed.  The instructions that
`exec` does not know have no transformer. -/
def listDomain : Domain (List Listed) Label Instruction Assertion Unit where
  bottom := []
  isBottom value := value.isEmpty
  le left right := left.all (fun state => decide (state ∈ right))
  joinAssign left right := left ++ right
  join left right := left ++ right
  widen left right _ := left ++ right
  meet left right := left.filter (fun state => decide (state ∈ right))
  narrow left right := left.filter (fun state => decide (state ∈ right))
  transform value ins :=
    if value.all (fun state => (exec ins state).isSome)
      then some (value.flatMap (fun state => (exec ins state).getD []))
    else none
  assume value _ := some value
  check value assertion := if value.all (holds assertion) then [] else [()]
  initializeLoopCounter value _ := value

def listStates (value : List Listed) : Set State := {state | view state ∈ value}

variable {exec holds view}

theorem listDomain_sound {step : Instruction -> State -> State -> Prop}
    {counterZero : Label -> Set State}
    (exact_ : forall ins before after states, exec ins (view before) = some states ->
      step ins before after -> view after ∈ states) :
    SoundDomain (listDomain exec holds) (listStates view) step counterZero where
  transform := by
    intro before after instr transformed source target member stepped
    rcases ite_eq_iff.mp transformed with ⟨all, same⟩ | ⟨_, impossible⟩
    · cases same
      rcases Option.isSome_iff_exists.mp (List.all_eq_true.mp all (view source) member) with
        ⟨states, known⟩
      refine List.mem_flatMap.mpr ⟨view source, member, ?_⟩
      rw [known]
      exact exact_ instr source target states known stepped
    · cases impossible
  joinAssign left right state member := List.mem_append.mpr member
  meet left right state member := List.mem_filter.mpr
    ⟨member.1, decide_eq_true (show view state ∈ right from member.2)⟩
  narrow left right state member :=
    List.mem_filter.mpr ⟨member.1, decide_eq_true (show view state ∈ right from member.2)⟩
  le := by
    intro left right included state member
    have inRight : view state ∈ right := of_decide_eq_true (List.all_eq_true.mp included _ member)
    exact inRight
  isBottom := by
    intro value empty
    ext state
    simp [listStates, List.isEmpty_iff.mp empty]
  initializeLoopCounter value label state member := member.1

theorem listDomain_soundCheck : SoundCheck (listDomain exec holds) (listStates view)
    (fun assertion state => holds assertion (view state) = true) := by
  intro value assertion noWarning state member
  rcases ite_eq_iff.mp noWarning with ⟨all, _⟩ | ⟨_, impossible⟩
  · exact List.all_eq_true.mp all (view state) member
  · cases impossible

end Listed

/-! ## A loop that is taken once -/

/-- A loop over `r1` whose condition fails at the end of the first round. -/
def singleRound : InstructionSeq :=
  [({ fromIndex := 0 }, .bin ⟨.mov, ⟨1⟩, .imm ⟨0⟩, true, false⟩),
    ({ fromIndex := 1 }, .bin ⟨.add, ⟨1⟩, .imm ⟨1⟩, true, false⟩),
    ({ fromIndex := 2 }, .jmp ⟨some ⟨.lt, ⟨1⟩, .imm ⟨1⟩, true⟩, { fromIndex := 1 }⟩),
    ({ fromIndex := 3 }, .exit ⟨[]⟩)]

/-- The value of `r1` and the count of the loop. -/
abbrev RoundState : Type := Nat × Nat

/-- The states after an instruction of that program. -/
def roundExec (ins : Instruction) (state : RoundState) : List RoundState :=
  match ins with
  | .bin ⟨.mov, _, .imm value, _, _⟩ => [(value.v.toNat, state.2)]
  | .bin ⟨.add, _, .imm value, _, _⟩ => [(state.1 + value.v.toNat, state.2)]
  | .assume ⟨⟨op, _, .imm value, _⟩, _⟩ =>
      if decide (state.1 < value.v.toNat) = decide (op = .lt) then [state] else []
  | .incrementLoopCounter name => if name = { fromIndex := 1 } then [(state.1, state.2 + 1)] else []
  | _ => [state]

/-- The counters of that program. -/
def roundCounter (name : Label) (state : RoundState) :
    Int := if name = { fromIndex := 1 } then state.2 else 0

/-- Only the bound of a counter is a condition on these states. -/
def roundHolds : Assertion -> RoundState -> Bool
  | .boundedLoopCount name, state => decide (roundCounter name state ≤ loopLimit)
  | _, _ => true

/-- The step of an instruction of that program. -/
def roundStep (ins : Instruction) (before after : RoundState) : Prop := after ∈ roundExec ins before

/-- The analysis of that program. -/
def roundDomain : Domain (List RoundState) Label Instruction Assertion Unit :=
  listDomain (fun ins state => some (roundExec ins state)) roundHolds

theorem roundStep_counts :
    CountsLoops roundStep roundCounter
    (fun assertion state => roundHolds assertion state = true) where
  increments := by
    intro name before after stepped
    simp only [roundStep, roundExec] at stepped
    split at stepped
    · rename_i isHead
      rw [List.mem_singleton.mp stepped, roundCounter, roundCounter, if_pos isHead, if_pos isHead]
      rfl
    · cases stepped
  keeps := by
    intro name ins before after stepped notCounter
    unfold roundStep roundExec at stepped
    split at stepped
    · rw [List.mem_singleton.mp stepped]; rfl
    · rw [List.mem_singleton.mp stepped]; rfl
    · split at stepped
      · rw [List.mem_singleton.mp stepped]
      · cases stepped
    · split at stepped
      · rename_i other isHead
        have different : name ≠ { fromIndex := 1 } := fun same => notCounter (by rw [isHead, same])
        rw [roundCounter, roundCounter, if_neg different, if_neg different]
      · cases stepped
    · rw [List.mem_singleton.mp stepped]
  bounded := by
    intro name state bounded
    exact of_decide_eq_true bounded

/-- What `prepare_cfg` returns for that program. -/
def singleRoundCfg : Cfg :=
  match prepareCfg singleRound false ⟨true, true⟩ 100 with
  | .ok result => result
  | .error _ => initial

theorem singleRoundCfg_prepared :
    prepareCfg singleRound false ⟨true, true⟩ 100 = .ok singleRoundCfg := by
  have returns : returnsChecked (fun _ => true) (prepareCfg singleRound false ⟨true, true⟩ 100) =
      true := by decide
  rcases exists_of_returnsChecked returns with ⟨result, prepared, _⟩
  rw [singleRoundCfg, prepared]

theorem singleRoundCfg_wellFormed : singleRoundCfg.WellFormed :=
  prepareCfg_wellFormed singleRoundCfg_prepared

theorem roundDomain_sound : SoundDomain roundDomain (listStates id) roundStep
    (fun label => {state | roundCounter label state = 0}) := by
  apply listDomain_sound
  intro ins before after states known stepped
  cases known
  exact stepped

theorem singleRound_decoded : ∀ labelled ∈ singleRound, NotCounter labelled.2 := by
  intro labelled member name
  simp only [singleRound, List.mem_cons, List.not_mem_nil, or_false] at member
  rcases member with rfl | rfl | rfl | rfl <;> simp

/-- The graph of that program has one loop, and the entry has no predecessor. -/
theorem exists_singleRoundWto : exists cfg wto, instructionSeqToCfg singleRound true = .ok cfg ∧
    cfg.buildWto 100 = .ok wto ∧ wto.components.Flat ∧ wto.components.outerHeads.length = 1 ∧
      forall label, Label.entry ∉ cfg.children label := by
  have ordered : returnsChecked (fun cfg => returnsChecked (fun wto => decide (wto.components.Flat ∧
      wto.components.outerHeads.length = 1 ∧ cfg.parents Label.entry = OrderedSet.empty))
      (cfg.buildWto 100))
      (instructionSeqToCfg singleRound true) = true := by
    decide
  rcases exists_of_returnsChecked ordered with ⟨cfg, built, order⟩
  rcases exists_of_returnsChecked order with ⟨wto, orderBuilt, shape⟩
  rcases of_decide_eq_true shape with ⟨flat, single, noParent⟩
  refine ⟨cfg, wto, built, orderBuilt, flat, single, fun label child => ?_⟩
  rw [(instructionSeqToCfg_wellFormed built).converse, noParent] at child
  cases child

theorem singleRound_path :
    Path (singleRoundCfg.analyzed singleRoundCfg_wellFormed) roundStep (0, 0) 2
      { fromIndex := 1 } (0, 0) := by
  have first : Label.mk [] 0 (-1) [] ∈ singleRoundCfg.childrenOf Label.entry := by decide
  have second : Label.mk [] 1 (-1) [] ∈ singleRoundCfg.childrenOf { fromIndex := 0 } := by decide
  have entered : (0, 0) ∈ roundExec (singleRoundCfg.instructions Label.entry).cmd (0, 0) := by
    decide
  have moved : (0, 0) ∈ roundExec (singleRoundCfg.instructions { fromIndex := 0 }).cmd (0, 0) := by
    decide
  have begun : Path (singleRoundCfg.analyzed singleRoundCfg_wellFormed) roundStep (0, 0) 1
      { fromIndex := 0 } (0, 0) :=
    Path.entry.next entered first
  exact begun.next moved second

/-- That program reaches its loop, and every path is bounded by the one counter. -/
theorem verified_halts_singleRound :
    Path (singleRoundCfg.analyzed singleRoundCfg_wellFormed) roundStep (0, 0) 2
      { fromIndex := 1 } (0, 0) ∧
      forall steps label state, Path (singleRoundCfg.analyzed singleRoundCfg_wellFormed) roundStep
      (0, 0) steps label state ->
        steps < (1 * 100001 + 1) * singleRoundCfg.labels.elements.length := by
  have accepted : (runForwardAnalyzer (singleRoundCfg.analyzed singleRoundCfg_wellFormed)
      roundDomain ⟨false, true⟩ 100
      [(0, 0)]).any (verified (singleRoundCfg.analyzed singleRoundCfg_wellFormed) roundDomain) =
      true := by
    decide
  rcases exists_singleRoundWto with ⟨cfg, wto, built, ordered, flat, single, noPredecessor⟩
  rcases (Option.any_eq_true _ _).mp accepted with ⟨inv, returned, isVerified⟩
  refine ⟨singleRound_path, fun steps label state path => ?_⟩
  have bounded := verified_halts singleRoundCfg_prepared built ordered singleRound_decoded flat
    noPredecessor
    singleRoundCfg_wellFormed roundDomain_sound (@listDomain_soundCheck _ _ _ _ _ id)
    roundStep_counts rfl returned
    isVerified (List.mem_singleton_self _) (fun label => by simp [roundCounter]) path
  rw [single] at bounded
  exact bounded

end Cfg
end Prevail
