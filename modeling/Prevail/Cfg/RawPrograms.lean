import Prevail.Asm.WellFormed
import Prevail.Cfg.Callees
import Prevail.Cfg.Safety

namespace Prevail
namespace Cfg

open DepthFirst
open Crab
open Ebpf (CheckerContext InstructionSafe Sized knownFrame loopLimit)
open Fixpoint (Domain Options Program Reaches SoundCheck SoundDomain runForwardAnalyzer verified)
open Unmarshaller (DecodedStep Decodes Disassembled IsRightShift NoJumpIntoPair NoNegativeStore
  Round decodeAt indexLabel indexLabel_injective pairMerged performs_iff_executes placeAt shiftBin
  shiftInst startAt unmarshal)

/-!
# From raw programs to verified graphs

A raw program without local calls, none of whose jumps goes into a pair of
shifts, is followed step by step by the graph that `prepare_cfg` makes of its
decoded sequence, as far as its slots do what they are decoded to.  The graph
takes at least one step where the sequence takes one, and the raw program at
most two.  What the analysis shows of the paths of the graph therefore holds of
every execution of the raw program.
-/

/-! ## The machine with loop counters -/

/-- A step of a machine whose states carry the loop counters as ghost variables.
The entry and the exit of a graph have no instruction. -/
def countingStep {State : Type} (machine : Machine State) (ins : Instruction)
    (before after : State × (Label -> Int)) : Prop :=
  match ins with
  | .undefined _ => after = before
  | .incrementLoopCounter name =>
    after = (before.1, Function.update before.2 name (before.2 name + 1))
  | ins => machine.Passes ins before.1 after.1 ∧ after.2 = before.2

theorem countingStep_of_passes {State : Type} {machine : Machine State} {ins : Instruction}
    {state after : State}
    (defined : Defined ins) (notCounter : NotCounter ins) (passes : machine.Passes ins state after)
    (counters : Label -> Int) : countingStep machine ins (state, counters) (after, counters) := by
  cases ins with
  | undefined opcode => exact absurd rfl (defined opcode)
  | incrementLoopCounter name => exact absurd rfl (notCounter name)
  | _ => exact ⟨passes, rfl⟩

theorem countingStep_counts {State : Type} {machine : Machine State}
    {holds : Assertion -> State × (Label -> Int) -> Prop}
    (bounded : forall name state, holds (.boundedLoopCount name) state ->
      state.2 name ≤ loopLimit) :
    CountsLoops (countingStep machine) (fun name state => state.2 name) holds where
  increments := by
    intro name before after step
    rw [show after = _ from step]
    exact Function.update_self ..
  keeps := by
    intro name ins before after step different
    cases ins with
    | undefined opcode => rw [show after = before from step]
    | incrementLoopCounter found =>
        rw [show after = _ from step]
        exact Function.update_of_ne (fun same => different (by rw [same])) _ _
    | _ => exact congrFun step.2 name
  bounded := fun holds => bounded _ _ holds

/-! ## The graph of a sequence without calls -/

section Sources

variable {prog : InstructionSeq} {cfg : Cfg} {mustHaveExit : Bool}
  (graph : FirstPassGraph mustHaveExit prog cfg)
  (notCounter : forall label ins, (label, ins) ∈ prog -> NotCounter ins)

include graph notCounter

/-- What has a successor in the graph is the entry, which has no instruction, or it
has one that is no counter. -/
theorem FirstPassGraph.source_cases {source target : Label} (child : target ∈ cfg.children source) :
    (source = Label.entry ∧ (cfg.instructions source).cmd = .undefined 0) ∨
      (source ≠ Label.entry ∧ Defined (cfg.instructions source).cmd ∧
      NotCounter (cfg.instructions source).cmd) := by
  rcases (graph.labels source).mp (graph.wellFormed.source source _ child) with rfl | rfl |
    ⟨ins, isInst, isDefined⟩ | isJump
  · left
    exact ⟨rfl, graph.others _ (fun occurs => (graph.occursNe _ occurs).1 rfl)
      (fun isJump => (graph.jumpNe _ isJump).1 rfl)⟩
  · exact absurd child (graph.exit _)
  · right
    rw [graph.instructions source ins isInst isDefined]
    exact ⟨(graph.occursNe source ⟨ins, isInst, isDefined⟩).1, isDefined,
      notCounter source ins isInst⟩
  · right
    refine ⟨(graph.jumpNe source isJump).1, ?_⟩
    rcases isJump with ⟨label, ins, rest, suffix, isJump⟩
    rcases ((graph.connected label ins rest suffix).jump_assumes isJump).2 with ⟨assumed, isAssumed⟩
    rw [isAssumed]
    constructor
    · intro opcode same
      cases same
    · intro name same
      cases same

end Sources

/-! ## Steps of the sequence as paths of the prepared graph -/

section Paths

variable {prog : InstructionSeq} {cfg result : Cfg} {mustHaveExit isPrivileged : Bool}
  {heads : List Label}
  (graph : FirstPassGraph mustHaveExit prog cfg) (counted : Counted isPrivileged heads cfg result)
  (resultFormed : result.WellFormed) (notCounter : forall label ins, (label, ins) ∈ prog ->
    NotCounter ins)
  {State : Type} {machine : Machine State} {initial : State × (Label -> Int)}

include graph counted notCounter

theorem path_of_step {steps : Nat} {current after : Label × State} {counters : Label -> Int}
    (path : Path (result.analyzed resultFormed) (countingStep machine) initial steps current.1
      (current.2, counters))
    (taken : cfg.Step machine current after) :
    exists more counters, steps < more ∧
      Path (result.analyzed resultFormed) (countingStep machine) initial more after.1
      (after.2, counters) := by
  rcases current with ⟨label, state⟩
  rcases after with ⟨next, afterState⟩
  rcases taken with ⟨passes, child⟩
  dsimp only at path passes child ⊢
  have isLabel : label ∈ cfg.labels := graph.wellFormed.source label next child
  have cmd := counted.instructions label isLabel
  have stepped : countingStep machine (result.instructions label).cmd (state, counters)
      (afterState, counters) := by
    rw [cmd]
    rcases graph.source_cases notCounter child with ⟨isEntry, none⟩ | ⟨notEntry, isDefined, isPlain⟩
    · rw [if_pos isEntry] at passes
      rw [none, passes]
      rfl
    · rw [if_neg notEntry] at passes
      exact countingStep_of_passes isDefined isPlain passes counters
  by_cases isHead : label ∈ heads
  · have through : label.makeIncrementCounter ∈ result.childrenOf label := by
      rw [counted.spliced.head label isHead]
      exact List.mem_singleton_self _
    have behind : next ∈ result.childrenOf label.makeIncrementCounter := by
      rw [counted.spliced.behind label isHead]
      exact child
    refine ⟨steps + 1 + 1, Function.update counters label (counters label + 1), by omega,
      .next (.next path stepped through) ?_ behind⟩
    change countingStep machine (result.instructions label.makeIncrementCounter).cmd _ _
    rw [counted.counter label isHead]
    rfl
  · have direct : next ∈ result.childrenOf label := by
      rw [counted.spliced.other label isLabel isHead]
      exact child
    exact ⟨steps + 1, counters, Nat.lt_succ_self _, .next path stepped direct⟩

/-- A path between two shown labels of the first graph is a longer one of the
prepared graph. -/
theorem path_of_leads {steps : Nat} {current after : Label × State} {counters : Label -> Int}
    (path : Path (result.analyzed resultFormed) (countingStep machine) initial steps current.1
      (current.2, counters))
    (leads : Leads (cfg.Step machine) prog.view current after) :
    exists more counters, steps < more ∧
      Path (result.analyzed resultFormed) (countingStep machine) initial more after.1
      (after.2, counters) := by
  rcases leads with ⟨middle, hidden, last⟩
  have before : exists more counters, steps ≤ more ∧
      Path (result.analyzed resultFormed) (countingStep machine) initial more middle.1
      (middle.2, counters) := by
    clear last
    induction hidden with
    | refl => exact ⟨steps, counters, le_refl _, path⟩
    | tail _ taken inductionHypothesis =>
        rcases inductionHypothesis with ⟨more, found, longer, further⟩
        rcases path_of_step graph counted resultFormed notCounter further taken.1 with
          ⟨most, last, longest, furthest⟩
        exact ⟨most, last, by omega, furthest⟩
  rcases before with ⟨more, found, longer, further⟩
  rcases path_of_step graph counted resultFormed notCounter further last with
    ⟨most, final, longest, furthest⟩
  exact ⟨most, final, by omega, furthest⟩

end Paths

/-! ## Raw programs -/

section Raw

open InstructionSeq (place)

theorem place_getD (rest : InstructionSeq) :
    (place rest).getD Label.exit = InstructionSeq.fallthrough rest := by
  cases rest <;> rfl

/-- Without calls in progress, an instruction that is no local call goes where it
goes in the sequence. -/
theorem step_of_executes {State : Type} {machine : Machine State} {prog : InstructionSeq}
    {label : Label}
    {ins : Instruction} {rest : InstructionSeq} (suffix : (label, ins) :: rest <:+ prog)
    (noCall : forall call, ins ≠ .callLocal call) {current after : Configuration State}
    (returns : current.returns = []) (executes : machine.Executes ins (place rest) current after) :
    prog.Step machine (label, current.state) (after.place.getD Label.exit, after.state) ∧
      after.returns = [] := by
  rcases executes with ⟨passes, control⟩
  suffices goes : machine.GoesTo ins (InstructionSeq.fallthrough rest) current.state
      (after.place.getD Label.exit) ∧
      after.returns = [] from ⟨⟨ins, rest, suffix, passes, goes.1⟩, goes.2⟩
  cases ins with
  | jmp jmp =>
      rcases jmp with ⟨condition, target⟩
      rcases control with ⟨kept, control⟩
      refine ⟨?_, kept.trans returns⟩
      cases condition with
      | none =>
          rcases control with ⟨_, isTarget⟩ | ⟨impossible, _⟩
          · rw [isTarget]
            rfl
          · exact absurd trivial impossible
      | some cond =>
          rcases control with ⟨holds, isTarget⟩ | ⟨fails, isBehind⟩
          · exact Or.inl ⟨holds, by rw [isTarget]; rfl⟩
          · exact Or.inr ⟨fails, by rw [isBehind, place_getD]⟩
  | callLocal call => exact absurd rfl (noCall call)
  | exit ins =>
      dsimp only at control
      rw [returns] at control
      refine ⟨?_, control.2⟩
      rw [control.1]
      rfl
  | _ =>
      refine ⟨?_, control.2.trans returns⟩
      rw [control.1, place_getD]
      rfl

/-- A raw program without local calls and without jumps into pairs of shifts, and
the graph that the front end makes of it. -/
structure Prepares (platform : EbpfPlatform) (insts : List EbpfInst) (prog : InstructionSeq)
    (isPrivileged : Bool) (options : PrepareCfgOptions) (fuel : Nat) (result : Cfg) : Prop where
  decoded : unmarshal platform insts = .ok prog
  noJump : NoJumpIntoPair insts
  noCalls : forall label call, (label, .callLocal call) ∉ prog
  prepared : prepareCfg prog isPrivileged options fuel = .ok result

variable {platform : EbpfPlatform} {insts : List EbpfInst} {prog : InstructionSeq}
  {isPrivileged : Bool} {options : PrepareCfgOptions} {fuel : Nat} {result : Cfg}

theorem Prepares.disassembled (prepares : Prepares platform insts prog isPrivileged options
    fuel result) :
    Disassembled insts prog := by
  rcases Unmarshaller.decodes_of_unmarshal prepares.decoded with ⟨nonempty, decodes⟩
  exact decodes.disassembled nonempty

section Disassembly

variable (disassembled : Disassembled insts prog)

include disassembled

theorem disassembled_indexed : prog.Indexed := by
  have isIndex : forall pc : Nat, (indexLabel pc).IsIndex :=
    fun pc => ⟨rfl, Int.natCast_nonneg pc, rfl, rfl⟩
  intro label ins member
  constructor
  · rcases disassembled.labels with ⟨pcs, labels, _⟩
    have isLabel : label ∈ pcs.map indexLabel :=
      labels ▸ List.mem_map.mpr ⟨(label, ins), member, rfl⟩
    rcases List.mem_map.mp isLabel with ⟨pc, _, rfl⟩
    exact isIndex pc
  · intro target isTarget
    rcases disassembled.targets (label, ins) member target isTarget with ⟨pc, _, rfl, _⟩
    exact isIndex pc

theorem disassembled_defined (label : Label) (ins : Instruction) (member : (label, ins) ∈ prog) :
    Defined ins := by
  intro opcode same
  have wellFormed := disassembled.instructions (label, ins) member
  rw [same] at wellFormed
  exact wellFormed

theorem disassembled_notCounter (label : Label) (ins : Instruction) (member : (label, ins) ∈ prog) :
    NotCounter ins := by
  intro name same
  have wellFormed := disassembled.instructions (label, ins) member
  rw [same] at wellFormed
  exact wellFormed

end Disassembly

theorem Prepares.graph (prepares : Prepares platform insts prog isPrivileged options fuel result) :
    exists cfg heads, instructionSeqToCfg prog options.mustHaveExit = .ok cfg ∧
      FirstPassGraph options.mustHaveExit prog cfg ∧ Counted isPrivileged heads cfg result := by
  rcases prepareCfg_counts prepares.prepared with ⟨cfg, heads, built, counted⟩
  refine ⟨cfg, heads, built, ?_, counted⟩
  rcases bind_eq_ok.mp built with ⟨first, pass, expand⟩
  rw [expandAll_eq_ok prepares.noCalls] at expand
  cases expand
  exact firstPass_spec pass

/-- The graph has followed a raw program that has passed `taken` configurations: to
a label of the sequence, or to the first shift of a pair that the raw program is
between. -/
inductive Mirrored (platform : EbpfPlatform) (program : Program Label Instruction Assertion)
    {Rest : Type} (machine : Machine (RegisterState Rest))
    (insts : List EbpfInst) (prog : InstructionSeq) (initial : RegisterState Rest × (Label -> Int))
    (taken : Nat) (current : Configuration (RegisterState Rest)) : Prop where
  | shown {steps : Nat} {counters : Label -> Int}
      (path : Path program (countingStep machine) initial steps (current.place.getD Label.exit)
        (current.state, counters))
      (returns : current.returns = []) (labelled : ∀ label ∈ current.place, label ∈ prog.labels)
      (bound : taken + 1 ≤ 2 * steps) :
      Mirrored platform program machine insts prog initial taken current
  | between {steps : Nat} {counters : Label -> Int} {pc : Nat} {dst : BitVec 4} {second : BinOp}
      {state : RegisterState Rest} {rest : InstructionSeq}
      (path : Path program (countingStep machine) initial steps (indexLabel pc) (state, counters))
      (suffix : (indexLabel pc, .bin (pairMerged dst second)) :: rest <:+ prog)
      (right : IsRightShift second)
      (found : insts[pc + 1]? = some (shiftInst second dst))
      (behind : place rest = placeAt insts (pc + 2))
      (next : decodeAt platform insts (pc + 1) (shiftInst second dst) = .ok
        (.bin (shiftBin second dst), 1))
      (isCurrent : current = ⟨some (indexLabel (pc + 1)), [],
        ((shiftBin .lsh dst).run state.1, state.2)⟩)
      (bound : taken ≤ 2 * steps) :
      Mirrored platform program machine insts prog initial taken current

section Follow

variable {Rest : Type} {other : Instruction -> RegisterState Rest -> RegisterState Rest -> Prop}
  {initial : RegisterState Rest × (Label -> Int)} {resultFormed : result.WellFormed}
  {taken steps : Nat} {counters : Label -> Int} {current after : Configuration (RegisterState Rest)}
  (prepares : Prepares platform insts prog isPrivileged options fuel result)

include prepares

/-- The graph follows an instruction of the sequence. -/
theorem shown_of_executes {label : Label} {ins : Instruction} {rest : InstructionSeq}
    (path : Path (result.analyzed resultFormed) (countingStep (arithmeticMachine other))
      initial steps label
      (current.state, counters))
    (suffix : (label, ins) :: rest <:+ prog) (returns : current.returns = [])
    (executes : (arithmeticMachine other).Executes ins (place rest) current after)
    (bound : taken ≤ 2 * steps + 1) :
    Mirrored platform (result.analyzed resultFormed) (arithmeticMachine other) insts prog initial
      taken after := by
  have disassembled := prepares.disassembled
  rcases Unmarshaller.decodes_of_unmarshal prepares.decoded with ⟨_, decodes⟩
  rcases prepares.graph with ⟨cfg, heads, _, graph, counted⟩
  have indexed := disassembled_indexed disassembled
  have defined := disassembled_defined disassembled
  have isInst : (label, ins) ∈ prog := suffix.subset List.mem_cons_self
  have noCall : forall call, ins ≠ .callLocal call := by
    rintro call rfl
    exact prepares.noCalls label call isInst
  have isLabel : label ∈ prog.labels := List.mem_map.mpr ⟨(label, ins), isInst, rfl⟩
  have keeps : prog.Keeps after := by
    have same : (arithmeticMachine other).Executes ins (place rest)
        ⟨some label, [], current.state⟩ after := by
      rw [← returns]
      exact executes
    refine Unmarshaller.keeps_of_executes (fun target =>
      Unmarshaller.targets_of_noJumpIntoPair decodes prepares.noJump isInst) suffix ?_ same
    intro found member target isTarget
    rcases List.mem_singleton.mp member with rfl
    cases isTarget
    exact isLabel
  rcases step_of_executes suffix noCall returns executes with ⟨step, noReturns⟩
  rcases answers_step (arithmeticMachine other) indexed graph defined step
    (view_eq_some.mpr ⟨Or.inl isLabel, rfl⟩) with ⟨next, leads, visible⟩
  rcases view_eq_some.mp visible with ⟨_, rfl⟩
  rcases path_of_leads graph counted resultFormed (disassembled_notCounter disassembled)
    path leads with
    ⟨more, found, longer, further⟩
  exact .shown further noReturns (fun label same => keeps _ List.mem_cons_self label same)
    (by omega)

/-- The graph follows a step of the raw program. -/
theorem mirrored_step
    (mirrored : Mirrored platform (result.analyzed resultFormed) (arithmeticMachine other) insts
      prog initial taken current)
    (step : DecodedStep platform (arithmeticMachine other) insts current after) :
    Mirrored platform (result.analyzed resultFormed) (arithmeticMachine other) insts prog initial
      (taken + 1) after := by
  rcases Unmarshaller.decodes_of_unmarshal prepares.decoded with ⟨_, decodes⟩
  rcases step with ⟨pc, inst, ins, slots, isPlace, found, decoded, executes⟩
  cases mirrored with
  | @shown steps counters path returns labelled bound =>
      rcases mem_labels_iff.mp (labelled _ isPlace) with ⟨entry, rest, suffix⟩
      rcases decodes.of_suffix suffix with
        ⟨at_, atInst, atSlots, _, isLabel, atFound, round, behind⟩
      cases indexLabel_injective isLabel
      cases found.symm.trans atFound
      rw [isPlace] at path
      have plain : decodeAt platform insts pc inst = .ok (entry, atSlots) ->
          Mirrored platform (result.analyzed resultFormed) (arithmeticMachine other) insts prog
          initial (taken + 1) after := by
        intro atDecoded
        cases decoded.symm.trans atDecoded
        rw [← behind.place_eq] at executes
        exact shown_of_executes prepares path suffix returns executes (by omega)
      cases round with
      | alone atDecoded _ => exact plain atDecoded
      | wide atDecoded _ _ _ => exact plain atDecoded
      | @merged dst second right first secondFound atDecoded secondDecoded =>
          cases decoded.symm.trans atDecoded
          have inside := (List.getElem?_eq_some_iff.mp secondFound).1
          rw [executes_bin, placeAt, if_pos inside] at executes
          refine .between path suffix right secondFound behind.place_eq secondDecoded ?_ (by omega)
          rw [executes, returns]
  | @between steps counters at_ dst second state rest path suffix right atFound behind
    next isCurrent bound =>
      subst isCurrent
      obtain rfl : at_ + 1 = pc := indexLabel_injective (Option.some.inj isPlace)
      cases found.symm.trans atFound
      cases decoded.symm.trans next
      refine @shown_of_executes _ _ _ _ _ _ _ _ _ _ _ _ _ _ ⟨some (indexLabel at_), [], state⟩ after
        prepares _ _ _ path
        suffix rfl ?_ (by omega)
      rw [executes_bin] at executes ⊢
      rw [executes, behind]
      dsimp only
      rw [Unmarshaller.run_pair right]

/-- The graph follows every execution of the raw program. -/
theorem mirrored_execution {state : RegisterState Rest} {zero : Label -> Int}
    {trace : List (Configuration (RegisterState Rest))}
    (execution : Execution (DecodedStep platform (arithmeticMachine other) insts)
      (startAt state) trace current) :
    Mirrored platform (result.analyzed resultFormed) (arithmeticMachine other) insts prog
      (state, zero) trace.length
      current := by
  have disassembled := prepares.disassembled
  rcases prepares.graph with ⟨cfg, heads, _, graph, counted⟩
  rcases Unmarshaller.decodes_of_unmarshal prepares.decoded with ⟨nonempty, decodes⟩
  induction execution with
  | here =>
      rcases graph.entry with ⟨first, ins, rest, form, children⟩
      have isFirst : first = indexLabel 0 := by
        have begins := decodes.place_eq
        rw [placeAt, if_pos (List.length_pos_iff.mpr nonempty), form] at begins
        exact Option.some.inj begins
      have step : cfg.Step (arithmeticMachine other) (Label.entry, state) (first, state) :=
        ⟨by rw [if_pos rfl], (children first).mpr rfl⟩
      have start : Path (result.analyzed resultFormed) (countingStep (arithmeticMachine other))
          (state, zero) 0
          Label.entry (state, zero) := .entry
      rcases path_of_step graph counted resultFormed (disassembled_notCounter disassembled)
        start step with
        ⟨more, found, longer, further⟩
      refine .shown (isFirst ▸ further) rfl ?_ ?_
      · intro label same
        cases same
        exact List.mem_map.mpr ⟨(first, ins), form ▸ List.mem_cons_self, isFirst⟩
      · rw [List.length_singleton]
        omega
  | next before taken inductionHypothesis =>
      rw [List.length_append, List.length_singleton]
      exact mirrored_step prepares inductionHypothesis taken

end Follow

/-! ## What the analysis shows of a raw program -/

theorem sized_of_wellFormed {ins : Instruction} (wellFormed : ins.WellFormed) : Sized ins := by
  cases ins with
  | mem ins =>
      have width := wellFormed.1.width
      simp only [List.mem_cons, List.not_mem_nil, or_false] at width
      exact ⟨by omega, by omega⟩
  | atomic ins =>
      have width := wellFormed.1.width
      simp only [List.mem_cons, List.not_mem_nil, or_false] at width
      exact ⟨by omega, by omega⟩
  | _ => trivial

section Verified

variable (prepares : Prepares platform insts prog isPrivileged options fuel result)

include prepares

/-- The instructions of the prepared graph access between one and eight bytes. -/
theorem Prepares.sized : ∀ label ∈ result.labels, Sized (result.instructions label).cmd :=
  prepareCfg_sized (fun labelled member =>
    sized_of_wellFormed (prepares.disassembled.instructions labelled member))
    prepares.prepared

theorem Prepares.entryFirst (label : Label) : Label.entry ∉ result.childrenOf label :=
  prepareCfg_entry_not_child (disassembled_indexed prepares.disassembled) prepares.prepared label

section Analyzed

variable {Rest : Type} {other : Instruction -> RegisterState Rest -> RegisterState Rest -> Prop}
  {D Warning : Type}
  {domain : Domain D Label Instruction Assertion Warning} {gamma : D ->
    Set (RegisterState Rest × (Label -> Int))}
  (sound : SoundDomain domain gamma (countingStep (arithmeticMachine other))
    (fun label => {state | state.2 label = 0}))
  {analysis : Options} (assumeOff : analysis.assumeAssertions = false) {again : Nat} {entryInv : D}
  {inv : Label -> Fixpoint.InvariantPair D} {resultFormed : result.WellFormed}
  (returned : runForwardAnalyzer (result.analyzed resultFormed) domain analysis again
    entryInv = some inv)
  (isVerified : verified (result.analyzed resultFormed) domain inv = true)
  {state : RegisterState Rest}
  (initialMember : (state, fun _ => 0) ∈ gamma entryInv)
  {trace : List (Configuration (RegisterState Rest))} {current : Configuration (RegisterState Rest)}
  (execution : Execution (DecodedStep platform (arithmeticMachine other) insts)
    (startAt state) trace current)

include sound assumeOff returned isVerified initialMember execution

/-- If the analysis of its graph raises no warning, control stays at slots that decode
until the program has returned.  What is decoded there finds what it demands, as far as
the frame is known there, for some value of the loop counters. -/
theorem verified_decoded_safe {dom : NumAbsDomain Variable} {context : CheckerContext}
    {view : D -> Ebpf.EbpfDomain dom}
    {values : RegisterState Rest × (Label -> Int) -> Variable -> Int}
    {numeric : RegisterState Rest × (Label -> Int) -> Int -> Prop}
    (views : Views context domain gamma view values numeric) :
    ∀ label ∈ current.place, exists pc inst ins slots counters, label = indexLabel pc ∧
      insts[pc]? = some inst ∧ decodeAt platform insts pc inst = .ok (ins, slots) ∧
        InstructionSafe context (values (current.state, counters))
        (knownFrame dom (view (inv label).pre).inv)
          isPrivileged label ins := by
  rcases Unmarshaller.decodes_of_unmarshal prepares.decoded with ⟨_, decodes⟩
  have disassembled := prepares.disassembled
  rcases prepares.graph with ⟨cfg, heads, _, graph, counted⟩
  have shiftSafe : forall op dst state frame label,
      InstructionSafe context (values state) frame isPrivileged label
      (.bin (shiftBin op dst)) := by
    intro op dst state frame label src isReg
    cases isReg
  intro label isPlace
  have isPlace : current.place = some label := isPlace
  cases @mirrored_execution platform insts prog isPrivileged options fuel result Rest other
    resultFormed current prepares
    state (fun _ => 0) trace execution with
  | @shown steps counters path returns labelled bound =>
      rcases mem_labels_iff.mp (labelled label isPlace) with ⟨entry, rest, suffix⟩
      have isInst : (label, entry) ∈ prog := suffix.subset List.mem_cons_self
      have defined := disassembled_defined disassembled label entry isInst
      rw [isPlace, Option.getD_some] at path
      have isLabel : label ∈ cfg.labels :=
        (graph.labels label).mpr (Or.inr (Or.inr (Or.inl ⟨entry, isInst, defined⟩)))
      have contained := Fixpoint.contained_of_returned sound
        (prepares.entryFirst) assumeOff returned
        initialMember (fun _ => rfl) path.reaches
      have safe := views.safe sound isVerified path.reaches.mem_labels contained.1
        (prepareCfg_assertions prepares.prepared label path.reaches.mem_labels)
        (prepares.sized label path.reaches.mem_labels)
      rw [counted.instructions label isLabel, graph.instructions label entry isInst defined] at safe
      rcases decodes.of_suffix suffix with ⟨pc, inst, slots, _, rfl, found, round, _⟩
      cases round with
      | alone decoded _ => exact ⟨pc, inst, entry, _, counters, rfl, found, decoded, safe⟩
      | wide decoded _ _ _ => exact ⟨pc, inst, entry, _, counters, rfl, found, decoded, safe⟩
      | merged _ _ _ decoded _ =>
        exact ⟨pc, inst, _, _, counters, rfl, found, decoded, shiftSafe _ _ _ _ _⟩
  | @between steps counters pc dst second state rest path suffix right found behind
    next isCurrent bound =>
      subst isCurrent
      cases isPlace
      exact ⟨pc + 1, _, _, _, counters, rfl, found, next, shiftSafe _ _ _ _ _⟩

end Analyzed

end Verified

/-- Under `check_for_termination`, a raw program without nested loops that the
analysis accepts halts: its executions are shorter than twice the number of labels
for each round that the loop counters allow. -/
theorem verified_raw_halts {mustHaveExit : Bool} {cfg : Cfg} {wto : Wto Label}
    (prepares : Prepares platform insts prog isPrivileged ⟨true, mustHaveExit⟩ fuel result)
    (built : instructionSeqToCfg prog mustHaveExit = .ok cfg)
    (ordered : cfg.buildWto fuel = .ok wto)
    (flat : wto.components.Flat) (resultFormed : result.WellFormed)
    {Rest : Type} {other : Instruction -> RegisterState Rest -> RegisterState Rest -> Prop}
    {D Warning : Type}
    {domain : Domain D Label Instruction Assertion Warning}
    {gamma : D -> Set (RegisterState Rest × (Label -> Int))}
    (sound : SoundDomain domain gamma (countingStep (arithmeticMachine other))
      (fun label => {state | state.2 label = 0}))
    {holds : Assertion -> RegisterState Rest × (Label -> Int) -> Prop}
    (soundCheck : SoundCheck domain gamma holds)
    (bounded : forall name state, holds (.boundedLoopCount name) state -> state.2 name ≤ loopLimit)
    {analysis : Options} (assumeOff : analysis.assumeAssertions = false) {again : Nat}
    {entryInv : D} {inv : Label -> Fixpoint.InvariantPair D}
    (returned : runForwardAnalyzer (result.analyzed resultFormed) domain analysis again
      entryInv = some inv)
    (isVerified : verified (result.analyzed resultFormed) domain inv = true)
    {state : RegisterState Rest}
    (initialMember : (state, fun _ => 0) ∈ gamma entryInv)
    {trace : List (Configuration (RegisterState Rest))}
    {current : Configuration (RegisterState Rest)}
    (execution : Execution (DecodedStep platform (arithmeticMachine other) insts)
      (startAt state) trace current) :
    trace.length < 2 * ((wto.components.outerHeads.length * 100001 + 1) *
      result.labels.elements.length) := by
  have disassembled := prepares.disassembled
  have notCounter : ∀ labelled ∈ prog, NotCounter labelled.2 :=
    fun labelled member => disassembled_notCounter disassembled labelled.1 labelled.2 member
  have short : forall steps label after,
      Path (result.analyzed resultFormed) (countingStep (arithmeticMachine other))
      (state, fun _ => 0) steps label after ->
        steps < (wto.components.outerHeads.length * 100001 + 1) * result.labels.elements.length :=
    fun _ _ _ path => path.steps_lt prepares.prepared built ordered notCounter flat
      (countingStep_counts bounded)
      (fun _ => rfl) (fun _ _ reached => asserted_of_verified sound soundCheck (prepares.entryFirst)
        assumeOff returned isVerified initialMember (fun _ => rfl) reached)
  cases @mirrored_execution platform insts prog isPrivileged ⟨true, mustHaveExit⟩ fuel result Rest
    other resultFormed
    current prepares state (fun _ => 0) trace execution with
  | shown path _ _ bound =>
      have few := short _ _ _ path
      omega
  | between path _ _ _ _ _ _ bound =>
      have few := short _ _ _ path
      omega

end Raw

/-! ## Two raw programs -/

/-- Without a left shift there is no pair. -/
theorem noJumpIntoPair_of_opcodes {insts : List EbpfInst}
    (noShift : ∀ inst ∈ insts, inst.opcode ≠ 0x67) :
    NoJumpIntoPair insts := by
  rintro pc inst target _ _ ⟨dst, second, _, first, _⟩
  exact noShift _ (List.mem_of_getElem? first) rfl

/-- `r0 = *(u64 *)(r1 + 0); exit`. -/
def readBytes : List EbpfInst := [{ opcode := 0x79, dst := 0, src := 1 }, { opcode := instOpExit }]

theorem readBytes_prepares :
    Prepares Unmarshaller.allGroups readBytes readAndExit false ⟨false, true⟩ 100
    readAndExitCfg where
  decoded := rfl
  noJump := noJumpIntoPair_of_opcodes (by decide)
  noCalls := by
    intro label call member
    simp [readAndExit] at member
  prepared := readAndExitCfg_prepared

/-- An environment in which a load may read any word. -/
def anyLoad : Environment Unit where
  bigEndian := false
  load _ _ _ _ := True
  store _ _ _ _ _ := True
  packet _ _ _ _ := True
  helper _ _ _ := True
  helperAt _ _ _ := True
  mapAddress _ := 0
  enter _ _ := True
  leave _ _ := True

/-- `r1 = 0; r1 += 1; if r1 < 1 goto -2; exit`. -/
def rawRound : List EbpfInst :=
  [{ opcode := 0xb7, dst := 1, imm := 0 }, { opcode := 0x07, dst := 1, imm := 1 },
    { opcode := 0xa5, dst := 1, offset := -2, imm := 1 }, { opcode := instOpExit }]

theorem rawRound_prepares :
    Prepares Unmarshaller.allGroups rawRound singleRound false ⟨true, true⟩ 100
    singleRoundCfg where
  decoded := rfl
  noJump := noJumpIntoPair_of_opcodes (by decide)
  noCalls := by
    intro label call member
    simp [singleRound] at member
  prepared := singleRoundCfg_prepared

/-- What an instruction of that program does to `r1` and to the count of the loop. -/
def rawRoundExec (ins : Instruction) (state : BitVec 64 × Int) : Option (List (BitVec 64 × Int)) :=
  match ins with
  | .bin ⟨op, ⟨1⟩, .imm value, is64, lddw⟩ =>
      some [(Bin.word ⟨op, ⟨1⟩, .imm value, is64, lddw⟩ (fun _ => state.1), state.2)]
  | .assume ⟨⟨.lt, ⟨1⟩, .imm value, true⟩, _⟩ =>
    some (if state.1.toNat < value.v.toNat then [state] else [])
  | .assume ⟨⟨.ge, ⟨1⟩, .imm value, true⟩, _⟩ =>
    some (if value.v.toNat ≤ state.1.toNat then [state] else [])
  | .incrementLoopCounter name =>
    if name = indexLabel 1 then some [(state.1, state.2 + 1)] else none
  | .undefined _ | .jmp _ | .exit _ => some [state]
  | _ => none

/-- The bound on the count. -/
def rawRoundHolds : Assertion -> BitVec 64 × Int -> Bool
  | .boundedLoopCount name, state => decide (name = indexLabel 1 ∧ state.2 ≤ loopLimit)
  | _, _ => true

/-- What is seen of a state. -/
def rawRoundView (state : RegisterState Unit × (Label -> Int)) : BitVec 64 × Int :=
  (state.1.1 ⟨1⟩, state.2 (indexLabel 1))

/-- The other instructions do nothing. -/
def idleMachine : Machine (RegisterState Unit) :=
  arithmeticMachine (fun _ before after => after = before)

theorem rawRoundExec_exact (ins : Instruction) (before after : RegisterState Unit × (Label -> Int))
    (states : List (BitVec 64 × Int)) (known : rawRoundExec ins (rawRoundView before) = some states)
    (stepped : countingStep idleMachine ins before after) : rawRoundView after ∈ states := by
  have seen : forall other : RegisterState Unit × (Label -> Int), other.1 = before.1 ->
      other.2 = before.2 -> rawRoundView other = rawRoundView before := by
    intro other sameState sameCounters
    rw [rawRoundView, rawRoundView, sameState, sameCounters]
  unfold rawRoundExec at known
  split at known
  · rename_i op value is64 lddw
    cases known
    have word := Function.update_self (⟨1⟩ : Reg)
      (Bin.word ⟨op, ⟨1⟩, .imm value, is64, lddw⟩ before.1.1) before.1.1
    rw [List.mem_singleton, rawRoundView, stepped.2, show after.1 = _ from stepped.1]
    exact Prod.ext word rfl
  · rename_i value _
    rcases stepped with ⟨⟨same, holds⟩, counters⟩
    have below : (rawRoundView before).1.toNat < value.v.toNat := holds
    cases known
    rw [if_pos below, seen after same counters]
    exact List.mem_singleton_self _
  · rename_i value _
    rcases stepped with ⟨⟨same, holds⟩, counters⟩
    have above : value.v.toNat ≤ (rawRoundView before).1.toNat := holds
    cases known
    rw [if_pos above, seen after same counters]
    exact List.mem_singleton_self _
  · rename_i name
    split at known
    · rename_i isHead
      cases known
      subst isHead
      have count := Function.update_self (indexLabel 1) (before.2 (indexLabel 1) + 1) before.2
      rw [List.mem_singleton, show after = _ from stepped]
      exact Prod.ext rfl count
    · cases known
  · cases known
    rw [show after = before from stepped]
    exact List.mem_singleton_self _
  · cases known
    rw [seen after stepped.1 stepped.2]
    exact List.mem_singleton_self _
  · cases known
    rw [seen after stepped.1 stepped.2]
    exact List.mem_singleton_self _
  · cases known

/-- That program gets to its loop, and every execution is bounded by the one
counter. -/
theorem verified_raw_halts_rawRound :
    (exists trace current, Execution (DecodedStep Unmarshaller.allGroups idleMachine rawRound)
      (startAt (fun _ => 0, ())) trace
      current ∧ current.place = some (indexLabel 1)) ∧
    forall trace current,
      Execution (DecodedStep Unmarshaller.allGroups idleMachine rawRound)
      (startAt (fun _ => 0, ())) trace current ->
        trace.length < 2 * ((1 * 100001 + 1) * singleRoundCfg.labels.elements.length) := by
  have accepted : (runForwardAnalyzer (singleRoundCfg.analyzed singleRoundCfg_wellFormed)
      (listDomain rawRoundExec rawRoundHolds) ⟨false, true⟩ 100 [(0, 0)]).any
        (verified (singleRoundCfg.analyzed singleRoundCfg_wellFormed)
          (listDomain rawRoundExec rawRoundHolds)) = true := by
    decide
  rcases exists_singleRoundWto with ⟨cfg, wto, built, ordered, flat, single, _⟩
  rcases (Option.any_eq_true _ _).mp accepted with ⟨inv, returned, isVerified⟩
  have bounded : forall name (state : RegisterState Unit × (Label -> Int)),
      rawRoundHolds (.boundedLoopCount name) (rawRoundView state) = true ->
      state.2 name ≤ loopLimit := by
    intro name state holds
    rcases of_decide_eq_true holds with ⟨rfl, small⟩
    exact small
  refine ⟨⟨_, ⟨some (indexLabel 1), [], _⟩,
    .next .here ⟨0, _, _, _, rfl, rfl, rfl, rfl, rfl, rfl⟩, rfl⟩, fun trace current execution => ?_⟩
  have halts := verified_raw_halts rawRound_prepares built ordered flat singleRoundCfg_wellFormed
    (listDomain_sound rawRoundExec_exact) listDomain_soundCheck bounded rfl returned isVerified
    (List.mem_singleton_self _) execution
  rw [single] at halts
  exact halts

end Cfg
end Prevail
