import Prevail.Cfg.Callees
import Prevail.Cfg.Halting
import Prevail.Ebpf.InstructionSafety

namespace Prevail
namespace Cfg

open Crab
open Ebpf (Accepts CheckerContext Describes EbpfDomain InstructionSafe Sized knownFrame)
open Fixpoint (Domain Options Program Reaches SoundDomain runForwardAnalyzer verified)

/-!
# Verified programs are safe

If the analysis of a prepared graph raises no warning, then on every concrete
path every instruction finds what it demands: its accesses to memory stay in
their regions, its operands have the right types, nothing is divided by zero.

The stack is the exception.  No assertion is made about an access through r10 that
stays within a frame, and the check of a stack access has a lower end only where r10 is
known.  So at each label the table itself says how much is shown: where the invariant
before the label knows r10 as a pointer to one place of the stack, all accesses are safe;
elsewhere, as behind an `lddw` into r10, nothing is shown of the accesses through r10.

What is assumed of the abstract domain is that its transformers are sound, and
that its check is the one of `ebpf_domain_check`.
-/

/-- What the check reads of an abstract value, and of the concrete states that the
value stands for. -/
structure Views {dom : NumAbsDomain Variable} {D Warning State : Type} (context : CheckerContext)
    (domain : Domain D Label Instruction Assertion Warning) (gamma : D -> Set State)
    (view : D -> EbpfDomain dom)
    (values : State -> Variable -> Int) (numeric : State -> Int -> Prop) : Prop where
  checks : forall value assertion, domain.check value assertion = [] ->
    Accepts context (view value) assertion
  describes : forall value, ∀ state ∈ gamma value,
    Describes (view value).inv (view value).stack (values state) (numeric state)

variable {prog : InstructionSeq} {isPrivileged : Bool} {prepareOptions : PrepareCfgOptions}
  {fuel : Nat} {result : Cfg}

/-! ## What `prepare_cfg` returns -/

/-- `prepare_cfg` annotates every instruction with its assertions. -/
theorem prepareCfg_assertions (prepared : prepareCfg prog isPrivileged prepareOptions fuel =
    .ok result) :
    ∀ label ∈ result.labels, AssertionContext.getAssertions ⟨isPrivileged, some label⟩
      (result.instructions label).cmd =
      some (result.instructions label).preconditions := by
  rcases bind_eq_ok.mp prepared with ⟨cfg, _, afterFirst⟩
  rcases bind_eq_ok.mp afterFirst with ⟨instrumented, _, annotating⟩
  intro label member
  rw [(setAllAssertions_spec annotating).1] at member
  exact (setAllAssertions_preconditions instrumented.labels.nodup annotating).1 label member

/-- `prepare_cfg` counts some loop heads of the graph of the sequence, none at all
without `check_for_termination`. -/
theorem prepareCfg_counts (prepared : prepareCfg prog isPrivileged prepareOptions fuel =
    .ok result) :
    exists cfg heads, instructionSeqToCfg prog prepareOptions.mustHaveExit = .ok cfg ∧
      Counted isPrivileged heads cfg result := by
  rcases prepareOptions with ⟨checkForTermination, mustHaveExit⟩
  cases checkForTermination with
  | true =>
      rcases prepareCfg_steps prepared with ⟨cfg, wto, _, built, ordered, _, _⟩
      exact ⟨cfg, _, built, prepareCfg_counted prepared built ordered⟩
  | false =>
      rcases bind_eq_ok.mp prepared with ⟨cfg, built, afterFirst⟩
      rcases bind_eq_ok.mp afterFirst with ⟨same, instrumenting, annotating⟩
      cases instrumenting
      have wellFormed := instructionSeqToCfg_wellFormed built
      rcases setAllAssertions_spec annotating with ⟨labels, children, instructions⟩
      have sameChildren : result.childrenOf = cfg.childrenOf := by
        funext label
        rw [childrenOf, childrenOf, children]
      refine ⟨cfg, [], built, ?_⟩
      refine { spliced := ?_, labels := ?_, counter := ?_, instructions := ?_, assertions := ?_ }
      · rw [sameChildren]
        exact
          { closed := fun label _ => wellFormed.target label
            inside := by simp
            fresh := by simp
            injective := by simp
            head := by simp
            behind := by simp
            other := fun _ _ _ => rfl }
      · exact fun label member => Or.inl (labels ▸ member)
      · simp
      · exact fun label _ => instructions label
      · intro label member
        exact (setAllAssertions_preconditions cfg.labels.nodup annotating).1 label (labels ▸ member)

theorem prepareCfg_entry_not_child (indexed : prog.Indexed)
    (prepared : prepareCfg prog isPrivileged prepareOptions fuel = .ok result) (label : Label) :
    Label.entry ∉ result.childrenOf label := by
  rcases prepareCfg_counts prepared with ⟨cfg, heads, built, counted⟩
  exact counted.entry_not_child (instructionSeqToCfg_wellFormed built)
    (prepareCfg_wellFormed prepared)
    (instructionSeqToCfg_entry_not_child indexed built) label

theorem sized_admissible : Admissible Sized where
  undefined _ := trivial
  assume _ := trivial
  clone stackFramePrefix ins sized := by
    cases ins <;> exact sized
  callLocal _ _ _ := trivial

/-- The instructions of a prepared graph access as many bytes as those of the sequence. -/
theorem prepareCfg_sized (sized : ∀ labelled ∈ prog, Sized labelled.2)
    (prepared : prepareCfg prog isPrivileged prepareOptions fuel = .ok result) :
    ∀ label ∈ result.labels, Sized (result.instructions label).cmd := by
  rcases prepareCfg_counts prepared with ⟨cfg, heads, built, counted⟩
  have valid := instructionSeqToCfg_valid sized_admissible sized built
  intro label member
  rcases counted.labels label member with isOld | ⟨head, isHead, rfl⟩
  · rw [counted.instructions label isOld]
    exact valid.allowedAt label
  · rw [counted.counter head isHead]
    trivial

/-! ## Safety -/

/-- An instruction is safe in the states of a pre-invariant that raises no warning
there. -/
theorem Views.safe {resultFormed : result.WellFormed} {dom : NumAbsDomain Variable}
    {D Warning State : Type}
    {context : CheckerContext} {domain : Domain D Label Instruction Assertion Warning}
    {gamma : D -> Set State}
    {view : D -> EbpfDomain dom} {values : State -> Variable -> Int}
    {numeric : State -> Int -> Prop} (views : Views context domain gamma view values numeric)
    {step : Instruction -> State -> State -> Prop} {counterZero : Label -> Set State}
    (sound : SoundDomain domain gamma step counterZero) {inv : Label -> Fixpoint.InvariantPair D}
    (isVerified : verified (result.analyzed resultFormed) domain inv = true) {label : Label}
    {state : State} (isLabel : label ∈ result.labels) (inPre : state ∈ gamma (inv label).pre)
    (annotated : AssertionContext.getAssertions ⟨isPrivileged, some label⟩
      (result.instructions label).cmd =
      some (result.instructions label).preconditions)
    (sized : Sized (result.instructions label).cmd) :
    InstructionSafe context (values state) (knownFrame dom (view (inv label).pre).inv)
    isPrivileged label
      (result.instructions label).cmd := by
  have described := views.describes _ state inPre
  have holds : ∀ assertion ∈ (result.instructions label).preconditions,
      Ebpf.AssertionHolds context (values state)
      (numeric state) (knownFrame dom (view (inv label).pre).inv) assertion := by
    intro assertion member
    have accepted := views.checks _ assertion
      (Fixpoint.checked_of_verified sound isVerified isLabel inPre member)
    exact (accepted.passed described.represents).holds described (Ebpf.knowsFrame_knownFrame dom _)
  exact Ebpf.instruction_safe annotated holds described.typed
    (fun _ isKnown => Ebpf.stackPointer_of_knownFrame described.represents isKnown) sized

/-- Read eight bytes through r1 and return. -/
def readAndExit : InstructionSeq :=
  [({ fromIndex := 0 }, .mem ⟨⟨8, ⟨1⟩, 0⟩, .reg ⟨0⟩, true⟩), ({ fromIndex := 1 }, .exit ⟨[]⟩)]

/-- A number in r0 and pointers to the stack in r1 and r10. -/
def readEntries : List (Variable × Int) :=
  [((regPack ⟨0⟩).type, TypeEncoding.num.value), ((regPack ⟨1⟩).type, TypeEncoding.stack.value),
    ((regPack r10StackPointer).type, TypeEncoding.stack.value), ((regPack ⟨1⟩).stackOffset, 4088),
    ((regPack r10StackPointer).stackOffset, 4096)]

/-- The state in which all of them are known. -/
def readState : EbpfDomain (intervalDomain Variable) :=
  ⟨IntervalDomain.exactly readEntries, ⟨fun _ => false⟩⟩

/-- The abstract values that stand for no state, and for that one. -/
def reachedDomain : Domain Bool Label Instruction Assertion Unit where
  bottom := false
  isBottom value := !value
  le left right := !left || right
  joinAssign left right := left || right
  join left right := left || right
  widen left right _ := left || right
  meet left right := left && right
  narrow left right := left && right
  transform value _ := some value
  assume value _ := some value
  check _ assertion := if Ebpf.ebpfDomainCheck Ebpf.sampleContext readState assertion = some []
    then [] else [()]
  initializeLoopCounter value _ := value

def reachedStates {State : Type} (value : Bool) : Set State := {_state | value = true}

theorem reachedDomain_sound {State : Type} {step : Instruction -> State -> State -> Prop}
    {counterZero : Label -> Set State} :
    SoundDomain reachedDomain reachedStates step counterZero where
  transform := by
    intro before after instr transformed source target member _
    cases transformed
    exact member
  joinAssign left right state member := Bool.or_eq_true_iff.mpr member
  meet left right state member := Bool.and_eq_true_iff.mpr member
  narrow left right state member := Bool.and_eq_true_iff.mpr member
  le := by
    intro left right included state member
    have isLeft : left = true := member
    subst isLeft
    exact included
  isBottom := by
    intro value empty
    ext state
    simpa [reachedStates, reachedDomain] using empty
  initializeLoopCounter value label state member := member.1

theorem readEntries_typed (reg : Reg) :
    exists type : TypeEncoding, IntervalDomain.tableValues readEntries (regPack reg).type =
      type.value := by
  by_cases known : reg = ⟨0⟩ ∨ reg = ⟨1⟩ ∨ reg = r10StackPointer
  · rcases known with rfl | rfl | rfl
    · exact ⟨.num, by decide⟩
    · exact ⟨.stack, by decide⟩
    · exact ⟨.stack, by decide⟩
  · simp only [not_or] at known
    refine ⟨.shared, ?_⟩
    have offsets : forall other : Reg,
        ((regPack reg).type == (regPack other).stackOffset) = false :=
      fun other => beq_false_of_ne (by intro same; cases same)
    have types : forall other : Reg, reg ≠ other ->
        ((regPack reg).type == (regPack other).type) = false := by
      intro other different
      apply beq_false_of_ne
      intro same
      cases same
      exact different rfl
    unfold IntervalDomain.tableValues readEntries
    simp only [List.lookup_cons, List.lookup_nil, offsets, types _ known.1, types _ known.2.1,
      types _ known.2.2]
    rfl

theorem reachedDomain_views {State : Type} :
    @Views _ _ _ State Ebpf.sampleContext reachedDomain reachedStates
    (fun _ => readState) (fun _ => IntervalDomain.tableValues readEntries) (fun _ _ => True) where
  checks := by
    intro value assertion none
    by_contra refused
    unfold Accepts at refused
    simp [reachedDomain, refused] at none
  describes value state member :=
    { represents := IntervalDomain.represents_exactly _
      typed := readEntries_typed
      bits := fun _ _ _ => trivial
      sizes := fun _ _ _ _ _ => trivial }

theorem knownFrame_readState :
    knownFrame (intervalDomain Variable) readState.inv = some 4096 := by decide

/-- What `prepare_cfg` returns for that program. -/
def readAndExitCfg : Cfg :=
  match prepareCfg readAndExit false ⟨false, true⟩ 100 with
  | .ok result => result
  | .error _ => initial

theorem readAndExitCfg_prepared :
    prepareCfg readAndExit false ⟨false, true⟩ 100 = .ok readAndExitCfg := by
  have returns : returnsChecked (fun _ => true) (prepareCfg readAndExit false ⟨false, true⟩ 100) =
      true := by decide
  rcases exists_of_returnsChecked returns with ⟨result, prepared, _⟩
  rw [readAndExitCfg, prepared]

theorem readAndExitCfg_wellFormed : readAndExitCfg.WellFormed :=
  prepareCfg_wellFormed readAndExitCfg_prepared

theorem readAndExit_reaches :
    Reaches (readAndExitCfg.analyzed readAndExitCfg_wellFormed) (fun _ _ _ => True) ()
    { fromIndex := 0 } () := by
  have child : Label.mk [] 0 (-1) [] ∈ readAndExitCfg.childrenOf Label.entry := by decide
  exact .next .entry trivial child

end Cfg
end Prevail
