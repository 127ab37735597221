import Prevail.Wto.Components
import Prevail.Fixpoint.Analyzer

namespace Prevail
namespace Fixpoint

/-!
# Soundness of the fixpoint iterator

The iterator visits a list of components and replaces the invariants of its
members.  The states that can arrive from outside the list are those in the
post-invariants of the other labels, which the visit does not change.  A visit
covers its members when every state that flows from these arrivals through the
members is in the final invariants.

Covering composes along the list, because edges lead forward.  For a cycle, the
states that flow to the head are in the invariant with which the increasing
iteration ends, since a smaller or equal invariant came back from the body; the
decreasing iteration keeps them, because both of its operators over-approximate
an intersection.  No law is needed for the operators that only accelerate the
increasing iteration.
-/

variable {Label Instr Assertion D Warning State : Type}

/-- The laws under which the operations of a domain are sound for a
concretisation.  Nothing is assumed of `join` and `widen`. -/
structure SoundDomain (domain : Domain D Label Instr Assertion Warning) (gamma : D -> Set State)
    (step : Instr -> State -> State -> Prop) (counterZero : Label -> Set State) : Prop where
  transform : forall {before after : D} {instr : Instr},
    domain.transform before instr = some after -> forall {source target : State},
    source ∈ gamma before -> step instr source target -> target ∈ gamma after
  joinAssign : forall left right : D,
    gamma left ∪ gamma right ⊆ gamma (domain.joinAssign left right)
  meet : forall left right : D, gamma left ∩ gamma right ⊆ gamma (domain.meet left right)
  narrow : forall left right : D, gamma left ∩ gamma right ⊆ gamma (domain.narrow left right)
  le : forall {left right : D}, domain.le left right = true -> gamma left ⊆ gamma right
  isBottom : forall {value : D}, domain.isBottom value = true -> gamma value = ∅
  initializeLoopCounter : forall (value : D) (label : Label),
    gamma value ∩ counterZero label ⊆ gamma (domain.initializeLoopCounter value label)

/-- The check of an assertion is sound when no warning means that the assertion
holds in every represented state. -/
def SoundCheck (domain : Domain D Label Instr Assertion Warning) (gamma : D -> Set State)
    (holds : Assertion -> State -> Prop) : Prop :=
  forall (value : D) (assertion : Assertion), domain.check value assertion = [] ->
    forall state, state ∈ gamma value -> holds assertion state

/-- The labels and states on the concrete paths from the entry, each label with
the state in which it is reached. -/
inductive Reaches (program : Program Label Instr Assertion) (step : Instr -> State -> State -> Prop)
    (initial : State) : Label -> State -> Prop where
  | entry : Reaches program step initial program.entry initial
  | next {label successor : Label} {before after : State}
      (reached : Reaches program step initial label before)
      (stepped : step (program.instructionAt label) before after)
      (child : successor ∈ program.children label) : Reaches program step initial successor after

section Visit

variable [DecidableEq Label] (program : Program Label Instr Assertion)
  (gamma : D -> Set State) (step : Instr -> State -> State -> Prop)

/-- The flow of states through a set of labels: it starts with the states that
arrive from outside and follows the steps between members. -/
inductive Flow (members : Set Label) (arrivals : Label -> Set State) : Label -> State -> Prop where
  | arrive {label : Label} {state : State} (member : label ∈ members)
    (arrives : state ∈ arrivals label) :
      Flow members arrivals label state
  | next {label successor : Label} {before after : State}
    (reached : Flow members arrivals label before)
      (stepped : step (program.instructionAt label) before after)
      (child : successor ∈ program.children label)
      (member : successor ∈ members) : Flow members arrivals successor after

/-- The states that the table lets arrive at a label from outside a set. -/
def arrivals (members : Set Label) (inv : Label -> InvariantPair D) (label : Label) : Set State :=
  {state | exists prev, prev ∉ members ∧ label ∈ program.children prev ∧
    state ∈ gamma (inv prev).post}

/-- A state that reaches a label is in its invariant, and what follows it is in
the post-invariant. -/
def Contained (inv : Label -> InvariantPair D) (label : Label) (state : State) : Prop :=
  state ∈ gamma (inv label).pre ∧
    forall after, step (program.instructionAt label) state after -> after ∈ gamma (inv label).post

/-- A visit covers a set of labels: it changes nothing else, and the table
contains the flow through the set. -/
structure Covers (members : Set Label) (before after : IteratorState Label D) : Prop where
  skip : after.skip = false
  frame : forall label, label ∉ members -> after.inv label = before.inv label
  flow : forall label state,
    Flow program step members (arrivals program gamma members before.inv) label state ->
      Contained program gamma step after.inv label state

variable {program gamma step}

omit [DecidableEq Label] in
theorem Flow.member {members : Set Label} {starts : Label -> Set State} {label : Label}
    {state : State} (flow : Flow program step members starts label state) : label ∈ members := by
  cases flow with
  | arrive member _ => exact member
  | next _ _ _ member => exact member

omit [DecidableEq Label] in
/-- The concrete paths through a label outside the set enter it as an arrival
of the table in which that label is sound. -/
theorem mem_arrivals {members : Set Label} {inv : Label -> InvariantPair D}
    {label successor : Label}
    {before after : State} (outside : label ∉ members)
    (contained : Contained program gamma step inv label before)
    (stepped : step (program.instructionAt label) before after)
    (child : successor ∈ program.children label) :
    after ∈ arrivals program gamma members inv successor :=
  ⟨label, outside, child, contained.2 after stepped⟩

omit [DecidableEq Label] in
/-- Two visits in sequence cover the union, if no edge leads back into the
first set. -/
theorem Covers.append {first second : Set Label} {before middle after : IteratorState Label D}
    (firstCovers : Covers program gamma step first before middle)
    (secondCovers : Covers program gamma step second middle after)
    (disjoint : forall label, label ∈ first -> label ∉ second)
    (forward : forall source target, source ∈ second -> target ∈ program.children source ->
      target ∉ first) :
    Covers program gamma step (first ∪ second) before after := by
  have flowFirst : forall label state,
      Flow program step (first ∪ second) (arrivals program gamma (first ∪ second) before.inv)
      label state ->
        label ∈ first -> Contained program gamma step middle.inv label state := by
    intro label state flow member
    apply firstCovers.flow
    induction flow with
    | arrive _ arrives =>
        rcases arrives with ⟨prev, outside, child, inPost⟩
        exact .arrive member ⟨prev, fun inFirst => outside (Or.inl inFirst), child, inPost⟩
    | @next label successor _ _ reached stepped child _ inductionHypothesis =>
        rcases reached.member with inFirst | inSecond
        · exact .next (inductionHypothesis inFirst) stepped child member
        · exact absurd member (forward label successor inSecond child)
  have flowSecond : forall label state,
      Flow program step (first ∪ second) (arrivals program gamma (first ∪ second) before.inv)
      label state ->
        label ∈ second -> Flow program step second (arrivals program gamma second middle.inv)
        label state := by
    intro label state flow member
    induction flow with
    | arrive _ arrives =>
        rcases arrives with ⟨prev, outside, child, inPost⟩
        rw [Set.mem_union, not_or] at outside
        exact .arrive member ⟨prev, outside.2, child, firstCovers.frame prev outside.1 ▸ inPost⟩
    | @next label successor previous _ reached stepped child _ inductionHypothesis =>
        rcases reached.member with inFirst | inSecond
        · exact .arrive member
            (mem_arrivals (disjoint label inFirst) (flowFirst label previous reached inFirst)
              stepped child)
        · exact .next (inductionHypothesis inSecond) stepped child member
  refine { skip := secondCovers.skip, frame := ?_, flow := ?_ }
  · intro label outside
    rw [Set.mem_union, not_or] at outside
    rw [secondCovers.frame label outside.2, firstCovers.frame label outside.1]
  · intro label state flow
    by_cases inSecond : label ∈ second
    · exact secondCovers.flow label state (flowSecond label state flow inSecond)
    · have inFirst := flow.member.resolve_right inSecond
      rw [Contained, secondCovers.frame label inSecond]
      exact flowFirst label state flow inFirst

omit [DecidableEq Label] in
/-- The concrete paths flow from the entry through the remaining components. -/
theorem reaches_flow {rest : Partition Label} {inv : Label -> InvariantPair D} {initial : State}
    (ordered : (Partition.vertex program.entry rest).Ordered (Wto.Edge program.children) ∅)
    (distinct : (Partition.vertex program.entry rest).members.Nodup)
    (entryContained : Contained program gamma step inv program.entry initial) {label : Label}
    {state : State} (reached : Reaches program step initial label state) :
    (label = program.entry ∧ state = initial) ∨
      Flow program step {label | label ∈ rest.members}
        (arrivals program gamma {label | label ∈ rest.members} inv) label state := by
  have entryOutside : program.entry ∉ rest.members := (List.nodup_cons.mp distinct).1
  induction reached with
  | entry => exact Or.inl ⟨rfl, rfl⟩
  | @next label successor before after _ stepped child inductionHypothesis =>
      right
      rcases inductionHypothesis with ⟨rfl, rfl⟩ | flow
      · have inRest := (ordered.1 successor child).resolve_right (Set.notMem_empty _)
        exact .arrive inRest (mem_arrivals entryOutside entryContained stepped child)
      · have inRest := (ordered.2.target_mem flow.member child).resolve_right (Set.notMem_empty _)
        exact .next flow stepped child inRest

omit [DecidableEq Label] in
theorem Reaches.mem_labels {initial : State} {label : Label} {state : State}
    (reached : Reaches program step initial label state) : label ∈ program.labels := by
  cases reached with
  | entry => exact program.entry_mem
  | next _ _ child => exact program.child_mem _ _ child

/-! ## Table updates -/

theorem setPre_inv_of_ne {label other : Label} (value : D) (state : IteratorState Label D)
    (different : other ≠ label) : (setPre label value state).inv other = state.inv other := by
  simp [setPre, different]

theorem setPre_pre (label : Label) (value : D) (state : IteratorState Label D) :
    ((setPre label value state).inv label).pre = value := by
  simp [setPre]

theorem setPost_inv_of_ne {label other : Label} (value : D) (state : IteratorState Label D)
    (different : other ≠ label) : (setPost label value state).inv other = state.inv other := by
  simp [setPost, different]

theorem setPost_pre (label other : Label) (value : D) (state : IteratorState Label D) :
    ((setPost label value state).inv other).pre = (state.inv other).pre := by
  by_cases same : other = label
  · subst same
    simp [setPost]
  · rw [setPost_inv_of_ne value state same]

theorem setPost_post (label : Label) (value : D) (state : IteratorState Label D) :
    ((setPost label value state).inv label).post = value := by
  simp [setPost]

/-! ## The steps of the iterator -/

variable {domain : Domain D Label Instr Assertion Warning} {counterZero : Label -> Set State}
  {options : Options}

/-- What `transform_to_post` does when assertions are not assumed. -/
theorem transformToPost_spec (assumeOff : options.assumeAssertions = false)
    {label : Label} {pre : D} {state next : IteratorState Label D}
    (run : transformToPost program domain options label pre state = some next) :
    exists post, domain.transform pre (program.instructionAt label) = some post ∧
      next = setPost label post state := by
  simp only [transformToPost, assumeOff, Bool.false_eq_true, if_false, Option.bind_eq_bind,
    Option.bind_some] at run
  rcases Option.bind_eq_some_iff.mp run with ⟨post, transformed, equal⟩
  cases equal
  exact ⟨post, transformed, rfl⟩

variable (sound : SoundDomain domain gamma step counterZero)

include sound

omit [DecidableEq Label] in
/-- The join over a list of labels contains each of the joined invariants. -/
theorem mem_foldl_joinAssign (inv : Label -> InvariantPair D) (labels : List Label) (start : D)
    {state : State}
    (found : state ∈ gamma start ∨ exists label, label ∈ labels ∧ state ∈ gamma (inv label).post) :
    state ∈ gamma (labels.foldl (fun res prev => domain.joinAssign res (inv prev).post) start) := by
  induction labels generalizing start with
  | nil =>
      rcases found with inStart | ⟨label, member, _⟩
      · exact inStart
      · cases member
  | cons label rest inductionHypothesis =>
      rw [List.foldl_cons]
      apply inductionHypothesis
      rcases found with inStart | ⟨other, member, inPost⟩
      · exact Or.inl (sound.joinAssign _ _ (Or.inl inStart))
      · rcases List.mem_cons.mp member with same | later
        · exact Or.inl (sound.joinAssign _ _ (Or.inr (same ▸ inPost)))
        · exact Or.inr ⟨other, later, inPost⟩

/-- A state in the post-invariant of a predecessor is in the join of all
predecessors. -/
theorem mem_joinAllPrevs {label prev : Label} {state : State} {iterator : IteratorState Label D}
    (notEntry : label ≠ program.entry) (child : label ∈ program.children prev)
    (inPost : state ∈ gamma (iterator.inv prev).post) :
    state ∈ gamma (joinAllPrevs program domain label iterator) := by
  rw [joinAllPrevs, if_neg notEntry]
  exact mem_foldl_joinAssign sound
    _ _ _ (Or.inr ⟨prev, (program.converse prev label).mp child, inPost⟩)

/-- The visit of a vertex without a self loop, other than the entry. -/
theorem visitLabel_covers (assumeOff : options.assumeAssertions = false) {label : Label}
    {before after : IteratorState Label D} (started : before.skip = false)
    (notEntry : label ≠ program.entry) (noSelf : label ∉ program.children label)
    (run : visitLabel program domain options label before = some after) :
    Covers program gamma step {label} before after := by
  simp only [visitLabel, started, Bool.false_and, Bool.false_eq_true, if_false] at run
  rcases transformToPost_spec assumeOff run with ⟨post, transformed, rfl⟩
  refine { skip := rfl, frame := ?_, flow := ?_ }
  · intro other different
    rw [setPost_inv_of_ne _ _ different, setPre_inv_of_ne _ _ different]
  · intro other state flow
    have inPre : other = label ∧
        state ∈ gamma (joinAllPrevs program domain label { before with skip := false }) := by
      cases flow with
      | arrive member arrives =>
          have isLabel : other = label := member
          subst isLabel
          rcases arrives with ⟨prev, _, child, inPost⟩
          exact ⟨rfl, mem_joinAllPrevs sound notEntry child inPost⟩
      | @next source _ _ _ reached _ child member =>
          have isLabel : other = label := member
          have sourceLabel : source = label := reached.member
          subst isLabel
          subst sourceLabel
          exact absurd child noSelf
    rcases inPre with ⟨rfl, inJoin⟩
    constructor
    · rw [setPost_pre, setPre_pre]
      exact inJoin
    · intro next stepped
      rw [setPost_post]
      exact sound.transform transformed inJoin stepped

/-! ## Cycles -/

section Cycle

variable {head : Label} {body : Set Label} {visitBody : IteratorState Label D ->
  Option (IteratorState Label D)}
  (assumeOff : options.assumeAssertions = false) (notEntry : head ≠ program.entry)
  (headOutside : head ∉ body)
  (visitBody_covers : forall before after, before.skip = false -> visitBody before = some after ->
    Covers program gamma step body before after)

include assumeOff notEntry headOutside visitBody_covers

omit notEntry in
/-- One round over a cycle: the head is transformed from `invariant`, and the
body is visited.  The labels outside the cycle keep their invariants, and a
flow through the body that starts with the states of `invariant` is
contained. -/
theorem round_spec {invariant : D} {start before middle after : IteratorState Label D}
    (started : before.skip = false)
    (frame : forall label, label ≠ head -> label ∉ body -> before.inv label = start.inv label)
    (transformed : transformToPost program domain options head invariant before = some middle)
    (visited : visitBody middle = some after) :
    after.skip = false ∧
    (forall label, label ≠ head -> label ∉ body -> after.inv label = start.inv label) ∧
    (after.inv head).pre = (before.inv head).pre ∧
    (forall source target, source ∈ gamma invariant ->
      step (program.instructionAt head) source target -> target ∈ gamma (middle.inv head).post ∧
      target ∈ gamma (after.inv head).post) ∧
    Covers program gamma step body middle after := by
  rcases transformToPost_spec assumeOff transformed with ⟨post, postEqual, rfl⟩
  have startedPost : (setPost head post before).skip = false := started
  have covers := visitBody_covers _ _ startedPost visited
  refine ⟨covers.skip, ?_, ?_, ?_, covers⟩
  · intro label different outside
    rw [covers.frame label outside, setPost_inv_of_ne _ _ different, frame label different outside]
  · rw [covers.frame head headOutside, setPost_pre]
  · intro source target inInvariant stepped
    rw [covers.frame head headOutside, setPost_post]
    exact ⟨sound.transform postEqual inInvariant stepped,
      sound.transform postEqual inInvariant stepped⟩

/-- A state that flows through the cycle is in the join over the predecessors
of the head when it reaches the head, and flows through the body otherwise,
provided the states at the head so far are in `invariant`. -/
theorem round_flow {invariant newPre : D} {start before middle after : IteratorState Label D}
    (started : before.skip = false)
    (frame : forall label, label ≠ head -> label ∉ body -> before.inv label = start.inv label)
    (transformed : transformToPost program domain options head invariant before = some middle)
    (visited : visitBody middle = some after)
    (newPreEqual : newPre = joinAllPrevs program domain head after)
    (atHead : forall state, Flow program step (insert head body)
      (arrivals program gamma (insert head body) start.inv) head state ->
        state ∈ gamma newPre -> state ∈ gamma invariant) :
    forall label state,
      Flow program step (insert head body) (arrivals program gamma (insert head body) start.inv)
      label state ->
        (label = head -> state ∈ gamma newPre) ∧
        (label ∈ body -> Flow program step body (arrivals program gamma body middle.inv)
        label state) := by
  rcases round_spec sound assumeOff headOutside visitBody_covers started frame
    transformed visited with
    ⟨_, afterFrame, _, headPost, covers⟩
  have middleFrame : forall label, label ≠ head -> label ∉ body ->
      middle.inv label = start.inv label := by
    intro label different outside
    rw [← covers.frame label outside, afterFrame label different outside]
  intro label state flow
  induction flow with
  | @arrive label state member arrives =>
      rcases arrives with ⟨prev, outside, child, inPost⟩
      rw [Set.mem_insert_iff, not_or] at outside
      constructor
      · rintro rfl
        rw [newPreEqual]
        exact mem_joinAllPrevs sound notEntry child (afterFrame prev outside.1 outside.2 ▸ inPost)
      · intro inBody
        exact .arrive inBody ⟨prev, outside.2, child, middleFrame prev outside.1 outside.2 ▸ inPost⟩
  | @next label successor source target reached stepped child member inductionHypothesis =>
      by_cases isHead : label = head
      · subst isHead
        have inPost := headPost source target
          (atHead source reached (inductionHypothesis.1 rfl)) stepped
        constructor
        · rintro rfl
          rw [newPreEqual]
          exact mem_joinAllPrevs sound notEntry child inPost.2
        · intro inBody
          exact .arrive inBody ⟨label, headOutside, child, inPost.1⟩
      · have inBody : label ∈ body := reached.member.resolve_left isHead
        have bodyFlow := inductionHypothesis.2 inBody
        constructor
        · rintro rfl
          rw [newPreEqual]
          exact mem_joinAllPrevs sound notEntry child
            ((covers.flow label source bodyFlow).2 target stepped)
        · intro successorInBody
          exact .next bodyFlow stepped child successorInBody

/-- The increasing iteration ends with an invariant that contains every state
that flows to the head. -/
theorem increase_spec (start : IteratorState Label D) (fuel : Nat) :
    forall (iteration : UInt32) (invariant : D) (before : IteratorState Label D) (result : D)
      (after : IteratorState Label D), before.skip = false ->
      (forall label, label ≠ head -> label ∉ body -> before.inv label = start.inv label) ->
      increase program domain options head visitBody fuel iteration invariant before = some
      (result, after) ->
        after.skip = false ∧
        (forall label, label ≠ head -> label ∉ body -> after.inv label = start.inv label) ∧
        (after.inv head).pre = result ∧
        (forall state, Flow program step (insert head body)
          (arrivals program gamma (insert head body) start.inv) head state ->
          state ∈ gamma result) := by
  induction fuel with
  | zero =>
      intro iteration invariant before result after _ _ run
      cases run
  | succ fuel inductionHypothesis =>
      intro iteration invariant before result after started frame run
      simp only [increase, Option.bind_eq_bind] at run
      rcases Option.bind_eq_some_iff.mp run with ⟨middle, transformed, run⟩
      rcases Option.bind_eq_some_iff.mp run with ⟨visited, bodyRun, run⟩
      have startedSet : (setPre head invariant before).skip = false := started
      have frameSet : forall label, label ≠ head -> label ∉ body ->
          (setPre head invariant before).inv label = start.inv label := by
        intro label different outside
        rw [setPre_inv_of_ne _ _ different, frame label different outside]
      rcases round_spec sound assumeOff headOutside visitBody_covers startedSet frameSet
        transformed bodyRun
        with ⟨skip, visitedFrame, _, _, _⟩
      by_cases stable : domain.le (joinAllPrevs program domain head visited) invariant = true
      · rw [if_pos stable] at run
        cases run
        refine ⟨skip, ?_, setPre_pre _ _ _, ?_⟩
        · intro label different outside
          rw [setPre_inv_of_ne _ _ different, visitedFrame label different outside]
        · intro state flow
          exact (round_flow sound assumeOff notEntry headOutside visitBody_covers startedSet
            frameSet transformed
            bodyRun rfl (fun _ _ inNew => sound.le stable inNew) head state flow).1 rfl
      · rw [if_neg stable] at run
        exact inductionHypothesis _ _ visited result after skip visitedFrame run

/-- The decreasing iteration keeps an invariant that contains every state that
flows to the head, and ends with a table that contains the whole flow. -/
theorem decrease_spec (start : IteratorState Label D) (fuel : Nat) :
    forall (iteration : UInt32) (invariant : D) (before after : IteratorState Label D),
      before.skip = false -> (forall label, label ≠ head -> label ∉ body ->
      before.inv label = start.inv label) -> (before.inv head).pre = invariant ->
      (forall state, Flow program step (insert head body)
        (arrivals program gamma (insert head body) start.inv) head state ->
        state ∈ gamma invariant) ->
      decrease program domain options head visitBody fuel iteration invariant before = some after ->
        Covers program gamma step (insert head body) start after := by
  induction fuel with
  | zero =>
      intro iteration invariant before after _ _ _ _ run
      cases run
  | succ fuel inductionHypothesis =>
      intro iteration invariant before after started frame headPre atHead run
      simp only [decrease, Option.bind_eq_bind] at run
      rcases Option.bind_eq_some_iff.mp run with ⟨middle, transformed, run⟩
      rcases Option.bind_eq_some_iff.mp run with ⟨visited, bodyRun, run⟩
      rcases round_spec sound assumeOff headOutside visitBody_covers started frame
        transformed bodyRun
        with ⟨skip, visitedFrame, visitedPre, headPost, covers⟩
      have flows := round_flow sound assumeOff notEntry headOutside visitBody_covers started
        frame transformed
        bodyRun rfl (fun state flow _ => atHead state flow)
      have finished : Covers program gamma step (insert head body) start visited := by
        refine { skip := skip, frame := ?_, flow := ?_ }
        · intro label outside
          rw [Set.mem_insert_iff, not_or] at outside
          exact visitedFrame label outside.1 outside.2
        · intro label state flow
          by_cases isHead : label = head
          · subst isHead
            have inInvariant := atHead state flow
            refine ⟨?_, fun target stepped => (headPost state target inInvariant stepped).2⟩
            rw [visitedPre, headPre]
            exact inInvariant
          · exact covers.flow label state
              ((flows label state flow).2 (flow.member.resolve_left isHead))
      by_cases stable : domain.le invariant (joinAllPrevs program domain head visited) = true
      · rw [if_pos stable] at run
        cases run
        exact finished
      · rw [if_neg stable] at run
        by_cases exhausted : descendingIterations < iteration
        · rw [if_pos exhausted] at run
          cases run
          exact finished
        · rw [if_neg exhausted] at run
          refine inductionHypothesis _ _ (setPre head _ visited) after skip ?_
            (setPre_pre _ _ _) ?_ run
          · intro label different outside
            rw [setPre_inv_of_ne _ _ different, visitedFrame label different outside]
          · intro state flow
            have inBoth : state ∈ gamma invariant ∩ gamma
                (joinAllPrevs program domain head visited) :=
              ⟨atHead state flow, (flows head state flow).1 rfl⟩
            unfold refine
            by_cases first : iteration = 1
            · rw [if_pos first]
              exact sound.meet _ _ inBoth
            · rw [if_neg first]
              exact sound.narrow _ _ inBoth

theorem visitCycle_covers {wto : Wto Label} {fuel : Nat} {components : Partition Label}
    {before after : IteratorState Label D} (started : before.skip = false)
    (run : visitCycle program domain options wto fuel head components visitBody before =
      some after) :
    Covers program gamma step (insert head body) before after := by
  simp only [visitCycle, started, Bool.false_and, Bool.false_eq_true, if_false,
    Option.bind_eq_bind] at run
  rcases Option.bind_eq_some_iff.mp run with ⟨invariant, _, run⟩
  rcases Option.bind_eq_some_iff.mp run with ⟨⟨result, middle⟩, increased, run⟩
  have frameSkip : forall label, label ≠ head -> label ∉ body ->
      ({ before with skip := false } : IteratorState Label D).inv label = before.inv label :=
    fun _ _ _ => rfl
  rcases increase_spec sound assumeOff notEntry headOutside visitBody_covers before fuel
    _ _ _ _ _ rfl
    frameSkip increased with ⟨skip, frame, headPre, atHead⟩
  exact decrease_spec sound assumeOff notEntry headOutside visitBody_covers before fuel
    _ _ _ _ skip frame
    headPre atHead run

end Cycle

/-! ## Lists of components -/

/-- Every visit of the partition covers its members, provided that the entry is
not among them and that the cycle head to pass over is not. -/
def VisitCovers (program : Program Label Instr Assertion)
    (domain : Domain D Label Instr Assertion Warning)
    (options : Options) (gamma : D -> Set State) (step : Instr -> State -> State -> Prop)
    (partition : Partition Label) : Prop :=
  forall (wto : Wto Label) (fuel : Nat) (cycleHead : Option Label) (outer : Set Label)
    (before after : IteratorState Label D), before.skip = false ->
    partition.Ordered (Wto.Edge program.children) outer -> partition.members.Nodup ->
    (forall label, label ∈ partition.members -> label ∉ outer) ->
    (forall head, cycleHead = some head -> head ∉ partition.members) ->
    program.entry ∉ partition.members ->
    visitComponents program domain options wto fuel cycleHead partition before = some after ->
      Covers program gamma step {label | label ∈ partition.members} before after

omit sound in
theorem visitCovers_nil : VisitCovers program domain options gamma step .nil := by
  intro wto fuel cycleHead outer before after started _ _ _ _ _ run
  cases run
  refine { skip := started, frame := fun _ _ => rfl, flow := ?_ }
  intro label state flow
  exact absurd flow.member List.not_mem_nil

theorem visitCovers_vertex (assumeOff : options.assumeAssertions = false) {label : Label}
    {rest : Partition Label} (restCovers : VisitCovers program domain options gamma step rest) :
    VisitCovers program domain options gamma step (.vertex label rest) := by
  intro wto fuel cycleHead outer before after started ordered distinct apart notHead notEntry run
  rcases List.nodup_cons.mp distinct with ⟨labelOutside, restDistinct⟩
  have different : cycleHead ≠ some label := fun same => notHead label same List.mem_cons_self
  simp only [visitComponents, if_neg different, Option.bind_eq_bind] at run
  rcases Option.bind_eq_some_iff.mp run with ⟨middle, visited, run⟩
  have labelTarget : forall source, source ∈ rest.members -> label ∉ program.children source := by
    intro source member child
    rcases ordered.2.target_mem member child with inRest | inOuter
    · exact labelOutside inRest
    · exact apart label List.mem_cons_self inOuter
  have noSelf : label ∉ program.children label := by
    intro child
    rcases ordered.1 label child with inRest | inOuter
    · exact labelOutside inRest
    · exact apart label List.mem_cons_self inOuter
  have labelNotEntry : label ≠ program.entry := fun same => notEntry (same ▸ List.mem_cons_self)
  have first := visitLabel_covers sound assumeOff started labelNotEntry noSelf visited
  have second := restCovers wto fuel cycleHead outer middle after first.skip ordered.2 restDistinct
    (fun other member => apart other (List.mem_cons_of_mem _ member))
    (fun head same member => notHead head same (List.mem_cons_of_mem _ member))
    (fun member => notEntry (List.mem_cons_of_mem _ member)) run
  have union : {other | other ∈ (Partition.vertex label rest).members} =
      {label} ∪ {other | other ∈ rest.members} := by
    ext other
    exact List.mem_cons
  rw [union]
  apply first.append second
  · intro other isLabel
    exact (show other = label from isLabel) ▸ labelOutside
  · intro source target member child isLabel
    exact labelTarget source member ((show target = label from isLabel) ▸ child)

theorem visitCovers_cycle (assumeOff : options.assumeAssertions = false) {head : Label}
    {body rest : Partition Label} (bodyCovers : VisitCovers program domain options gamma step body)
    (restCovers : VisitCovers program domain options gamma step rest) :
    VisitCovers program domain options gamma step (.cycle (.vertex head body) rest) := by
  intro wto fuel cycleHead outer before after started ordered distinct apart notHead notEntry run
  rcases ordered with ⟨⟨first, isFirst, inner⟩, later⟩
  cases isFirst
  rcases List.nodup_append.mp distinct with ⟨innerDistinct, restDistinct, disjoint⟩
  rcases List.nodup_cons.mp innerDistinct with ⟨headOutside, bodyDistinct⟩
  have inMembers : forall label, label ∈ (Partition.vertex head body).members ->
      label ∈ (Partition.cycle (.vertex head body) rest).members :=
    fun label member => List.mem_append_left _ member
  have inRest : forall label, label ∈ rest.members ->
      label ∈ (Partition.cycle (.vertex head body) rest).members :=
    fun label member => List.mem_append_right _ member
  have run : ((visitCycle program domain options wto fuel head (.vertex head body)
      (visitComponents program domain options wto fuel (some head) (.vertex head body)) before).bind
        (visitComponents program domain options wto fuel cycleHead rest)) = some after := run
  rcases Option.bind_eq_some_iff.mp run with ⟨middle, cycleRun, run⟩
  have bodyVisit : forall start finish : IteratorState Label D, start.skip = false ->
      visitComponents program domain options wto fuel (some head) (.vertex head body) start =
      some finish -> Covers program gamma step {label | label ∈ body.members} start finish := by
    intro start finish startSkip visited
    simp only [visitComponents, if_pos, Option.bind_eq_bind, Option.bind_some] at visited
    refine bodyCovers wto fuel (some head) _ start finish startSkip inner.2 bodyDistinct ?_
      ?_ ?_ visited
    · rintro label member ((inOuter | isRest) | isHead)
      · exact apart label (inMembers label (List.mem_cons_of_mem _ member)) inOuter
      · exact disjoint label (List.mem_cons_of_mem _ member) label isRest rfl
      · exact headOutside ((show label = head from isHead) ▸ member)
    · intro other same member
      cases same
      exact headOutside member
    · exact fun member => notEntry (inMembers _ (List.mem_cons_of_mem _ member))
  have headNotEntry : head ≠ program.entry :=
    fun same => notEntry (inMembers _ (same ▸ List.mem_cons_self))
  have firstCovers := visitCycle_covers sound assumeOff headNotEntry
    (show head ∉ {label | label ∈ body.members} from headOutside) bodyVisit started cycleRun
  have secondCovers := restCovers wto fuel cycleHead outer middle after firstCovers.skip
    later restDistinct
    (fun label member => apart label (inRest label member))
    (fun other same member => notHead other same (inRest other member))
    (fun member => notEntry (inRest _ member)) run
  have union : {label | label ∈ (Partition.cycle (.vertex head body) rest).members} =
      insert head {label | label ∈ body.members} ∪ {label | label ∈ rest.members} := by
    ext label
    simp [or_assoc]
  rw [union]
  have inCycle : forall label, label ∈ insert head {label | label ∈ body.members} ->
      label ∈ (Partition.vertex head body).members := by
    intro label member
    exact List.mem_cons.mpr member
  apply firstCovers.append secondCovers
  · intro label member isRest
    exact disjoint label (inCycle label member) label isRest rfl
  · intro source target member child isInner
    have targetInner := inCycle target isInner
    rcases later.target_mem member child with targetRest | inOuter
    · exact disjoint target targetInner target targetRest rfl
    · exact apart target (inMembers target targetInner) inOuter

/-- Every ordered list of components is covered by its visit.  The induction
also carries the statement for the list behind a leading vertex, which is the
body of a cycle. -/
theorem visitCovers (assumeOff : options.assumeAssertions = false) (partition : Partition Label) :
    VisitCovers program domain options gamma step partition ∧
      forall label rest, partition = .vertex label rest ->
        VisitCovers program domain options gamma step rest := by
  induction partition with
  | nil =>
      refine ⟨visitCovers_nil, ?_⟩
      intro label rest same
      cases same
  | vertex label rest inductionHypothesis =>
      refine ⟨visitCovers_vertex sound assumeOff inductionHypothesis.1, ?_⟩
      intro other tail same
      cases same
      exact inductionHypothesis.1
  | cycle components rest componentsHypothesis restHypothesis =>
      refine ⟨?_, by intro label tail same; cases same⟩
      cases components with
      | vertex head body =>
          exact visitCovers_cycle sound assumeOff (componentsHypothesis.2 head body rfl)
            restHypothesis.1
      | nil =>
          intro wto fuel cycleHead outer before after _ _ _ _ _ _ run
          cases run
      | cycle first others =>
          intro wto fuel cycleHead outer before after _ _ _ _ _ _ run
          cases run

/-! ## The whole run -/

omit [DecidableEq Label] sound in
theorem exists_eq_vertex_of_head? {partition : Partition Label} {label : Label}
    (first : partition.head? = some label) : exists rest, partition = .vertex label rest := by
  cases partition with
  | vertex other rest =>
      cases first
      exact ⟨rest, rfl⟩
  | nil => cases first
  | cycle components rest => cases first

omit [DecidableEq Label] in
theorem mem_initializeLoopCounters {heads : List Label} {entryInv : D} {state : State}
    (member : state ∈ gamma entryInv)
    (zero : forall label, label ∈ heads -> state ∈ counterZero label) :
    state ∈ gamma (initializeLoopCounters domain heads entryInv) := by
  unfold initializeLoopCounters
  induction heads generalizing entryInv with
  | nil => exact member
  | cons label rest inductionHypothesis =>
      rw [List.foldl_cons]
      apply inductionHypothesis
      · exact sound.initializeLoopCounter entryInv label ⟨member, zero label List.mem_cons_self⟩
      · intro other later
        exact zero other (List.mem_cons_of_mem _ later)

theorem visitLabel_entry (assumeOff : options.assumeAssertions = false)
    {start middle : IteratorState Label D}
    (run : visitLabel program domain options program.entry start = some middle) {state : State}
    (member : state ∈ gamma (start.inv program.entry).pre) :
    middle.skip = false ∧ Contained program gamma step middle.inv program.entry state := by
  have noSkip : (if start.skip && program.entry == program.entry then false
      else start.skip) = false := by
    cases start.skip <;> simp
  simp only [visitLabel, noSkip, Bool.false_eq_true, if_false] at run
  rcases transformToPost_spec assumeOff run with ⟨post, transformed, rfl⟩
  simp only [joinAllPrevs, if_pos] at transformed
  refine ⟨rfl, ?_, ?_⟩
  · rw [setPost_pre, setPre_pre]
    simp only [joinAllPrevs, if_pos]
    exact member
  · intro after stepped
    rw [setPost_post]
    exact sound.transform transformed member stepped

omit [DecidableEq Label] in
/-- A verified table raises no warning in any invariant that is not empty. -/
theorem checked_of_verified {inv : Label -> InvariantPair D}
    (isVerified : verified program domain inv = true)
    {label : Label} (member : label ∈ program.labels) {state : State}
    (inPre : state ∈ gamma (inv label).pre)
    {assertion : Assertion} (asserted : assertion ∈ program.assertionsAt label) :
    domain.check (inv label).pre assertion = [] := by
  have atLabel := List.all_eq_true.mp isVerified label member
  rcases Bool.or_eq_true_iff.mp atLabel with empty | checked
  · rw [sound.isBottom empty] at inPre
    exact absurd inPre (Set.notMem_empty _)
  · exact List.isEmpty_iff.mp (List.all_eq_true.mp checked assertion asserted)

omit [DecidableEq Label] in
theorem holds_of_verified {holds : Assertion -> State -> Prop}
    (soundCheck : SoundCheck domain gamma holds)
    {inv : Label -> InvariantPair D} (isVerified : verified program domain inv = true)
    {label : Label}
    (member : label ∈ program.labels) {state : State} (inPre : state ∈ gamma (inv label).pre)
    {assertion : Assertion} (asserted : assertion ∈ program.assertionsAt label) :
    holds assertion state :=
  soundCheck _ _ (checked_of_verified sound isVerified member inPre asserted) state inPre

/-- A table that the analyzer returns contains every concrete path. -/
theorem contained_of_returned (noPredecessor : forall label, program.entry ∉ program.children label)
    (assumeOff : options.assumeAssertions = false) {fuel : Nat} {entryInv : D}
    {inv : Label -> InvariantPair D}
    (returned : runForwardAnalyzer program domain options fuel entryInv = some inv)
    {initial : State}
    (initialMember : initial ∈ gamma entryInv)
    (countersZero : forall label, initial ∈ counterZero label)
    {label : Label} {state : State} (reached : Reaches program step initial label state) :
    Contained program gamma step inv label state := by
  unfold runForwardAnalyzer at returned
  rcases Option.bind_eq_some_iff.mp returned with ⟨wto, built, counting⟩
  rcases Option.bind_eq_some_iff.mp counting with ⟨heads, _, visiting⟩
  rcases Option.bind_eq_some_iff.mp visiting with ⟨final, visited, finalInv⟩
  cases finalInv
  rcases Wto.build_wellOrdered built with ⟨_, distinct, ordered, _⟩
  rcases exists_eq_vertex_of_head? (Wto.build_head? built noPredecessor) with ⟨rest, form⟩
  rw [form] at distinct ordered visited
  rcases Option.bind_eq_some_iff.mp
    (show (visitLabel program domain options program.entry _).bind _ = some final
    from visited) with ⟨middle, entryVisited, restVisited⟩
  have startMember := mem_initializeLoopCounters sound initialMember
    (fun label (_ : label ∈ heads) => countersZero label)
  rcases visitLabel_entry sound assumeOff entryVisited (by rw [setPre_pre]; exact startMember) with
    ⟨middleSkip, entryContained⟩
  rcases List.nodup_cons.mp distinct with ⟨entryOutside, restDistinct⟩
  have covers := (visitCovers sound assumeOff rest).1 wto fuel none ∅ middle final
    middleSkip ordered.2
    restDistinct (fun _ _ => Set.notMem_empty _) (by simp) entryOutside restVisited
  rcases reaches_flow ordered distinct entryContained reached with ⟨rfl, rfl⟩ | flow
  · rw [Contained, covers.frame program.entry entryOutside]
    exact entryContained
  · exact covers.flow label state flow

/-- Soundness of `run_forward_analyzer`.  The loop counters are zero in the
initial state if the options ask for their initialization; every concrete path
from there stays inside the returned table, and if the table is verified, no
path violates an assertion. -/
theorem runForwardAnalyzer_sound
    (noPredecessor : forall label, program.entry ∉ program.children label)
    (assumeOff : options.assumeAssertions = false) {fuel : Nat} {entryInv : D}
    {inv : Label -> InvariantPair D}
    (returned : runForwardAnalyzer program domain options fuel entryInv = some inv)
    {initial : State} (initialMember : initial ∈ gamma entryInv)
    (countersZero : forall wto heads, Wto.build program.children program.entry fuel = some wto ->
      countedHeads options wto = some heads -> forall label, label ∈ heads ->
      initial ∈ counterZero label) :
    (forall label state, Reaches program step initial label state ->
      state ∈ gamma (inv label).pre ∧
        forall after, step (program.instructionAt label) state after ->
        after ∈ gamma (inv label).post) ∧
    (forall holds : Assertion -> State -> Prop, SoundCheck domain gamma holds ->
      verified program domain inv = true ->
      forall label state, Reaches program step initial label state ->
        forall assertion, assertion ∈ program.assertionsAt label -> holds assertion state) := by
  simp only [runForwardAnalyzer, Option.bind_eq_bind] at returned
  rcases Option.bind_eq_some_iff.mp returned with ⟨wto, built, returned⟩
  rcases Option.bind_eq_some_iff.mp returned with ⟨heads, counted, returned⟩
  rcases Option.bind_eq_some_iff.mp returned with ⟨final, visited, finalInv⟩
  cases finalInv
  have wellOrdered := Wto.build_wellOrdered built
  have ordered := wellOrdered.ordered
  have distinct := wellOrdered.distinct
  have first := Wto.build_head? built noPredecessor
  cases form : wto.components with
  | nil => rw [form] at first; cases first
  | cycle components rest => rw [form] at first; cases first
  | vertex label rest =>
      rw [form] at first ordered distinct visited
      cases first
      simp only [visitComponents, reduceCtorEq, if_false, Option.bind_eq_bind] at visited
      rcases Option.bind_eq_some_iff.mp visited with ⟨middle, entryVisited, restVisited⟩
      have startMember := mem_initializeLoopCounters sound initialMember
        (countersZero wto heads built counted)
      rcases visitLabel_entry sound assumeOff entryVisited
        (by rw [setPre_pre]; exact startMember) with
        ⟨middleSkip, entryContained⟩
      have entryOutside : program.entry ∉ rest.members := (List.nodup_cons.mp distinct).1
      have covers := (visitCovers sound assumeOff rest).1 wto fuel none ∅ middle final
        middleSkip ordered.2
        (List.nodup_cons.mp distinct).2 (fun _ _ => Set.notMem_empty _)
        (fun _ same => by cases same)
        entryOutside restVisited
      have contained : forall label state, Reaches program step initial label state ->
          Contained program gamma step final.inv label state := by
        intro label state reached
        rcases reaches_flow ordered distinct entryContained reached with ⟨rfl, rfl⟩ | flow
        · rw [Contained, covers.frame program.entry entryOutside]
          exact entryContained
        · exact covers.flow label state flow
      refine ⟨contained, ?_⟩
      intro holds soundCheck isVerified label state reached assertion asserted
      exact holds_of_verified sound soundCheck isVerified reached.mem_labels
        (contained label state reached).1 asserted

end Visit

/-! ## A run over a loop -/

/-- The children in a graph of four labels with a loop between the middle
two. -/
def loopChildren : Nat -> List Nat
  | 0 => [1]
  | 1 => [2]
  | 2 => [1, 3]
  | _ => []

/-- The parents in the same graph. -/
def loopParents : Nat -> List Nat
  | 1 => [0, 2]
  | 2 => [1]
  | 3 => [2]
  | _ => []

theorem loopConverse (source target : Nat) :
    target ∈ loopChildren source ↔ source ∈ loopParents target := by
  unfold loopChildren loopParents
  split <;> split <;> simp_all

/-- A program over that graph whose instruction at a label is whether it sets
the state to true, and which asserts at the last label that the state is
true. -/
def loopProgram : Program Nat Bool Unit where
  labels := [0, 1, 2, 3]
  children := loopChildren
  parents := loopParents
  entry := 0
  converse := loopConverse
  entry_mem := by decide
  child_mem := by
    intro source target child
    unfold loopChildren at child
    split at child <;> simp_all
    omega
  instructionAt label := label == 1
  assertionsAt label := if label = 3 then [()] else []

/-- The step of an instruction of that program. -/
def loopStep (sets : Bool) (before after : Bool) : Prop :=
  after = (sets || before)

/-- The sets of states of that program, as pairs of whether each state is
possible, the false state first. -/
def boolDomain : Domain (Bool × Bool) Nat Bool Unit Unit where
  bottom := (false, false)
  isBottom value := value == (false, false)
  le left right := (!left.1 || right.1) && (!left.2 || right.2)
  joinAssign left right := (left.1 || right.1, left.2 || right.2)
  join left right := (left.1 || right.1, left.2 || right.2)
  widen _ _ _ := (true, true)
  meet left right := (left.1 && right.1, left.2 && right.2)
  narrow left right := (left.1 && right.1, left.2 && right.2)
  transform value sets := some (if sets then (false, value.1 || value.2) else value)
  assume value _ := some value
  check value _ := if value.1 then [()] else []
  initializeLoopCounter value _ := value

/-- The states that a pair of possibilities represents. -/
def boolStates (value : Bool × Bool) : Set Bool :=
  {state | (if state then value.2 else value.1) = true}

theorem boolDomain_sound : SoundDomain boolDomain boolStates loopStep (fun _ => Set.univ) where
  transform := by
    rintro before after instr transformed source target member rfl
    cases transformed
    rcases before with ⟨maybeFalse, maybeTrue⟩
    cases instr <;> cases source <;> simp_all [boolStates]
  joinAssign := by
    rintro ⟨leftFalse, leftTrue⟩ ⟨rightFalse, rightTrue⟩ state member
    cases state <;> simpa [boolStates, boolDomain] using member
  meet := by
    rintro ⟨leftFalse, leftTrue⟩ ⟨rightFalse, rightTrue⟩ state member
    cases state <;> simpa [boolStates, boolDomain] using member
  narrow := by
    rintro ⟨leftFalse, leftTrue⟩ ⟨rightFalse, rightTrue⟩ state member
    cases state <;> simpa [boolStates, boolDomain] using member
  le := by
    rintro ⟨leftFalse, leftTrue⟩ ⟨rightFalse, rightTrue⟩ included state member
    cases state <;> simp_all [boolStates, boolDomain]
  isBottom := by
    rintro ⟨maybeFalse, maybeTrue⟩ empty
    ext state
    cases state <;> simp_all [boolStates, boolDomain]
  initializeLoopCounter := fun _ _ _ member => member.1

/-- The analysis of the loop returns a table that contains every path from the
false state, and the assertion behind the loop holds there. -/
theorem runForwardAnalyzer_sound_loop :
    exists inv, runForwardAnalyzer loopProgram boolDomain ⟨false, true⟩ 30
      (true, false) = some inv ∧
      (forall label state, Reaches loopProgram loopStep false label state ->
      state ∈ boolStates (inv label).pre) ∧
      (forall state, Reaches loopProgram loopStep false 3 state -> state = true) := by
  have returns : (runForwardAnalyzer loopProgram boolDomain ⟨false, true⟩ 30 (true, false)).any
      (verified loopProgram boolDomain) = true := by decide
  rcases (Option.any_eq_true _ _).mp returns with ⟨inv, returned, isVerified⟩
  have noPredecessor : forall label, loopProgram.entry ∉ loopProgram.children label := by
    intro label child
    have parent := (loopConverse label 0).mp child
    cases parent
  have sound := runForwardAnalyzer_sound boolDomain_sound noPredecessor rfl returned
    (show false ∈ boolStates (true, false) from rfl) (fun _ _ _ _ _ _ => Set.mem_univ _)
  refine ⟨inv, returned, fun label state reached => (sound.1 label state reached).1, ?_⟩
  intro state reached
  have soundCheck : SoundCheck boolDomain boolStates (fun _ state => state = true) := by
    rintro ⟨maybeFalse, maybeTrue⟩ assertion noWarning other member
    cases other <;> cases maybeFalse <;> simp_all [boolStates, boolDomain]
  exact sound.2 _ soundCheck isVerified 3 state reached () (by decide)

end Fixpoint
end Prevail
