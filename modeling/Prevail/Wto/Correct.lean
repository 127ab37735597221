import Prevail.Wto.Search

namespace Prevail
namespace Wto

universe u

/-!
# A visit meets its contract

One lemma for each way in which the visit of a white vertex ends: it is left
on the stack, it becomes a component by itself, or it becomes the head of a
cycle, whose vertices are reset and visited once more.  In the last two cases
the head number equals the number of the vertex itself, so that no vertex found
below it has a way into the older stack; this is what makes the second visit
leave nothing behind.
-/

variable {V : Type u}

/-! ## The scan over the successors -/

theorem scanSuccessors_append_singleton (vertexData : V -> VertexData) (before : List V) (last : V)
    (dfn : WithTop Nat) :
    scanSuccessors vertexData (before ++ [last]) dfn =
      if minDfn (vertexData last) ≤ (scanSuccessors vertexData before dfn).1 then
        (minDfn (vertexData last), true)
      else scanSuccessors vertexData before dfn := by
  unfold scanSuccessors
  rw [List.foldl_append]
  rfl

/-- The scan returns the least number among its start and those of the
successors, and reports whether some successor reached it. -/
theorem scanSuccessors_spec (vertexData : V -> VertexData) (succs : List V) (dfn : WithTop Nat) :
    (scanSuccessors vertexData succs dfn).1 ≤ dfn ∧
    (forall succ, succ ∈ succs ->
      (scanSuccessors vertexData succs dfn).1 ≤ minDfn (vertexData succ)) ∧
    ((scanSuccessors vertexData succs dfn).2 = false ->
      (scanSuccessors vertexData succs dfn).1 = dfn ∧
        forall succ, succ ∈ succs -> dfn < minDfn (vertexData succ)) ∧
    ((scanSuccessors vertexData succs dfn).2 = true -> exists succ, succ ∈ succs ∧
      minDfn (vertexData succ) = (scanSuccessors vertexData succs dfn).1) := by
  induction succs using List.reverseRecOn with
  | nil => simp [scanSuccessors]
  | append_singleton before last inductionHypothesis =>
      rw [scanSuccessors_append_singleton]
      generalize scanSuccessors vertexData before dfn = found at inductionHypothesis ⊢
      rcases found with ⟨least, loop⟩
      rcases inductionHypothesis with ⟨bounded, lower, none, reached⟩
      dsimp only at bounded lower none reached ⊢
      by_cases improves : minDfn (vertexData last) ≤ least
      · rw [if_pos improves]
        refine ⟨improves.trans bounded, ?_, by simp, ?_⟩
        · intro succ member
          rcases List.mem_append.mp member with earlier | isLast
          · exact improves.trans (lower succ earlier)
          · exact (List.mem_singleton.mp isLast) ▸ le_rfl
        · exact fun _ => ⟨last, List.mem_append_right _ List.mem_cons_self, rfl⟩
      · rw [if_neg improves]
        refine ⟨bounded, ?_, ?_, ?_⟩
        · intro succ member
          rcases List.mem_append.mp member with earlier | isLast
          · exact lower succ earlier
          · exact (List.mem_singleton.mp isLast) ▸ (not_le.mp improves).le
        · intro noLoop
          rcases none noLoop with ⟨same, above⟩
          refine ⟨same, ?_⟩
          intro succ member
          rcases List.mem_append.mp member with earlier | isLast
          · exact above succ earlier
          · rw [List.mem_singleton.mp isLast, ← same]
            exact not_le.mp improves
        · intro isLoop
          rcases reached isLoop with ⟨succ, member, equal⟩
          exact ⟨succ, List.mem_append_left _ member, equal⟩

/-! ## Numbering a vertex -/

section Number

variable [DecidableEq V] {children : V -> List V} {state : BuilderState V} {vertex : V}

theorem number_data_self : (number state vertex).vertexData vertex =
    ⟨(state.num + 1 : Nat), (state.vertexData vertex).headDfn⟩ := by
  simp [number, BuilderState.setDfn]

theorem number_data_of_ne {other : V} (different : other ≠ vertex) :
    (number state vertex).vertexData other = state.vertexData other := by
  simp [number, BuilderState.setDfn, different]

theorem number_white_iff {other : V} : White (number state vertex) other ↔ White state other ∧
    other ≠ vertex := by
  by_cases same : other = vertex
  · subst same
    simp [White, number_data_self]
  · simp [White, number_data_of_ne same, same]

theorem Invariant.number (invariant : Invariant state) (white : White state vertex) :
    Invariant (number state vertex) := by
  have notInStack := invariant.not_mem_of_white white
  have others : forall other, other ∈ state.stack ->
      (Wto.number state vertex).vertexData other = state.vertexData other := by
    intro other member
    exact number_data_of_ne (fun same => notInStack (same ▸ member))
  have below : forall other, other ∈ state.stack ->
      (state.vertexData other).dfn < ((state.num + 1 : Nat) : WithTop Nat) := by
    intro other member
    exact lt_of_le_of_lt (invariant.bounded other member)
      (WithTop.coe_lt_coe.mpr (Nat.lt_succ_self _))
  refine { descending := ?_, mem_stack := ?_, bounded := ?_, fresh := ?_, older := ?_ }
  · refine List.pairwise_cons.mpr ⟨?_, ?_⟩
    · intro other member
      rw [others other member, number_data_self]
      exact below other member
    · refine List.Pairwise.imp_of_mem ?_ invariant.descending
      intro above lower aboveMember lowerMember less
      rwa [others above aboveMember, others lower lowerMember]
  · intro other
    by_cases same : other = vertex
    · subst same
      rw [number_data_self]
      exact ⟨fun _ => ⟨by simp, WithTop.coe_ne_top⟩, fun _ => List.mem_cons_self⟩
    · rw [number_data_of_ne same, ← invariant.mem_stack other]
      exact List.mem_cons.trans (or_iff_right same)
  · intro other member
    rcases List.mem_cons.mp member with same | older
    · subst same
      rw [number_data_self]
      exact le_rfl
    · rw [others other older]
      exact (below other older).le
  · intro other otherWhite
    rcases number_white_iff.mp otherWhite with ⟨before, different⟩
    rw [number_data_of_ne different]
    exact invariant.fresh other before
  · intro other member returned
    rcases List.mem_cons.mp member with same | isOlder
    · subst same
      rw [number_data_self] at returned
      exact absurd (invariant.fresh other white) returned
    · rw [others other isOlder] at returned ⊢
      rcases invariant.older other isOlder returned with ⟨root, rootMember, equal, less⟩
      refine ⟨root, List.mem_cons_of_mem _ rootMember, ?_⟩
      rw [others root rootMember]
      exact ⟨equal, less⟩

/-- The walks from a vertex are the vertex itself and the walks from its
unvisited children once it is numbered. -/
theorem whiteReach_singleton_iff (white : White state vertex) {other : V} :
    WhiteReach children state [vertex] other ↔ other = vertex ∨
      WhiteReach children (number state vertex)
        (unvisitedSuccessors children (number state vertex) vertex) other := by
  have child_reach : forall {target : V}, target ∈ children vertex ->
      White (number state vertex) target -> WhiteReach children (number state vertex)
        (unvisitedSuccessors children (number state vertex) vertex) target := by
    intro target child targetWhite
    exact WhiteReach.of_mem (List.mem_filter.mpr ⟨child, beq_iff_eq.mpr targetWhite⟩) targetWhite
  constructor
  · intro reach
    refine reach.rec_on (motive := fun other => other = vertex ∨
      WhiteReach children (number state vertex)
      (unvisitedSuccessors children (number state vertex) vertex) other) ?_ ?_
    · intro start member _
      exact Or.inl (List.mem_singleton.mp member)
    · intro source target _ inductionHypothesis child targetWhite
      by_cases same : target = vertex
      · exact Or.inl same
      · have stillWhite := number_white_iff.mpr ⟨targetWhite, same⟩
        rcases inductionHypothesis with isVertex | reached
        · exact Or.inr (child_reach (isVertex ▸ child) stillWhite)
        · exact Or.inr (reached.tail child stillWhite)
  · have base : WhiteReach children state [vertex] vertex :=
      WhiteReach.of_mem List.mem_cons_self white
    rintro (same | reach)
    · exact same ▸ base
    · refine reach.rec_on (motive := WhiteReach children state [vertex]) ?_ ?_
      · intro start member startWhite
        exact base.tail (List.mem_filter.mp member).1 (number_white_iff.mp startWhite).1
      · intro source target _ inductionHypothesis child targetWhite
        exact inductionHypothesis.tail child (number_white_iff.mp targetWhite).1

end Number

/-! ## The state in which a vertex is scanned -/

/-- The situation of `start_visit`: a white vertex was numbered, and its
unvisited children have been visited. -/
structure Scanned [DecidableEq V] (children : V -> List V) (vertex : V)
    (state visited : BuilderState V) (opened : List V) : Prop where
  invariant : Invariant state
  white : White state vertex
  contract : Contract children (unvisitedSuccessors children (number state vertex) vertex)
    (number state vertex) visited opened

namespace Scanned

variable [DecidableEq V] {children : V -> List V} {vertex : V} {state visited : BuilderState V}
  {opened : List V} (scanned : Scanned children vertex state visited opened)

include scanned

theorem stack_form : visited.stack = opened ++ vertex :: state.stack :=
  scanned.contract.stack

theorem numberedInvariant : Invariant (number state vertex) :=
  scanned.invariant.number scanned.white

theorem vertexData_self : visited.vertexData vertex = ⟨(state.num + 1 : Nat), 0⟩ := by
  have notWhite : ¬ White (number state vertex) vertex :=
    fun white => (number_white_iff.mp white).2 rfl
  rw [scanned.contract.keeps notWhite, number_data_self,
    scanned.invariant.fresh vertex scanned.white]

theorem minDfn_self : minDfn (visited.vertexData vertex) = (visited.vertexData vertex).dfn :=
  minDfn_unreturned (by rw [scanned.vertexData_self])

theorem vertex_mem : vertex ∈ visited.stack := by
  rw [scanned.stack_form]
  exact List.mem_append_right _ List.mem_cons_self

theorem older_mem {older : V} (member : older ∈ state.stack) : older ∈ visited.stack := by
  rw [scanned.stack_form]
  exact List.mem_append_right _ (List.mem_cons_of_mem _ member)

theorem opened_mem {other : V} (member : other ∈ opened) : other ∈ visited.stack :=
  scanned.contract.opened_mem member

theorem older_iff {older : V} (member : older ∈ visited.stack) :
    older ∈ state.stack ↔ (visited.vertexData older).dfn < (visited.vertexData vertex).dfn :=
  scanned.contract.invariant.below_iff scanned.stack_form member

theorem older_ne {older : V} (member : older ∈ state.stack) : older ≠ vertex :=
  fun same => scanned.invariant.not_mem_of_white scanned.white (same ▸ member)

theorem opened_ne {other : V} (member : other ∈ opened) : other ≠ vertex := by
  intro same
  have distinct := scanned.stack_form ▸ scanned.contract.invariant.nodup
  exact (List.nodup_append.mp distinct).2.2 other member vertex List.mem_cons_self same

theorem older_data {older : V} (member : older ∈ state.stack) :
    visited.vertexData older = state.vertexData older := by
  have inNumbered : older ∈ (number state vertex).stack := List.mem_cons_of_mem _ member
  rw [scanned.contract.keeps (scanned.numberedInvariant.not_white inNumbered),
    number_data_of_ne (scanned.older_ne member)]

/-- Every child of the vertex has a number when the vertex is scanned. -/
theorem child_cases {child : V} (member : child ∈ children vertex) :
    child ∈ opened ∨ Done visited child ∨ child = vertex ∨ child ∈ state.stack := by
  by_cases white : White (number state vertex) child
  · have reach : WhiteReach children (number state vertex)
        (unvisitedSuccessors children (number state vertex) vertex) child :=
      WhiteReach.of_mem (List.mem_filter.mpr ⟨member, beq_iff_eq.mpr white⟩) white
    exact (scanned.contract.settled child reach).imp_right Or.inl
  · by_cases done : Done (number state vertex) child
    · exact Or.inr (Or.inl (scanned.contract.keeps_done done))
    · have inStack := scanned.numberedInvariant.mem_of_not_white_of_not_done white done
      exact Or.inr (Or.inr (List.mem_cons.mp inStack))

theorem opened_child_numbered {source target : V} (member : source ∈ opened)
    (child : target ∈ children source) : ¬ White visited target := by
  have reach := scanned.contract.opened_reached scanned.numberedInvariant member
  by_cases white : White (number state vertex) target
  · exact scanned.contract.numbered (reach.tail child white)
  · intro whiteAfter
    rw [White, scanned.contract.keeps white] at whiteAfter
    exact white whiteAfter

theorem num_le : state.num ≤ visited.num :=
  Nat.le_trans (Nat.le_succ _) scanned.contract.num

theorem frame {other : V} (notReached : ¬ WhiteReach children state [vertex] other) :
    other ≠ vertex ∧ visited.vertexData other = state.vertexData other := by
  rw [whiteReach_singleton_iff scanned.white, not_or] at notReached
  refine ⟨notReached.1, ?_⟩
  rw [scanned.contract.frame other notReached.2, number_data_of_ne notReached.1]

/-- A vertex other than the scanned one is done at the scan when it is reached
and not left open. -/
theorem reach_cases {other : V} (reach : WhiteReach children state [vertex] other) :
    other = vertex ∨ (WhiteReach children (number state vertex)
      (unvisitedSuccessors children (number state vertex) vertex) other ∧
        (other ∈ opened ∨ Done visited other)) := by
  rcases (whiteReach_singleton_iff scanned.white).mp reach with same | below
  · exact Or.inl same
  · exact Or.inr ⟨below, scanned.contract.settled other below⟩

/-! ### The vertex stays on the stack -/

variable {headDfn : WithTop Nat} {loop : Bool}

/-- The child of the vertex that gave the scan its result is left open, or is
older than the vertex. -/
theorem lower_child
    (scan : scanSuccessors visited.vertexData (children vertex) (visited.vertexData vertex).dfn =
      (headDfn, loop))
    (lower : headDfn ≠ (visited.vertexData vertex).dfn) :
    headDfn < (visited.vertexData vertex).dfn ∧
      exists child, child ∈ children vertex ∧ minDfn (visited.vertexData child) = headDfn ∧
        (child ∈ opened ∨ child ∈ state.stack) := by
  have spec := scanSuccessors_spec visited.vertexData (children vertex)
    (visited.vertexData vertex).dfn
  rw [scan] at spec
  rcases spec with ⟨bounded, _, noLoop, reached⟩
  have less := lt_of_le_of_ne bounded lower
  have isLoop : loop = true := by
    by_contra notLoop
    exact lower (noLoop (Bool.eq_false_iff.mpr notLoop)).1
  rcases reached isLoop with ⟨child, member, equal⟩
  refine ⟨less, child, member, equal, ?_⟩
  rcases scanned.child_cases member with isOpened | done | same | isOlder
  · exact Or.inl isOpened
  · rw [minDfn_done done] at equal
    exact absurd (equal ▸ less) not_top_lt
  · rw [same, scanned.minDfn_self] at equal
    exact absurd equal.symm lower
  · exact Or.inr isOlder

theorem child_mem {child : V} (member : child ∈ opened ∨ child ∈ state.stack) :
    child ∈ visited.stack :=
  member.elim scanned.opened_mem scanned.older_mem

/-- The head number below the vertex is the number of an older vertex. -/
theorem lower_root
    (scan : scanSuccessors visited.vertexData (children vertex) (visited.vertexData vertex).dfn =
      (headDfn, loop))
    (lower : headDfn ≠ (visited.vertexData vertex).dfn) :
    exists root, root ∈ state.stack ∧ (visited.vertexData root).dfn = headDfn := by
  rcases scanned.lower_child scan lower with ⟨less, child, _, equal, found⟩
  rcases scanned.contract.invariant.minDfn_source (scanned.child_mem found) with
    ⟨root, rootMember, rootEqual, _⟩
  refine ⟨root, ?_, rootEqual.trans equal⟩
  rw [scanned.older_iff rootMember, rootEqual, equal]
  exact less

theorem pending_invariant
    (scan : scanSuccessors visited.vertexData (children vertex) (visited.vertexData vertex).dfn =
      (headDfn, loop))
    (lower : headDfn ≠ (visited.vertexData vertex).dfn) :
    Invariant (visited.setHeadDfn vertex headDfn) := by
  have invariant := scanned.contract.invariant
  refine { descending := ?_, mem_stack := ?_, bounded := ?_, fresh := ?_, older := ?_ }
  · refine invariant.descending.imp ?_
    intro above below less
    rwa [BuilderState.setHeadDfn_dfn, BuilderState.setHeadDfn_dfn]
  · intro other
    rw [BuilderState.setHeadDfn_dfn]
    exact invariant.mem_stack other
  · intro other member
    rw [BuilderState.setHeadDfn_dfn]
    exact invariant.bounded other member
  · intro other white
    rw [White, BuilderState.setHeadDfn_dfn] at white
    have different : other ≠ vertex :=
      fun same => invariant.not_white scanned.vertex_mem (same ▸ white)
    rw [BuilderState.setHeadDfn_data_of_ne _ _ different]
    exact invariant.fresh other white
  · intro other member returned
    by_cases same : other = vertex
    · subst same
      rcases scanned.lower_root scan lower with ⟨root, rootMember, equal⟩
      refine ⟨root, scanned.older_mem rootMember, ?_⟩
      rw [BuilderState.setHeadDfn_data_self, BuilderState.setHeadDfn_dfn]
      exact ⟨equal, equal ▸ (scanned.lower_child scan lower).1⟩
    · rw [BuilderState.setHeadDfn_data_of_ne _ _ same] at returned ⊢
      rcases invariant.older other member returned with ⟨root, rootMember, equal, less⟩
      refine ⟨root, rootMember, ?_⟩
      rw [BuilderState.setHeadDfn_dfn]
      exact ⟨equal, less⟩

/-- The walk from a vertex left open into the older stack, with the number it
reaches there. -/
theorem leaves_below {other older : V} (member : other ∈ opened) (isOlder : older ∈ state.stack)
    (equal : (visited.vertexData other).headDfn = (visited.vertexData older).dfn) :
    exists source target, source ∈ opened ∧ target ∈ state.stack ∧ target ∈ children source ∧
      minDfn (visited.vertexData target) = (visited.vertexData older).dfn ∧
      Relation.ReflTransGen (fun before after => after ∈ children before ∧
      after ∈ opened) other source := by
  rcases scanned.contract.leaves other older member (List.mem_cons_of_mem _ isOlder) equal with
    ⟨source, target, isOpened, targetMember, child, reaches, walk⟩
  rcases List.mem_cons.mp targetMember with same | targetOlder
  · rw [same, scanned.minDfn_self] at reaches
    have less := (scanned.older_iff (scanned.older_mem isOlder)).mp isOlder
    exact absurd (reaches ▸ less) (lt_irrefl _)
  · exact ⟨source, target, isOpened, targetOlder, child, reaches, walk⟩

/-- The visit of a vertex that stays on the stack. -/
theorem pending
    (scan : scanSuccessors visited.vertexData (children vertex) (visited.vertexData vertex).dfn =
      (headDfn, loop))
    (lower : headDfn ≠ (visited.vertexData vertex).dfn) :
    Contract children [vertex] state (visited.setHeadDfn vertex headDfn) (opened ++ [vertex]) := by
  have spec := scanSuccessors_spec visited.vertexData (children vertex)
    (visited.vertexData vertex).dfn
  rw [scan] at spec
  have minimal := spec.2.1
  rcases scanned.lower_child scan lower with ⟨less, child, childMember, childEqual, childFound⟩
  rcases scanned.lower_root scan lower with ⟨root, rootMember, rootEqual⟩
  have vertexOpened : vertex ∈ opened ++ [vertex] := List.mem_append_right _ List.mem_cons_self
  refine
    { invariant := scanned.pending_invariant scan lower
      stack := by simp only [BuilderState.setHeadDfn, scanned.stack_form, List.append_assoc,
        List.singleton_append]
      num := scanned.num_le
      frame := ?_, settled := ?_, returned := ?_, closed := ?_, complete := ?_, anchored := ?_,
      leaves := ?_ }
  · intro other notReached
    rcases scanned.frame notReached with ⟨different, same⟩
    rw [BuilderState.setHeadDfn_data_of_ne _ _ different, same]
  · intro other reach
    rcases scanned.reach_cases reach with same | ⟨_, isOpened | done⟩
    · exact Or.inl (same ▸ vertexOpened)
    · exact Or.inl (List.mem_append_left _ isOpened)
    · right
      rw [Done, BuilderState.setHeadDfn_dfn]
      exact done
  · intro other member
    rcases List.mem_append.mp member with isOpened | isVertex
    · rw [BuilderState.setHeadDfn_data_of_ne _ _ (scanned.opened_ne isOpened)]
      exact scanned.contract.returned other isOpened
    · rw [List.mem_singleton.mp isVertex, BuilderState.setHeadDfn_data_self]
      exact rootEqual ▸ ((scanned.contract.invariant.mem_stack root).mp
        (scanned.older_mem rootMember)).1
  · intro source target reach done member
    rw [Done, BuilderState.setHeadDfn_dfn] at done ⊢
    rcases scanned.reach_cases reach with same | ⟨below, _⟩
    · exact absurd (same ▸ done) (scanned.contract.invariant.not_done scanned.vertex_mem)
    · exact scanned.contract.closed source target below done member
  · intro source target member isOlder sourceChild
    refine ⟨vertex, List.mem_cons_self, vertexOpened, ?_⟩
    rw [BuilderState.setHeadDfn_data_self, BuilderState.setHeadDfn_dfn]
    rcases List.mem_append.mp member with isOpened | isVertex
    · rcases scanned.contract.complete source target isOpened (List.mem_cons_of_mem _ isOlder)
        sourceChild with
        ⟨start, isStart, startOpened, atMost⟩
      have startLower := minimal start (List.mem_filter.mp isStart).1
      rw [scanned.contract.invariant.minDfn_returned (scanned.opened_mem startOpened)
        (scanned.contract.returned start startOpened)] at startLower
      exact startLower.trans atMost
    · rw [List.mem_singleton.mp isVertex] at sourceChild
      exact (minimal target sourceChild).trans
        (scanned.contract.invariant.minDfn_le (scanned.older_mem isOlder))
  · intro _
    refine ⟨vertex, root, List.mem_cons_self, vertexOpened, rootMember, ?_⟩
    rw [BuilderState.setHeadDfn_data_self, BuilderState.setHeadDfn_dfn]
    exact rootEqual.symm
  · have fromOpened : forall other older, other ∈ opened -> older ∈ state.stack ->
        (visited.vertexData other).headDfn = (visited.vertexData older).dfn ->
          exists source target, source ∈ opened ++ [vertex] ∧ target ∈ state.stack ∧
          target ∈ children source ∧
            minDfn ((visited.setHeadDfn vertex headDfn).vertexData target) =
            (visited.vertexData older).dfn ∧
            Relation.ReflTransGen (fun before after => after ∈ children before ∧
              after ∈ opened ++ [vertex])
              other source := by
      intro other older member isOlder equal
      rcases scanned.leaves_below member isOlder equal with
        ⟨source, target, isOpened, targetOlder, sourceChild, reaches, walk⟩
      refine ⟨source, target, List.mem_append_left _ isOpened, targetOlder, sourceChild, ?_, ?_⟩
      · rw [BuilderState.setHeadDfn_data_of_ne _ _ (scanned.older_ne targetOlder)]
        exact reaches
      · exact Relation.ReflTransGen.mono
          (fun _ _ step => ⟨step.1, List.mem_append_left _ step.2⟩) _ _ walk
    intro other older member isOlder equal
    rw [BuilderState.setHeadDfn_dfn] at equal ⊢
    rcases List.mem_append.mp member with isOpened | isVertex
    · rw [BuilderState.setHeadDfn_data_of_ne _ _ (scanned.opened_ne isOpened)] at equal
      exact fromOpened other older isOpened isOlder equal
    · have isVertex := List.mem_singleton.mp isVertex
      subst isVertex
      rw [BuilderState.setHeadDfn_data_self] at equal
      rcases childFound with childOpened | childOlder
      · have childReturned := scanned.contract.invariant.minDfn_returned
          (scanned.opened_mem childOpened)
          (scanned.contract.returned child childOpened)
        rcases fromOpened child older childOpened isOlder
            (childReturned.symm.trans (childEqual.trans equal)) with
          ⟨source, target, isOpened, targetOlder, sourceChild, reaches, walk⟩
        exact ⟨source, target, isOpened, targetOlder, sourceChild, reaches,
          Relation.ReflTransGen.head ⟨childMember, List.mem_append_left _ childOpened⟩ walk⟩
      · refine ⟨other, child, vertexOpened, childOlder, childMember, ?_, Relation.ReflTransGen.refl⟩
        rw [BuilderState.setHeadDfn_data_of_ne _ _ (scanned.older_ne childOlder)]
        exact childEqual.trans equal

/-! ### The vertex is a component by itself -/

/-- A vertex whose number survives its own scan has no child in the older
stack. -/
theorem root_child_not_older
    (scan : scanSuccessors visited.vertexData (children vertex) (visited.vertexData vertex).dfn =
      ((visited.vertexData vertex).dfn, loop))
    {child : V} (member : child ∈ children vertex) : child ∉ state.stack := by
  intro isOlder
  have spec := scanSuccessors_spec visited.vertexData (children vertex)
    (visited.vertexData vertex).dfn
  rw [scan] at spec
  have inStack := scanned.older_mem isOlder
  have less := (scanned.older_iff inStack).mp isOlder
  exact not_le.mpr less ((spec.2.1 child member).trans
    (scanned.contract.invariant.minDfn_le inStack))

/-- Below a vertex whose number survives its own scan no edge leads into the older
stack. -/
theorem opened_child_not_older
    (scan : scanSuccessors visited.vertexData (children vertex) (visited.vertexData vertex).dfn =
      ((visited.vertexData vertex).dfn, loop))
    {source target : V} (isOpened : source ∈ opened) (edge : target ∈ children source) :
    target ∉ state.stack := by
  intro isOlder
  rcases scanned.contract.complete source target isOpened (List.mem_cons_of_mem _ isOlder) edge with
    ⟨start, isStart, startOpened, atMost⟩
  have spec := scanSuccessors_spec visited.vertexData (children vertex)
    (visited.vertexData vertex).dfn
  rw [scan] at spec
  have lower := spec.2.1 start (List.mem_filter.mp isStart).1
  rw [scanned.contract.invariant.minDfn_returned (scanned.opened_mem startOpened)
    (scanned.contract.returned start startOpened)] at lower
  exact not_le.mpr ((scanned.older_iff (scanned.older_mem isOlder)).mp isOlder) (lower.trans atMost)

/-- Without a loop nothing is left open above the vertex. -/
theorem opened_eq_nil
    (scan : scanSuccessors visited.vertexData (children vertex) (visited.vertexData vertex).dfn =
      ((visited.vertexData vertex).dfn, false)) : opened = [] := by
  by_contra nonempty
  have spec := scanSuccessors_spec visited.vertexData (children vertex)
    (visited.vertexData vertex).dfn
  rw [scan] at spec
  rcases scanned.contract.anchored nonempty with ⟨root, older, isStart, isOpened, isOlder, equal⟩
  have above := (spec.2.2.1 rfl).2 root (List.mem_filter.mp isStart).1
  rw [scanned.contract.invariant.minDfn_returned (scanned.opened_mem isOpened)
    (scanned.contract.returned root isOpened), equal] at above
  rcases List.mem_cons.mp isOlder with same | isOlder
  · exact lt_irrefl _ (same ▸ above)
  · exact lt_asymm above ((scanned.older_iff (scanned.older_mem isOlder)).mp isOlder)

/-- Removing a vertex and everything above it from the stack, where the
removed vertices become done or white, keeps the numbers consistent. -/
theorem shrink {next : BuilderState V} (stack : next.stack = state.stack)
    (num : next.num = visited.num)
    (same : forall other, other ≠ vertex -> other ∉ opened ->
      next.vertexData other = visited.vertexData other)
    (self : Done next vertex)
    (reset : forall other, other ∈ opened -> next.vertexData other = ⟨0, 0⟩) :
    Invariant next := by
  have invariant := scanned.contract.invariant
  have notOpened : forall other, other ∈ state.stack -> other ∉ opened := by
    intro other isOlder isOpened
    have distinct := scanned.stack_form ▸ invariant.nodup
    exact (List.nodup_append.mp distinct).2.2 other isOpened other
      (List.mem_cons_of_mem _ isOlder) rfl
  have older : forall other, other ∈ state.stack ->
      next.vertexData other = visited.vertexData other :=
    fun other isOlder => same other (scanned.older_ne isOlder) (notOpened other isOlder)
  refine { descending := ?_, mem_stack := ?_, bounded := ?_, fresh := ?_, older := ?_ }
  · rw [stack]
    have lower := (List.pairwise_cons.mp
      (List.pairwise_append.mp (scanned.stack_form ▸ invariant.descending)).2.1).2
    refine List.Pairwise.imp_of_mem ?_ lower
    intro above below aboveMember belowMember less
    rwa [older above aboveMember, older below belowMember]
  · intro other
    rw [stack]
    by_cases isVertex : other = vertex
    · subst isVertex
      exact iff_of_false (scanned.invariant.not_mem_of_white scanned.white)
        (fun finite => finite.2 self)
    · by_cases isOpened : other ∈ opened
      · rw [reset other isOpened]
        exact iff_of_false (fun isOlder => notOpened other isOlder isOpened)
          (fun finite => finite.1 rfl)
      · rw [same other isVertex isOpened, ← invariant.mem_stack other, scanned.stack_form,
          List.mem_append, List.mem_cons]
        tauto
  · intro other member
    rw [stack] at member
    rw [older other member, num]
    exact invariant.bounded other (scanned.older_mem member)
  · intro other white
    by_cases isVertex : other = vertex
    · exact absurd white (isVertex ▸ self.not_white)
    · by_cases isOpened : other ∈ opened
      · rw [reset other isOpened]
      · rw [White, same other isVertex isOpened] at white
        rw [same other isVertex isOpened]
        exact invariant.fresh other white
  · intro other member returned
    rw [stack] at member ⊢
    rw [older other member] at returned ⊢
    rcases invariant.older other (scanned.older_mem member) returned with
      ⟨root, rootMember, equal, less⟩
    have rootOlder : root ∈ state.stack := by
      rw [scanned.older_iff rootMember]
      exact less.trans ((scanned.older_iff (scanned.older_mem member)).mp member)
    refine ⟨root, rootOlder, ?_⟩
    rw [older root rootOlder]
    exact ⟨equal, less⟩

/-- The visit of a vertex that becomes a component by itself. -/
theorem component {target : Option V} {top : V} {stack : List V}
    (scan : scanSuccessors visited.vertexData (children vertex) (visited.vertexData vertex).dfn =
      ((visited.vertexData vertex).dfn, false))
    (popped : visited.stack = top :: stack) :
    Contract children [vertex] state
      (finishVertex vertex target target (visited.vertexData vertex).dfn stack visited) [] := by
  have noneOpened := scanned.opened_eq_nil scan
  subst noneOpened
  have stackSame : stack = state.stack := by
    rw [scanned.stack_form] at popped
    exact (List.cons.inj popped).2.symm
  have self : Done (finishVertex vertex target target (visited.vertexData vertex).dfn stack visited)
      vertex := by
    rw [Done, finishVertex_data_self]
  have others : forall other, other ≠ vertex ->
      (finishVertex vertex target target (visited.vertexData vertex).dfn stack visited).vertexData
      other =
        visited.vertexData other :=
    fun other different => finishVertex_data_of_ne _ _ _ _ _ different
  have doneKept : forall other, Done visited other ->
      Done (finishVertex vertex target target (visited.vertexData vertex).dfn stack visited)
      other := by
    intro other done
    by_cases same : other = vertex
    · exact same ▸ self
    · rw [Done, others other same]
      exact done
  refine
    { invariant := scanned.shrink stackSame rfl (fun other different _ =>
      others other different) self
        (fun other member => absurd member List.not_mem_nil)
      stack := stackSame
      num := scanned.num_le
      frame := ?_, settled := ?_, returned := ?_, closed := ?_, complete := ?_, anchored := ?_,
        leaves := ?_ }
  · intro other notReached
    rcases scanned.frame notReached with ⟨different, same⟩
    rw [others other different, same]
  · intro other reach
    rcases scanned.reach_cases reach with same | ⟨_, isOpened | done⟩
    · exact Or.inr (same ▸ self)
    · exact absurd isOpened List.not_mem_nil
    · exact Or.inr (doneKept other done)
  · intro other member
    exact absurd member List.not_mem_nil
  · intro source child reach done member
    rcases scanned.reach_cases reach with same | ⟨below, _⟩
    · subst same
      rcases scanned.child_cases member with isOpened | childDone | isVertex | isOlder
      · exact absurd isOpened List.not_mem_nil
      · exact doneKept child childDone
      · exact isVertex ▸ self
      · exact absurd isOlder (scanned.root_child_not_older scan member)
    · by_cases isVertex : source = vertex
      · exact absurd (isVertex ▸ below.white) (fun white => (number_white_iff.mp white).2 rfl)
      · rw [Done, others source isVertex] at done
        exact doneKept child (scanned.contract.closed source child below done member)
  · intro source child member
    exact absurd member List.not_mem_nil
  · exact fun nonempty => absurd rfl nonempty
  · intro other older member
    exact absurd member List.not_mem_nil

end Scanned

end Wto
end Prevail
