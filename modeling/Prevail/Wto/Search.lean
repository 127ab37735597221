import Prevail.Wto.Visit

namespace Prevail
namespace Wto

universe u

/-!
# What a visit does to the depth-first numbers

A vertex is white while its number is zero, it is on the stack while its
number is finite, and it is done once its number is `DFN_INF`.  A visit starts
with an arbitrary stack of older vertices.  Its contract describes the final
numbers relative to that stack: every vertex reached through white vertices is
done or left on the stack, everything else is unchanged, and a vertex that is
left on the stack has a way into the older stack that the returned head number
records.

The contract of a list of visits is composed from the contracts of its parts.
The recursion of `Visits` then needs one lemma for each way in which a single
visit can end.
-/

variable {V : Type u}

/-- The vertex has no number. -/
def White (state : BuilderState V) (vertex : V) : Prop :=
  (state.vertexData vertex).dfn = 0

/-- The component of the vertex is complete. -/
def Done (state : BuilderState V) (vertex : V) : Prop :=
  (state.vertexData vertex).dfn = ⊤

theorem Done.not_white {state : BuilderState V} {vertex : V} (done : Done state vertex) :
    ¬ White state vertex := by
  intro white
  rw [White, show (state.vertexData vertex).dfn = ⊤ from done] at white
  cases white

/-- One step of a walk through white vertices. -/
def WhiteStep (children : V -> List V) (state : BuilderState V) (source target : V) : Prop :=
  target ∈ children source ∧ White state target

/-- The vertex is reached from one of `starts` by a walk through white
vertices only. -/
def WhiteReach (children : V -> List V) (state : BuilderState V) (starts : List V)
    (vertex : V) : Prop :=
  exists start, start ∈ starts ∧ White state start ∧
    Relation.ReflTransGen (WhiteStep children state) start vertex

/-- The numbers and the stack agree: the stack is ordered by number, and a
vertex whose visit has returned names an older vertex of the stack. -/
structure Invariant (state : BuilderState V) : Prop where
  descending : state.stack.Pairwise
    (fun above below => (state.vertexData below).dfn < (state.vertexData above).dfn)
  mem_stack : forall vertex, vertex ∈ state.stack ↔
    (state.vertexData vertex).dfn ≠ 0 ∧ (state.vertexData vertex).dfn ≠ ⊤
  bounded : forall vertex, vertex ∈ state.stack ->
    (state.vertexData vertex).dfn ≤ (state.num : WithTop Nat)
  fresh : forall vertex, White state vertex -> (state.vertexData vertex).headDfn = 0
  older : forall vertex, vertex ∈ state.stack -> (state.vertexData vertex).headDfn ≠ 0 ->
    exists root, root ∈ state.stack ∧
    (state.vertexData root).dfn = (state.vertexData vertex).headDfn ∧
      (state.vertexData root).dfn < (state.vertexData vertex).dfn

/-- The effect of visiting `starts`: `opened` are the vertices that the visits
leave on the stack. -/
structure Contract (children : V -> List V) (starts : List V) (state final : BuilderState V)
    (opened : List V) : Prop where
  invariant : Invariant final
  stack : final.stack = opened ++ state.stack
  num : state.num ≤ final.num
  frame : forall vertex, ¬ WhiteReach children state starts vertex ->
    final.vertexData vertex = state.vertexData vertex
  settled : forall vertex, WhiteReach children state starts vertex -> vertex ∈ opened ∨
    Done final vertex
  returned : forall vertex, vertex ∈ opened -> (final.vertexData vertex).headDfn ≠ 0
  closed : forall source target, WhiteReach children state starts source -> Done final source ->
    target ∈ children source -> Done final target
  complete : forall source target, source ∈ opened -> target ∈ state.stack ->
    target ∈ children source -> exists root, root ∈ starts ∧ root ∈ opened ∧
      (final.vertexData root).headDfn ≤ (final.vertexData target).dfn
  anchored : opened ≠ [] -> exists root older, root ∈ starts ∧ root ∈ opened ∧ older ∈ state.stack ∧
    (final.vertexData root).headDfn = (final.vertexData older).dfn
  leaves : forall vertex older, vertex ∈ opened -> older ∈ state.stack ->
    (final.vertexData vertex).headDfn = (final.vertexData older).dfn ->
      exists source target, source ∈ opened ∧ target ∈ state.stack ∧ target ∈ children source ∧
        minDfn (final.vertexData target) = (final.vertexData older).dfn ∧
        Relation.ReflTransGen (fun before after => after ∈ children before ∧
          after ∈ opened) vertex source

/-! ## White walks -/

namespace WhiteReach

variable {children : V -> List V} {state : BuilderState V} {starts : List V} {vertex : V}

theorem white (reach : WhiteReach children state starts vertex) : White state vertex := by
  rcases reach with ⟨start, _, startWhite, walk⟩
  rcases Relation.ReflTransGen.cases_tail walk with same | ⟨_, _, step⟩
  · exact same ▸ startWhite
  · exact step.2

theorem of_mem (member : vertex ∈ starts) (vertexWhite : White state vertex) :
    WhiteReach children state starts vertex :=
  ⟨vertex, member, vertexWhite, Relation.ReflTransGen.refl⟩

theorem tail {source target : V} (reach : WhiteReach children state starts source)
    (child : target ∈ children source) (targetWhite : White state target) :
    WhiteReach children state starts target := by
  rcases reach with ⟨start, member, startWhite, walk⟩
  exact ⟨start, member, startWhite, walk.tail ⟨child, targetWhite⟩⟩

/-- Induction along a white walk. -/
theorem rec_on {motive : V -> Prop} (reach : WhiteReach children state starts vertex)
    (base : forall start, start ∈ starts -> White state start -> motive start)
    (step : forall source target, WhiteReach children state starts source -> motive source ->
      target ∈ children source -> White state target -> motive target) : motive vertex := by
  rcases reach with ⟨start, member, startWhite, walk⟩
  induction walk with
  | refl => exact base start member startWhite
  | tail before after inductionHypothesis =>
      exact step _ _ ⟨start, member, startWhite, before⟩ inductionHypothesis after.1 after.2

theorem append_iff {first second : List V} :
    WhiteReach children state (first ++ second) vertex ↔
      WhiteReach children state first vertex ∨ WhiteReach children state second vertex := by
  constructor
  · rintro ⟨start, member, startWhite, walk⟩
    rcases List.mem_append.mp member with inFirst | inSecond
    · exact Or.inl ⟨start, inFirst, startWhite, walk⟩
    · exact Or.inr ⟨start, inSecond, startWhite, walk⟩
  · rintro (⟨start, member, startWhite, walk⟩ | ⟨start, member, startWhite, walk⟩)
    · exact ⟨start, List.mem_append_left _ member, startWhite, walk⟩
    · exact ⟨start, List.mem_append_right _ member, startWhite, walk⟩

end WhiteReach

/-! ## Numbers on the stack -/

theorem minDfn_done {state : BuilderState V} {vertex : V} (done : Done state vertex) :
    minDfn (state.vertexData vertex) = ⊤ := by
  have top : (state.vertexData vertex).dfn = ⊤ := done
  simp [minDfn, top]

theorem minDfn_unreturned {data : VertexData} (unreturned : data.headDfn = 0) :
    minDfn data = data.dfn := by
  simp [minDfn, unreturned]

namespace Invariant

variable {state : BuilderState V} (invariant : Invariant state)

include invariant

theorem minDfn_returned {vertex : V} (member : vertex ∈ state.stack)
    (returned : (state.vertexData vertex).headDfn ≠ 0) :
    minDfn (state.vertexData vertex) = (state.vertexData vertex).headDfn := by
  simp [minDfn, returned, ((invariant.mem_stack vertex).mp member).2]

/-- The number that a scan uses for a vertex of the stack is the number of
some vertex of the stack, and does not exceed its own. -/
theorem minDfn_source {vertex : V} (member : vertex ∈ state.stack) :
    exists root, root ∈ state.stack ∧
      (state.vertexData root).dfn = minDfn (state.vertexData vertex) ∧
      (state.vertexData root).dfn ≤ (state.vertexData vertex).dfn := by
  by_cases unreturned : (state.vertexData vertex).headDfn = 0
  · exact ⟨vertex, member, (minDfn_unreturned unreturned).symm, le_rfl⟩
  · rcases invariant.older vertex member unreturned with ⟨root, rootMember, equal, less⟩
    exact ⟨root, rootMember, equal.trans (invariant.minDfn_returned member unreturned).symm,
      less.le⟩

theorem minDfn_le {vertex : V} (member : vertex ∈ state.stack) :
    minDfn (state.vertexData vertex) ≤ (state.vertexData vertex).dfn := by
  rcases invariant.minDfn_source member with ⟨root, _, equal, atMost⟩
  exact equal ▸ atMost

theorem not_white {vertex : V} (member : vertex ∈ state.stack) : ¬ White state vertex :=
  ((invariant.mem_stack vertex).mp member).1

theorem not_mem_of_white {vertex : V} (white : White state vertex) : vertex ∉ state.stack :=
  fun member => invariant.not_white member white

theorem not_done {vertex : V} (member : vertex ∈ state.stack) : ¬ Done state vertex :=
  ((invariant.mem_stack vertex).mp member).2

theorem mem_of_not_white_of_not_done {vertex : V} (notWhite : ¬ White state vertex)
    (notDone : ¬ Done state vertex) : vertex ∈ state.stack :=
  (invariant.mem_stack vertex).mpr ⟨notWhite, notDone⟩

theorem nodup : state.stack.Nodup := by
  refine invariant.descending.imp ?_
  intro above below less same
  exact lt_irrefl _ (same ▸ less)

/-- The part of a stack below a vertex consists of the smaller numbers. -/
theorem below_iff {opened older : List V} {vertex member : V}
    (form : state.stack = opened ++ vertex :: older) (inStack : member ∈ state.stack) :
    member ∈ older ↔ (state.vertexData member).dfn < (state.vertexData vertex).dfn := by
  have descending := form ▸ invariant.descending
  rcases List.pairwise_append.mp descending with ⟨_, lower, cross⟩
  constructor
  · intro isOlder
    exact (List.pairwise_cons.mp lower).1 member isOlder
  · intro less
    rw [form, List.mem_append, List.mem_cons] at inStack
    rcases inStack with above | same | isOlder
    · exact absurd less (lt_asymm (cross member above vertex List.mem_cons_self))
    · exact absurd less (same ▸ lt_irrefl _)
    · exact isOlder

end Invariant

/-! ## Composition of contracts -/

namespace Contract

variable {children : V -> List V} {starts : List V} {state final : BuilderState V} {opened : List V}

/-- A visit changes nothing about a vertex that already has a number. -/
theorem keeps (contract : Contract children starts state final opened) {vertex : V}
    (numbered : ¬ White state vertex) : final.vertexData vertex = state.vertexData vertex :=
  contract.frame vertex (fun reach => numbered reach.white)

theorem keeps_done (contract : Contract children starts state final opened) {vertex : V}
    (done : Done state vertex) : Done final vertex := by
  have same := contract.keeps done.not_white
  rw [Done, same]
  exact done

theorem opened_mem (contract : Contract children starts state final opened) {vertex : V}
    (member : vertex ∈ opened) : vertex ∈ final.stack :=
  contract.stack ▸ List.mem_append_left _ member

theorem older_mem (contract : Contract children starts state final opened) {vertex : V}
    (member : vertex ∈ state.stack) : vertex ∈ final.stack :=
  contract.stack ▸ List.mem_append_right _ member

/-- A reached vertex has a number afterwards. -/
theorem numbered (contract : Contract children starts state final opened) {vertex : V}
    (reach : WhiteReach children state starts vertex) : ¬ White final vertex := by
  rcases contract.settled vertex reach with isOpened | done
  · exact contract.invariant.not_white (contract.opened_mem isOpened)
  · exact done.not_white

theorem white_before (contract : Contract children starts state final opened) {vertex : V}
    (white : White final vertex) : White state vertex ∧
      ¬ WhiteReach children state starts vertex := by
  have notReached : ¬ WhiteReach children state starts vertex :=
    fun reach => contract.numbered reach white
  refine ⟨?_, notReached⟩
  rw [White, ← contract.frame vertex notReached]
  exact white

/-- Only reached vertices are left on the stack. -/
theorem opened_reached (contract : Contract children starts state final opened)
    (invariant : Invariant state)
    {vertex : V} (member : vertex ∈ opened) : WhiteReach children state starts vertex := by
  by_contra notReached
  have inFinal := (contract.invariant.mem_stack vertex).mp (contract.opened_mem member)
  rw [contract.frame vertex notReached] at inFinal
  have inState := (invariant.mem_stack vertex).mpr inFinal
  have distinct := contract.stack ▸ contract.invariant.nodup
  exact (List.nodup_append.mp distinct).2.2 vertex member vertex inState rfl

/-- Over an empty stack nothing is left open. -/
theorem opened_eq_nil (contract : Contract children starts state final opened)
    (bottom : state.stack = []) :
    opened = [] := by
  by_contra nonempty
  rcases contract.anchored nonempty with ⟨_, older, _, _, isOlder, _⟩
  rw [bottom] at isOlder
  cases isOlder

theorem empty (invariant : Invariant state) : Contract children [] state state [] where
  invariant := invariant
  stack := rfl
  num := Nat.le_refl _
  frame _ _ := rfl
  settled := by
    rintro vertex ⟨start, member, _⟩
    cases member
  returned := by
    intro vertex member
    cases member
  closed := by
    rintro source target ⟨start, member, _⟩
    cases member
  complete := by
    intro source target member
    cases member
  anchored := fun nonempty => absurd rfl nonempty
  leaves := by
    intro vertex older member
    cases member

theorem seen {vertex : V} (invariant : Invariant state) (numbered : ¬ White state vertex) :
    Contract children [vertex] state state [] := by
  have notReached : forall other, ¬ WhiteReach children state [vertex] other := by
    rintro other ⟨start, member, white, _⟩
    exact numbered (List.mem_singleton.mp member ▸ white)
  exact
    { invariant := invariant
      stack := rfl
      num := Nat.le_refl _
      frame := fun _ _ => rfl
      settled := fun other reach => absurd reach (notReached other)
      returned := fun _ member => absurd member List.not_mem_nil
      closed := fun source _ reach => absurd reach (notReached source)
      complete := fun _ _ member => absurd member List.not_mem_nil
      anchored := fun nonempty => absurd rfl nonempty
      leaves := fun _ _ member => absurd member List.not_mem_nil }

/-- What is reached from the second list of starts is reached after the first
visits, unless the first visits reach it. -/
theorem reach_split (contract : Contract children starts state final opened)
    {others : List V} {vertex : V} (reach : WhiteReach children state others vertex) :
    WhiteReach children state starts vertex ∨ WhiteReach children final others vertex := by
  have stillWhite : forall other, White state other -> ¬ WhiteReach children state starts other ->
      White final other := by
    intro other white notReached
    rw [White, contract.frame other notReached]
    exact white
  refine reach.rec_on (motive := fun vertex =>
    WhiteReach children state starts vertex ∨ WhiteReach children final others vertex) ?_ ?_
  · intro start member white
    by_cases first : WhiteReach children state starts start
    · exact Or.inl first
    · exact Or.inr (WhiteReach.of_mem member (stillWhite start white first))
  · intro source target _ inductionHypothesis child white
    by_cases first : WhiteReach children state starts target
    · exact Or.inl first
    · rcases inductionHypothesis with sourceFirst | sourceSecond
      · exact Or.inl (sourceFirst.tail child white)
      · exact Or.inr (sourceSecond.tail child (stillWhite target white first))

theorem reach_before (contract : Contract children starts state final opened)
    {others : List V} {vertex : V}
    (reach : WhiteReach children final others vertex) :
    WhiteReach children state others vertex := by
  refine reach.rec_on (motive := WhiteReach children state others) ?_ ?_
  · intro start member white
    exact WhiteReach.of_mem member (contract.white_before white).1
  · intro source target _ inductionHypothesis child white
    exact inductionHypothesis.tail child (contract.white_before white).1

theorem append {others : List V} {last : BuilderState V} {laterOpened : List V}
    (first : Contract children starts state final opened)
    (second : Contract children others final last laterOpened) :
    Contract children (starts ++ others) state last (laterOpened ++ opened) := by
  have openedKept : forall vertex, vertex ∈ opened ->
      last.vertexData vertex = final.vertexData vertex :=
    fun vertex member => second.keeps (first.invariant.not_white (first.opened_mem member))
  have olderKept : forall vertex, vertex ∈ state.stack ->
      last.vertexData vertex = final.vertexData vertex :=
    fun vertex member => second.keeps (first.invariant.not_white (first.older_mem member))
  refine
    { invariant := second.invariant
      stack := by rw [second.stack, first.stack, List.append_assoc]
      num := Nat.le_trans first.num second.num
      frame := ?_, settled := ?_, returned := ?_, closed := ?_, complete := ?_, anchored := ?_,
      leaves := ?_ }
  · intro vertex notReached
    rw [WhiteReach.append_iff, not_or] at notReached
    rw [second.frame vertex (fun reach => notReached.2 (first.reach_before reach)),
      first.frame vertex notReached.1]
  · intro vertex reach
    have cases : WhiteReach children state starts vertex ∨
        WhiteReach children final others vertex := by
      rcases WhiteReach.append_iff.mp reach with fromFirst | fromSecond
      · exact Or.inl fromFirst
      · exact first.reach_split fromSecond
    rcases cases with fromFirst | fromSecond
    · rcases first.settled vertex fromFirst with isOpened | done
      · exact Or.inl (List.mem_append_right _ isOpened)
      · exact Or.inr (second.keeps_done done)
    · exact (second.settled vertex fromSecond).imp_left (List.mem_append_left _)
  · intro vertex member
    rcases List.mem_append.mp member with later | earlier
    · exact second.returned vertex later
    · rw [openedKept vertex earlier]
      exact first.returned vertex earlier
  · intro source target reach done child
    have cases : WhiteReach children state starts source ∨
        WhiteReach children final others source := by
      rcases WhiteReach.append_iff.mp reach with fromFirst | fromSecond
      · exact Or.inl fromFirst
      · exact first.reach_split fromSecond
    rcases cases with fromFirst | fromSecond
    · rcases first.settled source fromFirst with isOpened | doneFirst
      · rw [Done, openedKept source isOpened] at done
        exact absurd done (first.invariant.not_done (first.opened_mem isOpened))
      · exact second.keeps_done (first.closed source target fromFirst doneFirst child)
    · exact second.closed source target fromSecond done child
  · intro source target member older child
    rcases List.mem_append.mp member with later | earlier
    · rcases second.complete source target later (first.older_mem older) child with
        ⟨root, isStart, isOpened, atMost⟩
      exact ⟨root, List.mem_append_right _ isStart, List.mem_append_left _ isOpened, atMost⟩
    · rcases first.complete source target earlier older child with ⟨root, isStart, isOpened, atMost⟩
      refine ⟨root, List.mem_append_left _ isStart, List.mem_append_right _ isOpened, ?_⟩
      rw [openedKept root isOpened, olderKept target older]
      exact atMost
  · intro nonempty
    by_cases firstOpened : opened = []
    · have laterNonempty : laterOpened ≠ [] := by
        intro none
        exact nonempty (by rw [none, firstOpened, List.append_nil])
      rcases second.anchored laterNonempty with ⟨root, older, isStart, isOpened, isOlder, equal⟩
      rw [first.stack, firstOpened, List.nil_append] at isOlder
      exact ⟨root, older, List.mem_append_right _ isStart, List.mem_append_left _ isOpened,
        isOlder, equal⟩
    · rcases first.anchored firstOpened with ⟨root, older, isStart, isOpened, isOlder, equal⟩
      refine ⟨root, older, List.mem_append_left _ isStart,
        List.mem_append_right _ isOpened, isOlder, ?_⟩
      rw [openedKept root isOpened, olderKept older isOlder]
      exact equal
  · have fromEarlier : forall vertex older, vertex ∈ opened -> older ∈ state.stack ->
        (final.vertexData vertex).headDfn = (final.vertexData older).dfn ->
          exists source target, source ∈ opened ∧ target ∈ state.stack ∧ target ∈ children source ∧
            minDfn (last.vertexData target) = (last.vertexData older).dfn ∧
            Relation.ReflTransGen (fun before after => after ∈ children before ∧
              after ∈ laterOpened ++ opened)
              vertex source := by
      intro vertex older member isOlder equal
      rcases first.leaves vertex older member isOlder equal with
        ⟨source, target, isOpened, targetOlder, child, reaches, walk⟩
      refine ⟨source, target, isOpened, targetOlder, child, ?_, ?_⟩
      · rw [olderKept target targetOlder, olderKept older isOlder]
        exact reaches
      · exact Relation.ReflTransGen.mono
          (fun _ _ step => ⟨step.1, List.mem_append_right _ step.2⟩) _ _ walk
    intro vertex older member isOlder equal
    rcases List.mem_append.mp member with later | earlier
    · rcases second.leaves vertex older later (first.older_mem isOlder) equal with
        ⟨source, target, isOpened, targetOlder, child, reaches, walk⟩
      have walkAll : Relation.ReflTransGen
          (fun before after => after ∈ children before ∧ after ∈ laterOpened ++ opened)
          vertex source :=
        Relation.ReflTransGen.mono (fun _ _ step =>
          ⟨step.1, List.mem_append_left _ step.2⟩) _ _ walk
      rw [first.stack, List.mem_append] at targetOlder
      rcases targetOlder with targetOpened | targetOlder
      · have targetReturned : (final.vertexData target).headDfn = (final.vertexData older).dfn := by
          rw [openedKept target targetOpened, olderKept older isOlder,
            first.invariant.minDfn_returned (first.opened_mem targetOpened)
              (first.returned target targetOpened)] at reaches
          exact reaches
        rcases fromEarlier target older targetOpened isOlder targetReturned with
          ⟨exit, outside, exitOpened, outsideOlder, exitChild, exitReaches, exitWalk⟩
        exact ⟨exit, outside, List.mem_append_right _ exitOpened, outsideOlder,
          exitChild, exitReaches, (walkAll.tail ⟨child, List.mem_append_right _ targetOpened⟩).trans
          exitWalk⟩
      · exact ⟨source, target, List.mem_append_left _ isOpened, targetOlder, child,
          reaches, walkAll⟩
    · rw [openedKept vertex earlier, olderKept older isOlder] at equal
      rcases fromEarlier vertex older earlier isOlder equal with
        ⟨source, target, isOpened, targetOlder, child, reaches, walk⟩
      exact ⟨source, target, List.mem_append_right _ isOpened, targetOlder, child, reaches, walk⟩

end Contract

end Wto
end Prevail
