import Mathlib

namespace Prevail

universe u

/-!
# Weak topological orders

A weak topological order arranges the vertices of a directed graph in a well
parenthesised list: a component is one vertex, or a cycle whose first
component is a vertex, the head of the cycle.  Every edge leads forward in the
list, except that an edge inside a cycle may lead back to the head of a cycle
that contains its source.

A nested list is kept here in first-child, next-sibling form.  This makes the
component tree an ordinary inductive type, so that every statement below is
proved by the recursion of its definition.
-/

/-- A list of components, the first of them in front.  A `cycle` holds the
list of its own components and the components that follow it. -/
inductive Partition (V : Type u) where
  | nil : Partition V
  | vertex (label : V) (rest : Partition V) : Partition V
  | cycle (components : Partition V) (rest : Partition V) : Partition V
  deriving DecidableEq, Repr

namespace Partition

variable {V : Type u}

/-- The vertices of a partition, from front to back. -/
def members : Partition V -> List V
  | nil => []
  | vertex label rest => label :: rest.members
  | cycle components rest => components.members ++ rest.members

/-- The first component, where it is a vertex. -/
def head? : Partition V -> Option V
  | vertex label _ => some label
  | _ => none

/-- Components of one partition in front of those of another. -/
def append : Partition V -> Partition V -> Partition V
  | nil, tail => tail
  | vertex label rest, tail => vertex label (rest.append tail)
  | cycle components rest, tail => cycle components (rest.append tail)

/-- The heads of all cycles, at any depth. -/
def heads : Partition V -> List V
  | nil => []
  | vertex _ rest => rest.heads
  | cycle components rest => components.head?.toList ++ components.heads ++ rest.heads

/-- The component lists of all cycles, at any depth. -/
def cycles : Partition V -> List (Partition V)
  | nil => []
  | vertex _ rest => rest.cycles
  | cycle components rest => components :: (components.cycles ++ rest.cycles)

/-- The heads of the cycles that no other cycle contains. -/
def outerHeads : Partition V -> List V
  | nil => []
  | vertex _ rest => rest.outerHeads
  | cycle components rest => components.head?.toList ++ rest.outerHeads

/-- No cycle contains another one. -/
def Flat : Partition V -> Prop
  | nil => True
  | vertex _ rest => rest.Flat
  | cycle components rest => components.heads = [] ∧ rest.Flat

instance decidableFlat [DecidableEq V] : (partition : Partition V) -> Decidable partition.Flat
  | nil => inferInstanceAs (Decidable True)
  | vertex _ rest => decidableFlat rest
  | cycle components rest =>
      have := decidableFlat rest
      inferInstanceAs (Decidable (components.heads = [] ∧ rest.Flat))

@[simp] theorem members_nil : (nil : Partition V).members = [] := rfl

@[simp] theorem members_vertex (label : V) (rest : Partition V) :
    (vertex label rest).members = label :: rest.members := rfl

@[simp] theorem members_cycle (components rest : Partition V) :
    (cycle components rest).members = components.members ++ rest.members := rfl

@[simp] theorem nil_append (tail : Partition V) : (nil : Partition V).append tail = tail := rfl

@[simp] theorem members_append (front tail : Partition V) :
    (front.append tail).members = front.members ++ tail.members := by
  induction front with
  | nil => rfl
  | vertex label rest inductionHypothesis => simp [append, inductionHypothesis]
  | cycle components rest _ inductionHypothesis => simp [append, inductionHypothesis]

@[simp] theorem append_nil (partition : Partition V) : partition.append nil = partition := by
  induction partition with
  | nil => rfl
  | vertex label rest inductionHypothesis => simp [append, inductionHypothesis]
  | cycle components rest _ inductionHypothesis => simp [append, inductionHypothesis]

theorem append_assoc (front middle tail : Partition V) :
    (front.append middle).append tail = front.append (middle.append tail) := by
  induction front with
  | nil => rfl
  | vertex label rest inductionHypothesis => simp [append, inductionHypothesis]
  | cycle components rest _ inductionHypothesis => simp [append, inductionHypothesis]

theorem mem_members_of_head? {partition : Partition V} {head : V}
    (first : partition.head? = some head) : head ∈ partition.members := by
  cases partition with
  | nil => cases first
  | vertex label rest =>
      cases first
      exact List.mem_cons_self
  | cycle components rest => cases first

/-- The heads are the first vertices of the cycles. -/
theorem mem_heads_iff {partition : Partition V} {head : V} :
    head ∈ partition.heads ↔ exists components, components ∈ partition.cycles ∧
      components.head? = some head := by
  induction partition with
  | nil => simp [heads, cycles]
  | vertex label rest inductionHypothesis => exact inductionHypothesis
  | cycle components rest componentsHypothesis restHypothesis =>
      simp only [heads, cycles, List.mem_append, Option.mem_toList, List.mem_cons,
        componentsHypothesis, restHypothesis]
      constructor
      · rintro ((first | ⟨inner, member, first⟩) | ⟨later, member, first⟩)
        · exact ⟨components, Or.inl rfl, first⟩
        · exact ⟨inner, Or.inr (Or.inl member), first⟩
        · exact ⟨later, Or.inr (Or.inr member), first⟩
      · rintro ⟨found, rfl | member | member, first⟩
        · exact Or.inl (Or.inl first)
        · exact Or.inl (Or.inr ⟨found, member, first⟩)
        · exact Or.inr ⟨found, member, first⟩

theorem outerHeads_subset_heads (partition : Partition V) :
    partition.outerHeads ⊆ partition.heads := by
  induction partition with
  | nil => exact List.Subset.refl _
  | vertex label rest inductionHypothesis => exact inductionHypothesis
  | cycle components rest _ inductionHypothesis =>
      intro head member
      simp only [outerHeads, heads, List.mem_append] at member ⊢
      rcases member with front | later
      · exact Or.inl (Or.inl front)
      · exact Or.inr (inductionHypothesis later)

theorem heads_subset_members (partition : Partition V) : partition.heads ⊆ partition.members := by
  induction partition with
  | nil => exact List.Subset.refl _
  | vertex label rest inductionHypothesis =>
      exact fun head member => List.mem_cons_of_mem _ (inductionHypothesis member)
  | cycle components rest componentsHypothesis restHypothesis =>
      intro head member
      simp only [heads, members, List.mem_append, Option.mem_toList] at member ⊢
      rcases member with (front | inner) | later
      · exact Or.inl (mem_members_of_head? front)
      · exact Or.inl (componentsHypothesis inner)
      · exact Or.inr (restHypothesis later)

theorem outerHeads_nodup {partition : Partition V} (distinct : partition.members.Nodup) :
    partition.outerHeads.Nodup := by
  induction partition with
  | nil => exact List.nodup_nil
  | vertex label rest inductionHypothesis =>
    exact inductionHypothesis (List.nodup_cons.mp distinct).2
  | cycle components rest _ inductionHypothesis =>
      rcases List.nodup_append.mp distinct with ⟨_, restDistinct, disjoint⟩
      refine List.nodup_append.mpr ⟨?_, inductionHypothesis restDistinct, ?_⟩
      · cases components.head? <;> simp
      · intro head isHead other isOuter same
        subst same
        exact disjoint head (mem_members_of_head? (Option.mem_toList.mp isHead)) head
          (rest.heads_subset_members (rest.outerHeads_subset_heads isOuter)) rfl

theorem heads_eq_outerHeads_of_flat {partition : Partition V} (flat : partition.Flat) :
    partition.heads = partition.outerHeads := by
  induction partition with
  | nil => rfl
  | vertex label rest inductionHypothesis => exact inductionHypothesis flat
  | cycle components rest _ inductionHypothesis =>
      simp only [heads, outerHeads, flat.1, inductionHypothesis flat.2, List.append_nil]

end Partition

/-! ## Order with respect to a graph -/

namespace Partition

variable {V : Type u} (edge : V -> V -> Prop)

/-- Every edge from a member leads forward, to the head of a cycle around its
source, or into `outer`.  A cycle begins with a vertex, and its components may
lead back to that vertex. -/
def Ordered : Partition V -> Set V -> Prop
  | nil, _ => True
  | vertex label rest, outer =>
      (forall target, edge label target -> target ∈ rest.members ∨ target ∈ outer) ∧
        rest.Ordered outer
  | cycle components rest, outer =>
      (exists head, components.head? = some head ∧
        components.Ordered (outer ∪ {target | target ∈ rest.members} ∪ {head})) ∧
        rest.Ordered outer

/-- Every cycle component is a cycle of the graph: its head reaches itself
through members of that component. -/
def Cyclic : Partition V -> Prop
  | nil => True
  | vertex _ rest => rest.Cyclic
  | cycle components rest =>
      (forall head, components.head? = some head ->
        Relation.TransGen (fun source target => edge source target ∧
          target ∈ components.members) head head) ∧
        components.Cyclic ∧ rest.Cyclic

/-- Every member of a cycle returns to its head through members of the cycle. -/
def Returning : Partition V -> Prop
  | nil => True
  | vertex _ rest => rest.Returning
  | cycle components rest =>
      (forall head, components.head? = some head -> ∀ member ∈ components.members,
        Relation.ReflTransGen (fun source target => edge source target ∧
          target ∈ components.members) member head) ∧
        components.Returning ∧ rest.Returning

variable {edge}

theorem Ordered.mono {partition : Partition V} {outer wider : Set V}
    (ordered : partition.Ordered edge outer) (subset : outer ⊆ wider) :
    partition.Ordered edge wider := by
  induction partition generalizing outer wider with
  | nil => trivial
  | vertex label rest inductionHypothesis =>
      refine ⟨?_, inductionHypothesis ordered.2 subset⟩
      intro target follows
      exact (ordered.1 target follows).imp_right (fun member => subset member)
  | cycle components rest componentsHypothesis restHypothesis =>
      rcases ordered with ⟨⟨head, first, inner⟩, later⟩
      refine ⟨⟨head, first, componentsHypothesis inner ?_⟩, restHypothesis later subset⟩
      exact Set.union_subset_union_left _ (Set.union_subset_union_left _ subset)

/-- Two ordered partitions concatenate when the first may lead into the
second. -/
theorem Ordered.append {front tail : Partition V} {outer : Set V}
    (frontOrdered : front.Ordered edge (outer ∪ {target | target ∈ tail.members}))
    (tailOrdered : tail.Ordered edge outer) : (front.append tail).Ordered edge outer := by
  induction front with
  | nil => exact tailOrdered
  | vertex label rest inductionHypothesis =>
      refine ⟨?_, inductionHypothesis frontOrdered.2⟩
      intro target follows
      rw [members_append, List.mem_append]
      rcases frontOrdered.1 target follows with member | member | member
      · exact Or.inl (Or.inl member)
      · exact Or.inr member
      · exact Or.inl (Or.inr member)
  | cycle components rest _ inductionHypothesis =>
      rcases frontOrdered with ⟨⟨head, first, inner⟩, later⟩
      refine ⟨⟨head, first, inner.mono ?_⟩, inductionHypothesis later⟩
      intro target member
      simp only [Set.mem_union, Set.mem_ofPred_eq, Set.mem_singleton_iff, members_append,
        List.mem_append] at member ⊢
      tauto

theorem Cyclic.append {front tail : Partition V}
    (frontCyclic : front.Cyclic edge) (tailCyclic : tail.Cyclic edge) :
    (front.append tail).Cyclic edge := by
  induction front with
  | nil => exact tailCyclic
  | vertex label rest inductionHypothesis => exact inductionHypothesis frontCyclic
  | cycle components rest _ inductionHypothesis =>
      exact ⟨frontCyclic.1, frontCyclic.2.1, inductionHypothesis frontCyclic.2.2⟩

theorem Returning.append {front tail : Partition V}
    (frontReturning : front.Returning edge) (tailReturning : tail.Returning edge) :
    (front.append tail).Returning edge := by
  induction front with
  | nil => exact tailReturning
  | vertex label rest inductionHypothesis => exact inductionHypothesis frontReturning
  | cycle components rest _ inductionHypothesis =>
      exact ⟨frontReturning.1, frontReturning.2.1, inductionHypothesis frontReturning.2.2⟩

/-- Every member of a cycle other than its head has a successor in the cycle. -/
theorem Returning.exists_successor {partition components : Partition V}
    (returning : partition.Returning edge)
    (listed : components ∈ partition.cycles) {head member : V}
    (first : components.head? = some head)
    (inside : member ∈ components.members) (different : member ≠ head) :
    exists next, edge member next ∧ next ∈ components.members := by
  induction partition with
  | nil => cases listed
  | vertex label rest inductionHypothesis => exact inductionHypothesis returning listed
  | cycle inner rest innerHypothesis restHypothesis =>
      rcases returning with ⟨own, innerReturning, restReturning⟩
      rcases List.mem_cons.mp listed with rfl | deeper
      · rcases (own head first member inside).cases_head with same | ⟨next, step, _⟩
        · exact absurd same different
        · exact ⟨next, step⟩
      · rcases List.mem_append.mp deeper with within | after
        · exact innerHypothesis innerReturning within
        · exact restHypothesis restReturning after

/-- The head of a cycle has a predecessor in the cycle. -/
theorem Cyclic.exists_predecessor {partition components : Partition V}
    (cyclic : partition.Cyclic edge)
    (listed : components ∈ partition.cycles) {head : V} (first : components.head? = some head) :
    exists last, edge last head ∧ last ∈ components.members := by
  induction partition with
  | nil => cases listed
  | vertex label rest inductionHypothesis => exact inductionHypothesis cyclic listed
  | cycle inner rest innerHypothesis restHypothesis =>
      rcases cyclic with ⟨own, innerCyclic, restCyclic⟩
      rcases List.mem_cons.mp listed with rfl | deeper
      · rcases Relation.TransGen.tail'_iff.mp (own head first) with ⟨last, walk, step, _⟩
        refine ⟨last, step, ?_⟩
        rcases walk.cases_tail with same | ⟨_, _, before⟩
        · exact same ▸ mem_members_of_head? first
        · exact before.2
      · rcases List.mem_append.mp deeper with within | after
        · exact innerHypothesis innerCyclic within
        · exact restHypothesis restCyclic after

/-- An edge out of a member ends at a member or in `outer`. -/
theorem Ordered.target_mem {partition : Partition V} {outer : Set V}
    (ordered : partition.Ordered edge outer) {source target : V}
    (member : source ∈ partition.members) (follows : edge source target) :
    target ∈ partition.members ∨ target ∈ outer := by
  induction partition generalizing outer with
  | nil => cases member
  | vertex label rest inductionHypothesis =>
      rw [members_vertex, List.mem_cons] at member ⊢
      rcases member with same | later
      · subst same
        exact (ordered.1 target follows).imp_left Or.inr
      · exact (inductionHypothesis ordered.2 later).imp_left Or.inr
  | cycle components rest componentsHypothesis restHypothesis =>
      rcases ordered with ⟨⟨head, first, inner⟩, later⟩
      rw [members_cycle, List.mem_append] at member ⊢
      rcases member with inside | after
      · rcases componentsHypothesis inner inside with found | ((found | found) | found)
        · exact Or.inl (Or.inl found)
        · exact Or.inr found
        · exact Or.inl (Or.inr found)
        · have isHead : target = head := found
          subst isHead
          exact Or.inl (Or.inl (mem_members_of_head? first))
      · exact (restHypothesis later after).imp_left Or.inr

/-! ## Every closed walk meets a head -/

/-- The position order of a list: the first element occurs at a smaller index. -/
def Before [DecidableEq V] (partition : Partition V) (source target : V) : Prop :=
  partition.members.idxOf source < partition.members.idxOf target

theorem Ordered.exists_head {partition : Partition V} {outer : Set V}
    (ordered : partition.Ordered edge outer)
    {components : Partition V} (member : components ∈ partition.cycles) :
    exists head, components.head? = some head := by
  induction partition generalizing outer with
  | nil => cases member
  | vertex label rest inductionHypothesis => exact inductionHypothesis ordered.2 member
  | cycle inner rest innerHypothesis restHypothesis =>
      rcases ordered with ⟨⟨head, first, innerOrdered⟩, later⟩
      rcases List.mem_cons.mp member with same | deeper
      · exact ⟨head, same ▸ first⟩
      · rcases List.mem_append.mp deeper with inside | after
        · exact innerHypothesis innerOrdered inside
        · exact restHypothesis later after

/-- An edge between members leads to a later position, or to the head of a
cycle around its source. -/
theorem Ordered.before_or_encloses [DecidableEq V] {partition : Partition V} {outer : Set V}
    (ordered : partition.Ordered edge outer) (distinct : partition.members.Nodup)
    {source target : V} (sourceMember : source ∈ partition.members)
    (targetMember : target ∈ partition.members) (targetInner : target ∉ outer)
    (follows : edge source target) : partition.Before source target ∨
      exists components, components ∈ partition.cycles ∧ components.head? = some target ∧
        source ∈ components.members := by
  induction partition generalizing outer with
  | nil => cases sourceMember
  | vertex label rest inductionHypothesis =>
      rw [members_vertex] at distinct sourceMember targetMember
      have labelLater : label ∉ rest.members := (List.nodup_cons.mp distinct).1
      unfold Before
      rw [members_vertex]
      rcases List.mem_cons.mp sourceMember with same | later
      · subst same
        left
        have targetLater : target ∈ rest.members :=
          (ordered.1 target follows).resolve_right targetInner
        have different : source ≠ target := fun equal => labelLater (equal ▸ targetLater)
        simp [List.idxOf_cons_ne _ different]
      · have targetLater : target ∈ rest.members :=
          (ordered.2.target_mem later follows).resolve_right targetInner
        have sourceDifferent : label ≠ source := fun equal => labelLater (equal ▸ later)
        have targetDifferent : label ≠ target := fun equal => labelLater (equal ▸ targetLater)
        rcases inductionHypothesis ordered.2 (List.nodup_cons.mp distinct).2 later
          targetLater targetInner
          with before | encloses
        · left
          rw [List.idxOf_cons_ne _ sourceDifferent, List.idxOf_cons_ne _ targetDifferent]
          exact Nat.succ_lt_succ before
        · exact Or.inr encloses
  | cycle components rest componentsHypothesis restHypothesis =>
      rcases ordered with ⟨⟨head, first, inner⟩, later⟩
      rw [members_cycle] at distinct sourceMember targetMember
      rcases List.nodup_append.mp distinct with ⟨innerDistinct, restDistinct, disjoint⟩
      unfold Before
      rw [members_cycle]
      rcases List.mem_append.mp sourceMember with sourceInside | sourceAfter
      · by_cases targetAfter : target ∈ rest.members
        · left
          have targetOutside : target ∉ components.members :=
            fun inside => disjoint target inside target targetAfter rfl
          rw [List.idxOf_append_of_mem sourceInside, List.idxOf_append_of_notMem targetOutside]
          exact Nat.lt_of_lt_of_le (List.idxOf_lt_length_of_mem sourceInside) (Nat.le_add_right _ _)
        · have targetInside : target ∈ components.members :=
            (List.mem_append.mp targetMember).resolve_right targetAfter
          by_cases isHead : target = head
          · exact Or.inr ⟨components, List.mem_cons_self, isHead ▸ first, sourceInside⟩
          · have notOuter : target ∉ outer ∪ {target | target ∈ rest.members} ∪ {head} := by
              rintro ((found | found) | found)
              · exact targetInner found
              · exact targetAfter found
              · exact isHead found
            rcases componentsHypothesis inner innerDistinct sourceInside targetInside notOuter
              with before | ⟨inner, member, isFirst, around⟩
            · left
              rw [List.idxOf_append_of_mem sourceInside, List.idxOf_append_of_mem targetInside]
              exact before
            · exact Or.inr ⟨inner, List.mem_cons_of_mem _ (List.mem_append_left _ member),
                isFirst, around⟩
      · have targetAfter : target ∈ rest.members :=
          (later.target_mem sourceAfter follows).resolve_right targetInner
        have sourceOutside : source ∉ components.members :=
          fun inside => disjoint source inside source sourceAfter rfl
        have targetOutside : target ∉ components.members :=
          fun inside => disjoint target inside target targetAfter rfl
        rcases restHypothesis later restDistinct sourceAfter targetAfter targetInner with
          before | ⟨inner, member, isFirst, around⟩
        · left
          rw [List.idxOf_append_of_notMem sourceOutside, List.idxOf_append_of_notMem targetOutside]
          exact Nat.add_lt_add_left before _
        · exact Or.inr ⟨inner, List.mem_cons_of_mem _ (List.mem_append_right _ member),
            isFirst, around⟩

/-- An edge between members leads to the head of a cycle, or to a later
position. -/
theorem Ordered.head_or_before [DecidableEq V] {partition : Partition V} {outer : Set V}
    (ordered : partition.Ordered edge outer) (distinct : partition.members.Nodup)
    {source target : V} (sourceMember : source ∈ partition.members)
    (targetMember : target ∈ partition.members) (targetInner : target ∉ outer)
    (follows : edge source target) : target ∈ partition.heads ∨ partition.Before source target := by
  rcases ordered.before_or_encloses distinct sourceMember targetMember targetInner follows with
    before | ⟨components, member, first, _⟩
  · exact Or.inr before
  · exact Or.inl (mem_heads_iff.mpr ⟨components, member, first⟩)

/-- A walk inside an ordered partition that avoids every head moves strictly
forward, so it never returns to its start. -/
theorem Ordered.no_closed_walk_avoiding_heads [DecidableEq V] {partition : Partition V}
    (ordered : partition.Ordered edge ∅) (distinct : partition.members.Nodup) {start : V}
    (member : start ∈ partition.members)
    (walk : Relation.TransGen (fun source target => edge source target ∧
      target ∉ partition.heads) start start) :
    False := by
  have forward : forall finish,
      Relation.TransGen (fun source target => edge source target ∧
        target ∉ partition.heads) start finish -> finish ∈ partition.members ∧
        partition.Before start finish := by
    intro finish reached
    induction reached with
    | single step =>
        have targetMember := (ordered.target_mem member step.1).resolve_right (Set.notMem_empty _)
        exact ⟨targetMember,
          (ordered.head_or_before distinct member targetMember
            (Set.notMem_empty _) step.1).resolve_left step.2⟩
    | tail _ step inductionHypothesis =>
        have targetMember :=
          (ordered.target_mem inductionHypothesis.1 step.1).resolve_right (Set.notMem_empty _)
        have before :=
          (ordered.head_or_before distinct inductionHypothesis.1 targetMember (Set.notMem_empty _)
            step.1).resolve_left step.2
        exact ⟨targetMember, Nat.lt_trans inductionHypothesis.2 before⟩
  exact Nat.lt_irrefl _ (forward start walk).2

/-- The consecutive vertices of a list that ends where it began give a closed
walk through targets of the list. -/
theorem closed_walk_of_isChain {first : V} {rest : List V}
    (chain : List.IsChain edge (first :: rest))
    (closing : edge ((first :: rest).getLast (List.cons_ne_nil _ _)) first) :
    Relation.TransGen (fun source target => edge source target ∧
      target ∈ first :: rest) first first := by
  have prefixes : forall (start : V) (later : List V),
      later ⊆ first :: rest -> List.IsChain edge (start ::
        later) -> Relation.ReflTransGen (fun source target => edge source target ∧
          target ∈ first :: rest) start
        ((start :: later).getLast (List.cons_ne_nil _ _)) := by
    intro start later
    induction later generalizing start with
    | nil => exact fun _ _ => Relation.ReflTransGen.refl
    | cons next later inductionHypothesis =>
        intro subset walk
        rcases List.isChain_cons_cons.mp walk with ⟨step, remaining⟩
        rw [List.getLast_cons (List.cons_ne_nil _ _)]
        exact Relation.ReflTransGen.head ⟨step, subset List.mem_cons_self⟩
          (inductionHypothesis next (fun other member =>
            subset (List.mem_cons_of_mem _ member)) remaining)
  exact Relation.TransGen.tail' (prefixes first rest (List.subset_cons_self _ _) chain)
    ⟨closing, List.mem_cons_self⟩

/-- Every directed cycle of members contains the head of some component. -/
theorem Ordered.exists_head_on_cycle [DecidableEq V] {partition : Partition V}
    (ordered : partition.Ordered edge ∅) (distinct : partition.members.Nodup) {first : V}
    {rest : List V} (member : first ∈ partition.members) (chain : List.IsChain edge (first :: rest))
    (closing : edge ((first :: rest).getLast (List.cons_ne_nil _ _)) first) :
    exists head, head ∈ first :: rest ∧ head ∈ partition.heads := by
  by_contra none
  apply ordered.no_closed_walk_avoiding_heads distinct member
  refine Relation.TransGen.mono ?_ _ _ (closed_walk_of_isChain chain closing)
  intro source target step
  exact ⟨step.1, fun isHead => none ⟨target, step.2, isHead⟩⟩

theorem Cyclic.exists_closed_walk {partition : Partition V} (cyclic : partition.Cyclic edge)
    (nonempty : partition.heads ≠ []) : exists start,
      Relation.TransGen (fun source target => edge source target ∧
      target ∈ partition.members) start start := by
  induction partition with
  | nil => exact absurd rfl nonempty
  | vertex label rest inductionHypothesis =>
      rcases inductionHypothesis cyclic nonempty with ⟨start, walk⟩
      exact ⟨start, Relation.TransGen.mono
        (fun _ _ step => ⟨step.1, List.mem_cons_of_mem _ step.2⟩) _ _ walk⟩
  | cycle components rest componentsHypothesis restHypothesis =>
      rcases cyclic with ⟨own, componentsCyclic, restCyclic⟩
      have ofComponents : forall start,
          Relation.TransGen (fun source target => edge source target ∧ target ∈ components.members)
          start start -> exists start, Relation.TransGen
            (fun source target => edge source target ∧ target ∈ (cycle components rest).members)
            start start :=
        fun start walk => ⟨start, Relation.TransGen.mono
          (fun _ _ step => ⟨step.1, List.mem_append_left _ step.2⟩) _ _ walk⟩
      cases first : components.head? with
      | some head => exact ofComponents head (own head first)
      | none =>
          by_cases inner : components.heads = []
          · have later : rest.heads ≠ [] := by
              simpa [heads, first, inner] using nonempty
            rcases restHypothesis restCyclic later with ⟨start, walk⟩
            exact ⟨start, Relation.TransGen.mono
              (fun _ _ step => ⟨step.1, List.mem_append_right _ step.2⟩) _ _ walk⟩
          · rcases componentsHypothesis componentsCyclic inner with ⟨start, walk⟩
            exact ofComponents start walk

/-- Where a cycle contains another one, some closed walk avoids the heads of
the outermost cycles. -/
theorem Cyclic.exists_closed_walk_avoiding_outerHeads {partition : Partition V}
    (cyclic : partition.Cyclic edge)
    (distinct : partition.members.Nodup) (nested : ¬ partition.Flat) : exists start,
      Relation.TransGen (fun source target => edge source target ∧ target ∈ partition.members ∧
        target ∉ partition.outerHeads) start start := by
  induction partition with
  | nil => exact absurd trivial nested
  | vertex label rest inductionHypothesis =>
      rcases inductionHypothesis cyclic (List.nodup_cons.mp distinct).2 nested with ⟨start, walk⟩
      exact ⟨start, Relation.TransGen.mono
        (fun _ _ step => ⟨step.1, List.mem_cons_of_mem _ step.2.1, step.2.2⟩) _ _ walk⟩
  | cycle components rest _ inductionHypothesis =>
      rcases cyclic with ⟨_, componentsCyclic, restCyclic⟩
      rcases List.nodup_append.mp distinct with ⟨componentsDistinct, restDistinct, disjoint⟩
      by_cases inner : components.heads = []
      · have restNested : ¬ rest.Flat := fun flat => nested ⟨inner, flat⟩
        rcases inductionHypothesis restCyclic restDistinct restNested with ⟨start, walk⟩
        refine ⟨start, Relation.TransGen.mono ?_ _ _ walk⟩
        rintro source target ⟨follows, member, notOuter⟩
        refine ⟨follows, List.mem_append_right _ member, ?_⟩
        simp only [outerHeads, List.mem_append, Option.mem_toList, not_or]
        refine ⟨?_, notOuter⟩
        intro isHead
        exact disjoint target (mem_members_of_head? isHead) target member rfl
      · have avoiding : exists start, Relation.TransGen (fun source target => edge source target ∧
            target ∈ components.members ∧ components.head? ≠ some target) start start := by
          cases components with
          | nil => exact absurd rfl inner
          | vertex head body =>
              have bodyCyclic : body.Cyclic edge := componentsCyclic
              rcases bodyCyclic.exists_closed_walk inner with ⟨start, walk⟩
              refine ⟨start, Relation.TransGen.mono ?_ _ _ walk⟩
              rintro source target ⟨follows, member⟩
              refine ⟨follows, List.mem_cons_of_mem _ member, ?_⟩
              intro same
              cases same
              exact (List.nodup_cons.mp componentsDistinct).1 member
          | cycle first others =>
              rcases Cyclic.exists_closed_walk componentsCyclic inner with ⟨start, walk⟩
              refine ⟨start, Relation.TransGen.mono ?_ _ _ walk⟩
              rintro source target ⟨follows, member⟩
              exact ⟨follows, member, fun same => by cases same⟩
        rcases avoiding with ⟨start, walk⟩
        refine ⟨start, Relation.TransGen.mono ?_ _ _ walk⟩
        rintro source target ⟨follows, member, notHead⟩
        refine ⟨follows, List.mem_append_left _ member, ?_⟩
        simp only [outerHeads, List.mem_append, Option.mem_toList, not_or]
        refine ⟨notHead, ?_⟩
        intro isOuter
        exact disjoint target member target
          (rest.heads_subset_members (rest.outerHeads_subset_heads isOuter)) rfl

end Partition

/-! ## Closed walks -/

/-- Each step of a closed walk ends at a vertex from which the walk returns to
its start. -/
theorem transGen_with_source {V : Type u} {relation : V -> V -> Prop} {start : V}
    (walk : Relation.TransGen relation start start) :
    Relation.TransGen (fun source target => relation source target ∧
      Relation.ReflTransGen relation target start)
      start start := by
  have suffixes : forall source, Relation.TransGen relation source start ->
      Relation.TransGen (fun source target => relation source target ∧
        Relation.ReflTransGen relation target start) source start := by
    intro source reached
    induction reached using Relation.TransGen.head_induction_on with
    | single step => exact Relation.TransGen.single ⟨step, Relation.ReflTransGen.refl⟩
    | head step later inductionHypothesis =>
      exact inductionHypothesis.head ⟨step, later.to_reflTransGen⟩
  exact suffixes start walk

/-- On a closed walk every vertex has a predecessor and a successor on the
walk. -/
theorem closed_walk_restrict {V : Type u} {relation : V -> V -> Prop} {start : V}
    (walk : Relation.TransGen relation start start) :
    Relation.TransGen (fun source target => relation source target ∧
      (exists before, relation before source) ∧ exists after, relation target after)
      start start := by
  rcases Relation.TransGen.tail'_iff.mp walk with ⟨last, _, lastStep⟩
  rcases Relation.TransGen.head'_iff.mp walk with ⟨next, nextStep, _⟩
  have prefixes : forall finish, Relation.TransGen relation start finish ->
      (exists after, relation finish after) ->
      Relation.TransGen (fun source target => relation source target ∧
        (exists before, relation before source) ∧ exists after, relation target after)
        start finish := by
    intro finish reached
    induction reached with
    | single step => exact fun after => Relation.TransGen.single ⟨step, ⟨last, lastStep⟩, after⟩
    | @tail middle finish before step inductionHypothesis =>
        intro after
        rcases Relation.TransGen.tail'_iff.mp before with ⟨previous, _, previousStep⟩
        exact (inductionHypothesis ⟨finish, step⟩).tail ⟨step, ⟨previous, previousStep⟩, after⟩
  exact prefixes start walk ⟨next, nextStep⟩

end Prevail
