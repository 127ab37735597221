import Prevail.Library.WeakOrder

namespace Prevail

universe u

/-!
# Nested cycles

The cycles of a partition that contain a vertex form a chain.  The heads of the
chain, from the innermost cycle outwards and without the cycle of which the
vertex is the head itself, say where the vertex lies.

A chain has the outermost cycles of another one exactly if it has all its
cycles.
-/

/-- A list that is sorted by a relation ends in each sorted list of its members that is
closed upwards. -/
theorem suffix_of_upward_closed {A : Type u} {relation : A -> A -> Prop} {list : List A}
    (sorted : list.Pairwise relation)
    (asymmetric : ∀ first ∈ list, ∀ second ∈ list, relation first second ->
      ¬ relation second first) {part : List A} (partSorted : part.Pairwise relation)
      (inside : part ⊆ list)
    (closed : ∀ first ∈ part, ∀ second ∈ list, relation first second -> second ∈ part) :
    part <:+ list := by
  induction list with
  | nil => exact List.subset_nil.mp inside ▸ List.suffix_refl _
  | cons first rest inductionHypothesis =>
      rcases List.pairwise_cons.mp sorted with ⟨below, restSorted⟩
      have irreflexive : ∀ item ∈ first :: rest, ¬ relation item item :=
        fun item member again => asymmetric item member item member again again
      by_cases present : first ∈ part
      · -- All of the list is in the part.
        have whole : first :: rest ⊆ part := by
          intro item member
          rcases List.mem_cons.mp member with rfl | later
          · exact present
          · exact closed first present item member (below item later)
        have nodup : forall {items : List A},
            items ⊆ first :: rest -> items.Pairwise relation -> items.Nodup := by
          intro items subset itemsSorted
          refine List.Pairwise.imp_of_mem ?_ itemsSorted
          intro left right member _ related same
          exact irreflexive left (subset member) (same ▸ related)
        have perm : part.Perm (first :: rest) :=
          (List.perm_ext_iff_of_nodup (nodup inside partSorted)
            (nodup (List.Subset.refl _) sorted)).mpr
            (fun _ => ⟨fun member => inside member, fun member => whole member⟩)
        have equal : part = first :: rest := by
          refine List.Perm.eq_of_pairwise ?_ partSorted sorted perm
          intro left right leftMember rightMember related back
          exact absurd back (asymmetric left (inside leftMember) right rightMember related)
        exact equal ▸ List.suffix_refl _
      · have inRest : part ⊆ rest := by
          intro item member
          rcases List.mem_cons.mp (inside member) with rfl | later
          · exact absurd member present
          · exact later
        have suffix := inductionHypothesis restSorted
          (fun left leftMember right rightMember =>
            asymmetric left (List.mem_cons_of_mem _ leftMember) right
            (List.mem_cons_of_mem _ rightMember)) inRest
          (fun left member right rightMember =>
            closed left member right (List.mem_cons_of_mem _ rightMember))
        exact suffix.trans (List.suffix_cons ..)

namespace Partition

variable {V : Type u}

/-- Every cycle begins with a vertex. -/
def Headed (partition : Partition V) : Prop :=
  ∀ components ∈ partition.cycles, exists head, components.head? = some head

/-- The heads of the cycles around a vertex, behind which are those of the cycles around
the whole partition. -/
def Enclosed (outer : List V) : Partition V -> V -> List V -> Prop
  | nil, _, _ => False
  | vertex first rest, label, heads => (label =
    first ∧ heads = outer) ∨ Enclosed outer rest label heads
  | cycle components rest, label, heads =>
      (components.head? = some label ∧ heads = outer) ∨
        (exists head, components.head? = some head ∧ label ≠ head ∧
          Enclosed (head :: outer) components label heads) ∨ Enclosed outer rest label heads

/-- A cycle contains the label, and has another head. -/
def StrictlyAround (partition : Partition V) (head label : V) : Prop :=
  head ≠ label ∧ ∃ components ∈ partition.cycles, components.head? = some head ∧
    label ∈ components.members

/-- The cycle of one head lies in the cycle of another one, and does not contain its head. -/
def Within (partition : Partition V) (inner outer : V) : Prop :=
  ∀ small ∈ partition.cycles, ∀ large ∈ partition.cycles, small.head? = some inner ->
    large.head? = some outer -> small.members ⊆ large.members ∧ outer ∉ small.members

theorem members_of_mem_cycles {partition components : Partition V}
    (member : components ∈ partition.cycles) :
    components.members ⊆ partition.members := by
  induction partition with
  | nil => cases member
  | vertex label rest inductionHypothesis =>
      exact fun found inside => List.mem_cons_of_mem _ (inductionHypothesis member inside)
  | cycle inner rest innerHypothesis restHypothesis =>
      intro found inside
      rw [members_cycle, List.mem_append]
      rcases List.mem_cons.mp member with rfl | deeper
      · exact Or.inl inside
      · rcases List.mem_append.mp deeper with within | after
        · exact Or.inl (innerHypothesis within inside)
        · exact Or.inr (restHypothesis after inside)

theorem Ordered.headed {edge : V -> V -> Prop} {partition : Partition V} {outer : Set V}
    (ordered : partition.Ordered edge outer) : partition.Headed :=
  fun _ member => ordered.exists_head member

theorem Enclosed.mem {partition : Partition V} {outer heads : List V} {label : V}
    (enclosed : partition.Enclosed outer label heads) : label ∈ partition.members := by
  induction partition generalizing outer with
  | nil => exact enclosed.elim
  | vertex first rest inductionHypothesis =>
      rcases enclosed with ⟨rfl, _⟩ | later
      · exact List.mem_cons_self
      · exact List.mem_cons_of_mem _ (inductionHypothesis later)
  | cycle components rest componentsHypothesis restHypothesis =>
      rw [members_cycle, List.mem_append]
      rcases enclosed with ⟨first, _⟩ | ⟨head, _, _, inside⟩ | later
      · exact Or.inl (mem_members_of_head? first)
      · exact Or.inl (componentsHypothesis inside)
      · exact Or.inr (restHypothesis later)

theorem exists_enclosed {partition : Partition V} (headed : partition.Headed) {label : V}
    (member : label ∈ partition.members) (outer : List V) :
    exists heads, partition.Enclosed outer label heads := by
  classical
  induction partition generalizing outer with
  | nil => cases member
  | vertex first rest inductionHypothesis =>
      rcases List.mem_cons.mp member with same | later
      · exact ⟨outer, Or.inl ⟨same, rfl⟩⟩
      · rcases inductionHypothesis headed later outer with ⟨heads, enclosed⟩
        exact ⟨heads, Or.inr enclosed⟩
  | cycle components rest componentsHypothesis restHypothesis =>
      rcases List.mem_append.mp member with inside | later
      · rcases headed components List.mem_cons_self with ⟨head, first⟩
        by_cases same : label = head
        · exact ⟨outer, Or.inl ⟨same ▸ first, rfl⟩⟩
        · have inner : components.Headed := fun found listed =>
            headed found (List.mem_cons_of_mem _ (List.mem_append_left _ listed))
          rcases componentsHypothesis inner inside (head :: outer) with ⟨heads, enclosed⟩
          exact ⟨heads, Or.inr (Or.inl ⟨head, first, same, enclosed⟩)⟩
      · have after : rest.Headed := fun found listed =>
          headed found (List.mem_cons_of_mem _ (List.mem_append_right _ listed))
        rcases restHypothesis after later outer with ⟨heads, enclosed⟩
        exact ⟨heads, Or.inr (Or.inr enclosed)⟩

/-- What the chain of a label is, behind which the chain around the partition follows. -/
structure ChainOf (partition : Partition V) (label : V) (chain : List V) : Prop where
  mem_iff : forall head, head ∈ chain ↔ partition.StrictlyAround head label
  sorted : chain.Pairwise partition.Within

theorem StrictlyAround.head_mem {partition : Partition V} {head label : V}
    (around : partition.StrictlyAround head label) :
    head ∈ partition.members ∧ label ∈ partition.members := by
  rcases around with ⟨_, components, listed, first, inside⟩
  have subset := members_of_mem_cycles listed
  exact ⟨subset (mem_members_of_head? first), subset inside⟩

theorem strictlyAround_of_rest {components rest : Partition V}
    (disjoint : ∀ label ∈ components.members, label ∉ rest.members)
    {head label : V} (later : label ∈ rest.members) :
    (cycle components rest).StrictlyAround head label ↔ rest.StrictlyAround head label := by
  constructor
  · rintro ⟨other, found, listed, first, inside⟩
    refine ⟨other, found, ?_, first, inside⟩
    rcases List.mem_cons.mp listed with rfl | deeper
    · exact absurd later (disjoint label inside)
    · rcases List.mem_append.mp deeper with within | after
      · exact absurd later (disjoint label (members_of_mem_cycles within inside))
      · exact after
  · rintro ⟨other, found, listed, first, inside⟩
    exact ⟨other, found, List.mem_cons_of_mem _ (List.mem_append_right _ listed), first, inside⟩

theorem strictlyAround_of_inside {inner rest : Partition V} {own : V}
    (disjoint : ∀ label ∈ (vertex own inner).members, label ∉ rest.members)
    (fresh : own ∉ inner.members) {head label : V} (inside : label ∈ inner.members) :
    (cycle (vertex own inner) rest).StrictlyAround head label ↔ head = own ∨
      inner.StrictlyAround head label := by
  have different : own ≠ label := fun same => fresh (same ▸ inside)
  constructor
  · rintro ⟨other, found, listed, first, member⟩
    rcases List.mem_cons.mp listed with rfl | deeper
    · exact Or.inl (Option.some.inj first).symm
    · rcases List.mem_append.mp deeper with within | after
      · exact Or.inr ⟨other, found, within, first, member⟩
      · exact absurd (members_of_mem_cycles after member)
          (disjoint label (List.mem_cons_of_mem _ inside))
  · rintro (rfl | ⟨other, found, listed, first, member⟩)
    · exact ⟨different, _, List.mem_cons_self, rfl, List.mem_cons_of_mem _ inside⟩
    · exact ⟨other, found, List.mem_cons_of_mem _ (List.mem_append_left _ listed), first, member⟩

theorem within_of_rest {components rest : Partition V}
    (disjoint : ∀ label ∈ components.members, label ∉ rest.members)
    {inner outer : V} (innerMember : inner ∈ rest.members) (outerMember : outer ∈ rest.members)
    (within : rest.Within inner outer) : (cycle components rest).Within inner outer := by
  have inRest : forall {found : Partition V} {head : V}, found ∈ (cycle components rest).cycles ->
      found.head? = some head -> head ∈ rest.members -> found ∈ rest.cycles := by
    intro found head listed first member
    have inside := mem_members_of_head? first
    rcases List.mem_cons.mp listed with rfl | deeper
    · exact absurd member (disjoint head inside)
    · rcases List.mem_append.mp deeper with within | after
      · exact absurd member (disjoint head (members_of_mem_cycles within inside))
      · exact after
  intro small smallListed large largeListed smallHead largeHead
  exact within small (inRest smallListed smallHead innerMember) large
    (inRest largeListed largeHead outerMember)
    smallHead largeHead

theorem cycle_of_inside {inner rest : Partition V} {own : V}
    (disjoint : ∀ label ∈ (vertex own inner).members, label ∉ rest.members)
    (fresh : own ∉ inner.members)
    {found : Partition V} {head : V} (listed : found ∈ (cycle (vertex own inner) rest).cycles)
    (first : found.head? = some head) (member : head ∈ inner.members) : found ∈ inner.cycles := by
  rcases List.mem_cons.mp listed with rfl | deeper
  · exact absurd (Option.some.inj first ▸ member) fresh
  · rcases List.mem_append.mp deeper with within | after
    · exact within
    · exact absurd (members_of_mem_cycles after (mem_members_of_head? first))
        (disjoint head (List.mem_cons_of_mem _ member))

theorem cycle_of_own {inner rest : Partition V} {own : V}
    (disjoint : ∀ label ∈ (vertex own inner).members, label ∉ rest.members)
    (fresh : own ∉ inner.members)
    {found : Partition V} (listed : found ∈ (cycle (vertex own inner) rest).cycles)
    (first : found.head? = some own) : found = vertex own inner := by
  rcases List.mem_cons.mp listed with same | deeper
  · exact same
  · have member := mem_members_of_head? first
    rcases List.mem_append.mp deeper with within | after
    · exact absurd (@members_of_mem_cycles V inner _ within _ member) fresh
    · exact absurd (members_of_mem_cycles after member) (disjoint own List.mem_cons_self)

/-- The enclosing heads are the chain of the label, with the outer heads behind it. -/
theorem Enclosed.chain {partition : Partition V} (distinct : partition.members.Nodup)
    {outer heads : List V} {label : V}
    (enclosed : partition.Enclosed outer label heads) : exists chain, heads = chain ++ outer ∧
      partition.ChainOf label chain := by
  induction partition generalizing outer with
  | nil => exact enclosed.elim
  | vertex first rest inductionHypothesis =>
      rcases List.nodup_cons.mp distinct with ⟨fresh, restDistinct⟩
      rcases enclosed with ⟨rfl, rfl⟩ | later
      · refine ⟨[], rfl, fun head => ⟨fun impossible => (by cases impossible), fun around => ?_⟩,
          List.Pairwise.nil⟩
        rcases around with ⟨_, components, listed, _, inside⟩
        exact absurd (@members_of_mem_cycles V rest _ listed _ inside) fresh
      · rcases inductionHypothesis restDistinct later with ⟨chain, same, chainOf⟩
        exact ⟨chain, same, chainOf.mem_iff, chainOf.sorted⟩
  | cycle components rest componentsHypothesis restHypothesis =>
      rcases List.nodup_append.mp distinct with ⟨componentsDistinct, restDistinct, apart⟩
      have disjoint : ∀ found ∈ components.members, found ∉ rest.members :=
        fun found inside after => apart found inside found after rfl
      rcases enclosed with ⟨first, rfl⟩ | ⟨own, first, different, inside⟩ | later
      · refine ⟨[], rfl, fun head => ⟨fun impossible => (by cases impossible), fun around => ?_⟩,
          List.Pairwise.nil⟩
        cases components with
        | nil => cases first
        | cycle => cases first
        | vertex own inner =>
            cases first
            have fresh := (List.nodup_cons.mp componentsDistinct).1
            rcases around with ⟨other, found, listed, isHead, member⟩
            rcases List.mem_cons.mp listed with rfl | deeper
            · exact absurd (Option.some.inj isHead).symm other
            · rcases List.mem_append.mp deeper with within | after
              · exact absurd (@members_of_mem_cycles V inner _ within _ member) fresh
              · exact absurd (members_of_mem_cycles after member) (disjoint _ List.mem_cons_self)
      · cases components with
        | nil => cases first
        | cycle => cases first
        | vertex head inner =>
            cases first
            have fresh := (List.nodup_cons.mp componentsDistinct).1
            have member : label ∈ inner.members := by
              rcases List.mem_cons.mp inside.mem with same | deeper
              · exact absurd same different
              · exact deeper
            rcases componentsHypothesis componentsDistinct inside with ⟨chain, rfl, chainOf⟩
            have inInner : ∀ other ∈ chain, other ∈ inner.members := by
              intro other isHead
              have around : inner.StrictlyAround other label := (chainOf.mem_iff other).mp isHead
              exact around.head_mem.1
            refine ⟨chain ++ [own], by simp, fun other => ?_, ?_⟩
            · rw [strictlyAround_of_inside disjoint fresh member, List.mem_append,
                List.mem_singleton, or_comm]
              exact or_congr Iff.rfl (chainOf.mem_iff other)
            · refine List.pairwise_append.mpr ⟨?_, List.pairwise_singleton _ _, ?_⟩
              · refine List.Pairwise.imp_of_mem ?_ chainOf.sorted
                intro small large smallMember largeMember within left leftListed right rightListed
                  leftHead rightHead
                exact within left (cycle_of_inside disjoint fresh leftListed leftHead
                  (inInner small smallMember)) right
                  (cycle_of_inside disjoint fresh rightListed rightHead (inInner large largeMember))
                  leftHead rightHead
              · intro small smallMember large isOwn left leftListed right rightListed
                  leftHead rightHead
                rw [List.mem_singleton] at isOwn
                rw [isOwn] at rightHead ⊢
                rw [cycle_of_own disjoint fresh rightListed rightHead]
                have subset := members_of_mem_cycles
                  (cycle_of_inside disjoint fresh leftListed leftHead (inInner small smallMember))
                exact ⟨fun found within => List.mem_cons_of_mem _ (subset within), fun within =>
                  fresh (subset within)⟩
      · rcases restHypothesis restDistinct later with ⟨chain, same, chainOf⟩
        refine ⟨chain, same, fun head => ?_, ?_⟩
        · rw [strictlyAround_of_rest disjoint later.mem]
          exact chainOf.mem_iff head
        · refine List.Pairwise.imp_of_mem ?_ chainOf.sorted
          intro small large smallMember largeMember within
          exact within_of_rest disjoint ((chainOf.mem_iff small).mp smallMember).head_mem.1
            ((chainOf.mem_iff large).mp largeMember).head_mem.1 within

/-- A chain has all cycles of another one exactly if the other one is its outer end. -/
theorem ChainOf.suffix_iff {partition : Partition V} {first second : V} {chain part : List V}
    (chainOf : partition.ChainOf first chain) (partOf : partition.ChainOf second part) :
    part <:+ chain ↔ part ⊆ chain := by
  constructor
  · exact fun suffix => suffix.subset
  · intro inside
    apply suffix_of_upward_closed chainOf.sorted ?_ partOf.sorted inside
    · -- Two cycles with the same label in them.
      intro small smallMember large largeMember within
      rcases (partOf.mem_iff small).mp smallMember with ⟨_, left, leftListed, leftHead, member⟩
      rcases (chainOf.mem_iff large).mp largeMember with ⟨_, right, rightListed, rightHead, _⟩
      rcases within left leftListed right rightListed leftHead rightHead with ⟨subset, outside⟩
      refine (partOf.mem_iff large).mpr ⟨?_, right, rightListed, rightHead, subset member⟩
      rintro rfl
      exact outside member
    · intro small smallMember large largeMember within back
      rcases (chainOf.mem_iff small).mp smallMember with ⟨_, left, leftListed, leftHead, _⟩
      rcases (chainOf.mem_iff large).mp largeMember with ⟨_, right, rightListed, rightHead, _⟩
      have outside := (within left leftListed right rightListed leftHead rightHead).2
      exact outside ((back right rightListed left leftListed rightHead leftHead).1
        (mem_members_of_head? rightHead))

theorem ChainOf.not_within {partition : Partition V} {label head : V} {chain : List V}
    (chainOf : partition.ChainOf label chain)
    (member : head ∈ chain) : ¬ partition.Within head head := by
  rcases (chainOf.mem_iff head).mp member with ⟨_, components, listed, first, _⟩
  exact fun within => (within components listed components listed first first).2
    (mem_members_of_head? first)

theorem ChainOf.nodup {partition : Partition V} {label : V} {chain : List V}
    (chainOf : partition.ChainOf label chain) :
    chain.Nodup := by
  refine List.Pairwise.imp_of_mem ?_ chainOf.sorted
  intro inner outer member _ within same
  exact chainOf.not_within member (same ▸ within)

theorem ChainOf.subset {partition : Partition V} {label : V} {chain : List V}
    (chainOf : partition.ChainOf label chain) :
    chain ⊆ partition.members := fun head member => ((chainOf.mem_iff head).mp member).head_mem.1

theorem cycle_unique {partition : Partition V} (headed : partition.Headed)
    (distinct : partition.members.Nodup)
    {first second : Partition V} {head : V} (firstListed : first ∈ partition.cycles)
    (secondListed : second ∈ partition.cycles) (firstHead : first.head? = some head)
    (secondHead : second.head? = some head) : first = second := by
  classical
  induction partition with
  | nil => cases firstListed
  | vertex label rest inductionHypothesis =>
      exact inductionHypothesis headed (List.nodup_cons.mp distinct).2 firstListed secondListed
  | cycle components rest componentsHypothesis restHypothesis =>
      rcases List.nodup_append.mp distinct with ⟨componentsDistinct, restDistinct, apart⟩
      have disjoint : ∀ found ∈ components.members, found ∉ rest.members :=
        fun found inside after => apart found inside found after rfl
      rcases headed components List.mem_cons_self with ⟨own, isOwn⟩
      cases components with
      | nil => cases isOwn
      | cycle => cases isOwn
      | vertex label inner =>
          have fresh := (List.nodup_cons.mp componentsDistinct).1
          have inRest : forall {found : Partition V},
              found ∈ (cycle (vertex label inner) rest).cycles -> found.head? = some head ->
              head ∉ (vertex label inner).members -> found ∈ rest.cycles := by
            intro found listed isHead outside
            have member := mem_members_of_head? isHead
            rcases List.mem_cons.mp listed with rfl | deeper
            · exact absurd member outside
            · rcases List.mem_append.mp deeper with within | after
              · exact absurd (List.mem_cons_of_mem label
                  (@members_of_mem_cycles V inner _ within _ member)) outside
              · exact after
          by_cases inside : head ∈ (vertex label inner).members
          · rcases List.mem_cons.mp inside with rfl | deeper
            · exact (cycle_of_own disjoint fresh firstListed firstHead).trans
                (cycle_of_own disjoint fresh secondListed secondHead).symm
            · refine componentsHypothesis (fun found listed => ?_) componentsDistinct
                (cycle_of_inside disjoint fresh firstListed firstHead deeper)
                (cycle_of_inside disjoint fresh secondListed secondHead deeper)
              exact headed found (List.mem_cons_of_mem _ (List.mem_append_left _ listed))
          · refine restHypothesis (fun found listed => ?_) restDistinct
              (inRest firstListed firstHead inside)
              (inRest secondListed secondHead inside)
            exact headed found (List.mem_cons_of_mem _ (List.mem_append_right _ listed))

theorem StrictlyAround.within {partition : Partition V} (headed : partition.Headed)
    (distinct : partition.members.Nodup)
    {head outer : V} (around : partition.StrictlyAround outer head) :
    partition.Within head outer := by
  induction partition with
  | nil =>
      rcases around with ⟨_, _, listed, _⟩
      cases listed
  | vertex label rest inductionHypothesis =>
      exact inductionHypothesis headed (List.nodup_cons.mp distinct).2 around
  | cycle components rest componentsHypothesis restHypothesis =>
      rcases List.nodup_append.mp distinct with ⟨componentsDistinct, restDistinct, apart⟩
      have disjoint : ∀ found ∈ components.members, found ∉ rest.members :=
        fun found inside after => apart found inside found after rfl
      rcases List.mem_append.mp around.head_mem.2 with inside | later
      · rcases headed components List.mem_cons_self with ⟨own, isOwn⟩
        cases components with
        | nil => cases isOwn
        | cycle => cases isOwn
        | vertex label inner =>
            have fresh := (List.nodup_cons.mp componentsDistinct).1
            intro small smallListed large largeListed smallHead largeHead
            rcases List.mem_cons.mp inside with rfl | deeper
            · -- Only its own cycle contains the head.
              rcases around with ⟨different, found, listed, first, member⟩
              rcases List.mem_cons.mp listed with rfl | nested
              · exact absurd (Option.some.inj first).symm different
              · rcases List.mem_append.mp nested with within | after
                · exact absurd (@members_of_mem_cycles V inner _ within _ member) fresh
                · exact absurd (members_of_mem_cycles after member) (disjoint _ inside)
            · have smallInner := cycle_of_inside disjoint fresh smallListed smallHead deeper
              rcases (strictlyAround_of_inside disjoint fresh deeper).mp around with rfl | nested
              · rw [cycle_of_own disjoint fresh largeListed largeHead]
                have subset := members_of_mem_cycles smallInner
                exact ⟨fun found within => List.mem_cons_of_mem _ (subset within), fun within =>
                  fresh (subset within)⟩
              · have largeInner := cycle_of_inside disjoint fresh largeListed largeHead
                  nested.head_mem.1
                have innerHeaded : (vertex label inner).Headed := fun found listed =>
                  headed found (List.mem_cons_of_mem _ (List.mem_append_left _ listed))
                exact componentsHypothesis innerHeaded componentsDistinct nested small smallInner
                  large largeInner smallHead
                  largeHead
      · have inRest := (strictlyAround_of_rest disjoint later).mp around
        have restHeaded : rest.Headed := fun found listed =>
          headed found (List.mem_cons_of_mem _ (List.mem_append_right _ listed))
        exact within_of_rest disjoint later inRest.head_mem.1
          (restHypothesis restHeaded restDistinct inRest)

end Partition
end Prevail
