import Prevail.Library.WeakOrder

namespace Prevail
namespace DepthFirst

universe u

/-!
# Depth-first order

A depth-first search visits a list of vertices, and behind each new vertex its children.
It is deterministic, and visits each vertex once.

A graph is spliced if some of its vertices lead to their children through a new vertex
each.  The search meets the new vertex right behind the old one, and the old vertices in
the order as before.
-/

variable {V : Type u}

/-- The visit of a list of vertices, with the new vertices in order and the set of
vertices that have been seen then. -/
inductive Preorder (children : V -> List V) : Set V -> List V -> List V -> Set V -> Prop
  | nil (seen : Set V) : Preorder children seen [] [] seen
  | skip {seen final : Set V} {vertex : V} {rest order : List V} : vertex ∈ seen ->
      Preorder children seen rest order final -> Preorder children seen (vertex :: rest) order final
  | visit {seen middle final : Set V} {vertex : V} {rest below later : List V} : vertex ∉ seen ->
      Preorder children (insert vertex seen) (children vertex) below middle ->
        Preorder children middle rest later final ->
          Preorder children seen (vertex :: rest) (vertex :: below ++ later) final

section Preorder

variable {children : V -> List V} {seen final other : Set V} {vertices order : List V}

theorem Preorder.unique {again : List V} (preorder : Preorder children seen vertices order final)
    (second : Preorder children seen vertices again other) : order = again ∧ final = other := by
  induction preorder generalizing again other with
  | nil seen =>
      cases second
      exact ⟨rfl, rfl⟩
  | skip isSeen _ inductionHypothesis =>
      cases second with
      | skip _ later => exact inductionHypothesis later
      | visit isNew => exact absurd isSeen isNew
  | visit isNew _ _ belowHypothesis laterHypothesis =>
      cases second with
      | skip isSeen => exact absurd isSeen isNew
      | visit _ below later =>
          rcases belowHypothesis below with ⟨rfl, rfl⟩
          rcases laterHypothesis later with ⟨rfl, rfl⟩
          exact ⟨rfl, rfl⟩

theorem Preorder.mem_final (preorder : Preorder children seen vertices order final) {vertex : V} :
    vertex ∈ final ↔ vertex ∈ seen ∨ vertex ∈ order := by
  induction preorder with
  | nil seen => simp
  | skip _ _ inductionHypothesis => exact inductionHypothesis
  | visit _ _ _ belowHypothesis laterHypothesis =>
      rw [laterHypothesis, belowHypothesis, Set.mem_insert_iff, List.cons_append, List.mem_cons,
        List.mem_append]
      tauto

/-- Only new vertices are visited, each once. -/
theorem Preorder.distinct (preorder : Preorder children seen vertices order final) :
    order.Nodup ∧ ∀ vertex ∈ order, vertex ∉ seen := by
  induction preorder with
  | nil seen => exact ⟨List.nodup_nil, fun _ impossible => (by cases impossible)⟩
  | skip _ _ inductionHypothesis => exact inductionHypothesis
  | visit isNew below later belowHypothesis laterHypothesis =>
      rcases belowHypothesis with ⟨belowDistinct, belowNew⟩
      rcases laterHypothesis with ⟨laterDistinct, laterNew⟩
      have laterFresh : ∀ found ∈ _, found ∉ _ ∧ found ∉ _ := fun found member =>
        not_or.mp (fun earlier => laterNew found member (below.mem_final.mpr earlier))
      refine ⟨List.nodup_append.mpr ⟨List.nodup_cons.mpr ⟨?_, belowDistinct⟩, laterDistinct, ?_⟩,
        ?_⟩
      · exact fun member => belowNew _ member (Set.mem_insert _ _)
      · rintro found member last inLater rfl
        rcases List.mem_cons.mp member with rfl | inBelow
        · exact (laterFresh found inLater).1 (Set.mem_insert _ _)
        · exact (laterFresh found inLater).2 inBelow
      · intro found member
        rcases List.mem_append.mp member with front | inLater
        · rcases List.mem_cons.mp front with rfl | inBelow
          · exact isNew
          · exact fun isSeen => belowNew found inBelow (Set.mem_insert_of_mem _ isSeen)
        · exact fun isSeen => (laterFresh found inLater).1 (Set.mem_insert_of_mem _ isSeen)

/-- Vertices that have been seen can be left out. -/
theorem Preorder.of_filter {keeps : V -> Bool}
    (skipped : ∀ vertex ∈ vertices, keeps vertex = false -> vertex ∈ seen)
    (preorder : Preorder children seen (vertices.filter keeps) order final) :
    Preorder children seen vertices order final := by
  induction vertices generalizing seen order with
  | nil => exact preorder
  | cons first rest inductionHypothesis =>
      have restSkipped : forall {wider : Set V}, seen ⊆ wider ->
          ∀ vertex ∈ rest, keeps vertex = false -> vertex ∈ wider :=
        fun subset vertex member isSkipped =>
          subset (skipped vertex (List.mem_cons_of_mem _ member) isSkipped)
      cases kept : keeps first with
      | false =>
          rw [List.filter_cons_of_neg (by simp [kept])] at preorder
          exact .skip (skipped first List.mem_cons_self kept)
            (inductionHypothesis (restSkipped (le_refl _)) preorder)
      | true =>
          rw [List.filter_cons_of_pos kept] at preorder
          cases preorder with
          | skip isSeen later => exact .skip isSeen (inductionHypothesis
            (restSkipped (le_refl _)) later)
          | visit isNew below later =>
              have wider : seen ⊆ _ :=
                fun found member => below.mem_final.mpr (Or.inl (Set.mem_insert_of_mem _ member))
              exact .visit isNew below (inductionHypothesis (restSkipped wider) later)

end Preorder

/-- A walk along the edges of a graph. -/
def Reaches (children : V -> List V) : V -> V -> Prop :=
  Relation.ReflTransGen (fun source target => target ∈ children source)

/-- A walk with an edge at least. -/
def Leads (children : V -> List V) : V -> V -> Prop :=
  Relation.TransGen (fun source target => target ∈ children source)

theorem Reaches.mem_of_closed {children : V -> List V} {closed : Set V} {source target : V}
    (walk : Reaches children source target)
    (leadsInside : ∀ vertex ∈ closed, ∀ child ∈ children vertex, child ∈ closed)
    (member : source ∈ closed) : target ∈ closed := by
  induction walk with
  | refl => exact member
  | tail _ edge inductionHypothesis => exact leadsInside _ inductionHypothesis _ edge

/-- The vertex is on a cycle, and is the first one of its strong component. -/
structure FirstOnCycle (children : V -> List V) (order : List V) (vertex : V) : Prop where
  member : vertex ∈ order
  cycle : Leads children vertex vertex
  first : forall other, other ≠ vertex -> Reaches children vertex other -> Reaches children other vertex ->
    List.Sublist [vertex, other] order

/-! ## Spliced graphs -/

/-- Each vertex of `heads` leads to its children through a vertex of its own. -/
structure Spliced (original heads : Set V) (through : V -> V)
    (before after : V -> List V) : Prop where
  closed : ∀ vertex ∈ original, ∀ child ∈ before vertex, child ∈ original
  inside : heads ⊆ original
  fresh : ∀ head ∈ heads, through head ∉ original
  injective : Set.InjOn through heads
  head : ∀ head ∈ heads, after head = [through head]
  behind : ∀ head ∈ heads, after (through head) = before head
  other : ∀ vertex ∈ original, vertex ∉ heads -> after vertex = before vertex

section Splice

open Classical in
/-- A vertex with the one behind it. -/
noncomputable def expand (heads : Set V) (through : V -> V) (vertex : V) : List V :=
  if vertex ∈ heads then [vertex, through vertex] else [vertex]

variable {original heads : Set V} {through : V -> V} {before after : V -> List V}

theorem mem_expand_self {vertex : V} : vertex ∈ expand heads through vertex := by
  rw [expand]
  split
  · exact List.mem_cons_self
  · exact List.mem_cons_self

/-- The vertices that the searches of the two graphs have seen. -/
structure SeenAlike (original heads : Set V) (through : V -> V) (seen alike : Set V) : Prop where
  old : ∀ vertex ∈ original, vertex ∈ alike ↔ vertex ∈ seen
  new : ∀ head ∈ heads, through head ∈ alike ↔ head ∈ seen

theorem SeenAlike.insert_other {seen alike : Set V} {vertex : V}
    (alikeSets : SeenAlike original heads through seen alike)
    (spliced : Spliced original heads through before after) (isOriginal : vertex ∈ original)
    (notHead : vertex ∉ heads) :
    SeenAlike original heads through (insert vertex seen) (insert vertex alike) := by
  constructor
  · intro other member
    rw [Set.mem_insert_iff, Set.mem_insert_iff, alikeSets.old other member]
  · intro head member
    have different : through head ≠ vertex :=
      fun same => spliced.fresh head member (same ▸ isOriginal)
    have notVertex : head ≠ vertex := fun same => notHead (same ▸ member)
    rw [Set.mem_insert_iff, Set.mem_insert_iff, or_iff_right different, or_iff_right notVertex,
      alikeSets.new head member]

theorem SeenAlike.insert_head {seen alike : Set V} {vertex : V}
    (alikeSets : SeenAlike original heads through seen alike)
    (spliced : Spliced original heads through before after) (isHead : vertex ∈ heads) :
    SeenAlike original heads through (insert vertex seen)
    (insert (through vertex) (insert vertex alike)) := by
  constructor
  · intro other member
    have different : other ≠ through vertex :=
      fun same => spliced.fresh vertex isHead (same ▸ member)
    rw [Set.mem_insert_iff, or_iff_right different, Set.mem_insert_iff, Set.mem_insert_iff,
      alikeSets.old other member]
  · intro head member
    have different : through head ≠ vertex :=
      fun same => spliced.fresh head member (same ▸ spliced.inside isHead)
    rw [Set.mem_insert_iff, Set.mem_insert_iff, or_iff_right different, Set.mem_insert_iff,
      alikeSets.new head member]
    exact or_congr (spliced.injective.eq_iff member isHead) Iff.rfl

/-- The search of the spliced graph visits each vertex, and the one behind it. -/
theorem Spliced.preorder (spliced : Spliced original heads through before after)
    {seen final alike : Set V}
    {vertices order : List V} (preorder : Preorder before seen vertices order final)
    (inside : ∀ vertex ∈ vertices, vertex ∈ original)
    (alikeSets : SeenAlike original heads through seen alike) :
    exists last, SeenAlike original heads through final last ∧
      Preorder after alike vertices (order.flatMap (expand heads through)) last := by
  induction preorder generalizing alike with
  | nil seen => exact ⟨alike, alikeSets, .nil alike⟩
  | skip isSeen _ inductionHypothesis =>
      rcases inductionHypothesis
        (fun vertex member => inside vertex (List.mem_cons_of_mem _ member)) alikeSets with
        ⟨last, lastAlike, preorder⟩
      exact ⟨last, lastAlike, .skip
        ((alikeSets.old _ (inside _ List.mem_cons_self)).mpr isSeen) preorder⟩
  | @visit seen middle final vertex rest below later isNew _ _ belowHypothesis laterHypothesis =>
      have isOriginal := inside vertex List.mem_cons_self
      have restInside : ∀ other ∈ rest, other ∈ original :=
        fun other member => inside other (List.mem_cons_of_mem _ member)
      have notSeen : vertex ∉ alike :=
        fun isSeen => isNew ((alikeSets.old vertex isOriginal).mp isSeen)
      have childrenInside := spliced.closed vertex isOriginal
      by_cases isHead : vertex ∈ heads
      · rcases belowHypothesis childrenInside (alikeSets.insert_head spliced isHead) with
          ⟨middleAlike, belowAlike, belowOrder⟩
        rcases laterHypothesis restInside belowAlike with ⟨last, lastAlike, laterOrder⟩
        have throughNew : through vertex ∉ insert vertex alike := by
          intro isSeen
          rcases Set.mem_insert_iff.mp isSeen with same | earlier
          · apply spliced.fresh vertex isHead
            rw [same]
            exact isOriginal
          · exact isNew ((alikeSets.new vertex isHead).mp earlier)
        have throughOrder : Preorder after (insert vertex alike) (after vertex)
            (through vertex :: below.flatMap (expand heads through) ++ []) middleAlike := by
          rw [spliced.head vertex isHead]
          apply Preorder.visit throughNew ?_ (.nil _)
          rw [spliced.behind vertex isHead]
          exact belowOrder
        refine ⟨last, lastAlike, ?_⟩
        have whole := Preorder.visit notSeen throughOrder laterOrder
        have form : expand heads through vertex = [vertex, through vertex] := if_pos isHead
        rw [List.cons_append, List.flatMap_cons, List.flatMap_append, form]
        simpa using whole
      · rcases belowHypothesis childrenInside
          (alikeSets.insert_other spliced isOriginal isHead) with
          ⟨middleAlike, belowAlike, belowOrder⟩
        rcases laterHypothesis restInside belowAlike with ⟨last, lastAlike, laterOrder⟩
        refine ⟨last, lastAlike, ?_⟩
        rw [<- spliced.other vertex isOriginal isHead] at belowOrder
        have whole := Preorder.visit notSeen belowOrder laterOrder
        have form : expand heads through vertex = [vertex] := if_neg isHead
        rw [List.cons_append, List.flatMap_cons, List.flatMap_append, form]
        simpa using whole

/-! ### Walks -/

/-- A vertex of the spliced graph stands for itself, or for the one in front of it. -/
inductive StandsFor (original heads : Set V) (through : V -> V) : V -> V -> Prop
  | itself {vertex : V} : vertex ∈ original -> StandsFor original heads through vertex vertex
  | behind {head : V} : head ∈ heads -> StandsFor original heads through (through head) head

theorem Spliced.standsFor_unique (spliced : Spliced original heads through before after)
    {vertex first second : V}
    (standsFor : StandsFor original heads through vertex first)
    (again : StandsFor original heads through vertex second) :
    first = second := by
  generalize isVertex : vertex = found at again
  cases standsFor with
  | itself isOriginal =>
      cases again with
      | itself => exact isVertex
      | behind isHead =>
          rw [isVertex] at isOriginal
          exact absurd isOriginal (spliced.fresh _ isHead)
  | behind isHead =>
      cases again with
      | itself isOriginal =>
          rw [<- isVertex] at isOriginal
          exact absurd isOriginal (spliced.fresh _ isHead)
      | behind otherHead => exact spliced.injective isHead otherHead isVertex

/-- An edge of the spliced graph is one of the old graph, or leads to the vertex
behind its source. -/
theorem Spliced.edge (spliced : Spliced original heads through before after)
    {source target stood : V}
    (standsFor : StandsFor original heads through source stood) (edge : target ∈ after source) :
    (stood = source ∧ source ∈ heads ∧ target = through source) ∨
      (target ∈ original ∧ target ∈ before stood) := by
  cases standsFor with
  | itself isOriginal =>
      by_cases isHead : source ∈ heads
      · rw [spliced.head source isHead, List.mem_singleton] at edge
        exact Or.inl ⟨rfl, isHead, edge⟩
      · rw [spliced.other source isOriginal isHead] at edge
        exact Or.inr ⟨spliced.closed source isOriginal target edge, edge⟩
  | behind isHead =>
      rw [spliced.behind stood isHead] at edge
      exact Or.inr ⟨spliced.closed stood (spliced.inside isHead) target edge, edge⟩

/-- A walk of the spliced graph stands for one of the old graph. -/
theorem Spliced.reaches_before (spliced : Spliced original heads through before after)
    {source target stood : V}
    (standsFor : StandsFor original heads through source stood)
    (walk : Reaches after source target) :
    exists found, StandsFor original heads through target found ∧ Reaches before stood found := by
  induction walk with
  | refl => exact ⟨stood, standsFor, .refl⟩
  | tail _ edge inductionHypothesis =>
      rcases inductionHypothesis with ⟨found, foundStands, walk⟩
      rcases spliced.edge foundStands edge with ⟨rfl, isHead, rfl⟩ | ⟨isOriginal, old⟩
      · exact ⟨_, .behind isHead, walk⟩
      · exact ⟨_, .itself isOriginal, walk.tail old⟩

/-- A walk with an edge that comes back to an old vertex is one of the old graph. -/
theorem Spliced.leads_before (spliced : Spliced original heads through before after)
    {source target stood : V}
    (standsFor : StandsFor original heads through source stood) (walk : Leads after source target)
    (isOriginal : target ∈ original) : Leads before stood target := by
  rcases Relation.TransGen.tail'_iff.mp walk with ⟨last, front, edge⟩
  rcases spliced.reaches_before standsFor front with ⟨found, foundStands, oldWalk⟩
  rcases spliced.edge foundStands edge with ⟨_, isHead, same⟩ | ⟨_, old⟩
  · exact absurd (same ▸ isOriginal) (spliced.fresh last isHead)
  · exact Relation.TransGen.tail' oldWalk old

theorem Spliced.leads_edge (spliced : Spliced original heads through before after)
    {source target : V}
    (isOriginal : source ∈ original) (edge : target ∈ before source) :
    Leads after source target := by
  by_cases isHead : source ∈ heads
  · have first : through source ∈ after source := by
      rw [spliced.head source isHead]
      exact List.mem_cons_self
    have second : target ∈ after (through source) := by
      rw [spliced.behind source isHead]
      exact edge
    exact (Relation.TransGen.single first).tail second
  · rw [<- spliced.other source isOriginal isHead] at edge
    exact Relation.TransGen.single edge

theorem Spliced.mem_of_reaches (spliced : Spliced original heads through before after)
    {source target : V}
    (isOriginal : source ∈ original) (walk : Reaches before source target) : target ∈ original :=
  walk.mem_of_closed spliced.closed isOriginal

theorem Spliced.reaches_after (spliced : Spliced original heads through before after)
    {source target : V}
    (isOriginal : source ∈ original) (walk : Reaches before source target) :
    Reaches after source target := by
  induction walk with
  | refl => exact .refl
  | tail front edge inductionHypothesis =>
      have middle := spliced.mem_of_reaches isOriginal front
      exact inductionHypothesis.trans (spliced.leads_edge middle edge).to_reflTransGen

theorem Spliced.leads_after (spliced : Spliced original heads through before after)
    {source target : V}
    (isOriginal : source ∈ original) (walk : Leads before source target) :
    Leads after source target := by
  rcases Relation.TransGen.tail'_iff.mp walk with ⟨last, front, edge⟩
  exact (Relation.TransGen.trans_right (spliced.reaches_after isOriginal front)
    (spliced.leads_edge (spliced.mem_of_reaches isOriginal front) edge))

/-! ### The first vertices of the strong components -/

/-- Two vertices of a list without repetition come in one order. -/
theorem not_sublist_swap {order : List V} (distinct : order.Nodup) {first second : V}
    (forward : List.Sublist [first, second] order) (backward : List.Sublist [second, first] order) :
    first = second := by
  induction order with
  | nil => cases forward
  | cons head rest inductionHypothesis =>
      rcases List.nodup_cons.mp distinct with ⟨fresh, restDistinct⟩
      cases forward with
      | cons _ forward =>
          cases backward with
          | cons _ backward => exact inductionHypothesis restDistinct forward backward
          | cons_cons _ _ => exact absurd (forward.subset (by simp)) fresh
      | cons_cons _ forwardRest =>
          cases backward with
          | cons _ backward => exact absurd (backward.subset (by simp)) fresh
          | cons_cons _ _ => rfl

theorem sublist_flatMap_expand {order : List V} :
    List.Sublist order (order.flatMap (expand heads through)) := by
  induction order with
  | nil => exact List.Sublist.slnil
  | cons first rest inductionHypothesis =>
      rw [List.flatMap_cons]
      exact (List.singleton_sublist.mpr mem_expand_self).append inductionHypothesis

open Classical in
/-- The old vertices come in the order as before. -/
theorem Spliced.filter_flatMap (spliced : Spliced original heads through before after)
    {order : List V} (inside : ∀ vertex ∈ order, vertex ∈ original) :
    (order.flatMap (expand heads through)).filter
      (fun vertex => decide (vertex ∈ original)) = order := by
  induction order with
  | nil => rfl
  | cons first rest inductionHypothesis =>
      have here := inside first List.mem_cons_self
      rw [List.flatMap_cons, List.filter_append,
        inductionHypothesis (fun vertex member => inside vertex
        (List.mem_cons_of_mem _ member)), expand]
      split
      · rename_i isHead
        rw [List.filter_cons_of_pos (by simpa using here),
          List.filter_cons_of_neg (by simpa using spliced.fresh first isHead)]
        rfl
      · rw [List.filter_cons_of_pos (by simpa using here)]
        rfl

theorem mem_flatMap_expand {order : List V}
    (inside : ∀ vertex ∈ order, vertex ∈ original) {vertex : V}
    (member : vertex ∈ order.flatMap (expand heads through)) :
    exists found, found ∈ order ∧ StandsFor original heads through vertex found := by
  rcases List.mem_flatMap.mp member with ⟨found, listed, expanded⟩
  rw [expand] at expanded
  split at expanded
  · rename_i isHead
    rcases List.mem_cons.mp expanded with rfl | isThrough
    · exact ⟨_, listed, .itself (inside _ listed)⟩
    · rw [List.mem_singleton] at isThrough
      exact ⟨found, listed, isThrough ▸ .behind isHead⟩
  · rw [List.mem_singleton] at expanded
    rw [expanded]
    exact ⟨found, listed, .itself (inside _ listed)⟩

/-- The vertex behind another one is visited behind it. -/
theorem sublist_through {order : List V} {head : V} (isHead : head ∈ heads)
    (member : head ∈ order) :
    List.Sublist [head, through head] (order.flatMap (expand heads through)) := by
  have expanded := (List.singleton_sublist.mpr member).flatMap (expand heads through)
  have form : expand heads through head = [head, through head] := if_pos isHead
  rw [List.flatMap_cons, form] at expanded
  exact expanded

theorem mem_expand_of_standsFor {vertex found : V}
    (standsFor : StandsFor original heads through vertex found) :
    vertex ∈ expand heads through found := by
  cases standsFor with
  | itself => exact mem_expand_self
  | behind isHead =>
      rw [expand, if_pos isHead]
      exact List.mem_cons_of_mem _ List.mem_cons_self

theorem Spliced.not_firstOnCycle_through (spliced : Spliced original heads through before after)
    {order : List V}
    (distinct : (order.flatMap (expand heads through)).Nodup) {head : V} (isHead : head ∈ heads)
    (member : head ∈ order) :
    ¬ FirstOnCycle after (order.flatMap (expand heads through)) (through head) := by
  intro firstOnCycle
  have different : head ≠ through head :=
    fun same => spliced.fresh head isHead (same ▸ spliced.inside isHead)
  have forward : Reaches after head (through head) := by
    apply Relation.ReflTransGen.single
    rw [spliced.head head isHead]
    exact List.mem_cons_self
  have backward : Reaches after (through head) head := by
    rcases Relation.TransGen.tail'_iff.mp firstOnCycle.cycle with ⟨last, front, edge⟩
    rcases spliced.reaches_before (.behind isHead) front with ⟨found, foundStands, _⟩
    rcases spliced.edge foundStands edge with ⟨_, lastHead, same⟩ | ⟨isOriginal, _⟩
    · rw [<- spliced.injective isHead lastHead same] at front
      exact front
    · exact absurd isOriginal (spliced.fresh head isHead)
  have first := firstOnCycle.first head different backward forward
  exact different (not_sublist_swap distinct (sublist_through isHead member) first)

/-- Splicing keeps the first vertices of the strong components. -/
theorem Spliced.firstOnCycle_iff (spliced : Spliced original heads through before after)
    {order : List V}
    (inside : ∀ vertex ∈ order, vertex ∈ original)
    (distinct : (order.flatMap (expand heads through)).Nodup) (vertex : V) :
    FirstOnCycle after (order.flatMap (expand heads through)) vertex ↔
      FirstOnCycle before order vertex := by
  classical
  constructor
  · intro firstOnCycle
    rcases mem_flatMap_expand inside firstOnCycle.member with ⟨found, listed, standsFor⟩
    cases standsFor with
    | itself isOriginal =>
        refine ⟨listed, spliced.leads_before (.itself isOriginal) firstOnCycle.cycle isOriginal, ?_⟩
        intro other different forward backward
        have otherOriginal := spliced.mem_of_reaches isOriginal forward
        have pair := firstOnCycle.first other different (spliced.reaches_after isOriginal forward)
          (spliced.reaches_after otherOriginal backward)
        have kept := pair.filter (fun vertex => decide (vertex ∈ original))
        rw [spliced.filter_flatMap inside] at kept
        simpa [isOriginal, otherOriginal] using kept
    | behind isHead => exact absurd firstOnCycle (spliced.not_firstOnCycle_through distinct
      isHead listed)
  · intro firstOnCycle
    have isOriginal := inside vertex firstOnCycle.member
    refine ⟨sublist_flatMap_expand.subset firstOnCycle.member,
      spliced.leads_after isOriginal firstOnCycle.cycle, ?_⟩
    intro other different forward backward
    rcases spliced.reaches_before (.itself isOriginal) forward with ⟨found, foundStands, oldForward⟩
    rcases spliced.reaches_before foundStands backward with ⟨again, againStands, oldBackward⟩
    rw [spliced.standsFor_unique againStands (.itself isOriginal)] at oldBackward
    by_cases same : found = vertex
    · rw [same] at foundStands
      cases foundStands with
      | itself => exact absurd rfl different
      | behind isHead => exact sublist_through isHead firstOnCycle.member
    · have expanded := (firstOnCycle.first found same oldForward oldBackward).flatMap
        (expand heads through)
      rw [List.flatMap_cons, List.flatMap_cons] at expanded
      have otherExpanded : List.Sublist [other] (expand heads through found ++ []) :=
        List.singleton_sublist.mpr (List.mem_append_left _ (mem_expand_of_standsFor foundStands))
      exact ((List.singleton_sublist.mpr mem_expand_self).append otherExpanded).trans expanded

end Splice

/-! ## The outermost cycles of a weak topological order -/

/-- The head of a cycle reaches a member and is reached by it, and comes in front of the
others. -/
structure HeadOf (children : V -> List V) (order : List V) (head member : V) : Prop where
  forth : Reaches children head member
  back : Reaches children member head
  first : member ≠ head -> List.Sublist [head, member] order

/-- In every outermost cycle the head is the first member. -/
def Rooted (children : V -> List V) (order : List V) : Partition V -> Prop
  | .nil => True
  | .vertex _ rest => Rooted children order rest
  | .cycle components rest =>
      (forall head, components.head? = some head -> ∀ member ∈ components.members,
        HeadOf children order head member) ∧ Rooted children order rest

section Rooted

variable {children : V -> List V} {order : List V}

theorem Rooted.mono {partition : Partition V} {wider : List V}
    (rooted : Rooted children order partition)
    (sublist : List.Sublist order wider) : Rooted children wider partition := by
  induction partition with
  | nil => trivial
  | vertex label rest inductionHypothesis => exact inductionHypothesis rooted
  | cycle components rest _ inductionHypothesis =>
      refine ⟨?_, inductionHypothesis rooted.2⟩
      intro head isHead member inside
      have headOf := rooted.1 head isHead member inside
      exact ⟨headOf.forth, headOf.back, fun different => (headOf.first different).trans sublist⟩

theorem Rooted.append {front tail : Partition V} (frontRooted : Rooted children order front)
    (tailRooted : Rooted children order tail) : Rooted children order (front.append tail) := by
  induction front with
  | nil => exact tailRooted
  | vertex label rest inductionHypothesis => exact inductionHypothesis frontRooted
  | cycle components rest _ inductionHypothesis =>
    exact ⟨frontRooted.1, inductionHypothesis frontRooted.2⟩

/-- The members behind a component and the outer vertices are left by no walk. -/
theorem closed_rest {rest : Partition V} {outer : Set V}
    (ordered : rest.Ordered (fun source target => target ∈ children source) outer)
    (outerClosed : ∀ vertex ∈ outer, ∀ child ∈ children vertex, child ∈ outer) :
    ∀ vertex ∈ outer ∪ {found | found ∈ rest.members}, ∀ child ∈ children vertex,
      child ∈ outer ∪ {found | found ∈ rest.members} := by
  intro vertex member child isChild
  rcases member with isOuter | isRest
  · exact Or.inl (outerClosed vertex isOuter child isChild)
  · exact (ordered.target_mem isRest isChild).symm

/-- The heads of the outermost cycles are the vertices that come first in a strong
component with a cycle. -/
theorem Rooted.mem_outerHeads_iff {partition : Partition V} {outer : Set V}
    (rooted : Rooted children order partition)
    (ordered : partition.Ordered (fun source target => target ∈ children source) outer)
    (cyclic : partition.Cyclic (fun source target => target ∈ children source))
    (outerClosed : ∀ vertex ∈ outer, ∀ child ∈ children vertex, child ∈ outer)
    (inner : ∀ vertex ∈ partition.members, vertex ∉ outer) (distinct : partition.members.Nodup)
    (listed : ∀ vertex ∈ partition.members, vertex ∈ order)
    (orderDistinct : order.Nodup) {vertex : V}
    (member : vertex ∈ partition.members) : vertex ∈ partition.outerHeads ↔
      FirstOnCycle children order vertex := by
  induction partition with
  | nil => cases member
  | vertex label rest inductionHypothesis =>
      rcases List.nodup_cons.mp distinct with ⟨fresh, restDistinct⟩
      rcases List.mem_cons.mp member with rfl | inRest
      · constructor
        · intro isOuter
          exact absurd (rest.heads_subset_members (rest.outerHeads_subset_heads isOuter)) fresh
        · intro firstOnCycle
          rcases Relation.TransGen.head'_iff.mp firstOnCycle.cycle with ⟨child, edge, back⟩
          have outside : child ∈ outer ∪ {found | found ∈ rest.members} :=
            (ordered.1 child edge).symm
          rcases Reaches.mem_of_closed back (closed_rest ordered.2 outerClosed) outside with
            isOuter | isRest
          · exact absurd isOuter (inner vertex member)
          · exact absurd isRest fresh
      · exact inductionHypothesis rooted ordered.2 cyclic
          (fun found isRest => inner found (List.mem_cons_of_mem _ isRest))
          restDistinct (fun found isRest => listed found (List.mem_cons_of_mem _ isRest)) inRest
  | cycle components rest _ inductionHypothesis =>
      rcases ordered with ⟨⟨head, isHead, innerOrdered⟩, restOrdered⟩
      rcases List.nodup_append.mp distinct with ⟨_, restDistinct, disjoint⟩
      have headInside := Partition.mem_members_of_head? isHead
      have outerHeadsForm : vertex ∈ (Partition.cycle components rest).outerHeads ↔
          vertex = head ∨ vertex ∈ rest.outerHeads := by
        rw [Partition.outerHeads, isHead]
        exact List.mem_cons
      rcases List.mem_append.mp member with inside | inRest
      · have notBehind : vertex ∉ rest.outerHeads := fun isOuter =>
          disjoint vertex inside vertex
            (rest.heads_subset_members (rest.outerHeads_subset_heads isOuter)) rfl
        rw [outerHeadsForm, or_iff_left notBehind]
        constructor
        · rintro rfl
          refine ⟨listed vertex member,
            Relation.TransGen.mono (fun _ _ step => step.1) _ _ (cyclic.1 vertex isHead), ?_⟩
          intro other different forward backward
          have closed : ∀ found ∈ outer ∪ {found | found ∈ rest.members} ∪ {found | found ∈ components.members},
              ∀ child ∈ children found,
                child ∈ outer ∪ {found | found ∈ rest.members} ∪
                {found | found ∈ components.members} := by
            intro found isFound child isChild
            rcases isFound with isOutside | isInside
            · exact Or.inl (closed_rest restOrdered outerClosed found isOutside child isChild)
            · rcases innerOrdered.target_mem isInside isChild with stays | (leaves | same)
              · exact Or.inr stays
              · exact Or.inl leaves
              · exact Or.inr (same ▸ headInside)
          rcases forward.mem_of_closed closed (Or.inr headInside) with isOutside | isInside
          · rcases backward.mem_of_closed (closed_rest restOrdered outerClosed) isOutside with
              isOuter | isRest
            · exact absurd isOuter (inner vertex member)
            · exact absurd rfl (disjoint vertex inside vertex isRest)
          · exact (rooted.1 vertex isHead other isInside).first different
        · intro firstOnCycle
          have headOf := rooted.1 head isHead vertex inside
          by_contra different
          have front := firstOnCycle.first head (Ne.symm different) headOf.back headOf.forth
          exact different (not_sublist_swap orderDistinct front (headOf.first different))
      · have different : vertex ≠ head := by
          intro same
          exact disjoint head headInside vertex inRest same.symm
        rw [outerHeadsForm, or_iff_right different]
        exact inductionHypothesis rooted.2 restOrdered cyclic.2.2
          (fun found isRest => inner found (List.mem_append_right _ isRest)) restDistinct
          (fun found isRest => listed found (List.mem_append_right _ isRest)) inRest

end Rooted

end DepthFirst
end Prevail
