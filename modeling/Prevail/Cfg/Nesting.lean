import Prevail.Cfg.Order
import Prevail.Wto.Nesting

namespace Prevail
namespace Cfg

/-!
# The nesting of labels

`wto_t::nesting` of a label of the graph, and the test by which the analysis of a loop
picks the predecessors of its head.  The test asks whether a predecessor is nested more
deeply than the head is.  A predecessor inside the loop is, but so is one that is
strictly inside another loop next to it.
-/

variable {cfg : Cfg} {fuel : Nat} {wto : Wto Label}

/-- The nesting of a label is the chain of the cycles strictly around it. -/
theorem exists_nesting (built : cfg.buildWto fuel = .ok wto) (label : Label) :
    exists heads, wto.nesting label = some heads ∧ wto.components.ChainOf label heads := by
  by_cases member : label ∈ wto.components.members
  · exact Wto.nesting_chainOf (buildWto_eq_ok.mp built) member
  · exact ⟨[], Wto.nesting_of_notMem (buildWto_eq_ok.mp built) member, Wto.chainOf_of_notMem member⟩

/-- The nesting of a label lists the heads of the cycles strictly around it, the
innermost first, and the comparison of nestings compares the sets of these cycles. -/
theorem nesting_exact (built : cfg.buildWto fuel = .ok wto) :
    (forall label, cfg.Reachable label -> exists heads, wto.nesting label = some heads ∧
      heads.Nodup ∧ (forall head, head ∈ heads ↔ wto.components.StrictlyAround head label) ∧
        heads.Pairwise wto.components.Within) ∧
    forall first second, cfg.Reachable first -> cfg.Reachable second ->
      exists heads other, wto.nesting first = some heads ∧ wto.nesting second = some other ∧
        (Wto.nestingGreater heads other = true ↔
          {head | wto.components.StrictlyAround head second} ⊂
          {head | wto.components.StrictlyAround head first} ∧
            other.reverse <+: heads.reverse) := by
  refine ⟨fun label _ => ?_, fun first second _ _ => ?_⟩
  · rcases exists_nesting built label with ⟨heads, nesting, chainOf⟩
    exact ⟨heads, nesting, chainOf.nodup, chainOf.mem_iff, chainOf.sorted⟩
  · rcases exists_nesting built first with ⟨heads, firstNesting, chainOf⟩
    rcases exists_nesting built second with ⟨other, secondNesting, otherOf⟩
    refine ⟨heads, other, firstNesting, secondNesting, ?_⟩
    rw [Wto.nestingGreater_iff_of_chainOf chainOf otherOf, List.reverse_prefix,
      chainOf.suffix_iff otherOf, Set.ssubset_iff_exists]
    constructor
    · rintro ⟨all, head, around, notAround⟩
      refine ⟨⟨fun found => all found, head, around, notAround⟩, fun found member => ?_⟩
      exact (chainOf.mem_iff found).mpr (all found ((otherOf.mem_iff found).mp member))
    · rintro ⟨⟨all, head, around, notAround⟩, _⟩
      exact ⟨fun found => @all found, head, around, notAround⟩

/-- The loop from the exit back to the entry is around the exit, and not strictly around
the entry. -/
theorem nesting_endless : exists wto, endless.buildWto 20 = .ok wto ∧ exists heads other,
    wto.nesting Label.exit = some heads ∧ wto.nesting Label.entry = some other ∧
      (Wto.nestingGreater heads other = true ↔
        {head | wto.components.StrictlyAround head Label.entry} ⊂
            {head | wto.components.StrictlyAround head Label.exit} ∧
            other.reverse <+: heads.reverse) := by
  have computed : returnsChecked (fun _ => true) (endless.buildWto 20) = true := by decide
  rcases exists_of_returnsChecked computed with ⟨wto, built, _⟩
  have step : endless.Reachable Label.exit := Relation.ReflTransGen.single (by decide)
  exact ⟨wto, built, (nesting_exact built).2 Label.exit Label.entry step Relation.ReflTransGen.refl⟩

/-! ## The predecessors from which a loop starts -/

/-- `_wto.nesting(prev) > cycle_nesting`, which excludes a predecessor of the head. -/
def excludes (wto : Wto Label) (head prev : Label) : Bool :=
  match wto.nesting prev, wto.nesting head with
  | some prevHeads, some cycleHeads => Wto.nestingGreater prevHeads cycleHeads
  | _, _ => false

/-- The predecessors whose posts are joined to the initial invariant of a cycle. -/
def initialPreds (cfg : Cfg) (wto : Wto Label) (head : Label) : List Label :=
  (cfg.parents head).elements.filter (fun prev => !excludes wto head prev)

theorem excludes_iff (built : cfg.buildWto fuel = .ok wto) {head prev : Label} :
    excludes wto head prev = true ↔
      (forall outer, wto.components.StrictlyAround outer head ->
      wto.components.StrictlyAround outer prev) ∧
        exists inner, wto.components.StrictlyAround inner prev ∧
        ¬ wto.components.StrictlyAround inner head := by
  rcases exists_nesting built prev with ⟨heads, prevNesting, chainOf⟩
  rcases exists_nesting built head with ⟨other, headNesting, otherOf⟩
  rw [excludes, prevNesting, headNesting]
  exact Wto.nestingGreater_iff_of_chainOf chainOf otherOf

section Cycle

variable {components : Partition Label} {head prev : Label}

/-- A member of a cycle is in all cycles around its head, and in the cycle itself. -/
theorem excludes_of_mem (built : cfg.buildWto fuel = .ok wto)
    (isCycle : components ∈ wto.components.cycles)
    (first : components.head? = some head) (other : prev ≠ head)
    (member : prev ∈ components.members) :
    excludes wto head prev = true := by
  have wellOrdered := Wto.build_wellOrdered (buildWto_eq_ok.mp built)
  rw [excludes_iff built]
  refine ⟨fun outer around => ?_, head, ⟨other.symm, components, isCycle, first, member⟩,
    fun itself => itself.1 rfl⟩
  have within := around.within wellOrdered.ordered.headed wellOrdered.distinct
  rcases around with ⟨_, large, listed, isHead, _⟩
  rcases within components isCycle large listed first isHead with ⟨subset, outside⟩
  exact ⟨fun same => outside (same ▸ member), large, listed, isHead, subset member⟩

/-- The test excludes the members of the cycle exactly, unless a predecessor is strictly
inside another cycle in the same cycles. -/
theorem excludes_member_iff (built : cfg.buildWto fuel = .ok wto)
    (isCycle : components ∈ wto.components.cycles)
    (first : components.head? = some head) (isPrev : prev ∈ cfg.parents head)
    (other : prev ≠ head) :
    (prev ∉ initialPreds cfg wto head ↔ prev ∈ components.members) ↔
      prev ∈ components.members ∨
        (exists outer, wto.components.StrictlyAround outer head ∧
        ¬ wto.components.StrictlyAround outer prev) ∨
          ∀ cycle ∈ wto.components.cycles, prev ∈ cycle.members -> cycle.head? ≠ some prev ->
          head ∈ cycle.members := by
  have wellOrdered := Wto.build_wellOrdered (buildWto_eq_ok.mp built)
  have headed := wellOrdered.ordered.headed
  have excluded : prev ∉ initialPreds cfg wto head ↔ excludes wto head prev = true := by
    rw [initialPreds, List.mem_filter, Bool.not_eq_true', not_and, Bool.not_eq_false]
    exact ⟨fun implies => implies isPrev, fun isExcluded _ => isExcluded⟩
  by_cases member : prev ∈ components.members
  · exact iff_of_true (iff_of_true (excluded.mpr (excludes_of_mem built isCycle first other member))
      member) (Or.inl member)
  · rw [iff_false_right member, excluded, excludes_iff built, or_iff_right member]
    constructor
    · intro included
      by_cases all : forall outer, wto.components.StrictlyAround outer head ->
        wto.components.StrictlyAround outer prev
      · right
        intro cycle listed inside notHead
        rcases headed cycle listed with ⟨own, isOwn⟩
        have around : wto.components.StrictlyAround own prev :=
          ⟨fun same => notHead (same ▸ isOwn), cycle, listed, isOwn, inside⟩
        have aroundHead : wto.components.StrictlyAround own head := by
          by_contra notAround
          exact included ⟨all, own, around, notAround⟩
        rcases aroundHead with ⟨_, found, foundListed, foundHead, headInside⟩
        rw [Partition.cycle_unique headed wellOrdered.distinct listed foundListed isOwn foundHead]
        exact headInside
      · left
        push Not at all
        exact all
    · rintro shape ⟨all, inner, around, notAround⟩
      rcases shape with ⟨outer, aroundHead, notPrev⟩ | covers
      · exact notPrev (all outer aroundHead)
      · rcases around with ⟨different, cycle, listed, isHead, inside⟩
        have notHead : cycle.head? ≠ some prev :=
          fun same => different (Option.some.inj (isHead.symm.trans same))
        have headInside := covers cycle listed inside notHead
        by_cases own : inner = head
        · rw [own] at isHead
          exact member (Partition.cycle_unique headed wellOrdered.distinct isCycle listed
            first isHead ▸ inside)
        · exact notAround ⟨own, cycle, listed, isHead, headInside⟩

end Cycle

/-- Every cycle of the graph starts from exactly the predecessors outside it. -/
def StartsOutside (cfg : Cfg) : Prop :=
  forall fuel wto, cfg.buildWto fuel = .ok wto -> ∀ components ∈ wto.components.cycles, forall head,
    components.head? = some head -> ∀ prev ∈ (cfg.parents head).elements, prev ≠ head ->
      (prev ∉ initialPreds cfg wto head ↔ prev ∈ components.members)

/-! ## Two loops in sequence -/

theorem WellFormed.foldl_withEdge (wellFormed : cfg.WellFormed) {edges : List (Label × Label)}
    (ends : ∀ edge ∈ edges, edge.1 ∈ cfg.labels ∧ edge.2 ∈ cfg.labels) :
    (edges.foldl (fun cfg edge => cfg.withEdge edge.1 edge.2) cfg).WellFormed := by
  induction edges generalizing cfg with
  | nil => exact wellFormed
  | cons edge rest inductionHypothesis =>
      have first := ends edge List.mem_cons_self
      exact inductionHypothesis (wellFormed.withEdge first.1 first.2)
        (fun other member => ends other (List.mem_cons_of_mem _ member))

/-- A label of a small graph. -/
def stop (index : Int) : Label := { fromIndex := index }

/-- Four labels without edges. -/
def fourStops : Cfg :=
  [stop 1, stop 2, stop 3, stop 4].foldl
    (fun cfg label => cfg.withLabel label { cmd := .undefined 0 }) initial

theorem wellFormed_fourStops : fourStops.WellFormed :=
  (((WellFormed.initial.withLabel (by decide : stop 1 ∉ _) _).withLabel (by decide : stop 2 ∉ _)
    _).withLabel (by decide : stop 3 ∉ _) _).withLabel (by decide : stop 4 ∉ _) _

/-- The labels 1 and 2 form a loop, which label 2 leaves for a loop of the labels 3 and 4. -/
def loopsInSequence : Cfg :=
  [(Label.entry, stop 1), (stop 1, stop 2), (stop 2, stop 1), (stop 2, stop 3), (stop 3, stop 4),
    (stop 4, stop 3), (stop 4, Label.exit)].foldl
    (fun cfg edge => cfg.withEdge edge.1 edge.2) fourStops

/-- The components of the two loops. -/
def sequenceOrder : Partition Label :=
  .vertex Label.entry (.cycle (.vertex (stop 1) (.vertex (stop 2) .nil))
    (.cycle (.vertex (stop 3) (.vertex (stop 4) .nil)) (.vertex Label.exit .nil)))

/-- Label 2 is in front of the loop of label 3, and does not start it. -/
theorem not_excludes_member_loopsInSequence : loopsInSequence.WellFormed ∧
    exists wto, loopsInSequence.buildWto 100 = .ok wto ∧ ∃ components ∈ wto.components.cycles,
      components.head? = some (stop 3) ∧ stop 2 ∈ loopsInSequence.parents (stop 3) ∧
      stop 2 ≠ stop 3 ∧
        ¬ (stop 2 ∉ initialPreds loopsInSequence wto (stop 3) ↔ stop 2 ∈ components.members) := by
  have computed : returnsChecked (fun wto => decide (wto.components = sequenceOrder ∧
      stop 2 ∉ initialPreds loopsInSequence wto (stop 3)))
      (loopsInSequence.buildWto 100) = true := by
    decide
  rcases exists_of_returnsChecked computed with ⟨wto, built, shape⟩
  rcases of_decide_eq_true shape with ⟨order, excluded⟩
  refine ⟨?_, wto, built, .vertex (stop 3) (.vertex (stop 4) .nil), ?_,
    rfl, by decide, by decide, fun same => ?_⟩
  · exact wellFormed_fourStops.foldl_withEdge (by decide)
  · rw [order]
    decide
  · exact absurd (same.mp excluded) (by decide)

end Cfg
end Prevail
