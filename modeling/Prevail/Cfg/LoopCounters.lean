import Prevail.Cfg.Order
import Prevail.Fixpoint.Analyzer
import Prevail.Wto.OuterHeads

namespace Prevail
namespace Cfg

open DepthFirst

/-!
# The loop counters of the two passes

`prepare_cfg` inserts a counter behind each loop head of the graph, and
`run_forward_analyzer` sets the counters of the loop heads of the instrumented graph to
zero.  The two sets of heads come from different graphs.  The instrumentation splices
the counters into the graph, which keeps the first vertex of each strong component in
depth-first order, and these are the loop heads.
-/

/-- The loop heads of a graph get different counters, each the only child of its head. -/
theorem insertCounters_spliced {cfg instrumented : Cfg} {heads : List Label}
    (wellFormed : cfg.WellFormed)
    (distinct : heads.Nodup) (members : forall head, head ∈ heads -> head ∈ cfg.labels)
    (run : insertCounters heads cfg = .ok instrumented)
    (nonempty : forall head, head ∈ heads -> exists child, child ∈ cfg.children head) :
    Spliced {label | label ∈ cfg.labels} {head | head ∈ heads} Label.makeIncrementCounter
      cfg.childrenOf
      instrumented.childrenOf := by
  have spec := insertCounters_spec distinct wellFormed members run
  refine
    { closed := fun label _ child isChild => wellFormed.target label child isChild
      inside := members
      fresh := spec.fresh
      injective := ?_, head := ?_, behind := ?_, other := ?_ }
  · intro first isFirst second isSecond same
    have firstCounts := spec.counter first isFirst
    rw [same, spec.counter second isSecond] at firstCounts
    cases firstCounts
    rfl
  · intro head isHead
    rcases nonempty head isHead with ⟨child, isChild⟩
    have single : instrumented.children head = OrderedSet.singleton head.makeIncrementCounter := by
      ext target
      rw [insertCounters_headChildren distinct wellFormed members run isHead isChild,
        OrderedSet.mem_singleton]
    rw [childrenOf, single]
    rfl
  · intro head isHead
    have same : instrumented.children head.makeIncrementCounter = cfg.children head := by
      ext target
      exact insertCounters_counterChildren distinct wellFormed members run isHead
    rw [childrenOf, same, childrenOf]
  · intro label isLabel notHead
    have same : instrumented.children label = cfg.children label := by
      ext target
      exact spec.otherChildren label target isLabel notHead
    rw [childrenOf, same, childrenOf]

/-- The construction finds the same loop heads before and after the instrumentation. -/
theorem outerHeads_instrumented {cfg instrumented : Cfg} {fuel again : Nat} {wto second : Wto Label}
    (wellFormed : cfg.WellFormed) (ordered : cfg.buildWto fuel = .ok wto)
    (run : insertCounters wto.components.outerHeads cfg = .ok instrumented)
    (reordered : instrumented.buildWto again = .ok second) (head : Label) :
    head ∈ second.components.outerHeads ↔ head ∈ wto.components.outerHeads := by
  have wellOrdered := buildWto_wellOrdered ordered
  rcases Wto.build_outerHeads (buildWto_eq_ok.mp ordered) with
    ⟨order, final, preorder, listed, firsts⟩
  rcases Wto.build_outerHeads (buildWto_eq_ok.mp reordered) with
    ⟨later, laterFinal, laterPreorder, _, laterFirsts⟩
  have nonempty : forall head, head ∈ wto.components.outerHeads ->
      exists child, child ∈ cfg.children head := by
    intro head isHead
    rcases Relation.TransGen.head'_iff.mp ((firsts head).mp isHead).cycle with ⟨child, isChild, _⟩
    exact ⟨child, isChild⟩
  have spliced := insertCounters_spliced wellFormed
    (wto.components.outerHeads_nodup wellOrdered.distinct)
    (fun _ => outerHeads_mem_labels wellFormed wellOrdered) run nonempty
  have entryInside : ∀ label ∈ [Label.entry], label ∈ {label | label ∈ cfg.labels} := by
    intro label isEntry
    rw [List.mem_singleton.mp isEntry]
    exact wellFormed.entry
  rcases spliced.preorder preorder entryInside ⟨fun _ _ => Iff.rfl, fun _ _ => Iff.rfl⟩ with
    ⟨last, _, splicedPreorder⟩
  rcases laterPreorder.unique splicedPreorder with ⟨rfl, _⟩
  have orderInside : ∀ label ∈ order, label ∈ {label | label ∈ cfg.labels} := by
    intro label member
    exact Reaches.mem_of_closed ((listed label).mp member) spliced.closed wellFormed.entry
  rw [laterFirsts, firsts]
  exact spliced.firstOnCycle_iff orderInside splicedPreorder.distinct.1 head

/-- For every program that `prepare_cfg` accepts under `check_for_termination`, the
analyzer sets exactly the counters to zero that the inserted instructions increment. -/
theorem countedHeads_exact {prog : InstructionSeq} {isPrivileged mustHaveExit : Bool} {fuel : Nat}
    {result : Cfg}
    (prepared : prepareCfg prog isPrivileged ⟨true, mustHaveExit⟩ fuel = .ok result) :
    exists cfg, instructionSeqToCfg prog mustHaveExit = .ok cfg ∧
      (exists bound wto, forall again, bound ≤ again -> result.buildWto again = .ok wto) ∧
      forall again wto, result.buildWto again = .ok wto -> forall options : Fixpoint.Options,
        options.checkForTermination = true ->
        exists heads, Fixpoint.countedHeads options wto = some heads ∧
          forall label, label ∈ heads ↔ ∃ counter ∈ result.labels, counter ∉ cfg.labels ∧
            (result.instructions counter).cmd = .incrementLoopCounter label := by
  rcases prepareCfg_steps prepared with
    ⟨cfg, first, instrumented, built, ordered, counting, annotating⟩
  have wellFormed := instructionSeqToCfg_wellFormed built
  have wellOrdered := buildWto_wellOrdered ordered
  refine ⟨cfg, built, exists_buildWto (prepareCfg_wellFormed prepared), ?_⟩
  intro again wto reordered options terminating
  rcases setAllAssertions_spec annotating with ⟨labels, children, instructions⟩
  have spec := insertCounters_spec
    (first.components.outerHeads_nodup wellOrdered.distinct) wellFormed
    (fun _ => outerHeads_mem_labels wellFormed wellOrdered) counting
  have instrumentedOrdered : instrumented.buildWto again = .ok wto := by
    have sameChildren : instrumented.childrenOf = result.childrenOf := by
      funext label
      rw [childrenOf, childrenOf, children]
    rw [buildWto, sameChildren]
    exact reordered
  refine ⟨wto.components.outerHeads, ?_, ?_⟩
  · rw [Fixpoint.countedHeads, if_pos terminating]
    exact Wto.loopHeads_eq_outerHeads (buildWto_wellOrdered reordered).ordered
  · intro label
    rw [outerHeads_instrumented wellFormed ordered counting instrumentedOrdered]
    constructor
    · intro isHead
      refine ⟨label.makeIncrementCounter, ?_, spec.fresh label isHead, ?_⟩
      · rw [labels, spec.labels]
        exact Or.inr ⟨label, isHead, rfl⟩
      · rw [instructions]
        exact spec.counter label isHead
    · rintro ⟨counter, member, isNew, increments⟩
      rw [labels, spec.labels] at member
      rcases member with isOld | ⟨head, isHead, rfl⟩
      · exact absurd isOld isNew
      · rw [instructions, spec.counter head isHead] at increments
        cases increments
        exact isHead

theorem countedHeads_countingLoop :
    exists result cfg wto, prepareCfg countingLoop false ⟨true, true⟩ 100 = .ok result ∧
    instructionSeqToCfg countingLoop true = .ok cfg ∧ result.buildWto 100 = .ok wto ∧
    Fixpoint.countedHeads ⟨false, true⟩ wto = some [{ fromIndex := 1 }] ∧
    ∃ counter ∈ result.labels, counter ∉ cfg.labels ∧
      (result.instructions counter).cmd = .incrementLoopCounter { fromIndex := 1 } := by
  have checked : returnsChecked (fun result => returnsChecked (fun wto =>
      decide (Fixpoint.countedHeads ⟨false, true⟩ wto = some [{ fromIndex := 1 }]))
        (result.buildWto 100))
      (prepareCfg countingLoop false ⟨true, true⟩ 100) = true := by
    decide
  rcases exists_of_returnsChecked checked with ⟨result, prepared, orderChecked⟩
  rcases exists_of_returnsChecked orderChecked with ⟨wto, ordered, headsChecked⟩
  have counted := of_decide_eq_true headsChecked
  rcases countedHeads_exact prepared with ⟨cfg, built, _, exact⟩
  rcases exact 100 wto ordered ⟨false, true⟩ rfl with ⟨heads, found, same⟩
  cases counted.symm.trans found
  exact ⟨result, cfg, wto, prepared, built, ordered, counted, (same _).mp List.mem_cons_self⟩

end Cfg
end Prevail
