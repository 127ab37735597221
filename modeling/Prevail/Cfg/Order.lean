import Prevail.Cfg.Prepare
import Prevail.Wto.Terminate

namespace Prevail
namespace Cfg

/-!
# The weak topological order of a control-flow graph

What `wto_t` computes for a graph, whatever its shape: the construction
returns, and its components list the labels that the entry reaches, each once,
so that an edge either leads forward or back to the head of a component around
its source.  Every directed cycle of these labels therefore passes through the
head of a component, which is where the analysis widens.
-/

/-- The entry label leads to a label along the edges of the graph. -/
def Reachable (cfg : Cfg) (label : Label) : Prop :=
  Relation.ReflTransGen (fun source target => target ∈ cfg.children source) Label.entry label

variable {cfg : Cfg}

theorem buildWto_eq_ok {fuel : Nat} {wto : Wto Label} :
    cfg.buildWto fuel = .ok wto ↔ Wto.build cfg.childrenOf Label.entry fuel = some wto := by
  unfold buildWto
  split <;> simp_all

/-- With enough fuel the construction returns, and its result does not depend
on the fuel. -/
theorem exists_buildWto (wellFormed : cfg.WellFormed) :
    exists bound wto, forall fuel, bound ≤ fuel -> cfg.buildWto fuel = .ok wto := by
  have closed : forall label, label ∈ cfg.labels.elements.toFinset ->
      forall child, child ∈ cfg.childrenOf label -> child ∈ cfg.labels.elements.toFinset :=
    fun label _ child member => List.mem_toFinset.mpr (wellFormed.target label child member)
  rcases Wto.exists_build closed (List.mem_toFinset.mpr wellFormed.entry) with ⟨bound, wto, built⟩
  exact ⟨bound, wto, fun fuel enough => buildWto_eq_ok.mpr (built fuel enough)⟩

/-- The order of every graph is a weak topological order. -/
theorem buildWto_weakTopologicalOrder (wellFormed : cfg.WellFormed) :
    (exists bound wto, forall fuel, bound ≤ fuel -> cfg.buildWto fuel = .ok wto) ∧
    forall fuel wto, cfg.buildWto fuel = .ok wto ->
      (forall label, label ∈ wto.components.members ↔ cfg.Reachable label) ∧
      wto.components.members.Nodup ∧
      (forall components, components ∈ wto.components.cycles ->
        exists head rest, components = .vertex head rest) ∧
      (forall source target, cfg.Reachable source -> cfg.Reachable target ->
      target ∈ cfg.children source ->
        wto.components.Before source target ∨
          exists components, components ∈ wto.components.cycles ∧ components.head? = some target ∧
            source ∈ components.members) ∧
      (forall first rest, cfg.Reachable first ->
        List.IsChain (fun source target => target ∈ cfg.children source) (first :: rest) ->
          first ∈ cfg.children ((first :: rest).getLast (List.cons_ne_nil _ _)) ->
            exists components head, components ∈ wto.components.cycles ∧
            components.head? = some head ∧
              head ∈ first :: rest) := by
  refine ⟨exists_buildWto wellFormed, ?_⟩
  intro fuel wto built
  have wellOrdered := Wto.build_wellOrdered (buildWto_eq_ok.mp built)
  have ordered := wellOrdered.ordered
  have members : forall label, label ∈ wto.components.members ↔ cfg.Reachable label :=
    wellOrdered.members
  refine ⟨members, wellOrdered.distinct, ?_, ?_, ?_⟩
  · intro components member
    rcases ordered.exists_head member with ⟨head, first⟩
    cases components with
    | nil => cases first
    | vertex label rest => exact ⟨label, rest, rfl⟩
    | cycle inner rest => cases first
  · intro source target sourceReached targetReached child
    exact ordered.before_or_encloses wellOrdered.distinct ((members source).mpr sourceReached)
      ((members target).mpr targetReached) (Set.notMem_empty _) child
  · intro first rest reached chain closing
    rcases ordered.exists_head_on_cycle wellOrdered.distinct ((members first).mpr reached)
      chain closing with
      ⟨head, onCycle, isHead⟩
    rcases Partition.mem_heads_iff.mp isHead with ⟨components, member, isFirst⟩
    exact ⟨components, head, member, isFirst, onCycle⟩

/-- A graph whose exit leads back to the entry. -/
def endless : Cfg := (initial.withEdge Label.entry Label.exit).withEdge Label.exit Label.entry

theorem buildWto_weakTopologicalOrder_endless :
    exists wto, endless.buildWto 20 = .ok wto ∧ wto.components.members.Nodup ∧
      wto.components.members = [Label.entry, Label.exit] := by
  have wellFormed : endless.WellFormed :=
    (WellFormed.initial.withEdge WellFormed.initial.entry WellFormed.initial.exit).withEdge
      WellFormed.initial.exit WellFormed.initial.entry
  have computed : returnsChecked
      (fun wto => decide (wto.components.members = [Label.entry, Label.exit]))
      (endless.buildWto 20) = true := by
    decide
  rcases exists_of_returnsChecked computed with ⟨wto, built, listed⟩
  exact ⟨wto, built, ((buildWto_weakTopologicalOrder wellFormed).2 20 wto built).2.1,
    of_decide_eq_true listed⟩

end Cfg
end Prevail
