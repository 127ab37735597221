import Prevail.Library.Nesting
import Prevail.Wto.Components

namespace Prevail
namespace Wto

universe u

/-!
# Where each label is nested

A vertex enters its map when its component is complete, and a cycle knows the cycle
around it from its creation.  Both are written once, so they describe the final
components.  The heads that are collected for a label are therefore those of the cycles
around it, without the one of which it is the head itself.
-/

variable {V : Type u} [DecidableEq V]

/-- The two maps describe a partition inside the cycle with the name `around`. -/
def Records (containing : V -> Option (Option V)) (parent : V -> Option V) :
    Option V -> Partition V -> Prop
  | _, .nil => True
  | around, .vertex label rest =>
    containing label = some around ∧ Records containing parent around rest
  | around, .cycle components rest =>
      (forall head, components.head? = some head -> parent head = around) ∧
        Records containing parent components.head? components ∧
        Records containing parent around rest

section Records

variable {containing nextContaining : V -> Option (Option V)} {parent nextParent : V -> Option V}

omit [DecidableEq V] in
theorem Records.congr {partition : Partition V} {around : Option V}
    (records : Records containing parent around partition)
    (same : ∀ label ∈ partition.members, nextContaining label = containing label ∧
      nextParent label = parent label) :
    Records nextContaining nextParent around partition := by
  induction partition generalizing around with
  | nil => trivial
  | vertex label rest inductionHypothesis =>
      rcases records with ⟨here, later⟩
      refine ⟨(same label List.mem_cons_self).1.trans here, ?_⟩
      exact inductionHypothesis later
        (fun other member => same other (List.mem_cons_of_mem _ member))
  | cycle components rest componentsHypothesis restHypothesis =>
      rcases records with ⟨atHead, inside, later⟩
      have inComponents : ∀ label ∈ components.members, nextContaining label = containing label ∧
          nextParent label = parent label := fun label member =>
          same label (List.mem_append_left _ member)
      refine ⟨fun head first => ?_, componentsHypothesis inside inComponents, ?_⟩
      · exact (inComponents head (Partition.mem_members_of_head? first)).2.trans (atHead head first)
      · exact restHypothesis later (fun label member => same label (List.mem_append_right _ member))

omit [DecidableEq V] in
theorem Records.append {front tail : Partition V} {around : Option V}
    (records : Records containing parent around front)
    (tailRecords : Records containing parent around tail) :
    Records containing parent around (front.append tail) := by
  induction front with
  | nil => exact tailRecords
  | vertex label rest inductionHypothesis => exact ⟨records.1, inductionHypothesis records.2⟩
  | cycle components rest _ inductionHypothesis =>
    exact ⟨records.1, records.2.1, inductionHypothesis records.2.2⟩

end Records

/-- Only complete vertices have an entry. -/
def Unrecorded (state : BuilderState V) : Prop :=
  forall vertex, ¬ Done state vertex -> state.containingCycle vertex = none

/-- The entries of complete vertices stay. -/
def EntriesStay (state final : BuilderState V) : Prop :=
  forall vertex, Done state vertex -> final.containingCycle vertex = state.containingCycle vertex ∧
    final.cycleParent vertex = state.cycleParent vertex

/-- What a visit records. -/
structure Recorded (target : Option V) (state final : BuilderState V)
    (found : Partition V) : Prop where
  records : Records final.containingCycle final.cycleParent target found
  stay : EntriesStay state final
  unrecorded : Unrecorded final

section Recorded

variable {children : V -> List V} {target : Option V} {vertex : V}
  {state visited body final : BuilderState V} {opened : List V} {below after inner : Partition V}

omit [DecidableEq V] in
/-- A step that completes no vertex and writes no entry. -/
theorem Unrecorded.of_same (unrecorded : Unrecorded state)
    (done : forall other, Done final other ↔ Done state other)
    (containing : final.containingCycle = state.containingCycle) : Unrecorded final := by
  intro other notDone
  rw [containing]
  exact unrecorded other (fun isDone => notDone ((done other).mpr isDone))

theorem done_number_iff (white : White state vertex) {other : V} :
    Done (number state vertex) other ↔ Done state other := by
  by_cases same : other = vertex
  · subst same
    rw [Done, Done, number_data_self, show (state.vertexData other).dfn = 0 from white]
    exact iff_of_false WithTop.coe_ne_top (by simp)
  · rw [Done, Done, number_data_of_ne same]

omit [DecidableEq V] in
/-- The components behind a step are recorded, as long as the entries of their vertices stay. -/
theorem Recorded.keep (recorded : Recorded target state visited below)
    (members : ∀ label ∈ below.members, Done visited label) (stay : EntriesStay visited final) :
    Records final.containingCycle final.cycleParent target below :=
  recorded.records.congr (fun label member => stay label (members label member))

theorem Recorded.component {stack : List V}
    (recorded : Recorded target (number state vertex) visited below)
    (scanned : Scanned children vertex state visited opened) (members : ∀ label ∈ below.members,
      Done visited label) :
    Recorded target state (finishVertex vertex target target (visited.vertexData vertex).dfn
      stack visited)
      (.vertex vertex below) := by
  have notDone := scanned.contract.invariant.not_done scanned.vertex_mem
  have entries : forall other, other ≠ vertex ->
      (finishVertex vertex target target (visited.vertexData vertex).dfn stack
        visited).containingCycle other =
        visited.containingCycle other := fun other different => Function.update_of_ne different ..
  have own : (finishVertex vertex target target (visited.vertexData vertex).dfn stack
      visited).containingCycle vertex =
      some target := by
    have empty := recorded.unrecorded vertex notDone
    have written : (finishVertex vertex target target (visited.vertexData vertex).dfn stack
        visited).containingCycle
        vertex = some ((visited.containingCycle vertex).getD target) := Function.update_self ..
    rw [written, empty]
    rfl
  have stay : EntriesStay visited
      (finishVertex vertex target target (visited.vertexData vertex).dfn stack visited) := by
    intro other done
    exact ⟨entries other (fun same => notDone (same ▸ done)), rfl⟩
  refine ⟨⟨own, recorded.keep members stay⟩, fun other done => ?_, fun other isNotDone => ?_⟩
  · have first := recorded.stay other ((done_number_iff scanned.white).mpr done)
    have second := stay other (scanned.keeps_done done)
    exact ⟨second.1.trans first.1, second.2.trans first.2⟩
  · have different : other ≠ vertex := by
      rintro rfl
      apply isNotDone
      rw [Done, finishVertex_data_self]
    rw [entries other different]
    apply recorded.unrecorded
    intro done
    exact isNotDone (Scanned.finishVertex_done done)

theorem Recorded.cycle {stack : List V} {vertexData : V -> VertexData} {bodyOpened : List V}
    (recorded : Recorded target (number state vertex) visited below)
    (looped : Looped children vertex state visited
      (openCycle vertex target (visited.vertexData vertex).dfn stack vertexData visited) body
      opened bodyOpened)
    (inside : Recorded (some vertex)
      (openCycle vertex target (visited.vertexData vertex).dfn stack vertexData visited) body inner)
    (members : ∀ label ∈ below.members, Done visited label) (fresh : vertex ∉ inner.members) :
    Recorded target state (closeCycle vertex target vertex body)
    (.cycle (.vertex vertex inner) below) := by
  have scanned := looped.scanned
  have notDone := scanned.contract.invariant.not_done scanned.vertex_mem
  have atHead := inside.stay vertex looped.head
  have ownParent : body.cycleParent vertex = target := atHead.2.trans (Function.update_self ..)
  have ownEntry : body.containingCycle vertex = none :=
    atHead.1.trans (recorded.unrecorded vertex notDone)
  have entries : forall other, other ≠ vertex ->
      (closeCycle vertex target vertex body).containingCycle other = body.containingCycle other :=
    fun other different => Function.update_of_ne different ..
  have own : (closeCycle vertex target vertex body).containingCycle vertex = some
      (some vertex) := by
    have written : (closeCycle vertex target vertex body).containingCycle vertex =
        some ((body.containingCycle vertex).getD (some vertex)) := Function.update_self ..
    rw [written, ownEntry]
    rfl
  have stay : EntriesStay visited (closeCycle vertex target vertex body) := by
    intro other done
    have different : other ≠ vertex := fun same => notDone (same ▸ done)
    have kept := inside.stay other (looped.done_inner done)
    exact ⟨(entries other different).trans kept.1,
      kept.2.trans (Function.update_of_ne different ..)⟩
  refine ⟨⟨?_, ⟨own, ?_⟩, recorded.keep members stay⟩, fun other done => ?_,
    fun other isNotDone => ?_⟩
  · intro head isHead
    cases isHead
    exact ownParent
  · apply inside.records.congr
    intro label member
    exact ⟨entries label (fun same => fresh (same ▸ member)), rfl⟩
  · have first := recorded.stay other ((done_number_iff scanned.white).mpr done)
    have second := stay other (scanned.keeps_done done)
    exact ⟨second.1.trans first.1, second.2.trans first.2⟩
  · have different : other ≠ vertex := by
      rintro rfl
      exact isNotDone looped.body_head
    rw [entries other different]
    exact inside.unrecorded other isNotDone

omit [DecidableEq V] in
theorem Recorded.append (first : Recorded target state visited below)
    (second : Recorded target visited final after)
    (members : ∀ label ∈ below.members, Done visited label)
    (keeps : forall other, Done state other -> Done visited other) :
    Recorded target state final (after.append below) := by
  refine ⟨second.records.append (first.keep members second.stay), fun other done => ?_,
    second.unrecorded⟩
  have before := first.stay other done
  have later := second.stay other (keeps other done)
  exact ⟨later.1.trans before.1, later.2.trans before.2⟩

end Recorded

theorem Finds.recorded {children : V -> List V} {target : Option V} {vertices order : List V}
    {state final : BuilderState V} {found : Partition V}
    (finds : Finds children target vertices state final found order)
    (invariant : Invariant state) (outside : forall head, target = some head -> Done state head)
    (unrecorded : Unrecorded state) : Recorded target state final found := by
  induction finds with
  | nil target state => exact ⟨trivial, fun _ _ => ⟨rfl, rfl⟩, unrecorded⟩
  | seen numbered later laterHypothesis => exact laterHypothesis invariant outside unrecorded
  | @pending target vertex rest _ _ state visited final _ _ headDfn loop white descendants
    scan lower later
      descendantsHypothesis laterHypothesis =>
      have numbered := invariant.number white
      rcases descendants.visits.contract numbered with ⟨opened, contract⟩
      have scanned : Scanned _ vertex state visited opened := ⟨invariant, white, contract⟩
      have first := scanned.pending scan lower
      have outsideNumbered : forall head, target = some head -> Done (number state vertex) head :=
        fun head same => (done_number_iff white).mpr (outside head same)
      have below := descendantsHypothesis numbered outsideNumbered
        (unrecorded.of_same (fun other => done_number_iff white) rfl)
      have output := descendants.output numbered outsideNumbered
      have doneIff : forall other, Done (visited.setHeadDfn vertex headDfn) other ↔
          Done visited other := by
        intro other
        rw [Done, Done, BuilderState.setHeadDfn_dfn]
      have step : Recorded target state (visited.setHeadDfn vertex headDfn) _ :=
        ⟨below.records, fun other done => below.stay other ((done_number_iff white).mpr done),
          below.unrecorded.of_same doneIff rfl⟩
      have second := laterHypothesis first.invariant
        (fun head same => first.keeps_done (outside head same))
        step.unrecorded
      exact step.append second
        (fun label member => (doneIff label).mpr ((output.members label).mp member).1)
        (fun _ done => first.keeps_done done)
  | @component target vertex top rest stack _ _ state visited final _ _ white descendants
    scan popped later
      descendantsHypothesis laterHypothesis =>
      have numbered := invariant.number white
      rcases descendants.visits.contract numbered with ⟨opened, contract⟩
      have scanned : Scanned _ vertex state visited opened := ⟨invariant, white, contract⟩
      have first : Contract _ [vertex] state (finishVertex vertex target target _ stack
          visited) [] :=
        scanned.component scan popped
      have outsideNumbered : forall head, target = some head -> Done (number state vertex) head :=
        fun head same => (done_number_iff white).mpr (outside head same)
      have below := descendantsHypothesis numbered outsideNumbered
        (unrecorded.of_same (fun other => done_number_iff white) rfl)
      have output := descendants.output numbered outsideNumbered
      have members : ∀ label ∈ _, Done visited label :=
        fun label member => ((output.members label).mp member).1
      have step : Recorded target state (finishVertex vertex target target _ stack visited) _ :=
        below.component scanned members
      have second := laterHypothesis first.invariant
        (fun head same => first.keeps_done (outside head same))
        step.unrecorded
      refine step.append second (fun label member => ?_) (fun _ done => first.keeps_done done)
      rcases List.mem_cons.mp member with rfl | inside
      · rw [Done, finishVertex_data_self]
      · exact Scanned.finishVertex_done (members label inside)
  | @cycle target vertex rest stack _ _ _ vertexData state visited body final _ _ _ white
    descendants scan popped
      inside later descendantsHypothesis insideHypothesis laterHypothesis =>
      have numbered := invariant.number white
      rcases descendants.visits.contract numbered with ⟨opened, contract⟩
      have scanned : Scanned _ vertex state visited opened := ⟨invariant, white, contract⟩
      have cycleOpened : CycleOpened _ vertex state visited
          (openCycle vertex target _ stack vertexData visited) opened :=
        CycleOpened.of_openCycle scanned scan popped
      rcases inside.visits.contract cycleOpened.innerInvariant with ⟨bodyOpened, bodyContract⟩
      have looped : Looped _ vertex state visited
          (openCycle vertex target _ stack vertexData visited) body opened bodyOpened :=
        ⟨cycleOpened, bodyContract⟩
      have first : Contract _ [vertex] state (closeCycle vertex target vertex body) [] :=
        looped.cycle rfl rfl rfl
      have outsideNumbered : forall head, target = some head -> Done (number state vertex) head :=
        fun head same => (done_number_iff white).mpr (outside head same)
      have below := descendantsHypothesis numbered outsideNumbered
        (unrecorded.of_same (fun other => done_number_iff white) rfl)
      have output := descendants.output numbered outsideNumbered
      have members : ∀ label ∈ _, Done visited label :=
        fun label member => ((output.members label).mp member).1
      have headDone : forall head, some vertex = some head ->
          Done (openCycle vertex target (visited.vertexData vertex).dfn stack vertexData visited)
          head :=
        fun head same => Option.some.inj same ▸ cycleOpened.head
      have innerOutput := inside.output cycleOpened.innerInvariant headDone
      have innerRecorded := insideHypothesis cycleOpened.innerInvariant headDone
        (fun other notDone =>
        below.unrecorded other (fun done => notDone (looped.done_inner done)))
      have fresh : vertex ∉ _ :=
        fun member => ((innerOutput.members vertex).mp member).2 cycleOpened.head
      have step := below.cycle looped innerRecorded members fresh
      have second := laterHypothesis first.invariant
        (fun head same => first.keeps_done (outside head same))
        step.unrecorded
      refine step.append second (fun label member => ?_) (fun _ done => first.keeps_done done)
      rcases List.mem_append.mp member with within | before
      · rcases List.mem_cons.mp within with rfl | deeper
        · exact looped.body_head
        · exact ((innerOutput.members label).mp deeper).1
      · exact looped.body_done (members label before)

/-! ## The heads around a label -/

section Collect

variable {wto : Wto V}

/-- `wto_t::nesting`.  The loop of `collect_heads` ends, as there are no more heads than
labels. -/
def nesting (wto : Wto V) (label : V) : Option (List V) :=
  wto.collectHeads (wto.components.members.length + 1) label

/-- The cycles around the given heads are collected for each of them. -/
def Collects (wto : Wto V) : List V -> Prop
  | [] => True
  | head :: rest => forall fuel, rest.length < fuel -> wto.collectHeads fuel head = some rest

theorem collectHeads_of_head {outer : List V} {label : V} (collects : wto.Collects outer)
    (isHead : wto.head label = outer.head?) {fuel : Nat} (enough : outer.length < fuel) :
    wto.collectHeads fuel label = some outer := by
  cases fuel with
  | zero => cases enough
  | succ fuel =>
      rw [collectHeads, isHead]
      cases outer with
      | nil => rfl
      | cons first rest =>
          rw [List.length_cons] at enough
          dsimp only [List.head?]
          rw [collects fuel (by omega)]
          rfl

theorem head_of_ownCycle {components rest : Partition V} {around : Option V} {own : V}
    (records : Records wto.containingCycle wto.cycleParent around (.cycle components rest))
    (first : components.head? = some own) : wto.head own = around := by
  rcases records with ⟨atHead, inside, _⟩
  cases components with
  | nil => cases first
  | cycle => cases first
  | vertex label inner =>
      cases first
      rw [head, inside.1]
      dsimp only [Partition.head?]
      rw [if_neg (not_not.mpr rfl), atHead own rfl]

/-- Another vertex of a cycle is in that cycle. -/
theorem head_of_vertex {rest : Partition V} {around : Option V} {label : V}
    (records : Records wto.containingCycle wto.cycleParent around (.vertex label rest))
    (other : around ≠ some label) :
    wto.head label = around := by
  rw [head, records.1]
  cases around with
  | none => rfl
  | some first =>
      have different : first ≠ label := fun same => other (congrArg some same)
      dsimp only
      rw [if_pos different]

theorem collectHeads_of_enclosed {partition : Partition V} {outer heads : List V} {label : V}
    (records : Records wto.containingCycle wto.cycleParent outer.head? partition)
    (collects : wto.Collects outer)
    (other : outer.head? ≠ some label)
    (enclosed : partition.Enclosed outer label heads) {fuel : Nat}
    (enough : heads.length < fuel) : wto.collectHeads fuel label = some heads := by
  induction partition generalizing outer with
  | nil => exact enclosed.elim
  | vertex first rest inductionHypothesis =>
      rcases enclosed with ⟨rfl, rfl⟩ | later
      · exact collectHeads_of_head collects (head_of_vertex records other) enough
      · exact inductionHypothesis records.2 collects other later
  | cycle components rest componentsHypothesis restHypothesis =>
      rcases enclosed with ⟨first, rfl⟩ | ⟨own, first, different, inside⟩ | later
      · exact collectHeads_of_head collects (head_of_ownCycle records first) enough
      · have ownCollects : wto.Collects (own :: outer) :=
          fun _ enoughSteps => collectHeads_of_head collects
            (head_of_ownCycle records first) enoughSteps
        have inComponents := records.2.1
        rw [first] at inComponents
        refine @componentsHypothesis (own :: outer) inComponents ownCollects ?_ inside
        exact fun same => different (Option.some.inj same).symm
      · exact restHypothesis records.2.2 collects other later

end Collect

section Build

variable {children : V -> List V} {entry label : V} {fuel : Nat} {wto : Wto V}

/-- The maps of a construction that returns describe its components, and nothing else. -/
theorem build_records (built : build children entry fuel = some wto) :
    Records wto.containingCycle wto.cycleParent none wto.components ∧
      forall label, label ∉ wto.components.members -> wto.containingCycle label = none := by
  rcases visits_of_build built with ⟨final, visits, rfl⟩
  rcases visits.finds with ⟨found, order, finds⟩
  have output := finds.output initialState_invariant (fun head same => by cases same)
  have recorded := finds.recorded initialState_invariant (fun head same => by cases same)
    (fun _ _ => rfl)
  have components : final.components none = found := by
    rw [output.components]
    exact Partition.append_nil found
  refine ⟨components ▸ recorded.records, fun label absent =>
    recorded.unrecorded label (fun done => absent ?_)⟩
  dsimp only
  rw [components, output.members]
  exact ⟨done, fun before => before.not_white rfl⟩

/-- The nesting of a label in the order is the chain of the cycles strictly around it. -/
theorem nesting_chainOf (built : build children entry fuel = some wto)
    (member : label ∈ wto.components.members) :
    exists chain, wto.nesting label = some chain ∧ wto.components.ChainOf label chain := by
  have wellOrdered := build_wellOrdered built
  rcases Partition.exists_enclosed wellOrdered.ordered.headed member [] with ⟨heads, enclosed⟩
  rcases enclosed.chain wellOrdered.distinct with ⟨chain, same, chainOf⟩
  rw [List.append_nil] at same
  rw [same] at enclosed
  refine ⟨chain, ?_, chainOf⟩
  have length := (List.subperm_of_subset chainOf.nodup chainOf.subset).length_le
  have records : Records wto.containingCycle wto.cycleParent ([] : List V).head? wto.components :=
    (build_records built).1
  have collects : wto.Collects [] := trivial
  have noHead : ([] : List V).head? ≠ some label := fun impossible => by cases impossible
  exact collectHeads_of_enclosed records collects noHead enclosed (Nat.lt_succ_of_le length)

theorem nesting_of_notMem (built : build children entry fuel = some wto)
    (absent : label ∉ wto.components.members) :
    wto.nesting label = some [] := by
  rw [nesting, collectHeads, head, (build_records built).2 label absent]

end Build

omit [DecidableEq V] in
theorem chainOf_of_notMem {partition : Partition V} {label : V}
    (absent : label ∉ partition.members) :
    partition.ChainOf label [] where
  mem_iff _ := ⟨fun impossible => (by cases impossible), fun around =>
    absurd around.head_mem.2 absent⟩
  sorted := List.Pairwise.nil

/-- `operator>` compares the outer ends. -/
theorem nestingGreater_iff {heads other : List V} :
    nestingGreater heads other = true ↔ other <:+ heads ∧ other.length < heads.length := by
  rw [nestingGreater, Bool.and_eq_true, decide_eq_true_eq, List.isPrefixOf_iff_prefix,
    List.reverse_prefix, and_comm]

omit [DecidableEq V] in
/-- A shorter end of a chain misses one of its cycles. -/
theorem exists_missing_iff {heads other : List V} (distinct : heads.Nodup)
    (suffix : other <:+ heads) :
    other.length < heads.length ↔ ∃ head ∈ heads, head ∉ other := by
  constructor
  · intro shorter
    by_contra none
    push Not at none
    have length := (List.subperm_of_subset distinct none).length_le
    omega
  · rintro ⟨head, member, absent⟩
    apply lt_of_le_of_ne suffix.length_le
    intro same
    exact absent (suffix.eq_of_length same ▸ member)

theorem nestingGreater_iff_of_chainOf {partition : Partition V} {first second : V}
    {heads other : List V}
    (chainOf : partition.ChainOf first heads) (otherOf : partition.ChainOf second other) :
    nestingGreater heads other = true ↔
      (forall head, partition.StrictlyAround head second -> partition.StrictlyAround head first) ∧
        exists head, partition.StrictlyAround head
        first ∧ ¬ partition.StrictlyAround head second := by
  rw [nestingGreater_iff]
  constructor
  · rintro ⟨suffix, shorter⟩
    rcases (exists_missing_iff chainOf.nodup suffix).mp shorter with ⟨head, member, absent⟩
    refine ⟨fun found around => ?_, head, (chainOf.mem_iff head).mp member, fun around => ?_⟩
    · exact (chainOf.mem_iff found).mp (suffix.subset ((otherOf.mem_iff found).mpr around))
    · exact absent ((otherOf.mem_iff head).mpr around)
  · rintro ⟨all, head, around, notAround⟩
    have inside : other ⊆ heads :=
      fun found member => (chainOf.mem_iff found).mpr
        (all found ((otherOf.mem_iff found).mp member))
    have suffix := (chainOf.suffix_iff otherOf).mpr inside
    refine ⟨suffix, (exists_missing_iff chainOf.nodup suffix).mpr
      ⟨head, (chainOf.mem_iff head).mpr around, ?_⟩⟩
    exact fun member => notAround ((otherOf.mem_iff head).mp member)

end Wto
end Prevail
