import Prevail.Library.Fuel
import Prevail.Wto.Nesting
import Prevail.Wto.Terminate
import Prevail.Fixpoint.Soundness

namespace Prevail
namespace Fixpoint

/-!
# Termination of the fixpoint iterator

Neither loop of a cycle has a bound of its own.  The decreasing iteration counts
its rounds; the increasing iteration ends because widening is applied from the
second round on.  The law of a widening is that no sequence of values, widened
by one new value after the other, grows forever; it is asked for here with the
plain widening, since the widening to constants is used in one round only.

The rounds of a cycle contain the visits of the inner cycles.  As the state
before a round depends on the rounds before it, the fuel for the inner visits is
found along the rounds that are made, of which there are finitely many.
-/

variable {Label Instr Assertion D Warning : Type}

/-- The operations that may throw do not. -/
structure NeverThrows (domain : Domain D Label Instr Assertion Warning) : Prop where
  transform : forall value instr, (domain.transform value instr).isSome
  assume : forall value assertion, (domain.assume value assertion).isSome

/-- The values of a head that is widened by one new value after the other. -/
def widenChain (domain : Domain D Label Instr Assertion Warning) (start : D)
    (news : Nat -> D) : Nat -> D
  | 0 => start
  | round + 1 => domain.widen (widenChain domain start news round) (news round) false

/-- Widening by any sequence of new values meets a new value that is not larger,
before the round counter of the iterator overflows. -/
def WideningStabilises (domain : Domain D Label Instr Assertion Warning) : Prop :=
  forall start news, exists round, round + 3 < 2 ^ 32 ∧
    domain.le (news round) (widenChain domain start news round) = true

section Nesting

variable [DecidableEq Label] {wto : Wto Label}

omit [DecidableEq Label] in
theorem collectHeads_succ {wto : Wto Label} [DecidableEq Label] {fuel : Nat} {label : Label}
    {heads : List Label}
    (collected : wto.collectHeads fuel label = some heads) :
    wto.collectHeads (fuel + 1) label = some heads := by
  induction fuel generalizing label heads with
  | zero => cases collected
  | succ fuel inductionHypothesis =>
      rw [Wto.collectHeads] at collected ⊢
      cases isHead : wto.head label with
      | none =>
          rw [isHead] at collected
          exact collected
      | some outer =>
          rw [isHead] at collected
          dsimp only at collected ⊢
          rcases Option.map_eq_some_iff.mp collected with ⟨rest, found, rfl⟩
          rw [inductionHypothesis found, Option.map_some]

/-- The collection of heads ends in a graph with a weak topological order. -/
theorem exists_settles_collectHeads {children : Label -> List Label} {entry : Label} {fuel : Nat}
    (built : Wto.build children entry fuel = some wto) (label : Label) :
    exists heads, Settles (fun fuel => wto.collectHeads fuel label) heads := by
  have nesting : exists heads, wto.nesting label = some heads := by
    by_cases member : label ∈ wto.components.members
    · rcases Wto.nesting_chainOf built member with ⟨heads, nesting, _⟩
      exact ⟨heads, nesting⟩
    · exact ⟨[], Wto.nesting_of_notMem built member⟩
  rcases nesting with ⟨heads, nesting⟩
  refine ⟨heads, wto.components.members.length + 1, fun fuel enough => ?_⟩
  induction fuel, enough using Nat.le_induction with
  | base => exact nesting
  | succ fuel _ inductionHypothesis => exact collectHeads_succ inductionHypothesis

end Nesting

section Iterator

variable [DecidableEq Label] (program : Program Label Instr Assertion)
  {domain : Domain D Label Instr Assertion Warning} (options : Options) {wto : Wto Label}

/-! ## The straight-line parts -/

theorem exists_transformToPost (total : NeverThrows domain) (label : Label) (pre : D)
    (state : IteratorState Label D) :
    exists next, transformToPost program domain options label pre state = some next := by
  have assumed : forall (assertions : List Assertion) (value : D),
      exists result, assumeAll domain assertions value = some result := by
    intro assertions
    induction assertions with
    | nil => exact fun value => ⟨value, rfl⟩
    | cons assertion rest inductionHypothesis =>
        intro value
        rcases Option.isSome_iff_exists.mp (total.assume value assertion) with ⟨next, step⟩
        rcases inductionHypothesis next with ⟨result, run⟩
        refine ⟨result, ?_⟩
        rw [assumeAll, List.foldlM_cons, step]
        exact run
  have transformed : forall value, exists next,
      (domain.transform value (program.instructionAt label)).bind
      (fun post => some (setPost label post state)) =
        some next := by
    intro value
    rcases Option.isSome_iff_exists.mp (total.transform value (program.instructionAt label)) with
      ⟨post, step⟩
    exact ⟨setPost label post state, by rw [step, Option.bind_some]⟩
  unfold transformToPost
  split
  · rcases assumed (program.assertionsAt label) pre with ⟨value, start⟩
    rw [start]
    exact transformed value
  · exact transformed pre

theorem exists_visitLabel (total : NeverThrows domain) (label : Label)
    (state : IteratorState Label D) :
    exists next, visitLabel program domain options label state = some next := by
  unfold visitLabel
  dsimp only
  by_cases skipped : (if state.skip && label == program.entry then false else state.skip) = true
  · rw [if_pos skipped]
    exact ⟨_, rfl⟩
  · rw [if_neg skipped]
    exact exists_transformToPost program options total _ _ _

theorem exists_settles_outerPrevs
    (nestings : forall label, exists heads, Settles (fun fuel => wto.collectHeads fuel label) heads)
    (head : Label) :
    exists prevs, Settles (fun fuel => outerPrevs program wto fuel head) prevs := by
  choose nesting collected using nestings
  have tests : forall prev, Settles
      (fun fuel => (wto.collectHeads fuel prev).bind
        (fun heads => some !(Wto.nestingGreater heads (nesting head))))
      (!(Wto.nestingGreater (nesting prev) (nesting head))) :=
    fun prev => (collected prev).bind (Settles.of_forall (fun _ => rfl))
  exact ⟨_, (collected head).bind (Settles.filterM tests (program.parents head))⟩

variable (domain) in
theorem exists_settles_initialInvariant
    (nestings : forall label, exists heads, Settles (fun fuel => wto.collectHeads fuel label) heads)
    (head : Label) (entryInCycle : Bool) (state : IteratorState Label D) :
    exists value, Settles (fun fuel =>
      initialInvariant program domain wto fuel head entryInCycle state) value := by
  cases entryInCycle with
  | true => exact ⟨_, Settles.of_forall (fun _ => rfl)⟩
  | false =>
      rcases exists_settles_outerPrevs program nestings head with ⟨prevs, settles⟩
      exact ⟨_, settles.bind (Settles.of_forall (fun _ => rfl))⟩

/-! ## The loops of a cycle -/

section Cycle

variable (domain) (head : Label) (round : D -> IteratorState Label D -> IteratorState Label D)

/-- A round of the increasing iteration, where `round` transforms the head and
visits the body. -/
def increaseNext (state : UInt32 × D × IteratorState Label D) :
    (D × IteratorState Label D) ⊕ (UInt32 × D × IteratorState Label D) :=
  let after := round state.2.1 (setPre head state.2.1 state.2.2)
  let newPre := joinAllPrevs program domain head after
  if domain.le newPre state.2.1 then .inl (newPre, setPre head newPre after)
  else .inr (state.1 + 1, extrapolate domain state.2.1 newPre state.1, after)

/-- A round of the decreasing iteration. -/
def decreaseNext (state : UInt32 × D × IteratorState Label D) :
    IteratorState Label D ⊕ (UInt32 × D × IteratorState Label D) :=
  let after := round state.2.1 state.2.2
  let newPre := joinAllPrevs program domain head after
  if domain.le state.2.1 newPre then .inl after
  else if descendingIterations < state.1 then .inl after
  else
    let invariant := refine domain state.2.1 newPre state.1
    .inr (state.1 + 1, invariant, setPre head invariant after)

variable {program domain}

theorem increaseNext_eq_inr {before after : UInt32 × D × IteratorState Label D}
    (step : increaseNext program domain head round before = .inr after) :
    exists newPre, domain.le newPre before.2.1 ≠ true ∧ after.1 = before.1 + 1 ∧
      after.2.1 = extrapolate domain before.2.1 newPre before.1 := by
  unfold increaseNext at step
  dsimp only at step
  split at step
  · cases step
  · rename_i notStable
    cases step
    exact ⟨_, notStable, rfl, rfl⟩

theorem decreaseNext_eq_inr {before after : UInt32 × D × IteratorState Label D}
    (step : decreaseNext program domain head round before = .inr after) :
    before.1 ≤ descendingIterations ∧ after.1 = before.1 + 1 := by
  unfold decreaseNext at step
  dsimp only at step
  split at step
  · cases step
  · split at step
    · cases step
    · rename_i notExhausted
      cases step
      exact ⟨UInt32.not_lt.mp notExhausted, rfl⟩

omit [DecidableEq Label] in
/-- From the third round on, the extrapolation is the plain widening, until the
counter overflows. -/
theorem extrapolate_of_later {before after : D} {round : Nat} (bounded : round + 3 < 2 ^ 32) :
    extrapolate domain before after (UInt32.ofNat (round + 3)) =
      domain.widen before after false := by
  have count : (UInt32.ofNat (round + 3)).toNat = round + 3 := UInt32.toNat_ofNat_of_lt' bounded
  have notEarly : ¬ UInt32.ofNat (round + 3) < 2 := by
    rw [UInt32.lt_iff_toNat_lt, count]
    change ¬ round + 3 < 2
    omega
  have notSecond : (UInt32.ofNat (round + 3) == 2) = false := by
    rw [beq_eq_false_iff_ne, ne_eq, ← UInt32.toNat_inj, count]
    change ¬ round + 3 = 2
    omega
  rw [extrapolate, if_neg notEarly, notSecond]

/-- The increasing iteration does not go on forever. -/
theorem increaseNext_acc (stabilises : WideningStabilises domain) (invariant : D)
    (state : IteratorState Label D) :
    Acc (fun after before => increaseNext program domain head round before = .inr after)
    (1, invariant, state) := by
  apply Settles.acc_of_no_run
  intro run first
  by_contra noEnd
  push Not at noEnd
  choose news grows counts extrapolates
    using fun index => increaseNext_eq_inr head round (noEnd index)
  have count : forall index, (run index).1 = UInt32.ofNat (index + 1) := by
    intro index
    induction index with
    | zero => rw [first]; rfl
    | succ index inductionHypothesis =>
      rw [counts, inductionHypothesis, UInt32.ofNat_add (index + 1) 1]; rfl
  have chain : forall index, index + 2 < 2 ^ 32 ->
      (run (index + 2)).2.1 = widenChain domain (run 2).2.1
      (fun later => news (later + 2)) index := by
    intro index
    induction index with
    | zero => exact fun _ => rfl
    | succ index inductionHypothesis =>
        intro bounded
        rw [widenChain, ← inductionHypothesis (by omega),
          show index + 1 + 2 = index + 2 + 1 from rfl, extrapolates, count,
          extrapolate_of_later (by omega)]
  rcases stabilises (run 2).2.1 (fun later => news (later + 2)) with ⟨index, bounded, stable⟩
  rw [← chain index (by omega)] at stable
  exact grows (index + 2) stable

/-- The decreasing iteration counts its rounds. -/
theorem decreaseNext_acc (start : UInt32 × D × IteratorState Label D) :
    Acc (fun after before => decreaseNext program domain head round before = .inr after) start := by
  apply Settles.acc_of_measure (fun state => 2000001 - state.1.toNat)
  intro before after step
  rcases decreaseNext_eq_inr head round step with ⟨bounded, count⟩
  have small : before.1.toNat ≤ 2000000 := UInt32.le_iff_toNat_le.mp bounded
  rw [count, UInt32.toNat_add, UInt32.toNat_one, Nat.mod_eq_of_lt (by omega)]
  omega

variable (program) {visitBody : Nat -> IteratorState Label D -> Option (IteratorState Label D)}
variable (total : NeverThrows domain) (stabilises : WideningStabilises domain)
  (nestings : forall label, exists heads, Settles (fun fuel => wto.collectHeads fuel label) heads)
  (bodySettles : forall state, exists after, Settles (fun fuel => visitBody fuel state) after)

include total bodySettles

/-- The head is transformed and the body is visited, with a result that does not
depend on the fuel. -/
theorem exists_round : exists round : D -> IteratorState Label D -> IteratorState Label D,
    forall invariant state, exists middle,
      transformToPost program domain options head invariant state = some middle ∧
        Settles (fun fuel => visitBody fuel middle) (round invariant state) := by
  choose headPost transformed using exists_transformToPost program options total head
  choose bodyResult visited using bodySettles
  exact ⟨fun invariant state => bodyResult (headPost invariant state),
    fun invariant state => ⟨_, transformed invariant state, visited _⟩⟩

include stabilises in
theorem exists_increase (invariant : D) (state : IteratorState Label D) :
    exists result, Settles (fun fuel =>
      increase program domain options head (visitBody fuel) fuel 1 invariant state) result := by
  rcases exists_round program options head total bodySettles with
    ⟨round, rounds⟩
  have unfolds : forall start : UInt32 × D × IteratorState Label D,
      exists bound, forall inner, bound ≤ inner ->
      forall fuel, increase program domain options head (visitBody inner)
      (fuel + 1) start.1 start.2.1 start.2.2 =
        (increaseNext program domain head round start).elim some (fun next =>
          increase program domain options head (visitBody inner) fuel next.1 next.2.1
            next.2.2) := by
    intro start
    rcases rounds start.2.1 (setPre head start.2.1 start.2.2) with
      ⟨middle, transformed, bound, visited⟩
    refine ⟨bound, fun inner enough fuel => ?_⟩
    have bodyRun := visited inner enough
    dsimp only at bodyRun
    rw [increase, transformed, Option.bind_eq_bind, Option.bind_some, bodyRun, Option.bind_some]
    unfold increaseNext
    dsimp only
    split <;> rfl
  rcases Settles.loop (fun inner fuel start =>
      increase program domain options head (visitBody inner) fuel start.1 start.2.1 start.2.2)
        unfolds (increaseNext_acc head round stabilises invariant state) with
        ⟨result, bound, returns⟩
  exact ⟨result, bound, fun fuel enough => returns fuel fuel enough enough⟩

theorem exists_decrease (invariant : D) (state : IteratorState Label D) :
    exists result, Settles (fun fuel =>
      decrease program domain options head (visitBody fuel) fuel 1 invariant state) result := by
  rcases exists_round program options head total bodySettles with
    ⟨round, rounds⟩
  have unfolds : forall start : UInt32 × D × IteratorState Label D,
      exists bound, forall inner, bound ≤ inner ->
      forall fuel, decrease program domain options head (visitBody inner)
      (fuel + 1) start.1 start.2.1 start.2.2 =
        (decreaseNext program domain head round start).elim some (fun next =>
          decrease program domain options head (visitBody inner) fuel next.1 next.2.1
            next.2.2) := by
    intro start
    rcases rounds start.2.1 start.2.2 with ⟨middle, transformed, bound, visited⟩
    refine ⟨bound, fun inner enough fuel => ?_⟩
    have bodyRun := visited inner enough
    dsimp only at bodyRun
    rw [decrease, transformed, Option.bind_eq_bind, Option.bind_some, bodyRun, Option.bind_some]
    unfold decreaseNext
    dsimp only
    split
    · rfl
    · split <;> rfl
  rcases Settles.loop (fun inner fuel start =>
      decrease program domain options head (visitBody inner) fuel start.1 start.2.1 start.2.2)
        unfolds (decreaseNext_acc head round (1, invariant, state)) with ⟨result, bound, returns⟩
  exact ⟨result, bound, fun fuel enough => returns fuel fuel enough enough⟩

include stabilises nestings in
theorem exists_visitCycle (components : Partition Label) (state : IteratorState Label D) :
    exists after, Settles (fun fuel =>
      visitCycle program domain options wto fuel head components (visitBody fuel) state) after := by
  unfold visitCycle
  dsimp only
  split
  · exact ⟨state, Settles.of_forall (fun _ => rfl)⟩
  · rcases exists_settles_initialInvariant program domain nestings head
      (state.skip && Wto.isComponentMember program.entry components)
      { state with skip := false } with
      ⟨invariant, starts⟩
    rcases exists_increase program options head total stabilises bodySettles invariant
      { state with skip := false } with
      ⟨increased, increases⟩
    rcases exists_decrease program options head total bodySettles increased.1 increased.2 with
      ⟨after, decreases⟩
    exact ⟨after, starts.bind (increases.bind decreases)⟩

end Cycle

/-! ## The whole run -/

section Run

variable (total : NeverThrows domain) (stabilises : WideningStabilises domain)

include total stabilises

/-- The visit of a list of components returns, if every cycle in it has a
head. -/
theorem exists_visitComponents
    (nestings : forall label, exists heads, Settles (fun fuel => wto.collectHeads fuel label) heads)
    {partition : Partition Label} (headed : partition.Headed) (cycleHead : Option Label)
    (state : IteratorState Label D) :
    exists after, Settles (fun fuel =>
      visitComponents program domain options wto fuel cycleHead partition state) after := by
  induction partition generalizing cycleHead state with
  | nil => exact ⟨state, Settles.of_forall (fun _ => rfl)⟩
  | vertex label rest inductionHypothesis =>
      unfold visitComponents
      split
      · exact inductionHypothesis headed cycleHead state
      · rcases exists_visitLabel program options total label state with ⟨middle, first⟩
        rcases inductionHypothesis headed cycleHead middle with ⟨after, later⟩
        exact ⟨after, (Settles.of_forall (fun _ => first)).bind later⟩
  | cycle components rest componentsHypothesis restHypothesis =>
      rcases headed components List.mem_cons_self with ⟨head, isHead⟩
      have inner : components.Headed := fun found member =>
        headed found (List.mem_cons_of_mem _ (List.mem_append_left _ member))
      have after : rest.Headed := fun found member =>
        headed found (List.mem_cons_of_mem _ (List.mem_append_right _ member))
      rcases exists_visitCycle program options head total stabilises nestings
        (componentsHypothesis inner (some head)) components state
        with ⟨middle, visited⟩
      rcases restHypothesis after cycleHead middle with ⟨final, later⟩
      refine ⟨final, ?_⟩
      simp only [visitComponents, isHead, Option.bind_eq_bind]
      exact visited.bind later

/-- `run_forward_analyzer` returns: for some amount of fuel, and then with the
same table for every larger amount. -/
theorem runForwardAnalyzer_returns (entryInv : D) :
    exists inv bound, forall fuel, bound ≤ fuel ->
      runForwardAnalyzer program domain options fuel entryInv = some inv := by
  have closed : forall label, label ∈ insert program.entry program.labels.toFinset ->
      forall child, child ∈ program.children label ->
      child ∈ insert program.entry program.labels.toFinset :=
    fun label _ child member =>
      Finset.mem_insert_of_mem (List.mem_toFinset.mpr (program.child_mem label child member))
  rcases Wto.exists_build closed (Finset.mem_insert_self _ _) with ⟨bound, wto, builds⟩
  have built := builds bound (Nat.le_refl _)
  have ordered := (Wto.build_wellOrdered built).ordered
  have counted : exists heads, countedHeads options wto = some heads := by
    unfold countedHeads
    split
    · exact ⟨_, Wto.loopHeads_eq_outerHeads ordered⟩
    · exact ⟨[], rfl⟩
  rcases counted with ⟨heads, counted⟩
  rcases exists_visitComponents program options total stabilises
    (exists_settles_collectHeads built) ordered.headed none
    (setPre program.entry (initializeLoopCounters domain heads entryInv)
      ⟨fun _ => ⟨domain.bottom, domain.bottom⟩, true⟩) with ⟨final, visited⟩
  have buildSettles : Settles (Wto.build program.children program.entry) wto := ⟨bound, builds⟩
  have headsSettle : Settles (fun _ => countedHeads options wto) heads :=
    Settles.of_forall (fun _ => counted)
  have tableSettles : Settles (fun _ : Nat => some final.inv) final.inv :=
    Settles.of_forall (fun _ => rfl)
  exact ⟨final.inv, buildSettles.bind (headsSettle.bind (visited.bind tableSettles))⟩

end Run

end Iterator

/-- The analysis of a loop returns: the widening of its domain gives up at
once. -/
theorem runForwardAnalyzer_returns_loop :
    exists inv bound, forall fuel, bound ≤ fuel ->
      runForwardAnalyzer loopProgram boolDomain ⟨false, true⟩ fuel (true, false) = some inv := by
  apply runForwardAnalyzer_returns
  · exact { transform := fun _ _ => rfl, assume := fun _ _ => rfl }
  · intro start news
    refine ⟨1, by omega, ?_⟩
    simp [widenChain, boolDomain]

end Fixpoint
end Prevail
