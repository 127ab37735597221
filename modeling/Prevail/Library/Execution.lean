import Mathlib

namespace Prevail

universe u v

/-!
# Executions and what can be seen of them

An execution of a step relation is the list of the configurations it passes.
A second relation may take more steps for the same work, of which a partial
view shows some.  Where every step of the first relation is answered by a path
whose intermediate configurations are hidden, and every configuration of the
second one is behind a configuration of the first, the two have the same
executions up to that view.
-/

/-- An execution from `start`: the configurations passed so far, and the last
of them. -/
inductive Execution {C : Type u} (step : C -> C -> Prop) (start : C) : List C -> C -> Prop where
  | here : Execution step start [start] start
  | next {trace : List C} {current after : C} (before : Execution step start trace current)
      (taken : step current after) : Execution step start (trace ++ [after]) after

theorem Execution.ne_nil {C : Type u} {step : C -> C -> Prop} {start last : C} {trace : List C}
    (execution : Execution step start trace last) : trace ≠ [] := by
  cases execution with
  | here => exact List.cons_ne_nil _ _
  | next _ _ => exact List.append_ne_nil_of_right_ne_nil _ (List.cons_ne_nil _ _)

theorem Execution.of_pair {C : Type u} {step : C -> C -> Prop} {start after last : C}
    (execution : Execution step start [start, after] last) : step start after := by
  generalize isTrace : [start, after] = trace at execution
  cases execution with
  | here => cases isTrace
  | @next before current _ earlier taken =>
      rcases List.append_inj' (show [start] ++ [after] = before ++ [_] from isTrace) rfl with
        ⟨same, isLast⟩
      cases isLast
      cases earlier with
      | here => exact taken
      | next earlier _ =>
          exact absurd (List.append_inj_left' (show [] ++ [start] = _ ++ [_] from same) rfl).symm
            earlier.ne_nil

section View

variable {A : Type u} {C : Type v} (stepA : A -> A -> Prop) (startA : A)
  (step : C -> C -> Prop) (start : C) (view : C -> Option A)

/-- A step to a configuration that the view hides. -/
def HiddenStep (current after : C) : Prop := step current after ∧ view after = none

/-- A path whose intermediate configurations are hidden. -/
def Leads (current after : C) : Prop :=
  exists middle, Relation.ReflTransGen (HiddenStep step view) current middle ∧ step middle after

/-- A first configuration is the start, and a later one is a step away. -/
def Advances : Option A -> A -> Prop
  | none, next => next = startA
  | some before, next => stepA before next

/-- Each relation performs the work of the other.  A configuration is `behind`
the last one that was shown, if there is one. -/
structure SameWork (behind : C -> Option A -> Prop) : Prop where
  hidden : view start = none
  begins : exists first, Leads step view start first ∧ view first = some startA
  answers : forall before after current, stepA before after -> view current = some before ->
    exists next, Leads step view current next ∧ view next = some after
  behindStart : behind start none
  behindStep : forall shown current after, behind current shown -> step current after ->
    (view after = none ∧ behind after shown) ∨
      exists next, view after = some next ∧ behind after (some next) ∧
      Advances stepA startA shown next

variable {stepA startA step start view}

/-- Hidden steps prolong an execution without showing anything. -/
theorem Execution.hide {trace : List C} {current middle : C}
    (execution : Execution step start trace current)
    (path : Relation.ReflTransGen (HiddenStep step view) current middle) :
    exists longer, Execution step start longer middle ∧
      longer.filterMap view = trace.filterMap view := by
  induction path with
  | refl => exact ⟨trace, execution, rfl⟩
  | tail _ last inductionHypothesis =>
      rcases inductionHypothesis with ⟨longer, reached, same⟩
      refine ⟨longer ++ [_], reached.next last.1, ?_⟩
      rw [List.filterMap_append, same]
      simp [last.2]

/-- A path to a shown configuration prolongs an execution by what is shown. -/
theorem Execution.show {trace : List C} {current after : C} {shown : A}
    (execution : Execution step start trace current) (leads : Leads step view current after)
    (visible : view after = some shown) :
    exists longer, Execution step start longer after ∧
      longer.filterMap view = trace.filterMap view ++ [shown] := by
  rcases leads with ⟨middle, path, last⟩
  rcases execution.hide path with ⟨longer, reached, same⟩
  refine ⟨longer ++ [after], reached.next last, ?_⟩
  rw [List.filterMap_append, same]
  simp [visible]

theorem leads_iff_of_shown {current next : C}
    (shown : forall after, step current after -> view after ≠ none) :
    Leads step view current next ↔ step current next := by
  constructor
  · rintro ⟨middle, path, last⟩
    rcases path.cases_head with rfl | ⟨after, ⟨taken, hidden⟩, _⟩
    · exact last
    · exact absurd hidden (shown after taken)
  · intro taken
    exact ⟨current, Relation.ReflTransGen.refl, taken⟩

theorem leads_iff_of_hidden {current middle next : C}
    (only : forall after, step current after ↔ after = middle)
    (hidden : view middle = none) (visible : view next ≠ none) :
    Leads step view current next ↔ Leads step view middle next := by
  constructor
  · rintro ⟨before, path, last⟩
    rcases path.cases_head with rfl | ⟨after, ⟨taken, _⟩, further⟩
    · rw [(only next).mp last] at visible
      exact absurd hidden visible
    · rw [(only after).mp taken] at further
      exact ⟨before, further, last⟩
  · rintro ⟨before, path, last⟩
    exact ⟨before, Relation.ReflTransGen.head ⟨(only middle).mpr rfl, hidden⟩ path, last⟩

namespace SameWork

variable {behind : C -> Option A -> Prop} (work : SameWork stepA startA step start view behind)

include work

/-- Every execution of the first relation is the view of one of the second. -/
theorem exists_execution {trace : List A} {last : A}
    (execution : Execution stepA startA trace last) :
    exists path current, Execution step start path current ∧ path.filterMap view = trace ∧
      view current = some last := by
  induction execution with
  | here =>
      rcases work.begins with ⟨first, leads, visible⟩
      rcases Execution.here.show leads visible with ⟨path, reached, shown⟩
      refine ⟨path, first, reached, ?_, visible⟩
      rw [shown]
      simp [work.hidden]
  | next before taken inductionHypothesis =>
      rcases inductionHypothesis with ⟨path, current, reached, shown, visible⟩
      rcases work.answers _ _ current taken visible with ⟨after, leads, afterVisible⟩
      rcases reached.show leads afterVisible with ⟨longer, further, longerShown⟩
      exact ⟨longer, after, further, by rw [longerShown, shown], afterVisible⟩

/-- What an execution of the second relation shows is an execution of the
first one, up to the last shown configuration. -/
theorem shown_execution {path : List C} {current : C}
    (execution : Execution step start path current) :
    (behind current none ∧ path.filterMap view = []) ∨
      exists last, behind current (some last) ∧
      Execution stepA startA (path.filterMap view) last := by
  induction execution with
  | here =>
      left
      refine ⟨work.behindStart, ?_⟩
      simp [work.hidden]
  | @next trace current after before taken inductionHypothesis =>
      rw [List.filterMap_append]
      rcases inductionHypothesis with ⟨isBehind, nothing⟩ | ⟨last, isBehind, shown⟩
      · rcases work.behindStep none current after isBehind taken with
          ⟨hidden, stillBehind⟩ | ⟨next, visible, nextBehind, isStart⟩
        · exact Or.inl ⟨stillBehind, by simp [hidden, nothing]⟩
        · right
          refine ⟨next, nextBehind, ?_⟩
          have isStart : next = startA := isStart
          rw [nothing, isStart]
          simp only [List.filterMap_cons, visible, isStart, List.filterMap_nil, List.nil_append]
          exact Execution.here
      · right
        rcases work.behindStep (some last) current after isBehind taken with
          ⟨hidden, stillBehind⟩ | ⟨next, visible, nextBehind, stepped⟩
        · exact ⟨last, stillBehind, by simpa [hidden] using shown⟩
        · refine ⟨next, nextBehind, ?_⟩
          simp only [List.filterMap_cons, visible, List.filterMap_nil]
          exact shown.next stepped

/-- The two relations have the same executions up to the view. -/
theorem executions_iff (trace : List A) :
    (exists last, Execution stepA startA trace last) ↔
      trace ≠ [] ∧ exists path current, Execution step start path current ∧
      path.filterMap view = trace := by
  constructor
  · rintro ⟨last, execution⟩
    rcases work.exists_execution execution with ⟨path, current, reached, shown, _⟩
    refine ⟨?_, path, current, reached, shown⟩
    cases execution with
    | here => exact List.cons_ne_nil _ _
    | next before taken => simp
  · rintro ⟨nonempty, path, current, reached, rfl⟩
    rcases work.shown_execution reached with ⟨_, nothing⟩ | ⟨last, _, shown⟩
    · exact absurd nothing nonempty
    · exact ⟨last, shown⟩

end SameWork

end View

section Collapse

variable {A : Type u} {C : Type v} {stepA : A -> A -> Prop} {step : C -> C -> Prop}
  {view : C -> Option A}

/-- A step of the first relation is a path of the second one from a shown
configuration to the next shown one. -/
structure Collapses (stepA : A -> A -> Prop) (step : C -> C -> Prop)
    (view : C -> Option A) : Prop where
  answers : forall before after current, view current = some before -> stepA before after ->
    exists next, Leads step view current next ∧ view next = some after
  follows : forall before after current next, view current = some before ->
    Leads step view current next -> view next = some after -> stepA before after

namespace Collapses

variable (collapses : Collapses stepA step view) {startA : A} {start : C}
  (shown : view start = some startA)

include collapses shown

/-- Every execution of the first relation is the view of one of the second. -/
theorem exists_execution {trace : List A} {last : A}
    (execution : Execution stepA startA trace last) :
    exists path current, Execution step start path current ∧ path.filterMap view = trace ∧
      view current = some last := by
  induction execution with
  | here => exact ⟨[start], start, Execution.here, by simp [shown], shown⟩
  | next before taken inductionHypothesis =>
      rcases inductionHypothesis with ⟨path, current, reached, same, visible⟩
      rcases collapses.answers _ _ current visible taken with ⟨after, leads, afterVisible⟩
      rcases reached.show leads afterVisible with ⟨longer, further, longerSame⟩
      exact ⟨longer, after, further, by rw [longerSame, same], afterVisible⟩

/-- What an execution of the second relation shows is an execution of the
first one, which the second one has left by hidden steps only. -/
theorem shown_execution {path : List C} {current : C}
    (execution : Execution step start path current) :
    exists last behind, Execution stepA startA (path.filterMap view) last ∧
      view behind = some last ∧ Relation.ReflTransGen (HiddenStep step view) behind current := by
  induction execution with
  | here => exact ⟨startA,
    start, by simpa [shown] using Execution.here, shown, Relation.ReflTransGen.refl⟩
  | @next trace current after before taken inductionHypothesis =>
      rcases inductionHypothesis with ⟨last, behind, reached, visible, hidden⟩
      cases isShown : view after with
      | none =>
          refine ⟨last, behind, ?_, visible, hidden.tail ⟨taken, isShown⟩⟩
          rw [List.filterMap_append]
          simpa [isShown] using reached
      | some next =>
          have stepped := collapses.follows last next behind after visible
            ⟨current, hidden, taken⟩ isShown
          refine ⟨next, after, ?_, isShown, Relation.ReflTransGen.refl⟩
          rw [List.filterMap_append]
          simpa [isShown] using reached.next stepped

/-- The two relations have the same executions up to the view. -/
theorem executions_iff (trace : List A) :
    (exists last, Execution stepA startA trace last) ↔
      exists path current, Execution step start path current ∧ path.filterMap view = trace := by
  constructor
  · rintro ⟨last, execution⟩
    rcases collapses.exists_execution shown execution with ⟨path, current, reached, same, _⟩
    exact ⟨path, current, reached, same⟩
  · rintro ⟨path, current, reached, rfl⟩
    rcases collapses.shown_execution shown reached with ⟨last, _, execution, _, _⟩
    exact ⟨last, execution⟩

end Collapses

end Collapse

end Prevail
