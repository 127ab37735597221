import Mathlib

namespace Prevail

universe u v w z

/-!
# Services and priority queues

A service is given one request after the other.  It accepts a request in some
of its states only, and its answer may leave a choice.  An implementation
refuses a request, or answers and goes on in its next state; it is a refinement
of the service if it refuses what the service does not accept, and answers what
the service may answer.

A priority queue keeps distinct elements with their keys, and hands out one with
a least key.
-/

/-- What a service accepts and how it answers. -/
structure Service (S : Type u) (R : Type v) (A : Type w) where
  accepts : S -> R -> Prop
  answers : S -> R -> A -> S -> Prop

namespace Service

variable {S : Type u} {R : Type v} {A : Type w} {I : Type z}

/-- A service answers a list of requests. -/
inductive Run (service : Service S R A) (start : S) : List R -> List A -> S -> Prop where
  | start : Run service start [] [] start
  | next {requests : List R} {given : List A} {state after : S} {request : R} {answer : A}
      (before : Run service start requests given state) (accepted : service.accepts state request)
      (answered : service.answers state request answer after) :
      Run service start (requests ++ [request]) (given ++ [answer]) after

/-- An implementation refuses and answers like the service. -/
structure Refines (service : Service S R A) (step : I -> R -> Option (A × I))
    (represents : I -> S -> Prop) : Prop where
  refuses : forall concrete state request, represents concrete state ->
    step concrete request = none -> ¬ service.accepts state request
  answers : forall concrete state request answer next, represents concrete state ->
    step concrete request = some (answer, next) ->
      service.accepts state request ∧ exists after, service.answers state request answer after ∧
      represents next after

/-- What an implementation leaves: its answers, its last state, and the requests
from the first one on that it refused. -/
structure Outcome (R : Type v) (A : Type w) (I : Type z) where
  answers : List A
  last : I
  refused : List R

/-- An implementation is given a list of requests. -/
def serve (step : I -> R -> Option (A × I)) : List R -> Outcome R A I -> Outcome R A I
  | [], outcome => outcome
  | request :: later, outcome =>
      match step outcome.last request with
      | none => { outcome with refused := request :: later }
      | some (answer, next) => serve step later ⟨outcome.answers ++ [answer], next, []⟩

variable {service : Service S R A} {step : I -> R -> Option (A × I)} {represents : I -> S -> Prop}

theorem Refines.serve_from (refines : service.Refines step represents) {start state : S}
    {requests done : List R}
    {outcome : Outcome R A I} (before : service.Run start done outcome.answers state)
    (represented : represents outcome.last state) (none : outcome.refused = []) :
    exists served last, done ++ requests = served ++ (serve step requests outcome).refused ∧
      service.Run start served (serve step requests outcome).answers last ∧
      represents (serve step requests outcome).last last ∧
      forall request, (serve step requests outcome).refused.head? = some request ->
      ¬ service.accepts last request := by
  induction requests generalizing done outcome state with
  | nil =>
      refine ⟨done, state, ?_, before, represented, ?_⟩
      · rw [serve, none]
      · intro request first
        rw [serve, none] at first
        cases first
  | cons request later inductionHypothesis =>
      rw [serve]
      cases taken : step outcome.last request with
      | none =>
          refine ⟨done, state, rfl, before, represented, ?_⟩
          intro first same
          cases same
          exact refines.refuses _ _ _ represented taken
      | some result =>
          rcases refines.answers _ _ _ result.1 result.2 represented taken with
            ⟨accepted, after, answered, next⟩
          have longer := before.next accepted answered
          rcases @inductionHypothesis after (done ++ [request]) ⟨outcome.answers ++ [result.1],
            result.2, []⟩ longer next rfl with
            ⟨served, last, split, rest⟩
          refine ⟨served, last, ?_, rest⟩
          rw [← split, List.append_assoc, List.singleton_append]

/-- An implementation that refines a service serves requests like the service,
up to the first one that the service does not accept. -/
theorem Refines.serve (refines : service.Refines step represents) {start : S} {concrete : I}
    (represented : represents concrete start) (requests : List R) :
    exists served last, requests = served ++
      (Service.serve step requests ⟨[], concrete, []⟩).refused ∧
      service.Run start served (Service.serve step requests ⟨[], concrete, []⟩).answers last ∧
      represents (Service.serve step requests ⟨[], concrete, []⟩).last last ∧
      forall request, (Service.serve step requests ⟨[], concrete, []⟩).refused.head? =
      some request ->
        ¬ service.accepts last request := by
  have begun : service.Run start [] (⟨[], concrete, []⟩ : Outcome R A I).answers start := Run.start
  exact refines.serve_from begun represented rfl

end Service

/-- The elements of a priority queue and the keys. -/
structure PriorityQueue (E : Type u) (K : Type v) where
  key : E -> K
  members : Finset E

namespace PriorityQueue

/-- Add an element with a key, lower the key of an element, or remove an element
with a least key. -/
inductive Request (E : Type u) (K : Type v) where
  | insert (element : E) (key : K)
  | decrease (element : E) (key : K)
  | removeMin

variable {E : Type u} {K : Type v} [DecidableEq E] [LinearOrder K]

/-- When a priority queue accepts a request. -/
def Accepts (queue : PriorityQueue E K) : Request E K -> Prop
  | .insert element _ => element ∉ queue.members
  | .decrease element key => element ∈ queue.members ∧ key ≤ queue.key element
  | .removeMin => queue.members.Nonempty

/-- What a priority queue may answer, and the queue behind the answer. -/
def Answers (queue : PriorityQueue E K) : Request E K -> Option E -> PriorityQueue E K -> Prop
  | .insert element key, answer, after =>
      answer = none ∧ after = ⟨Function.update queue.key element key, insert element queue.members⟩
  | .decrease element key, answer, after =>
      answer = none ∧ after = ⟨Function.update queue.key element key, queue.members⟩
  | .removeMin, answer, after =>
    ∃ least ∈ queue.members, (∀ other ∈ queue.members, queue.key least ≤ queue.key other) ∧
      answer = some least ∧ after = ⟨queue.key, queue.members.erase least⟩

/-- The priority queue as a service. -/
def service (E : Type u) (K : Type v) [DecidableEq E] [LinearOrder K] :
    Service (PriorityQueue E K) (Request E K) (Option E) := ⟨Accepts, Answers⟩

end PriorityQueue

end Prevail
