import Prevail.Library.OrderedSet

namespace Prevail

universe u v

/-!
# Sets under ordered keys

An ordered map from keys to finite sets, of the kind whose look-up creates the
key that it does not find.  A key therefore stays when its set has lost all its
members.  The keys are kept apart from the sets, and a key that is absent has the
empty set.

The second part is about walks over the keys in one direction which stop at the
first key whose set has no live member.
-/

/-- A set under each of finitely many ordered keys. -/
structure KeyedSets (K : Type u) (V : Type v) [LinearOrder K] [LinearOrder V] where
  keys : OrderedSet K
  sets : K -> OrderedSet V
  keyed : forall key item, item ∈ sets key -> key ∈ keys

namespace KeyedSets

variable {K : Type u} {V : Type v} [LinearOrder K] [LinearOrder V]

/-- The map without keys. -/
def empty : KeyedSets K V :=
  ⟨.empty, fun _ => .empty, fun _ item member => absurd member (OrderedSet.not_mem_empty item)⟩

/-- The look-up of a key, which creates it. -/
def touch (map : KeyedSets K V) (key : K) : KeyedSets K V where
  keys := map.keys.insert key
  sets := map.sets
  keyed other item member := OrderedSet.mem_insert.mpr (Or.inr (map.keyed other item member))

/-- Put another set under a key. -/
def replace (map : KeyedSets K V) (key : K) (set : OrderedSet V) : KeyedSets K V where
  keys := map.keys.insert key
  sets := Function.update map.sets key set
  keyed other item member := by
    apply OrderedSet.mem_insert.mpr
    by_cases same : other = key
    · exact Or.inl same
    · rw [Function.update_of_ne same] at member
      exact Or.inr (map.keyed other item member)

/-- Insert into the set under a key. -/
def insert (map : KeyedSets K V) (key : K) (item : V) : KeyedSets K V :=
  map.replace key ((map.sets key).insert item)

/-- Erase from the set under a key. -/
def erase (map : KeyedSets K V) (key : K) (item : V) : KeyedSets K V :=
  map.replace key ((map.sets key).erase item)

/-- An item stands in the set under a key. -/
def Has (map : KeyedSets K V) (key : K) (item : V) : Prop := item ∈ map.sets key

instance (map : KeyedSets K V) (key : K) (item : V) : Decidable (map.Has key item) :=
  inferInstanceAs (Decidable (item ∈ map.sets key))

variable {map : KeyedSets K V} {key other : K} {item : V}

theorem Has.mem_keys (has : map.Has key item) : key ∈ map.keys := map.keyed key item has

@[simp] theorem has_touch : (map.touch key).Has other item ↔ map.Has other item := Iff.rfl

@[simp] theorem mem_keys_touch : other ∈ (map.touch key).keys ↔ other = key ∨ other ∈ map.keys :=
  OrderedSet.mem_insert

@[simp] theorem mem_keys_insert : other ∈ (map.insert key item).keys ↔ other = key ∨
    other ∈ map.keys :=
  OrderedSet.mem_insert

@[simp] theorem mem_keys_erase : other ∈ (map.erase key item).keys ↔ other = key ∨
    other ∈ map.keys :=
  OrderedSet.mem_insert

@[simp] theorem not_has_empty : ¬ (empty : KeyedSets K V).Has key item :=
  OrderedSet.not_mem_empty item

theorem has_insert {added : V} :
    (map.insert key added).Has other item ↔ (other = key ∧ item = added) ∨ map.Has other item := by
  by_cases same : other = key
  · subst same
    simp only [Has, insert, replace, Function.update_self, OrderedSet.mem_insert, true_and]
  · simp only [Has, insert, replace, Function.update_of_ne same, same, false_and, false_or]

theorem has_erase {removed : V} :
    (map.erase key removed).Has other item ↔ map.Has other item ∧
      ¬ (other = key ∧ item = removed) := by
  by_cases same : other = key
  · subst same
    simp only [Has, erase, replace, Function.update_self, OrderedSet.mem_erase, true_and, ne_eq]
  · simp only [Has, erase, replace, Function.update_of_ne same, same, false_and,
      not_false_eq_true, and_true]

end KeyedSets

/-! ## Walks that stop -/

namespace StoppingWalk

variable {K : Type u} {A : Type v} [DecidableEq A]

/-- Append those items that are wanted and not there yet. -/
def gather (wanted : A -> Bool) : List A -> List A -> List A
  | [], out => out
  | item :: rest, out => gather wanted rest (if wanted item && decide (item ∉ out)
    then out ++ [item] else out)

/-- A key has a live item. -/
def lively (items : K -> List A) (live : A -> Bool) (key : K) : Bool := (items key).any live

/-- Walk over keys and gather what is wanted of their items, up to the first key
without a live item.  The keys from there on are returned. -/
def visit (items : K -> List A) (live wanted : A -> Bool) : List K -> List A -> List A × List K
  | [], out => (out, [])
  | key :: rest, out =>
      if lively items live key then visit items live wanted rest (gather wanted (items key) out)
      else (gather wanted (items key) out, key :: rest)

theorem mem_gather {wanted : A -> Bool} {items out : List A} {item : A} :
    item ∈ gather wanted items out ↔ item ∈ out ∨ (item ∈ items ∧ wanted item) := by
  induction items generalizing out with
  | nil => simp only [gather, List.not_mem_nil, false_and, or_false]
  | cons first rest inductionHypothesis =>
      rw [gather, inductionHypothesis, List.mem_cons]
      split
      · rename_i added
        rw [Bool.and_eq_true] at added
        rw [List.mem_append, List.mem_singleton]
        constructor
        · intro member
          rcases member with (before | rfl) | later
          · exact Or.inl before
          · exact Or.inr ⟨Or.inl rfl, added.1⟩
          · exact Or.inr ⟨Or.inr later.1, later.2⟩
        · intro member
          rcases member with before | ⟨rfl | later, want⟩
          · exact Or.inl (Or.inl before)
          · exact Or.inl (Or.inr rfl)
          · exact Or.inr ⟨later, want⟩
      · rename_i kept
        constructor
        · intro member
          rcases member with before | later
          · exact Or.inl before
          · exact Or.inr ⟨Or.inr later.1, later.2⟩
        · intro member
          rcases member with before | ⟨rfl | later, want⟩
          · exact Or.inl before
          · left
            by_contra absent
            exact kept (by rw [want, decide_eq_true absent]; rfl)
          · exact Or.inr ⟨later, want⟩

theorem nodup_gather {wanted : A -> Bool} {items out : List A} (nodup : out.Nodup) :
    (gather wanted items out).Nodup := by
  induction items generalizing out with
  | nil => exact nodup
  | cons first rest inductionHypothesis =>
      rw [gather]
      apply inductionHypothesis
      split
      · rename_i added
        rw [Bool.and_eq_true, decide_eq_true_eq] at added
        exact List.nodup_append.mpr ⟨nodup, List.nodup_singleton first, by
          intro left inOut right same
          rw [List.mem_singleton.mp same]
          exact fun equal => added.2 (equal ▸ inOut)⟩
      · exact nodup

theorem nodup_visit {items : K -> List A} {live wanted : A -> Bool} {keys : List K} {out : List A}
    (nodup : out.Nodup) : (visit items live wanted keys out).1.Nodup := by
  induction keys generalizing out with
  | nil => exact nodup
  | cons key rest inductionHypothesis =>
      rw [visit]
      split
      · exact inductionHypothesis (nodup_gather nodup)
      · exact nodup_gather nodup

/-- The walk keeps what it had and gathers what is wanted under the keys in front
of the first one without a live item. -/
theorem mem_visit {items : K -> List A} {live wanted : A -> Bool}
    (wantedLive : forall item, wanted item -> live item) {keys : List K} {out : List A} {item : A} :
    item ∈ (visit items live wanted keys out).1 ↔
      item ∈ out ∨ ∃ key ∈ keys.takeWhile (lively items live), item ∈ items key ∧ wanted item := by
  induction keys generalizing out with
  | nil => simp only [visit, List.takeWhile_nil, List.not_mem_nil, false_and,
    exists_false, or_false]
  | cons first rest inductionHypothesis =>
      by_cases alive : lively items live first
      · rw [visit, if_pos alive, inductionHypothesis, mem_gather,
          List.takeWhile_cons_of_pos alive, or_assoc]
        simp only [List.mem_cons, or_and_right, exists_or, exists_eq_left]
      · rw [visit, if_neg alive, mem_gather, List.takeWhile_cons_of_neg alive]
        constructor
        · intro member
          rcases member with before | ⟨member, want⟩
          · exact Or.inl before
          · exact absurd (List.any_eq_true.mpr ⟨item, member, wantedLive item want⟩) alive
        · intro member
          rcases member with before | ⟨_, impossible, _⟩
          · exact Or.inl before
          · cases impossible

/-- The walk stops at the first key without a live item. -/
theorem visit_rest {items : K -> List A} {live wanted : A -> Bool} {keys : List K} {out : List A} :
    (visit items live wanted keys out).2 = keys.dropWhile (lively items live) := by
  induction keys generalizing out with
  | nil => rfl
  | cons first rest inductionHypothesis =>
      by_cases alive : lively items live first
      · rw [visit, if_pos alive, inductionHypothesis, List.dropWhile_cons_of_pos alive]
      · rw [visit, if_neg alive, List.dropWhile_cons_of_neg alive]

/-- In a list ordered by a relation, the members of the longest prefix with a
property are those without a member that lacks it in front of them. -/
theorem mem_takeWhile_iff {before : K -> K -> Prop}
    (asymmetric : forall left right, before left right -> ¬ before right left) {keys : List K}
    (ordered : keys.Pairwise before) {good : K -> Bool} {key : K} :
    key ∈ keys.takeWhile good ↔ key ∈ keys ∧ good key ∧ ∀ other ∈ keys, before other key ->
      good other := by
  induction keys with
  | nil => simp only [List.takeWhile_nil, List.not_mem_nil, false_and]
  | cons first rest inductionHypothesis =>
      rcases List.pairwise_cons.mp ordered with ⟨ahead, restOrdered⟩
      by_cases fine : good first
      · rw [List.takeWhile_cons_of_pos fine, List.mem_cons, inductionHypothesis restOrdered,
          List.mem_cons, List.forall_mem_cons]
        constructor
        · intro member
          rcases member with rfl | ⟨inRest, goodKey, earlier⟩
          · refine ⟨Or.inl rfl, fine, fun _ => fine, ?_⟩
            intro other inRest behind
            exact absurd behind (asymmetric _ _ (ahead other inRest))
          · exact ⟨Or.inr inRest, goodKey, fun _ => fine, earlier⟩
        · intro member
          rcases member with ⟨rfl | inRest, goodKey, _, earlier⟩
          · exact Or.inl rfl
          · exact Or.inr ⟨inRest, goodKey, earlier⟩
      · rw [List.takeWhile_cons_of_neg fine]
        constructor
        · intro impossible
          cases impossible
        · intro member
          rcases member with ⟨inList, goodKey, earlier⟩
          rcases List.mem_cons.mp inList with rfl | inRest
          · exact absurd goodKey fine
          · exact absurd (earlier first List.mem_cons_self (ahead key inRest)) fine

/-- What stands in front of the point where a walk stops. -/
theorem take_length_sub_dropWhile {keys : List K} {good : K -> Bool} :
    keys.take (keys.length - (keys.dropWhile good).length) = keys.takeWhile good := by
  have whole : keys.takeWhile good ++ keys.dropWhile good = keys := List.takeWhile_append_dropWhile
  have lengths := congrArg List.length whole
  rw [List.length_append] at lengths
  have count : keys.length - (keys.dropWhile good).length = (keys.takeWhile good).length := by omega
  rw [count]
  nth_rewrite 2 [<- whole]
  exact List.take_left' rfl

end StoppingWalk

/-! ## Bounds in an increasing list -/

namespace OrderedSet

variable {K : Type u} [LinearOrder K] {list : List K}

/-- In an increasing list the elements below a threshold come first. -/
theorem takeWhile_eq_filter (sorted : list.Pairwise (· < ·)) {good : K -> Bool}
    (downward : forall low high, low < high -> good high -> good low) :
    list.takeWhile good = list.filter good := by
  induction list with
  | nil => rfl
  | cons first rest inductionHypothesis =>
      rcases List.pairwise_cons.mp sorted with ⟨below, restSorted⟩
      by_cases fine : good first
      · rw [List.takeWhile_cons_of_pos fine, List.filter_cons_of_pos fine,
          inductionHypothesis restSorted]
      · rw [List.takeWhile_cons_of_neg fine, List.filter_cons_of_neg fine]
        refine (List.filter_eq_nil_iff.mpr ?_).symm
        intro key member goodKey
        exact fine (downward first key (below key member) goodKey)

/-- Behind a threshold stand the elements that are not below it. -/
theorem dropWhile_eq_filter (sorted : list.Pairwise (· < ·)) {good : K -> Bool}
    (downward : forall low high, low < high -> good high -> good low) :
    list.dropWhile good = list.filter (fun key => !good key) := by
  induction list with
  | nil => rfl
  | cons first rest inductionHypothesis =>
      rcases List.pairwise_cons.mp sorted with ⟨below, restSorted⟩
      by_cases fine : good first
      · rw [List.dropWhile_cons_of_pos fine, List.filter_cons_of_neg (by rw [fine]; decide),
          inductionHypothesis restSorted]
      · rw [List.dropWhile_cons_of_neg fine]
        refine (List.filter_eq_self.mpr ?_).symm
        intro key member
        rw [Bool.not_eq_true', Bool.eq_false_iff]
        rcases List.mem_cons.mp member with rfl | later
        · exact fine
        · exact fun goodKey => fine (downward first key (below key later) goodKey)

/-- The lower bound of a member is the member, and behind it stands what is above. -/
theorem dropWhile_lt_eq_cons (sorted : list.Pairwise (· < ·)) {item : K} (member : item ∈ list) :
    list.dropWhile (fun key => decide (key < item)) = item :: list.dropWhile
      (fun key => decide (key ≤ item)) := by
  induction list with
  | nil => cases member
  | cons first rest inductionHypothesis =>
      rcases List.pairwise_cons.mp sorted with ⟨below, restSorted⟩
      rcases List.mem_cons.mp member with rfl | inRest
      · rw [List.dropWhile_cons_of_neg (by simp), List.dropWhile_cons_of_pos (by simp)]
        congr 1
        refine (List.dropWhile_eq_self_iff.mpr ?_).symm
        intro nonempty
        simpa using below _ (List.getElem_mem nonempty)
      · have less := below item inRest
        rw [List.dropWhile_cons_of_pos (by simpa using less),
          List.dropWhile_cons_of_pos (by simpa using less.le)]
        exact inductionHypothesis restSorted inRest

theorem mem_takeWhile_lt (sorted : list.Pairwise (· < ·)) {item key : K} :
    key ∈ list.takeWhile (fun key => decide (key < item)) ↔ key ∈ list ∧ key < item := by
  rw [takeWhile_eq_filter sorted, List.mem_filter, decide_eq_true_eq]
  intro low high less
  simp only [decide_eq_true_eq]
  exact less.trans

theorem mem_dropWhile_le (sorted : list.Pairwise (· < ·)) {item key : K} :
    key ∈ list.dropWhile (fun key => decide (key ≤ item)) ↔ key ∈ list ∧ item < key := by
  rw [dropWhile_eq_filter sorted, List.mem_filter, Bool.not_eq_true',
    decide_eq_false_iff_not, not_le]
  intro low high less
  simp only [decide_eq_true_eq]
  exact less.le.trans

end OrderedSet

end Prevail
