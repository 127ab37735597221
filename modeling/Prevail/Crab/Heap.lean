import Prevail.Library.HeapOrder
import Prevail.Library.PriorityQueue

namespace Prevail
namespace Crab

universe u

open HeapOrder

/-!
# The binary heap

`Heap` of `crab_utils/heap.hpp`: the vector `heap` keeps the elements in the
order of a binary heap, and the vector `indices` keeps the position of every
element, or minus one.  The comparison reads keys that change between the
operations, so that every operation is given the comparison of its moment.
-/

structure Heap where
  heap : List Nat
  indices : List Int
  deriving DecidableEq, Repr

namespace Heap

/-- The heap without elements. -/
def empty : Heap := ⟨[], []⟩

def size (h : Heap) : Nat := h.heap.length

/-- `operator[]`. -/
def get (h : Heap) (index : Nat) : Nat := h.heap.getD index 0

def inHeap (h : Heap) (n : Nat) :
    Bool := decide (n < h.indices.length) && decide (0 ≤ h.indices.getD n (-1))

def left (i : Nat) : Nat := i * 2 + 1

def right (i : Nat) : Nat := (i + 1) * 2

/-- Write an element to a position, and the position to `indices`. -/
def place (h : Heap) (i n : Nat) : Heap := ⟨h.heap.set i n, h.indices.set n i⟩

/-- The loop of `percolateUp`, with the element that moves up. -/
def percolateUpLoop (lt : Nat -> Nat -> Bool) (x : Nat) (h : Heap) (i : Nat) : Heap :=
  if i ≠ 0 ∧ lt x (h.get (parent i)) then
    percolateUpLoop lt x (h.place i (h.get (parent i))) (parent i)
  else h.place i x
  termination_by i
  decreasing_by exact parent_lt (by omega)

def percolateUp (lt : Nat -> Nat -> Bool) (h : Heap) (i : Nat) :
    Heap := percolateUpLoop lt (h.get i) h i

/-- The child that `percolateDown` looks at. -/
def lowerChild (lt : Nat -> Nat -> Bool) (h : Heap) (i : Nat) : Nat :=
  if right i < h.size ∧ lt (h.get (right i)) (h.get (left i)) then right i else left i

theorem lt_lowerChild (lt : Nat -> Nat -> Bool) (h : Heap) (i : Nat) : i < lowerChild lt h i := by
  unfold lowerChild left right
  split <;> omega

theorem lowerChild_lt {lt : Nat -> Nat -> Bool} {h : Heap} {i : Nat} (inside : left i < h.size) :
    lowerChild lt h i < h.size := by
  unfold lowerChild
  split
  · rename_i both
    exact both.1
  · exact inside

theorem size_place (h : Heap) (i n : Nat) : (h.place i n).size = h.size := List.length_set

/-- The loop of `percolateDown`, with the element that moves down. -/
def percolateDownLoop (lt : Nat -> Nat -> Bool) (x : Nat) (h : Heap) (i : Nat) : Heap :=
  if left i < h.size then
    if lt (h.get (lowerChild lt h i)) x then
      percolateDownLoop lt x (h.place i (h.get (lowerChild lt h i))) (lowerChild lt h i)
    else h.place i x
  else h.place i x
  termination_by h.size - i
  decreasing_by
    rename_i inside _
    rw [size_place]
    have deeper := lt_lowerChild lt h i
    have below := @lowerChild_lt lt h i inside
    omega

def percolateDown (lt : Nat -> Nat -> Bool) (h : Heap) : Heap := percolateDownLoop lt (h.get 0) h 0

/-- `decrease`, which asserts that the element is in the heap. -/
def decrease (lt : Nat -> Nat -> Bool) (h : Heap) (n : Nat) : Heap :=
  percolateUp lt h (h.indices.getD n (-1)).toNat

/-- `insert`, which asserts that the element is not in the heap. -/
def insert (lt : Nat -> Nat -> Bool) (h : Heap) (n : Nat) : Heap :=
  let indices := h.indices ++ List.replicate (n + 1 - h.indices.length) (-1)
  percolateUp lt ⟨h.heap ++ [n], indices.set n h.heap.length⟩ h.heap.length

/-- The heap of `removeMin` before the last element is sifted down. -/
def dropFirst (h : Heap) : Heap :=
  let x := h.get 0
  let v := h.get (h.size - 1)
  ⟨(h.heap.set 0 v).dropLast, (h.indices.set v 0).set x (-1)⟩

/-- `removeMin`, on a heap with elements. -/
def removeMin (lt : Nat -> Nat -> Bool) (h : Heap) : Nat × Heap :=
  (h.get 0, if 1 < h.dropFirst.size then percolateDown lt h.dropFirst else h.dropFirst)

/-! ## Elements and positions -/

/-- `indices` holds the position of every element, and of no other number. -/
def Indexed (h : Heap) : Prop :=
  forall n i : Nat, h.indices[n]? = some (i : Int) ↔ h.heap[i]? = some n

variable {h : Heap} {n i j x : Nat}

theorem indexed_empty : Indexed empty := by
  intro n i
  simp [empty]

theorem Indexed.nodup (indexed : h.Indexed) : h.heap.Nodup := by
  rw [List.nodup_iff_getElem?_ne_getElem?]
  intro i j before inside same
  have found : h.heap[j]? = some h.heap[j] := List.getElem?_eq_getElem inside
  have first := (indexed _ i).mpr (same.trans found)
  have second := (indexed _ j).mpr found
  rw [first] at second
  have := Int.ofNat.inj (Option.some.inj second)
  omega

theorem get_eq_some (inside : i < h.size) : h.heap[i]? = some (h.get i) := by
  rw [get, List.getD_eq_getElem?_getD, List.getElem?_eq_getElem inside, Option.getD_some]

theorem Indexed.inHeap_iff (indexed : h.Indexed) : h.inHeap n = true ↔ n ∈ h.heap := by
  rw [inHeap, Bool.and_eq_true, decide_eq_true_iff, decide_eq_true_iff, List.mem_iff_getElem?]
  constructor
  · rintro ⟨inside, positive⟩
    rw [List.getD_eq_getElem?_getD, List.getElem?_eq_getElem inside, Option.getD_some] at positive
    refine ⟨(h.indices[n]).toNat, (indexed n _).mp ?_⟩
    rw [Int.toNat_of_nonneg positive]
    exact List.getElem?_eq_getElem inside
  · rintro ⟨i, found⟩
    have position := (indexed n i).mpr found
    refine ⟨(List.getElem?_eq_some_iff.mp position).1, ?_⟩
    rw [List.getD_eq_getElem?_getD, position, Option.getD_some]
    exact Int.natCast_nonneg i

theorem Indexed.position (indexed : h.Indexed) (member : n ∈ h.heap) :
    ∃ i < h.size, (h.indices.getD n (-1)).toNat = i ∧ h.get i = n := by
  rcases List.mem_iff_getElem?.mp member with ⟨i, found⟩
  refine ⟨i, (List.getElem?_eq_some_iff.mp found).1, ?_, ?_⟩
  · rw [List.getD_eq_getElem?_getD, (indexed n i).mpr found, Option.getD_some, Int.toNat_natCast]
  · rw [get, List.getD_eq_getElem?_getD, found, Option.getD_some]

/-! ## One element is moved -/

/-- The heap with an element at the hole, into which `percolateUp` and
`percolateDown` only write it at their end, and its elements. -/
structure Sifting (h : Heap) (hole x : Nat) (elements : List Nat) : Prop where
  inside : hole < h.size
  indexed : (h.place hole x).Indexed
  perm : (h.place hole x).heap.Perm elements

theorem Sifting.swap {hole other : Nat} {elements : List Nat} (sifting : Sifting h hole x elements)
    (inside : other < h.size) (different : other ≠ hole) :
    Sifting (h.place hole (h.get other)) other x elements := by
  have filled := sifting.indexed
  have holeInside := sifting.inside
  unfold Indexed place at filled
  dsimp only at filled
  unfold size at inside holeInside
  have atHole : (h.heap.set hole x)[hole]? = some x := List.getElem?_set_self holeInside
  have atOther : (h.heap.set hole x)[other]? = some (h.get other) := by
    rw [List.getElem?_set_ne different.symm, get_eq_some inside]
  have positionHole := (filled x hole).mpr atHole
  have positionOther := (filled _ other).mpr atOther
  have distinct : x ≠ h.get other := by
    intro same
    rw [← same, positionHole] at positionOther
    exact different (Int.ofNat.inj (Option.some.inj positionOther)).symm
  constructor
  · unfold size place
    rwa [List.length_set]
  · intro n j
    unfold place
    dsimp only
    have here := filled n j
    have there := filled n hole
    have elsewhere := filled n other
    clear filled
    grind
  · refine List.Perm.trans ?_ sifting.perm
    have otherInside : other < (h.heap.set hole x).length := by rwa [List.length_set]
    have value : (h.heap.set hole x)[other] = h.get other :=
      Option.some.inj ((List.getElem?_eq_getElem _).symm.trans atOther)
    have swapped := @List.set_set_perm _ (h.heap.set hole x) hole other
      (by rwa [List.length_set]) otherInside
    rw [value, List.getElem_set_self, List.set_set] at swapped
    exact swapped

theorem Sifting.get_swap {hole other : Nat} {elements : List Nat}
    (sifting : Sifting h hole x elements)
    (inside : other < h.size) (different : other ≠ hole) (i : Nat) :
    ((h.place hole (h.get other)).place other x).get i = (h.place hole x).get
      (Equiv.swap hole other i) := by
  have holeInside := sifting.inside
  unfold size at inside holeInside
  unfold place get
  dsimp only
  rcases eq_or_ne i hole with rfl | notHole
  · rw [Equiv.swap_apply_left]
    grind
  · rcases eq_or_ne i other with rfl | notOther
    · rw [Equiv.swap_apply_right]
      grind
    · rw [Equiv.swap_apply_of_ne_of_ne notHole notOther]
      grind

theorem get_place_self (inside : i < h.size) : (h.place i x).get i = x := by
  unfold place get
  unfold size at inside
  dsimp only
  grind

theorem get_place_ne (different : j ≠ i) : (h.place i x).get j = h.get j := by
  unfold place get
  dsimp only
  grind

theorem children {i child : Nat} (positive : 0 < child) (isChild : parent child = i) :
    child = left i ∨ child = right i := by
  unfold parent at isChild
  unfold left right
  omega

theorem parent_left (i : Nat) : parent (left i) = i := by
  unfold parent left
  omega

theorem parent_right (i : Nat) : parent (right i) = i := by
  unfold parent right
  omega

section Keys

variable {K : Type u} [LinearOrder K] (key : Nat -> K)

/-- The comparison of keys. -/
def less (a b : Nat) : Bool := decide (key a < key b)

/-- The elements are indexed and ordered by their keys. -/
structure Valid (h : Heap) : Prop where
  indexed : h.Indexed
  ordered : Ordered h.size (fun i => key (h.get i))

variable {key} {hole : Nat} {elements : List Nat}

theorem percolateUpLoop_spec (sifting : Sifting h hole x elements)
    (ordered : OrderedAbove h.size (fun i => key ((h.place hole x).get i)) hole) :
    Valid key (percolateUpLoop (less key) x h hole) ∧
      (percolateUpLoop (less key) x h hole).heap.Perm elements := by
  induction hole using Nat.strongRecOn generalizing h with
  | ind hole inductionHypothesis =>
      have inside := sifting.inside
      have atHole : (h.place hole x).get hole = x := get_place_self inside
      unfold percolateUpLoop
      split
      · rename_i condition
        rcases condition with ⟨notFirst, lower⟩
        have positive := Nat.pos_of_ne_zero notFirst
        have higher := parent_lt positive
        have above : (h.place hole x).get (parent hole) = h.get (parent hole) :=
          get_place_ne higher.ne
        have parentInside := higher.trans inside
        apply inductionHypothesis (parent hole) higher (sifting.swap parentInside higher.ne)
        rw [size_place]
        simp only [sifting.get_swap parentInside higher.ne]
        apply ordered.swap positive inside
        rw [atHole, above]
        exact of_decide_eq_true lower
      · rename_i condition
        refine ⟨⟨sifting.indexed, ?_⟩, sifting.perm⟩
        rw [size_place]
        apply ordered.ordered
        intro positive
        have above : (h.place hole x).get (parent hole) = h.get (parent hole) :=
          get_place_ne (parent_lt positive).ne
        rw [atHole, above]
        by_contra lower
        exact condition ⟨positive.ne', decide_eq_true (not_le.mp lower)⟩

/-- No child is below the one that `percolateDown` looks at. -/
theorem lowerChild_spec : 0 < lowerChild (less key) h i ∧
    parent (lowerChild (less key) h i) = i ∧
    forall child, 0 < child -> child < h.size -> parent child = i ->
      key (h.get (lowerChild (less key) h i)) ≤ key (h.get child) := by
  refine ⟨(Nat.zero_le i).trans_lt (lt_lowerChild _ h i), ?_, ?_⟩
  · unfold lowerChild
    split
    · exact parent_right i
    · exact parent_left i
  · intro child positive childInside isChild
    unfold lowerChild less
    split
    · rename_i condition
      rcases children positive isChild with rfl | rfl
      · exact (of_decide_eq_true condition.2).le
      · exact le_refl _
    · rename_i condition
      rcases children positive isChild with rfl | rfl
      · exact le_refl _
      · by_contra lower
        exact condition ⟨childInside, decide_eq_true (not_le.mp lower)⟩

theorem percolateDownLoop_spec (sifting : Sifting h hole x elements)
    (ordered : OrderedBelow h.size (fun i => key ((h.place hole x).get i)) hole) :
    Valid key (percolateDownLoop (less key) x h hole) ∧
      (percolateDownLoop (less key) x h hole).heap.Perm elements := by
  induction remaining : h.size - hole using Nat.strongRecOn generalizing h hole with
  | ind remaining inductionHypothesis =>
      have inside := sifting.inside
      have atHole : (h.place hole x).get hole = x := get_place_self inside
      have below : ∀ child, hole < child -> (h.place hole x).get child = h.get child :=
        fun child deeper => get_place_ne deeper.ne'
      have last : (forall child, 0 < child -> child < h.size -> parent child = hole ->
          key x ≤ key (h.get child)) -> Valid key (h.place hole x) ∧
          (h.place hole x).heap.Perm elements := by
        intro inOrder
        refine ⟨⟨sifting.indexed, ?_⟩, sifting.perm⟩
        rw [size_place]
        apply ordered.ordered
        intro child positive childInside isChild
        rw [atHole, below child (isChild ▸ parent_lt positive)]
        exact inOrder child positive childInside isChild
      unfold percolateDownLoop
      split
      · rename_i hasChild
        rcases @lowerChild_spec h hole K _ key with ⟨positive, isChild, lowest⟩
        have childInside := @lowerChild_lt (less key) h hole hasChild
        have deeper := lt_lowerChild (less key) h hole
        split
        · rename_i lower
          refine inductionHypothesis _ ?_ (sifting.swap childInside deeper.ne') ?_ rfl
          · rw [size_place]
            omega
          · rw [size_place]
            simp only [sifting.get_swap childInside deeper.ne']
            apply ordered.swap positive childInside isChild
            · intro child childPositive inHeap itsChild
              rw [below _ deeper, below child (itsChild ▸ parent_lt childPositive)]
              exact lowest child childPositive inHeap itsChild
            · rw [atHole, below _ deeper]
              exact of_decide_eq_true lower
        · rename_i notLower
          apply last
          intro child childPositive inHeap itsChild
          refine le_trans ?_ (lowest child childPositive inHeap itsChild)
          by_contra lower
          exact notLower (decide_eq_true (not_le.mp lower))
      · rename_i noChild
        apply last
        intro child positive inHeap isChild
        rcases children positive isChild with rfl | rfl
        · exact absurd inHeap noChild
        · unfold left at noChild
          unfold right at inHeap
          omega

/-! ## The operations -/

theorem place_get (indexed : h.Indexed) (inside : i < h.size) : h.place i (h.get i) = h := by
  have here := get_eq_some inside
  rcases List.getElem?_eq_some_iff.mp here with ⟨_, element⟩
  rcases List.getElem?_eq_some_iff.mp ((indexed _ i).mpr here) with ⟨positioned, position⟩
  have elements : h.heap.set i (h.get i) = h.heap := by
    rw [← element, List.set_getElem_self]
  have positions : h.indices.set (h.get i) i = h.indices := by
    rw [← position, List.set_getElem_self]
  rw [place, elements, positions]

theorem Indexed.sifting (indexed : h.Indexed) (inside : i < h.size) :
    Sifting h i (h.get i) h.heap := by
  refine ⟨inside, ?_, ?_⟩
  · rwa [place_get indexed inside]
  · rw [place_get indexed inside]

theorem valid_empty : Valid key empty := by
  refine ⟨indexed_empty, ?_⟩
  intro i _ inside
  cases inside

/-- `decrease`, after the key of an element was lowered. -/
theorem Valid.decrease {lowered : Nat -> K} (valid : Valid key h) (member : n ∈ h.heap)
    (lower : lowered n ≤ key n) (others : forall m, m ≠ n -> lowered m = key m) :
    Valid lowered (h.decrease (less lowered) n) ∧
      (h.decrease (less lowered) n).heap.Perm h.heap := by
  rcases valid.indexed.position member with ⟨i, inside, position, here⟩
  unfold Heap.decrease percolateUp
  rw [position]
  apply percolateUpLoop_spec (valid.indexed.sifting inside)
  rw [place_get valid.indexed inside]
  refine valid.ordered.lower inside ?_ ?_
  · rwa [here]
  · intro j below different
    apply others
    intro same
    apply different
    have first := (valid.indexed _ j).mpr (get_eq_some below)
    rw [same, ← here, (valid.indexed _ i).mpr (get_eq_some inside)] at first
    exact (Int.ofNat.inj (Option.some.inj first)).symm

theorem size_dropFirst : h.dropFirst.size = h.size - 1 := by
  unfold dropFirst size
  rw [List.length_dropLast, List.length_set]

theorem getElem?_dropFirst (i : Nat) : h.dropFirst.heap[i]? =
    if i < h.size - 1 then (if i = 0 then some (h.get (h.size - 1)) else h.heap[i]?) else none := by
  unfold dropFirst
  rw [List.getElem?_dropLast, List.length_set]
  unfold size
  split
  · rename_i below
    split
    · rename_i first
      subst first
      rw [List.getElem?_set_self (by omega)]
    · rename_i later
      rw [List.getElem?_set_ne (Ne.symm later)]
  · rfl

theorem Indexed.dropFirst (indexed : h.Indexed) (nonempty : 0 < h.size) : h.dropFirst.Indexed := by
  have first := get_eq_some nonempty
  have last := get_eq_some (Nat.sub_lt nonempty one_pos)
  have atFirst := (indexed _ _).mpr first
  have atLast := (indexed _ _).mpr last
  intro m i
  rw [getElem?_dropFirst]
  unfold Heap.dropFirst
  dsimp only
  have here := indexed m i
  by_cases isFirst : m = h.get 0
  · subst isFirst
    clear indexed
    grind
  · by_cases isLast : m = h.get (h.size - 1)
    · subst isLast
      clear indexed
      grind
    · have beginning := indexed m 0
      have inside := @List.getElem?_eq_none Nat h.heap i
      clear indexed
      unfold size at *
      grind

/-- `insert`, of a number that is not in the heap. -/
theorem Valid.insert (valid : Valid key h) (fresh : n ∉ h.heap) :
    Valid key (h.insert (less key) n) ∧ (h.insert (less key) n).heap.Perm (n :: h.heap) := by
  let added : Heap := ⟨h.heap ++ [n],
    (h.indices ++ List.replicate (n + 1 - h.indices.length) (-1)).set n h.heap.length⟩
  have indexed : added.Indexed := by
    intro m i
    have old := valid.indexed m i
    have notMember : h.heap[i]? ≠ some n := fun found => fresh (List.mem_of_getElem? found)
    dsimp only [added]
    clear added
    grind
  have inside : h.heap.length < added.size := by
    simp [added, size]
  have here : added.get h.heap.length = n := by
    simp [added, get]
  have spec := @percolateUpLoop_spec added (added.get h.heap.length) K _ key
    h.heap.length added.heap
    (indexed.sifting inside) ?_
  · refine ⟨spec.1, spec.2.trans ?_⟩
    exact List.perm_append_singleton n h.heap
  · rw [place_get indexed inside]
    have same : ∀ i < h.size, added.get i = h.get i := by
      intro i below
      unfold size at below
      simp [added, get, List.getElem?_append_left below]
    constructor
    · intro i positive below different
      have old : i < h.size := by
        simp only [added, size, List.length_append, List.length_singleton] at below ⊢
        omega
      rw [same i old, same _ ((parent_lt positive).trans old)]
      exact valid.ordered i positive old
    · intro _ i positive below isChild
      have deeper := parent_lt positive
      simp only [added, size, List.length_append, List.length_singleton] at below
      omega

theorem perm_dropFirst (nonempty : 0 < h.size) : h.heap.Perm (h.get 0 :: h.dropFirst.heap) := by
  unfold size at nonempty
  unfold dropFirst size get
  cases elements : h.heap with
  | nil =>
      rw [elements] at nonempty
      cases nonempty
  | cons first rest =>
      cases rest using List.reverseRecOn with
      | nil => exact List.Perm.refl _
      | append_singleton others last =>
          simp [List.dropLast_cons_of_ne_nil]

theorem Valid.removeMin (valid : Valid key h) (nonempty : 0 < h.size) :
    Valid key (h.removeMin (less key)).2 ∧
      h.heap.Perm ((h.removeMin (less key)).1 :: (h.removeMin (less key)).2.heap) ∧
      ∀ m ∈ h.heap, key (h.removeMin (less key)).1 ≤ key m := by
  have indexed := valid.indexed.dropFirst nonempty
  have perm := perm_dropFirst nonempty
  have least : ∀ m ∈ h.heap, key (h.get 0) ≤ key m := by
    intro m member
    rcases valid.indexed.position member with ⟨i, inside, _, rfl⟩
    exact valid.ordered.least i inside
  unfold Heap.removeMin
  dsimp only
  split
  · rename_i several
    have inside : 0 < h.dropFirst.size := by omega
    have spec := @percolateDownLoop_spec h.dropFirst (h.dropFirst.get 0) K _ key 0 h.dropFirst.heap
      (indexed.sifting inside) ?_
    · exact ⟨spec.1, perm.trans (spec.2.symm.cons _), least⟩
    · rw [place_get indexed inside, size_dropFirst]
      apply (valid.ordered.shrink (Nat.sub_le _ 1)).replace
      intro i below later
      have same := getElem?_dropFirst (h := h) i
      rw [if_pos below, if_neg later] at same
      unfold get
      rw [List.getD_eq_getElem?_getD, same, List.getD_eq_getElem?_getD]
  · rename_i few
    refine ⟨⟨indexed, ?_⟩, perm, least⟩
    intro i positive below
    omega

/-- The keys outside the heap are of no interest. -/
theorem Valid.congr {other : Nat -> K} (valid : Valid key h)
    (same : ∀ n ∈ h.heap, other n = key n) :
    Valid other h := by
  refine ⟨valid.indexed, valid.ordered.congr ?_⟩
  intro i below
  exact same _ (List.mem_of_getElem? (get_eq_some below))

/-! ## The heap as a priority queue -/

/-- One use of the heap: its owner writes a key and inserts or decreases the
element, or removes the least one.  That an inserted
element is absent and a decreased one present is asserted in the source.  That
there is one to remove and that a decreased key is not greater is left to the
callers there. -/
def respond (state : (Nat -> K) × Heap) :
    PriorityQueue.Request Nat K -> Option (Option Nat × (Nat -> K) × Heap)
  | .insert n k =>
      if state.2.inHeap n then none
      else
        let key := Function.update state.1 n k
        some (none, key, state.2.insert (less key) n)
  | .decrease n k =>
      if state.2.inHeap n && decide (k ≤ state.1 n) then
        let key := Function.update state.1 n k
        some (none, key, state.2.decrease (less key) n)
      else none
  | .removeMin =>
      if state.2.size = 0 then none
      else
        let removed := state.2.removeMin (less state.1)
        some (some removed.1, state.1, removed.2)

/-- The heap holds the elements of the priority queue. -/
def Represents (state : (Nat -> K) × Heap) (queue : PriorityQueue Nat K) : Prop :=
  Valid state.1 state.2 ∧ queue = ⟨state.1, state.2.heap.toFinset⟩

theorem respond_refines : (PriorityQueue.service Nat K).Refines respond Represents := by
  constructor
  · rintro ⟨key, h⟩ queue request ⟨valid, rfl⟩ refused
    cases request with
    | insert n k =>
        simp only [respond] at refused
        split at refused
        · rename_i member
          intro accepted
          exact accepted (List.mem_toFinset.mpr (valid.indexed.inHeap_iff.mp member))
        · cases refused
    | decrease n k =>
        simp only [respond] at refused
        split at refused
        · cases refused
        · rename_i condition
          rintro ⟨member, lower⟩
          apply condition
          rw [Bool.and_eq_true]
          exact ⟨valid.indexed.inHeap_iff.mpr (List.mem_toFinset.mp member), decide_eq_true lower⟩
    | removeMin =>
        simp only [respond] at refused
        split at refused
        · rename_i none
          rintro ⟨n, member⟩
          rw [List.eq_nil_of_length_eq_zero none] at member
          cases member
        · cases refused
  · rintro ⟨key, h⟩ queue request answer next ⟨valid, rfl⟩ responded
    cases request with
    | insert n k =>
        simp only [respond] at responded
        split at responded
        · cases responded
        · rename_i absent
          cases responded
          have fresh : n ∉ h.heap := fun member => absent (valid.indexed.inHeap_iff.mpr member)
          have rekeyed : Valid (Function.update key n k) h := by
            apply valid.congr
            intro m member
            exact Function.update_of_ne (fun same => fresh (by rwa [same] at member)) _ _
          have spec := rekeyed.insert fresh
          refine ⟨fun member => fresh (List.mem_toFinset.mp member), _, ⟨rfl, rfl⟩, spec.1, ?_⟩
          rw [List.toFinset_eq_of_perm _ _ spec.2, List.toFinset_cons]
    | decrease n k =>
        simp only [respond] at responded
        split at responded
        · rename_i condition
          cases responded
          rw [Bool.and_eq_true] at condition
          have member := valid.indexed.inHeap_iff.mp condition.1
          have lower : Function.update key n k n ≤ key n := by
            rw [Function.update_self]
            exact of_decide_eq_true condition.2
          have spec := valid.decrease member lower
            (fun m different => Function.update_of_ne different _ _)
          refine ⟨⟨List.mem_toFinset.mpr member, of_decide_eq_true condition.2⟩, _,
            ⟨rfl, rfl⟩, spec.1, ?_⟩
          rw [List.toFinset_eq_of_perm _ _ spec.2]
        · cases responded
    | removeMin =>
        simp only [respond] at responded
        split at responded
        · cases responded
        · rename_i some
          cases responded
          have spec := valid.removeMin (Nat.pos_of_ne_zero some)
          have member : (h.removeMin (less key)).1 ∈ h.heap :=
            spec.2.1.mem_iff.mpr List.mem_cons_self
          refine ⟨⟨_, List.mem_toFinset.mpr member⟩, _,
            ⟨_, List.mem_toFinset.mpr member, ?_, rfl, rfl⟩, spec.1, ?_⟩
          · intro m inside
            exact spec.2.2 m (List.mem_toFinset.mp inside)
          · have nodup := spec.2.1.nodup_iff.mp valid.indexed.nodup
            dsimp only
            rw [List.toFinset_eq_of_perm _ _ spec.2.1, List.toFinset_cons]
            congr 1
            apply Finset.erase_insert
            rw [List.mem_toFinset]
            exact (List.nodup_cons.mp nodup).1

/-- Whatever is asked of a heap that starts without elements, it answers like a
priority queue, up to the first request that a priority queue would not accept;
its vectors agree with each other and are in heap order behind every answer. -/
theorem serves_priorityQueue (key : Nat -> K) (requests : List (PriorityQueue.Request Nat K)) :
    let outcome := Service.serve respond requests ⟨[], (key, empty), []⟩
    exists served, ∃ last : PriorityQueue Nat K, requests = served ++ outcome.refused ∧
      (PriorityQueue.service Nat K).Run ⟨key, ∅⟩ served outcome.answers last ∧
      Valid outcome.last.1 outcome.last.2 ∧ last.key = outcome.last.1 ∧
      last.members = outcome.last.2.heap.toFinset ∧
      forall request, outcome.refused.head? = some request -> ¬ last.Accepts request := by
  have represented : Represents (key, empty) ⟨key, ∅⟩ := ⟨valid_empty, rfl⟩
  rcases respond_refines.serve represented requests with
    ⟨served, last, split, run, ⟨valid, rfl⟩, refused⟩
  exact ⟨served, _, split, run, valid, rfl, rfl, refused⟩

end Keys

end Heap

end Crab
end Prevail
