import Prevail.Asm.Syntax
import Prevail.Crab.Interval
import Prevail.Library.KeyedSets

namespace Prevail
namespace Crab

/-!
# Cells of the stack and the search for overlaps

`cell_t` and `offset_map_t` of `array_domain.cpp`.  A cell is a range of bytes of
the stack that has scalar variables of its own.  The offset map keeps the cells
under their offsets in an ordered map, here a map from offsets to sizes since the
cells under one offset differ in their sizes only.

`get_overlap_cells` walks away from the offset of the query, downwards and then
upwards, and stops in either direction at the first offset none of whose cells
overlaps with the query.  Removing a cell keeps its offset in the map, with fewer
cells or none.
-/

@[ext] structure Cell where
  offset : Nat
  size : Nat
  deriving DecidableEq

namespace Cell

/-- `cell_t::to_interval`.  The offset of a cell that is in a map narrows to `int`. -/
def toInterval (cell : Cell) : Interval := .range cell.offset (cell.offset + cell.size - 1)

def overlap (cell query : Cell) :
    Bool := decide (¬ (cell.toInterval.meet query.toInterval).IsBottom)

/-- `operator==` of two cells. -/
def same (cell other : Cell) : Bool := decide (cell.toInterval = other.toInterval)

/-- A byte of a cell. -/
def Covers (cell : Cell) (byte : Int) :
    Prop := (cell.offset : Int) ≤ byte ∧ byte < cell.offset + cell.size

theorem mem_toInterval {cell : Cell} {byte : Int} : byte ∈ cell.toInterval ↔ cell.Covers byte := by
  rw [toInterval, Interval.mem_range, Covers]
  omega

/-- Two cells overlap exactly if they have a byte in common. -/
theorem overlap_iff {cell query : Cell} :
    cell.overlap query ↔ exists byte, cell.Covers byte ∧ query.Covers byte := by
  rw [overlap, decide_eq_true_eq, toInterval, toInterval, Interval.meet_range,
    Interval.isBottom_range, not_lt]
  simp only [Covers]
  constructor
  · intro ordered
    exact ⟨max cell.offset query.offset, by omega⟩
  · intro common
    rcases common with ⟨byte, inCell, inQuery⟩
    omega

theorem overlap_self {cell : Cell} (positive : 1 ≤ cell.size) : cell.overlap cell := by
  have first : cell.Covers cell.offset := ⟨le_refl _, by omega⟩
  exact overlap_iff.mpr ⟨cell.offset, first, first⟩

/-- A cell with a byte is equal to another one only if they are the same. -/
theorem same_iff {cell other : Cell} (positive : 1 ≤ other.size) :
    cell.same other ↔ cell = other := by
  rw [same, decide_eq_true_eq]
  constructor
  · intro equal
    have first : (other.offset : Int) ∈ cell.toInterval := by
      rw [equal]
      exact mem_toInterval.mpr ⟨le_refl _, by omega⟩
    have last : (other.offset + other.size - 1 : Int) ∈ cell.toInterval := by
      rw [equal]
      exact mem_toInterval.mpr ⟨by omega, by omega⟩
    have own : (cell.offset : Int) ∈ other.toInterval := by
      rw [<- equal]
      exact mem_toInterval.mpr
        ⟨le_refl _, by have := mem_toInterval.mp first; unfold Covers at this; omega⟩
    have ownLast : (cell.offset + cell.size - 1 : Int) ∈ other.toInterval := by
      rw [<- equal]
      exact mem_toInterval.mpr (by have := mem_toInterval.mp first; unfold Covers at this ⊢; omega)
    rw [mem_toInterval, Covers] at first last own ownLast
    rcases cell with ⟨offset, size⟩
    rcases other with ⟨otherOffset, otherSize⟩
    dsimp only at first last own ownLast
    congr 1 <;> omega
  · intro equal
    rw [equal]

end Cell

abbrev OffsetMap : Type := KeyedSets Nat Nat

namespace OffsetMap

/-- A cell of the map. -/
def Contains (map : OffsetMap) (cell : Cell) : Prop := map.Has cell.offset cell.size

instance (map : OffsetMap) (cell : Cell) : Decidable (map.Contains cell) :=
  inferInstanceAs (Decidable (map.Has _ _))

/-- The cells under an offset in their order. -/
def cellsAt (map : OffsetMap) (offset : Nat) :
    List Cell := (map.sets offset).elements.map (⟨offset, ·⟩)

def removeCell (map : OffsetMap) (cell : Cell) : OffsetMap := map.erase cell.offset cell.size

def insertCell (map : OffsetMap) (cell : Cell) : OffsetMap := map.insert cell.offset cell.size

def getCell (map : OffsetMap) (cell : Cell) : Option Cell × OffsetMap :=
  (if map.Contains cell then some cell else none, map.touch cell.offset)

def mkCell (map : OffsetMap) (cell : Cell) : OffsetMap :=
  let (found, touched) := map.getCell cell
  if found.isSome then touched else touched.insertCell cell

/-- `operator-=` of a list of cells. -/
def removeCells (map : OffsetMap) (cells : List Cell) : OffsetMap := cells.foldl removeCell map

/-- The three searches of `get_overlap_cells`, in a map that contains the query. -/
def searchOverlaps (map : OffsetMap) (query : Cell) : List Cell :=
  let live (cell : Cell) : Bool := cell.overlap query
  let other (cell : Cell) : Bool := cell.overlap query && !cell.same query
  let fromLowerBound := map.keys.elements.dropWhile (fun key => decide (key < query.offset))
  let uptoLowerBound := map.keys.elements.takeWhile (fun key => decide (key < query.offset)) ++
    fromLowerBound.take 1
  let fromUpperBound := map.keys.elements.dropWhile (fun key => decide (key ≤ query.offset))
  let below := StoppingWalk.visit map.cellsAt live other uptoLowerBound.reverse []
  let above := StoppingWalk.visit map.cellsAt live live fromUpperBound below.1
  let remaining := fromLowerBound.tail.take (fromLowerBound.tail.length - above.2.length)
  (StoppingWalk.visit map.cellsAt live other remaining above.1).1

/-- `get_overlap_cells` for a query whose offset narrows to `int`. -/
def overlapSearch (map : OffsetMap) (query : Cell) : List Cell × OffsetMap :=
  let (found, touched) := map.getCell query
  if found.isSome then (touched.searchOverlaps query, touched)
  else
    let extended := touched.insertCell query
    (extended.searchOverlaps query, extended.removeCell query)

/-- `get_overlap_cells`.  The offset of the query narrows to `int` when its own
cell is examined; otherwise the source throws. -/
def getOverlapCells (map : OffsetMap) (query : Cell) : Option (List Cell × OffsetMap) :=
  if IntType.int32.Fits query.offset then some (map.overlapSearch query) else none

variable {map : OffsetMap} {query cell : Cell}

/-! ## Look-ups, insertions and removals -/

theorem mem_cellsAt {offset : Nat} : cell ∈ map.cellsAt offset ↔ map.Contains cell ∧
    cell.offset = offset := by
  rw [cellsAt, List.mem_map]
  constructor
  · intro member
    rcases member with ⟨size, inSizes, rfl⟩
    exact ⟨inSizes, rfl⟩
  · intro member
    rcases member with ⟨contained, rfl⟩
    exact ⟨cell.size, contained, rfl⟩

theorem Contains.mem_keys (contained : map.Contains cell) : cell.offset ∈ map.keys :=
  KeyedSets.Has.mem_keys contained

theorem contains_insertCell {added : Cell} :
    (map.insertCell added).Contains cell ↔ cell = added ∨ map.Contains cell := by
  rw [Contains, insertCell, KeyedSets.has_insert, Cell.ext_iff, Contains]

theorem contains_removeCell {removed : Cell} :
    (map.removeCell removed).Contains cell ↔ map.Contains cell ∧ cell ≠ removed := by
  rw [Contains, removeCell, KeyedSets.has_erase, ne_eq, Cell.ext_iff, Contains]

theorem contains_removeCells {removed : List Cell} :
    (map.removeCells removed).Contains cell ↔ map.Contains cell ∧ cell ∉ removed := by
  induction removed generalizing map with
  | nil => simp only [removeCells, List.foldl_nil, List.not_mem_nil, not_false_eq_true, and_true]
  | cons first rest inductionHypothesis =>
      rw [removeCells, List.foldl_cons, <- removeCells, inductionHypothesis, contains_removeCell,
        List.mem_cons, not_or, and_assoc]

theorem contains_mkCell {added : Cell} : (map.mkCell added).Contains cell ↔ cell = added ∨
    map.Contains cell := by
  rw [mkCell, getCell]
  by_cases present : map.Contains added
  · simp only [if_pos present, Option.isSome_some, if_true]
    constructor
    · exact Or.inr
    · intro contained
      rcases contained with rfl | contained
      · exact present
      · exact contained
  · simp only [if_neg present, Option.isSome_none, Bool.false_eq_true, if_false]
    exact contains_insertCell

/-! ## What the searches find -/

/-- Some cell under an offset overlaps with a query. -/
def Live (map : OffsetMap) (query : Cell) (offset : Nat) : Prop :=
  exists other, map.Contains other ∧ other.offset = offset ∧ other.overlap query

/-- An offset lies strictly between those of a cell and of a query. -/
def Between (query cell : Cell) (offset : Nat) : Prop :=
  (cell.offset < offset ∧ offset < query.offset) ∨ (query.offset < offset ∧ offset < cell.offset)

theorem lively_iff {offset : Nat} :
    StoppingWalk.lively map.cellsAt (fun cell => cell.overlap query) offset ↔
      map.Live query offset := by
  rw [StoppingWalk.lively, List.any_eq_true]
  simp only [mem_cellsAt, Live, and_assoc]

/-- A walk along offsets in one direction finds the cells in front of which all
offsets are live. -/
theorem mem_visit_iff {before : Nat -> Nat -> Prop}
    (asymmetric : forall left right, before left right -> ¬ before right left)
    {offsets : List Nat} (ordered : offsets.Pairwise before) {wanted : Cell -> Bool}
    (wantedLive : forall cell, wanted cell -> cell.overlap query) {out : List Cell} :
    cell ∈ (StoppingWalk.visit map.cellsAt (fun cell => cell.overlap query) wanted offsets out).1 ↔
      cell ∈ out ∨
        (cell.offset ∈ offsets ∧ map.Contains cell ∧ wanted cell ∧
          ∀ offset ∈ offsets, before offset cell.offset -> map.Live query offset) := by
  rw [StoppingWalk.mem_visit wantedLive]
  simp only [StoppingWalk.mem_takeWhile_iff asymmetric ordered, lively_iff, mem_cellsAt]
  constructor
  · intro found
    rcases found with old | ⟨offset, ⟨inOffsets, _, earlier⟩, ⟨contained, rfl⟩, want⟩
    · exact Or.inl old
    · exact Or.inr ⟨inOffsets, contained, want, earlier⟩
  · intro found
    rcases found with old | ⟨inOffsets, contained, want, earlier⟩
    · exact Or.inl old
    · exact Or.inr ⟨cell.offset, ⟨inOffsets, ⟨cell, contained, rfl, wantedLive cell want⟩, earlier⟩,
        ⟨contained, rfl⟩, want⟩

theorem mem_uptoLowerBound (own : query.offset ∈ map.keys) {offset : Nat} :
    offset ∈ (map.keys.elements.takeWhile (fun key => decide (key < query.offset)) ++
        (map.keys.elements.dropWhile (fun key => decide (key < query.offset))).take 1).reverse ↔
      offset ∈ map.keys ∧ offset ≤ query.offset := by
  rw [OrderedSet.dropWhile_lt_eq_cons map.keys.sorted own, List.take_succ_cons, List.take_zero,
    List.mem_reverse, List.mem_append, OrderedSet.mem_takeWhile_lt map.keys.sorted,
    List.mem_singleton, <- OrderedSet.mem_def]
  constructor
  · intro member
    rcases member with ⟨member, less⟩ | rfl
    · exact ⟨member, less.le⟩
    · exact ⟨own, le_refl _⟩
  · intro member
    rcases member with ⟨member, below⟩
    rcases lt_or_eq_of_le below with less | same
    · exact Or.inl ⟨member, less⟩
    · exact Or.inr same

theorem uptoLowerBound_sorted (own : query.offset ∈ map.keys) :
    (map.keys.elements.takeWhile (fun key => decide (key < query.offset)) ++
        (map.keys.elements.dropWhile (fun key => decide (key < query.offset))).take
        1).reverse.Pairwise (· > ·) := by
  rw [List.pairwise_reverse]
  rw [OrderedSet.dropWhile_lt_eq_cons map.keys.sorted own, List.take_succ_cons, List.take_zero]
  refine List.pairwise_append.mpr ⟨map.keys.sorted.sublist (List.takeWhile_sublist _),
    List.pairwise_singleton _ _, ?_⟩
  intro offset inFront last isLast
  rw [List.mem_singleton.mp isLast]
  exact ((OrderedSet.mem_takeWhile_lt map.keys.sorted).mp inFront).2

/-- The searches find the overlapping cells that no offset without an overlapping
cell separates from the query. -/
theorem mem_searchOverlaps (own : map.Contains query) (positive : 1 ≤ query.size) :
    cell ∈ map.searchOverlaps query ↔
      map.Contains cell ∧ cell ≠ query ∧ cell.overlap query ∧
        ∀ offset ∈ map.keys, Between query cell offset -> map.Live query offset := by
  have ownKey : query.offset ∈ map.keys := own.mem_keys
  have ownLive : map.Live query query.offset := ⟨query, own, rfl, Cell.overlap_self positive⟩
  have otherIff : forall cell : Cell,
      (cell.overlap query && !cell.same query) = true ↔ cell.overlap query ∧ cell ≠ query := by
    intro cell
    rw [Bool.and_eq_true, Bool.not_eq_true', Bool.eq_false_iff, ne_eq, ne_eq,
      Cell.same_iff positive]
  have ofOther : forall cell : Cell, (cell.overlap query && !cell.same query) = true ->
      cell.overlap query :=
    fun cell other => ((otherIff cell).mp other).1
  have descending : forall left right : Nat, left > right -> ¬ right > left :=
    fun _ _ greater => lt_asymm greater
  have ascending : forall left right : Nat, left < right -> ¬ right < left :=
    fun _ _ less => lt_asymm less
  have above : (map.keys.elements.dropWhile (fun key => decide (key ≤ query.offset))).Pairwise
      (· < ·) :=
    map.keys.sorted.sublist (List.dropWhile_sublist _)
  rw [searchOverlaps, OrderedSet.dropWhile_lt_eq_cons map.keys.sorted ownKey, List.tail_cons,
    StoppingWalk.visit_rest, StoppingWalk.take_length_sub_dropWhile,
    <- OrderedSet.dropWhile_lt_eq_cons map.keys.sorted ownKey,
    mem_visit_iff ascending (above.sublist (List.takeWhile_sublist _)) ofOther,
    mem_visit_iff ascending above (fun _ live => live),
    mem_visit_iff descending (uptoLowerBound_sorted ownKey) ofOther]
  simp only [List.not_mem_nil, false_or, mem_uptoLowerBound ownKey,
    OrderedSet.mem_dropWhile_le map.keys.sorted, StoppingWalk.mem_takeWhile_iff ascending above,
    otherIff, lively_iff, <- OrderedSet.mem_def, gt_iff_lt]
  constructor
  · intro found
    rcases found with (⟨⟨_, below⟩, contained, ⟨overlaps, different⟩, earlier⟩ |
      ⟨⟨_, greater⟩, contained, overlaps, earlier⟩)
      | ⟨⟨⟨_, greater⟩, _, earlier⟩, contained, ⟨overlaps, different⟩, _⟩
    · refine ⟨contained, different, overlaps, fun offset member between =>
        earlier offset ⟨member, ?_⟩ ?_⟩
      · rcases between with ⟨_, less⟩ | ⟨more, less⟩ <;> omega
      · rcases between with ⟨more, _⟩ | ⟨more, less⟩ <;> omega
    · refine ⟨contained, ?_, overlaps, fun offset member between => earlier offset ⟨member, ?_⟩ ?_⟩
      · intro same
        rw [same] at greater
        exact lt_irrefl _ greater
      · rcases between with ⟨more, less⟩ | ⟨more, _⟩ <;> omega
      · rcases between with ⟨more, less⟩ | ⟨_, less⟩ <;> omega
    · refine ⟨contained, different, overlaps, fun offset member between =>
        earlier offset ⟨member, ?_⟩ ?_⟩
      · rcases between with ⟨more, less⟩ | ⟨more, _⟩ <;> omega
      · rcases between with ⟨more, less⟩ | ⟨_, less⟩ <;> omega
  · intro found
    rcases found with ⟨contained, different, overlaps, reached⟩
    left
    rcases le_or_gt cell.offset query.offset with below | greater
    · left
      refine ⟨⟨contained.mem_keys, below⟩, contained, ⟨overlaps, different⟩, ?_⟩
      intro offset member more
      rcases lt_or_eq_of_le member.2 with less | same
      · exact reached offset member.1 (Or.inl ⟨more, less⟩)
      · exact same ▸ ownLive
    · right
      refine ⟨⟨contained.mem_keys, greater⟩, contained, overlaps, ?_⟩
      intro offset member less
      exact reached offset member.1 (Or.inr ⟨member.2, less⟩)

/-! ## Runs from the empty map -/

/-- What the array domain does to an offset map: it makes a cell after removing
those that the search found, or it removes a cell.  Both happen inside the stack. -/
inductive Operation where
  | store (cell : Cell) (inStack : cell.offset < ebpfTotalStackSize)
  | remove (cell : Cell) (inStack : cell.offset < ebpfTotalStackSize)

/-- One operation.  The offsets of the stack narrow to `int`. -/
def step (map : OffsetMap) : Operation -> OffsetMap
  | .store cell _ =>
      let (found, searched) := map.overlapSearch cell
      (searched.removeCells found).mkCell cell
  | .remove cell _ => map.removeCell cell

/-- A sequence of operations on the empty map. -/
def run (operations : List Operation) : OffsetMap := operations.foldl step .empty

/-- The cells of the map that have a byte in common with a query, other than the
query itself. -/
def IsOverlap (map : OffsetMap) (query cell : Cell) : Prop :=
  map.Contains cell ∧ cell ≠ query ∧ exists byte, cell.Covers byte ∧ query.Covers byte

/-- The search returns every overlapping cell once, returns nothing else, and
leaves the cells of the map as they are. -/
def FindsOverlaps (map : OffsetMap) (query : Cell) : Prop :=
  exists out after, map.getOverlapCells query = some (out, after) ∧ out.Nodup ∧
    (forall cell, cell ∈ out ↔ map.IsOverlap query cell) ∧ forall cell, after.Contains cell ↔
    map.Contains cell

/-- No offset of the map without an overlapping cell separates an overlapping cell
from the query. -/
def Unseparated (map : OffsetMap) (query : Cell) : Prop :=
  forall cell, map.IsOverlap query cell -> ∀ offset ∈ map.keys, Between query cell offset ->
    map.Live query offset

/-- The search leaves the cells of the map as they are. -/
theorem contains_overlapSearch : (map.overlapSearch query).2.Contains cell ↔ map.Contains cell := by
  rw [overlapSearch, getCell]
  by_cases present : map.Contains query
  · rw [if_pos present]
    exact Iff.rfl
  · simp only [if_neg present, Option.isSome_none, Bool.false_eq_true, if_false,
      contains_removeCell, contains_insertCell]
    constructor
    · intro contained
      rcases contained with ⟨rfl | contained, different⟩
      · exact absurd rfl different
      · exact contained
    · intro contained
      refine ⟨Or.inr contained, ?_⟩
      intro same
      exact present (same ▸ contained)

/-- A map that the query has been added to finds what the map itself has. -/
theorem mem_searchOverlaps_of_added {added : OffsetMap} (positive : 1 ≤ query.size)
    (cells : forall cell, added.Contains cell ↔ cell = query ∨ map.Contains cell)
    (offsets : forall offset, offset ∈ added.keys ↔ offset = query.offset ∨ offset ∈ map.keys) :
    cell ∈ added.searchOverlaps query ↔
      map.IsOverlap query cell ∧ ∀ offset ∈ map.keys, Between query cell offset ->
      map.Live query offset := by
  have live : forall offset, Between query cell offset ->
      (added.Live query offset ↔ map.Live query offset) := by
    intro offset between
    constructor
    · intro found
      rcases found with ⟨other, contained, rfl, overlaps⟩
      rcases (cells other).mp contained with rfl | contained
      · rcases between with ⟨_, less⟩ | ⟨less, _⟩ <;> exact absurd less (lt_irrefl _)
      · exact ⟨other, contained, rfl, overlaps⟩
    · intro found
      rcases found with ⟨other, contained, rfl, overlaps⟩
      exact ⟨other, (cells other).mpr (Or.inr contained), rfl, overlaps⟩
  rw [mem_searchOverlaps ((cells query).mpr (Or.inl rfl)) positive, cells, IsOverlap,
    Cell.overlap_iff]
  constructor
  · intro found
    rcases found with ⟨contained, different, overlaps, reached⟩
    rcases contained with same | contained
    · exact absurd same different
    · refine ⟨⟨contained, different, overlaps⟩, fun offset member between =>
        (live offset between).mp ?_⟩
      exact reached offset ((offsets offset).mpr (Or.inr member)) between
  · intro found
    rcases found with ⟨⟨contained, different, overlaps⟩, reached⟩
    refine ⟨Or.inr contained, different, overlaps, fun offset member between =>
      (live offset between).mpr ?_⟩
    rcases (offsets offset).mp member with rfl | member
    · rcases between with ⟨_, less⟩ | ⟨less, _⟩ <;> exact absurd less (lt_irrefl _)
    · exact reached offset member between

theorem mem_overlapSearch (positive : 1 ≤ query.size) :
    cell ∈ (map.overlapSearch query).1 ↔
      map.IsOverlap query cell ∧ ∀ offset ∈ map.keys, Between query cell offset ->
      map.Live query offset := by
  rw [overlapSearch, getCell]
  by_cases present : map.Contains query
  · rw [if_pos present]
    apply mem_searchOverlaps_of_added positive
    · intro other
      constructor
      · exact Or.inr
      · intro contained
        rcases contained with rfl | contained
        · exact present
        · exact contained
    · exact fun _ => KeyedSets.mem_keys_touch
  · rw [if_neg present]
    apply mem_searchOverlaps_of_added positive
    · exact fun _ => contains_insertCell
    · intro offset
      rw [insertCell, KeyedSets.mem_keys_insert, KeyedSets.mem_keys_touch, <- or_assoc, or_self]

theorem nodup_overlapSearch : (map.overlapSearch query).1.Nodup := by
  have searched : forall map : OffsetMap, (map.searchOverlaps query).Nodup := by
    intro map
    exact StoppingWalk.nodup_visit
      (StoppingWalk.nodup_visit (StoppingWalk.nodup_visit List.nodup_nil))
  rw [overlapSearch]
  dsimp only
  split
  · exact searched _
  · exact searched _

/-- The search is exact on a map exactly if the offset of the query narrows and no
offset without an overlapping cell separates an overlapping cell from it. -/
theorem findsOverlaps_iff (positive : 1 ≤ query.size) :
    map.FindsOverlaps query ↔ IntType.int32.Fits query.offset ∧ map.Unseparated query := by
  constructor
  · intro finds
    rcases finds with ⟨out, after, searched, _, exact_, _⟩
    rw [getOverlapCells] at searched
    split at searched
    · rename_i fits
      refine ⟨fits, ?_⟩
      intro cell overlaps
      have found : cell ∈ (map.overlapSearch query).1 := by
        rw [Option.some.inj searched]
        exact (exact_ cell).mpr overlaps
      exact ((mem_overlapSearch positive).mp found).2
    · cases searched
  · intro exact_
    rcases exact_ with ⟨fits, reached⟩
    refine ⟨(map.overlapSearch query).1, (map.overlapSearch query).2, ?_, nodup_overlapSearch, ?_,
      fun _ => contains_overlapSearch⟩
    · rw [getOverlapCells, if_pos fits]
    · intro cell
      rw [mem_overlapSearch positive]
      exact ⟨And.left, fun overlaps => ⟨overlaps, reached cell overlaps⟩⟩

/-- After any operations the search for any query is exact just in the cases in
which no offset separates an overlapping cell from it. -/
theorem run_findsOverlaps_iff (operations : List Operation) (query : Cell)
    (positive : 1 ≤ query.size) :
    (run operations).FindsOverlaps query ↔
      IntType.int32.Fits query.offset ∧ (run operations).Unseparated query :=
      findsOverlaps_iff positive

/-- A cell of four bytes and behind it one of sixteen bytes that covers it. -/
def coveredStores : List Operation := [.store ⟨8, 4⟩ (by decide), .store ⟨0, 16⟩ (by decide)]

/-- The search finds the large cell from the place of the small one. -/
theorem run_findsOverlaps_covered : (run coveredStores).FindsOverlaps ⟨8, 4⟩ := by
  refine (run_findsOverlaps_iff coveredStores ⟨8, 4⟩ (by decide)).mpr ⟨by decide, ?_⟩
  intro cell _ offset member between
  have offsets : offset = 0 ∨ offset = 8 := by
    have listed : (run coveredStores).keys = ⟨[0, 8], by decide⟩ := by decide
    rw [listed, OrderedSet.mem_def] at member
    simpa using member
  rcases offsets with rfl | rfl
  · refine ⟨⟨0, 16⟩, by decide, rfl, by decide⟩
  · rcases between with ⟨_, less⟩ | ⟨less, _⟩ <;> exact absurd less (lt_irrefl _)

/-- The offset of the small cell, which is gone, hides the large one from a query
behind it. -/
theorem not_run_findsOverlaps :
    (run coveredStores).Contains ⟨0, 16⟩ ∧ ¬ (run coveredStores).FindsOverlaps ⟨12, 1⟩ := by
  refine ⟨by decide, fun finds => ?_⟩
  rcases (findsOverlaps_iff (by decide)).mp finds with ⟨_, reached⟩
  have overlaps : (run coveredStores).IsOverlap ⟨12, 1⟩ ⟨0, 16⟩ :=
    ⟨by decide, by decide, 12, by unfold Cell.Covers; decide, by unfold Cell.Covers; decide⟩
  have member : 8 ∈ (run coveredStores).keys := by decide
  rcases reached ⟨0, 16⟩ overlaps 8 member (Or.inl (by decide)) with ⟨other, contained, atEight, _⟩
  rcases other with ⟨offset, size⟩
  dsimp only at atEight
  subst atEight
  have none : (run coveredStores).sets 8 = .empty := by decide
  rw [Contains, KeyedSets.Has, none] at contained
  exact OrderedSet.not_mem_empty size contained

end OffsetMap

end Crab
end Prevail
