import Prevail.Crab.OffsetMap
import Prevail.Crab.SplitDbm.AddBottomConstraint

namespace Prevail
namespace Crab

/-!
# Writes at unknown offsets

`maybe_between`, `cell_t::symbolic_overlap`, `get_overlap_cells_symbolic_offset`
and the choice between the two searches in `kill_and_find_var`.

A cell is taken for affected if one of the two ends of the largest cell at its
offset may lie between the bounds of the write.  What the difference bounds cannot
rule out includes every end that some represented assignment puts there.  A write
into the middle of a cell leaves both ends alone.
-/

variable {V : Type} [LinearOrder V]

namespace AddBottom

/-- `maybe_between`, for a number. -/
def maybeBetween (state : AddBottom V) (symbLb symbUb : LinearExpression V) (x : Int) : Bool :=
  !AddBottom.isBottom (addConstraint (.le (.const x) symbUb)
    (addConstraint (.ge (.const x) symbLb) state))

variable {state : AddBottom V} {symbLb symbUb : LinearExpression V} {x : Int}

theorem maybeBetween_of_between (lower : symbLb.WellFormed) {values : V -> Int}
    (represents : state.Represents values)
    (above : symbLb.eval values ≤ x) (below : x ≤ symbUb.eval values) :
    state.maybeBetween symbLb symbUb x := by
  have first : AddBottom.Represents (addConstraint (.ge (.const x) symbLb) state) values := by
    apply represents_addConstraint (lower.plus _) (fun impossible => by cases impossible) represents
    rw [LinearConstraint.holds_ge, LinearExpression.eval_const]
    exact above
  have second : AddBottom.Represents
      (addConstraint (.le (.const x) symbUb) (addConstraint (.ge (.const x) symbLb) state))
      values := by
    apply represents_addConstraint ((LinearExpression.wellFormed_const x).plus _)
      (fun impossible => by cases impossible) first
    rw [LinearConstraint.holds_le, LinearExpression.eval_const]
    exact below
  rcases second with ⟨s, result, _⟩
  rw [maybeBetween, result]
  rfl

theorem isDifference_subtract_const (difference : SplitDbm.IsDifference symbLb) :
    SplitDbm.IsDifference (symbLb.subtract (.const x)) := by
  have negated : (LinearExpression.const x : LinearExpression V).negate = .const (-x) := by
    simp [LinearExpression.negate, LinearExpression.multiply, LinearExpression.const]
  rw [LinearExpression.subtract, negated]
  exact difference.plus_const (-x)

theorem const_subtract_eq : (LinearExpression.const x).subtract symbUb =
    ⟨x + symbUb.constantTerm * -1,
      (symbUb.variableTerms.map (fun term => (term.1, term.2 * -1))).foldl
      (fun terms term => LinearExpression.addTerm term.1 term.2 terms) []⟩ := rfl

theorem isDifference_const_subtract (difference : SplitDbm.IsDifference symbUb) :
    SplitDbm.IsDifference ((LinearExpression.const x).subtract symbUb) := by
  rw [const_subtract_eq]
  cases difference with
  | constant c => exact .constant _
  | upper y c => exact .lower y _
  | lower y c => exact .upper y _
  | difference y z c =>
      by_cases same : y = z
      · simp [same, LinearExpression.addTerm, SplitDbm.IsDifference.constant]
      · simp [same, LinearExpression.addTerm, SplitDbm.IsDifference.reversed]
  | reversed y z c =>
      by_cases same : y = z
      · simp [same, LinearExpression.addTerm, SplitDbm.IsDifference.constant]
      · simp [Ne.symm same, LinearExpression.addTerm, SplitDbm.IsDifference.difference]

/-- Over bounds and differences an end that cannot be ruled out is between the
bounds for some assignment. -/
theorem between_of_maybeBetween (lower : symbLb.WellFormed)
    (lowerDifference : SplitDbm.IsDifference symbLb)
    (upperDifference : SplitDbm.IsDifference symbUb) (may : state.maybeBetween symbLb symbUb x) :
    exists values, state.Represents values ∧ symbLb.eval values ≤ x ∧ x ≤ symbUb.eval values := by
  rw [maybeBetween, Bool.not_eq_true'] at may
  rcases exists_represents may with ⟨values, represents⟩
  rw [represents_addConstraint_difference ((LinearExpression.wellFormed_const x).plus _)
    (fun impossible => by cases impossible)
      (isDifference_const_subtract upperDifference),
    represents_addConstraint_difference (lower.plus _) (fun impossible => by cases impossible)
      (isDifference_subtract_const lowerDifference), LinearConstraint.holds_ge,
      LinearConstraint.holds_le,
    LinearExpression.eval_const] at represents
  exact ⟨values, represents.1.1, represents.1.2, represents.2⟩

end AddBottom

/-! ## The search over all offsets -/

namespace Cell

def isNull (cell : Cell) : Bool := decide (cell.offset = 0 ∧ cell.size = 0)

/-- `operator<`. -/
def less (cell other : Cell) : Bool :=
  if cell.offset = other.offset then decide (cell.size < other.size)
    else decide (cell.offset < other.offset)

/-- `symbolic_overlap`, over the answers of `maybe_between` for numbers. -/
def symbolicOverlap (cell : Cell) (may : Int -> Bool) : Bool :=
  cell.toInterval.lb.number.any may || cell.toInterval.ub.number.any may

/-- The largest of the cells under one offset. -/
def largest (cells : List Cell) : Cell :=
  cells.foldl (fun largest cell => if largest.isNull then cell else if largest.less cell then cell
    else largest) ⟨0, 0⟩

end Cell

namespace OffsetMap

def getOverlapCellsSymbolicOffset (map : OffsetMap) (may : Int -> Bool) : List Cell :=
  map.keys.elements.flatMap (fun offset =>
    let largest := Cell.largest (map.cellsAt offset)
    if !largest.isNull && largest.symbolicOverlap may then map.cellsAt offset else [])

/-- The cells that `kill_and_find_var` takes for affected by a write of `size` bytes
at `index`, with the map after the search.  A known offset or size that does not
narrow makes the source throw. -/
def affectedCells (map : OffsetMap) (state : AddBottom V) (index size : LinearExpression V) :
    Option (List Cell × OffsetMap) :=
  match (state.evalInterval index).singleton, (state.evalInterval size).singleton with
  | some offset, some bytes =>
      if IntType.uint32.Fits bytes ∧
        IntType.uint64.Fits offset then map.getOverlapCells ⟨offset.toNat, bytes.toNat⟩
      else none
  | _, _ => some (map.getOverlapCellsSymbolicOffset (state.maybeBetween index (index.plus size)),
    map)

variable {map : OffsetMap} {may : Int -> Bool} {cell : Cell} {offset : Nat}

/-- Among cells under one offset the fold keeps the greatest size. -/
theorem largest_foldl {cells : List Cell} (atOffset : ∀ cell ∈ cells, cell.offset = offset)
    {start last : Cell} (starts : start.offset = offset ∨ start = ⟨0, 0⟩)
    (result : cells.foldl
      (fun largest cell => if largest.isNull then cell else if largest.less cell then cell
      else largest) start = last) :
    (last = start ∨ last ∈ cells) ∧ start.size ≤ last.size ∧
      ∀ cell ∈ cells, cell.size ≤ last.size := by
  induction cells generalizing start with
  | nil =>
      rw [List.foldl_nil] at result
      subst result
      exact ⟨Or.inl rfl, le_refl _, fun _ impossible => nomatch impossible⟩
  | cons first rest inductionHypothesis =>
      rw [List.foldl_cons] at result
      have firstOffset : first.offset = offset := atOffset first List.mem_cons_self
      have restOffset : ∀ cell ∈ rest, cell.offset = offset := fun cell member =>
        atOffset cell (List.mem_cons_of_mem _ member)
      split at result
      · rename_i null
        rcases inductionHypothesis restOffset (Or.inl firstOffset) result with
          ⟨kept, grown, greatest⟩
        rw [Cell.isNull, decide_eq_true_eq] at null
        refine ⟨Or.inr ?_, by omega, List.forall_mem_cons.mpr ⟨grown, greatest⟩⟩
        rcases kept with rfl | member
        · exact List.mem_cons_self
        · exact List.mem_cons_of_mem _ member
      · rename_i notNull
        have startOffset : start.offset = offset := by
          rcases starts with same | isNull
          · exact same
          · exact absurd (by rw [isNull]; decide) notNull
        have lessIff : start.less first = true ↔ start.size < first.size := by
          rw [Cell.less, if_pos (startOffset.trans firstOffset.symm), decide_eq_true_eq]
        split at result
        · rename_i less
          rcases inductionHypothesis restOffset (Or.inl firstOffset) result with
            ⟨kept, grown, greatest⟩
          rw [lessIff] at less
          refine ⟨Or.inr ?_, by omega, List.forall_mem_cons.mpr ⟨grown, greatest⟩⟩
          rcases kept with rfl | member
          · exact List.mem_cons_self
          · exact List.mem_cons_of_mem _ member
        · rename_i notLess
          rcases inductionHypothesis restOffset starts result with ⟨kept, grown, greatest⟩
          rw [lessIff] at notLess
          refine ⟨?_, grown, List.forall_mem_cons.mpr ⟨by omega, greatest⟩⟩
          rcases kept with rfl | member
          · exact Or.inl rfl
          · exact Or.inr (List.mem_cons_of_mem _ member)

/-- The cell of greatest size under the offset of a given cell. -/
structure IsLargestAt (map : OffsetMap) (offset : Nat) (largest : Cell) : Prop where
  contained : map.Contains largest
  atOffset : largest.offset = offset
  greatest : forall other, map.Contains other -> other.offset = offset -> other.size ≤ largest.size

theorem IsLargestAt.unique {first second : Cell} (isFirst : map.IsLargestAt offset first)
    (isSecond : map.IsLargestAt offset second) : first = second := by
  apply Cell.ext
  · exact isFirst.atOffset.trans isSecond.atOffset.symm
  · exact le_antisymm (isSecond.greatest first isFirst.contained isFirst.atOffset)
      (isFirst.greatest second isSecond.contained isSecond.atOffset)

/-- At the offset of a cell with a byte the search looks at the largest one. -/
theorem isLargestAt_largest (contained : map.Contains cell) (positive : 1 ≤ cell.size) :
    map.IsLargestAt cell.offset (Cell.largest (map.cellsAt cell.offset)) := by
  have atOffset : ∀ other ∈ map.cellsAt cell.offset, other.offset = cell.offset :=
    fun other member =>
    (mem_cellsAt.mp member).2
  rcases largest_foldl atOffset (Or.inr rfl) rfl with ⟨kept, _, greatest⟩
  have grown := greatest cell (mem_cellsAt.mpr ⟨contained, rfl⟩)
  have member : Cell.largest (map.cellsAt cell.offset) ∈ map.cellsAt cell.offset := by
    rcases kept with null | member
    · rw [null] at grown
      exact absurd (positive.trans grown) (by decide)
    · exact member
  refine ⟨(mem_cellsAt.mp member).1, atOffset _ member, ?_⟩
  intro other otherContained same
  exact greatest other (mem_cellsAt.mpr ⟨otherContained, same⟩)

/-- The two ends of a cell with a byte. -/
def IsEnd (cell : Cell) (byte : Int) :
    Prop := byte = cell.offset ∨ byte = cell.offset + cell.size - 1

theorem symbolicOverlap_iff (positive : 1 ≤ cell.size) :
    cell.symbolicOverlap may ↔ exists byte, IsEnd cell byte ∧ may byte := by
  have ordered : (cell.offset : Int) ≤ cell.offset + cell.size - 1 := by omega
  rw [Cell.symbolicOverlap, Cell.toInterval, Interval.range_eq ordered, Bool.or_eq_true]
  constructor
  · intro either
    rcases either with first | last
    · exact ⟨_, Or.inl rfl, first⟩
    · exact ⟨_, Or.inr rfl, last⟩
  · intro either
    rcases either with ⟨byte, rfl | rfl, passes⟩
    · exact Or.inl passes
    · exact Or.inr passes

/-- A cell with a byte is returned exactly if an end of the largest cell at its
offset passes the test. -/
theorem mem_getOverlapCellsSymbolicOffset (contained : map.Contains cell)
    (positive : 1 ≤ cell.size) :
    cell ∈ map.getOverlapCellsSymbolicOffset may ↔
      exists largest, map.IsLargestAt cell.offset largest ∧ exists byte, IsEnd largest byte ∧
      may byte := by
  have isLargest := isLargestAt_largest contained positive
  have large : 1 ≤ (Cell.largest (map.cellsAt cell.offset)).size :=
    positive.trans (isLargest.greatest cell contained rfl)
  have notNull : (Cell.largest (map.cellsAt cell.offset)).isNull = false := by
    rw [Cell.isNull, decide_eq_false_iff_not]
    omega
  rw [getOverlapCellsSymbolicOffset, List.mem_flatMap]
  constructor
  · intro found
    rcases found with ⟨offset, _, inCells⟩
    dsimp only at inCells
    split at inCells
    · rename_i passes
      obtain rfl : cell.offset = offset := (mem_cellsAt.mp inCells).2
      rw [Bool.and_eq_true] at passes
      exact ⟨_, isLargest, (symbolicOverlap_iff large).mp passes.2⟩
    · cases inCells
  · intro passes
    rcases passes with ⟨largest, isAlso, ends⟩
    obtain rfl := isAlso.unique isLargest
    refine ⟨cell.offset, contained.mem_keys, ?_⟩
    dsimp only
    rw [if_pos]
    · exact mem_cellsAt.mpr ⟨contained, rfl⟩
    · rw [notNull, (symbolicOverlap_iff large).mpr ends]
      rfl

/-! ## Affected cells -/

section Writes

variable (map : OffsetMap) (state : AddBottom V) (index size : LinearExpression V)

/-- Some represented assignment lets the write reach a byte of the cell. -/
def MayBeWritten (cell : Cell) : Prop :=
  exists values, state.Represents values ∧
    exists byte, cell.Covers byte ∧ index.eval values ≤ byte ∧
    byte < index.eval values + size.eval values

/-- Some represented assignment lets an end of the largest cell at the offset of the
cell lie between the start of the write and the byte behind it. -/
def EndMayBeWritten (cell : Cell) : Prop :=
  exists largest, IsLargestAt map cell.offset largest ∧
    exists values, state.Represents values ∧
      exists byte, IsEnd largest byte ∧ index.eval values ≤ byte ∧
      byte ≤ index.eval values + size.eval values

/-- Every cell that may be written is among those taken for affected. -/
def FindsWritten : Prop :=
  exists out after, affectedCells map state index size = some (out, after) ∧
    forall cell, map.Contains cell -> MayBeWritten state index size cell -> cell ∈ out

end Writes

theorem MayBeWritten.positive {state : AddBottom V} {index size : LinearExpression V}
    (written : MayBeWritten state index size cell) : 1 ≤ cell.size := by
  rcases written with ⟨_, _, byte, covers, _⟩
  unfold Cell.Covers at covers
  omega

/-- A write at an unknown place finds all cells that it may reach if for each of
them an end of the largest cell at its offset may be reached, and over bounds and
differences only then. -/
theorem findsWritten_symbolic {state : AddBottom V} {index size : LinearExpression V}
    (indexFormed : index.WellFormed)
    (unknown : ¬ ((state.evalInterval index).singleton.isSome ∧
      (state.evalInterval size).singleton.isSome)) :
    ((forall cell, map.Contains cell -> MayBeWritten state index size cell ->
        EndMayBeWritten map state index size cell) -> FindsWritten map state index size) ∧
      (SplitDbm.IsDifference index -> SplitDbm.IsDifference (index.plus size) ->
        FindsWritten map state index size ->
          forall cell, map.Contains cell -> MayBeWritten state index size cell ->
            EndMayBeWritten map state index size cell) := by
  have searched : affectedCells map state index size =
      some (map.getOverlapCellsSymbolicOffset (state.maybeBetween index (index.plus size)),
        map) := by
    unfold affectedCells
    split
    · rename_i offset bytes isOffset isBytes
      exact absurd ⟨by rw [isOffset]; rfl, by rw [isBytes]; rfl⟩ unknown
    · rfl
  constructor
  · intro ends
    refine ⟨_, _, searched, ?_⟩
    intro cell contained written
    rw [mem_getOverlapCellsSymbolicOffset contained written.positive]
    rcases ends cell contained written with
      ⟨largest, isLargest, values, represents, byte, isEnd, above, below⟩
    refine ⟨largest, isLargest, byte, isEnd, ?_⟩
    apply AddBottom.maybeBetween_of_between indexFormed represents above
    rw [LinearExpression.eval_plus]
    exact below
  · intro indexDifference upperDifference finds cell contained written
    rcases finds with ⟨out, after, result, found⟩
    rw [searched] at result
    cases result
    have member := found cell contained written
    rw [mem_getOverlapCellsSymbolicOffset contained written.positive] at member
    rcases member with ⟨largest, isLargest, byte, isEnd, may⟩
    rcases AddBottom.between_of_maybeBetween indexFormed indexDifference upperDifference may with
      ⟨values, represents, above, below⟩
    rw [LinearExpression.eval_plus] at below
    exact ⟨largest, isLargest, values, represents, byte, isEnd, above, below⟩

/-- One cell of eight bytes at the bottom of the stack. -/
def oneCell : OffsetMap := mkCell .empty ⟨0, 8⟩

/-- A state in which the first variable is between two numbers. -/
def firstBetween (lower upper : Int) : AddBottom Nat :=
  AddBottom.set 0 (.range lower upper) AddBottom.top

theorem contains_oneCell : oneCell.Contains cell ↔ cell = ⟨0, 8⟩ := by
  rw [oneCell, contains_mkCell, or_iff_left_iff_imp]
  exact fun impossible => absurd impossible KeyedSets.not_has_empty

theorem represents_firstBetween {lower upper n : Int} (member : n ∈ Interval.range lower upper) :
    (firstBetween lower upper).Represents (fun _ => n) :=
  AddBottom.represents_set (AddBottom.represents_top _) (fun _ _ => rfl) member

/-- Eight bytes at offset zero or one: the start of the cell may be written. -/
theorem findsWritten_start : FindsWritten oneCell (firstBetween 0 1) (.var 0) (.const 8) := by
  refine (findsWritten_symbolic (LinearExpression.wellFormed_var 0) (by decide)).1 ?_
  intro cell contained _
  obtain rfl := contains_oneCell.mp contained
  refine ⟨⟨0, 8⟩, ⟨contained, rfl, ?_⟩, _,
    represents_firstBetween (Interval.mem_range.mpr ⟨le_refl 0, by decide⟩), 0,
    Or.inl rfl, by simp, by simp⟩
  intro other otherContained _
  rw [contains_oneCell.mp otherContained]

/-- One byte at offset three or four is inside the cell and not found. -/
theorem not_findsWritten_inside :
    MayBeWritten (firstBetween 3 4) (.var 0) (.const 1) ⟨0, 8⟩ ∧
      ¬ FindsWritten oneCell (firstBetween 3 4) (.var 0) (.const 1) := by
  have written : MayBeWritten (firstBetween 3 4) (.var 0) (.const 1) ⟨0, 8⟩ := by
    refine ⟨_, represents_firstBetween (Interval.mem_range.mpr ⟨le_refl 3, by decide⟩), 3,
      ⟨by decide, by decide⟩, ?_, ?_⟩
    · simp
    · simp
  refine ⟨written, fun finds => ?_⟩
  rcases finds with ⟨out, after, result, found⟩
  have nothing : (affectedCells oneCell (firstBetween 3 4) (.var 0) (.const 1)).map Prod.fst =
      some [] := by
    decide
  rw [result] at nothing
  cases nothing
  exact absurd (found ⟨0, 8⟩ (contains_oneCell.mpr rfl) written) List.not_mem_nil

end OffsetMap

end Crab
end Prevail
