import Prevail.Crab.CellReads

namespace Prevail
namespace Crab
namespace ArrayDomain

/-!
# Accesses to the stack at constant offsets

Which loads, stores and havocs of `array_domain_t` throw, for a constant offset of 64 bits
with a sign and one of the widths of memory accesses.

A store or a havoc narrows the offset to an unsigned word, which a negative number does
not fit in, and every search for cells narrows the offset to `int`.  Splitting a cell also
narrows its last index to `int` and adds one to it.  A load of a type reads the bits at the
offset first, and throws if the offset is outside of the stack while the wrapped distance
to its end is positive.  No access changes a bit that is outside of the stack or of its
range.
-/

variable [LinearOrder Variable]

attribute [local instance(2000)] LinearOrder.toDecidableEq

/-! ## What an access leaves as it is -/

/-- The offsets of all cells narrow to `int`. -/
def NarrowCells (arrayMap : DataKind -> OffsetMap) : Prop :=
  forall kind cell, (arrayMap kind).Contains cell -> IntType.int32.Fits cell.offset

/-- The bits are unchanged, and new cells have offsets that narrow. -/
structure Keeps (before after : ArrayDomain) : Prop where
  numBytes : after.numBytes = before.numBytes
  narrow : NarrowCells before.arrayMap -> NarrowCells after.arrayMap

variable {array after : ArrayDomain} {kind : DataKind} {map searched : OffsetMap}
  {cell query : Cell} {cells : List Cell}

omit [LinearOrder Variable] in
theorem Keeps.refl (array : ArrayDomain) : Keeps array array := ⟨rfl, id⟩

omit [LinearOrder Variable] in
theorem Keeps.trans {last : ArrayDomain} (first : Keeps array after) (second : Keeps after last) :
    Keeps array last :=
  ⟨second.numBytes.trans first.numBytes, fun narrow => second.narrow (first.narrow narrow)⟩

omit [LinearOrder Variable] in
theorem NarrowCells.setMap {arrayMap : DataKind -> OffsetMap} (narrow : NarrowCells arrayMap)
    (cells : forall cell, map.Contains cell -> (arrayMap kind).Contains cell ∨
      IntType.int32.Fits cell.offset) :
    NarrowCells (Function.update arrayMap kind map) := by
  intro other cell contained
  by_cases same : other = kind
  · subst same
    rw [Function.update_self] at contained
    exact (cells cell contained).elim (narrow other cell) id
  · rw [Function.update_of_ne same] at contained
    exact narrow other cell contained

omit [LinearOrder Variable] in
theorem keeps_setMap
    (cells : forall cell, map.Contains cell -> (array.arrayMap kind).Contains cell ∨
      IntType.int32.Fits cell.offset) :
    Keeps array (array.setMap kind map) := ⟨rfl, fun narrow => narrow.setMap cells⟩

omit [LinearOrder Variable] in
theorem getOverlapCells_eq_some (run : map.getOverlapCells query = some (cells, searched)) :
    IntType.int32.Fits query.offset ∧ cells = (map.overlapSearch query).1 ∧
      forall cell, searched.Contains cell ↔ map.Contains cell := by
  rw [OffsetMap.getOverlapCells] at run
  split at run
  · rename_i fits
    have same := Option.some.inj run
    have isSearched : searched = (map.overlapSearch query).2 := (congrArg Prod.snd same).symm
    rw [isSearched]
    exact ⟨fits, (congrArg Prod.fst same).symm, fun cell => OffsetMap.contains_overlapSearch⟩
  · cases run

omit [LinearOrder Variable] in
theorem getOverlapCells_of_fits (fits : IntType.int32.Fits query.offset) :
    map.getOverlapCells query = some (map.overlapSearch query) := if_pos fits

omit [LinearOrder Variable] in
theorem contains_mkCell_of_fits (fits : IntType.int32.Fits query.offset)
    (old : forall cell, searched.Contains cell -> map.Contains cell)
    (contained : (searched.mkCell query).Contains cell) :
    map.Contains cell ∨ IntType.int32.Fits cell.offset := by
  rcases OffsetMap.contains_mkCell.mp contained with rfl | contained
  · exact Or.inr fits
  · exact Or.inl (old cell contained)

/-! ## Loads of cells -/

section Loads

variable {bigEndian : Bool} {inv : AddBottom Variable} {values : Variable -> Int}
  {o : BitVec 64} {size : Nat} {result : Option Expression}

omit [LinearOrder Variable] in
theorem getCell_isSome : (map.getCell cell).1.isSome ↔ map.Contains cell := by
  rw [OffsetMap.getCell]
  split <;> simp_all

/-- The ways in which a load at a known place returns. -/
theorem loadCell_cases (run : loadCell bigEndian array inv kind o size = some (result, after)) :
    Keeps array after ∧
      (((array.arrayMap kind).Contains ⟨o.toNat, size⟩ ∧
      result = some (.var (Cell.getScalar ⟨o.toNat, size⟩ kind))) ∨
        (exists n, readValue bigEndian inv kind o size = some (some n) ∧ result = some (.const n)) ∨
        (IntType.int32.Fits (Cell.offset ⟨o.toNat, size⟩) ∧
          (result = some (.var (Cell.getScalar ⟨o.toNat, size⟩ kind)) ∨ result = none))) := by
  have touched : Keeps array
      (array.setMap kind ((array.arrayMap kind).getCell ⟨o.toNat, size⟩).2) :=
    keeps_setMap (fun cell contained => Or.inl contained)
  rw [loadCell] at run
  dsimp only at run
  split at run
  · rename_i found
    cases run
    exact ⟨touched, Or.inl ⟨getCell_isSome.mp found, rfl⟩⟩
  · rcases Option.bind_eq_some_iff.mp run with ⟨read, readRun, run⟩
    cases read with
    | some n =>
        cases run
        exact ⟨touched, Or.inr (Or.inl ⟨n, readRun, rfl⟩)⟩
    | none =>
        rcases Option.bind_eq_some_iff.mp run with ⟨⟨cells, searched⟩, searchRun, run⟩
        rcases getOverlapCells_eq_some searchRun with ⟨fits, _, old⟩
        dsimp only at run
        split at run
        · cases run
          exact ⟨keeps_setMap (fun cell =>
            contains_mkCell_of_fits fits (fun cell => (old cell).mp)),
            Or.inr (Or.inr ⟨fits, Or.inl rfl⟩)⟩
        · cases run
          exact ⟨keeps_setMap (fun cell contained => Or.inl ((old cell).mp contained)),
            Or.inr (Or.inr ⟨fits, Or.inr rfl⟩)⟩

/-- A load at a known place returns just if there is a cell, or if the bytes of a value
can be read, and are all known or else the place can be searched for. -/
theorem isSome_loadCell_iff : (loadCell bigEndian array inv kind o size).isSome ↔
    (array.arrayMap kind).Contains ⟨o.toNat, size⟩ ∨ ((IsValue kind -> ReadableBytes inv o size) ∧
      (IsAccessWidth size ∧ IsValue kind ∧ KnownBytes inv o size ∨
        IntType.int32.Fits (Cell.offset ⟨o.toNat, size⟩))) := by
  rw [<- @getCell_isSome, loadCell]
  dsimp only
  split
  · rename_i found
    simp [found]
  · rename_i absent
    rw [<- @isSome_readValue _ inv bigEndian]
    cases read : readValue bigEndian inv kind o size with
    | none => simp [absent]
    | some number =>
        rw [<- readValue_found read]
        cases number with
        | some n => simp
        | none =>
            by_cases fits : IntType.int32.Fits (Cell.offset ⟨o.toNat, size⟩)
            · change (Option.bind (OffsetMap.getOverlapCells _ _) _).isSome ↔ _
              rw [getOverlapCells_of_fits fits]
              change Option.isSome (if _ then _ else _) ↔ _
              split <;> simp [fits]
            · change (Option.bind (OffsetMap.getOverlapCells _ _) _).isSome ↔ _
              rw [OffsetMap.getOverlapCells, if_neg fits]
              simp [absent, fits]

theorem loadCell_gives (run : loadCell bigEndian array inv kind o size = some (result, after)) :
    ∀ e ∈ result, e = .var (Cell.getScalar ⟨o.toNat, size⟩ kind) ∨
      exists n, e = .const n ∧ IntType.uint64.FitsCast n := by
  intro e isResult
  rcases (loadCell_cases run).2 with ⟨_, rfl⟩ | ⟨n, read, rfl⟩ | ⟨_, rfl | rfl⟩
  · exact Or.inl (Option.some.inj isResult).symm
  · exact Or.inr ⟨n, (Option.some.inj isResult).symm, fitsCast_readValue read⟩
  · exact Or.inl (Option.some.inj isResult).symm
  · cases isResult

theorem load_keeps {i : LinearExpression Variable} {width : Nat}
    (run : load bigEndian array inv kind i width = some (result, after)) : Keeps array after := by
  rw [load] at run
  dsimp only at run
  split at run
  · split at run
    · rw [loadAt] at run
      dsimp only at run
      split at run
      · rcases Option.bind_eq_some_iff.mp run with ⟨⟨onlyNum, onlyNonNum⟩, _, run⟩
        dsimp only at run
        split at run
        · cases run
          exact Keeps.refl array
        · split at run
          · cases run
            exact Keeps.refl array
          · exact (loadCell_cases run).1
      · exact (loadCell_cases run).1
    · cases run
  · split at run
    · split at run
      · split at run
        · rcases Option.bind_eq_some_iff.mp run with ⟨_, _, run⟩
          cases run
          exact Keeps.refl array
        · cases run
          exact Keeps.refl array
      · cases run
        exact Keeps.refl array
    · cases run
      exact Keeps.refl array

end Loads

/-! ## Splits -/

section Splits

variable {bigEndian : Bool} {values others : Variable -> Int} {start len : Nat}
  {state next : AddBottom Variable × ArrayDomain}

/-- A run succeeds, with all that splits beside an access leave as it is. -/
def Carries (query : Cell) (state : AddBottom Variable × ArrayDomain)
    (outcome : Option (AddBottom Variable × ArrayDomain)) : Prop :=
  exists next, outcome = some next ∧ Follows query state.1 next.1 ∧
    next.2.numBytes = state.2.numBytes

theorem Carries.here : Carries query state (some state) :=
  ⟨state, rfl, Follows.refl query state.1, rfl⟩

theorem Carries.bind {outcome : Option (AddBottom Variable × ArrayDomain)}
    {f : AddBottom Variable × ArrayDomain -> Option (AddBottom Variable × ArrayDomain)}
    (represents : state.1.Represents values) (carries : Carries query state outcome)
    (later : forall next others, next.1.Represents others -> Follows query state.1 next.1 ->
      next.2.numBytes = state.2.numBytes -> Carries query next (f next)) :
    Carries query state (outcome.bind f) := by
  rcases carries with ⟨next, rfl, follows, bits⟩
  rcases follows.image values represents with ⟨others, after, _⟩
  rcases later next others after follows bits with ⟨last, run, followsLater, bitsLater⟩
  exact ⟨last, run, follows.trans followsLater, bitsLater.trans bits⟩

/-- The range of a cell narrows to `int`, and so does the index behind it. -/
structure EndFits (cell : Cell) : Prop where
  start : IntType.int32.Fits cell.offset
  last : IntType.int32.Fits (cell.offset + cell.size - 1 : Int)
  behind : IntType.int32.Fits (cell.offset + cell.size - 1 + 1 : Int)

/-- If a cell is split, the bytes of it beside the access can be read. -/
def SplitsWords (inv : AddBottom Variable) (bits : BitsetDomain) (kind : DataKind)
    (query cell : Cell) : Prop :=
  bits.allNum cell.offset (cell.offset + cell.size) -> 8 ≤ cell.size ->
    (exists n, Fixed inv (cell.getScalar kind) n) ->
      AllowsWords inv cell.offset (query.offset - cell.offset) ∧
        AllowsWords inv (query.offset + query.size)
        (cell.offset + cell.size - (query.offset + query.size))

/-- The cells that are visited later can still be split. -/
theorem SplitsWords.follows {inv next : AddBottom Variable} {bits : BitsetDomain}
    (splits : SplitsWords inv bits kind query cell) (follows : Follows query inv next)
    (overlap : ReachesInto query cell) : SplitsWords next bits kind query cell := by
  intro numeric large fixed
  rcases fixed with ⟨n, fixed⟩
  have before := splits numeric large ⟨n, follows.fixed (not_beside_of_overlap overlap) fixed⟩
  exact ⟨before.1.follows follows, before.2.follows follows⟩

theorem splitCell_keeps (fits : IntType.int32.Fits start)
    (run : splitCell bigEndian kind start len state = some next) :
    Keeps state.2 next.2 := by
  rw [splitCell] at run
  rcases Option.bind_eq_some_iff.mp run with ⟨⟨svalue, signed⟩, signedRun, run⟩
  rcases Option.bind_eq_some_iff.mp run with ⟨⟨uvalue, unsigned⟩, unsignedRun, run⟩
  cases run
  refine ((load_keeps signedRun).trans (load_keeps unsignedRun)).trans (keeps_setMap ?_)
  intro cell contained
  exact @contains_mkCell_of_fits _ _ cell ⟨start, len⟩ fits (fun cell => id) contained

omit [LinearOrder Variable] in
/-- The offset of a place that narrows, as a word. -/
theorem toNat_ofInt_of_fits (fits : IntType.int32.Fits start) :
    (BitVec.ofInt 64 (start : Int)).toNat = start := by
  have upper : (start : Int) ≤ 2 ^ 31 - 1 := fits.2
  rw [BitVec.toNat_ofInt]
  omega

theorem load_of_fits (represents : state.1.Represents values) (fits : IntType.int32.Fits start)
    (notTypes : kind ≠ .types) (array : ArrayDomain) :
    load bigEndian array state.1 kind (.const start) len =
      loadCell bigEndian array state.1 kind (BitVec.ofInt 64 start) len := by
  have word : IntType.int64.Fits start := by
    have upper : (start : Int) ≤ 2 ^ 31 - 1 := fits.2
    change -2 ^ 63 ≤ (start : Int) ∧ (start : Int) ≤ 2 ^ 63 - 1
    omega
  rw [load]
  dsimp only
  rw [singleton_const represents]
  dsimp only
  rw [if_pos word, loadAt, if_neg notTypes]

theorem load_eq_some_of_fits (represents : state.1.Represents values)
    (fits : IntType.int32.Fits start)
    (allows : AllowsWords state.1 start len) (notTypes : kind ≠ .types) (array : ArrayDomain) :
    exists result after, load bigEndian array state.1 kind (.const start) len = some
      (result, after) ∧ after.numBytes = array.numBytes ∧
      ∀ e ∈ result, e = .var (Cell.getScalar ⟨start, len⟩ kind) ∨
        exists n, e = .const n ∧ IntType.uint64.FitsCast n := by
  have place := toNat_ofInt_of_fits fits
  have returns : (loadCell bigEndian array state.1 kind (BitVec.ofInt 64 start) len).isSome := by
    refine isSome_loadCell_iff.mpr (Or.inr ⟨fun _ => ?_, Or.inr ?_⟩)
    · rw [BitVec.ofInt_natCast]
      exact allows.readable
    · rw [place]
      exact fits
  rcases Option.isSome_iff_exists.mp returns with ⟨⟨result, after⟩, run⟩
  have gives := loadCell_gives run
  rw [place] at gives
  exact ⟨result, after, (load_of_fits represents fits notTypes array).trans run,
    (loadCell_cases run).1.numBytes, gives⟩

/-- A part of a cell that narrows can be split off beside the access. -/
theorem splitCell_carries (represents : state.1.Represents values) (fits : IntType.int32.Fits start)
    (allows : AllowsWords state.1 start len)
    (apart : start + len ≤ query.offset ∨ query.offset + query.size ≤ start) :
    Carries query state (splitCell bigEndian kind start len state) := by
  rcases @load_eq_some_of_fits _ .svalues bigEndian _ _ _ _ represents fits allows
    (by decide) state.2 with
    ⟨svalue, signed, signedRun, signedBits, signedGives⟩
  rcases @load_eq_some_of_fits _ .uvalues bigEndian _ _ _ _ represents fits allows
    (by decide) signed with
    ⟨uvalue, unsigned, unsignedRun, unsignedBits, unsignedGives⟩
  have first : Follows query state.1
      (assignOptional (Cell.getScalar ⟨start, len⟩ .svalues) svalue state.1) := by
    apply follows_assignOptional represents (Beside.of .svalues ⟨start, len⟩ apart)
    intro e isResult
    rcases signedGives e isResult with isCell | ⟨n, isNumber, word⟩
    · exact Or.inl isCell
    · exact Or.inr ⟨n, isNumber, fun _ => word⟩
  rcases first.image values represents with ⟨others, between, _⟩
  have second : Follows query (assignOptional (Cell.getScalar ⟨start, len⟩ .svalues) svalue state.1)
      (assignOptional (Cell.getScalar ⟨start, len⟩ .uvalues) uvalue
        (assignOptional (Cell.getScalar ⟨start, len⟩ .svalues) svalue state.1)) := by
    apply follows_assignOptional between (Beside.of .uvalues ⟨start, len⟩ apart)
    intro e isResult
    rcases unsignedGives e isResult with isCell | ⟨n, isNumber, word⟩
    · exact Or.inl isCell
    · exact Or.inr ⟨n, isNumber, fun _ => word⟩
  refine ⟨(_, unsigned.setMap kind ((unsigned.arrayMap kind).mkCell ⟨start, len⟩)), ?_,
    first.trans second, unsignedBits.trans signedBits⟩
  rw [splitCell, signedRun]
  change Option.bind (load bigEndian signed state.1 .uvalues (.const start) len) _ = _
  rw [unsignedRun]
  rfl

omit [LinearOrder Variable] in
/-- The place behind the access is in a cell that reaches beyond it. -/
theorem EndFits.within (ends : EndFits cell)
    (beyond : query.offset + query.size < cell.offset + cell.size) :
    IntType.int32.Fits (query.offset + query.size : Nat) := by
  have upper : (cell.offset + cell.size - 1 : Int) ≤ 2 ^ 31 - 1 := ends.last.2
  change -2 ^ 31 ≤ ((query.offset + query.size : Nat) : Int) ∧
    ((query.offset + query.size : Nat) : Int) ≤ 2 ^ 31 - 1
  omega

theorem splitLeft_keeps (ends : EndFits cell)
    (run : splitLeft bigEndian kind query cell state = some next) :
    Keeps state.2 next.2 := by
  rw [splitLeft] at run
  split at run
  · exact splitCell_keeps ends.start run
  · cases run
    exact Keeps.refl _

theorem splitRight_keeps (ends : EndFits cell)
    (run : splitRight bigEndian kind query cell state = some next) :
    Keeps state.2 next.2 := by
  rw [splitRight] at run
  split at run
  · rename_i beyond
    exact splitCell_keeps (ends.within beyond) run
  · cases run
    exact Keeps.refl _

theorem splitLeft_carries (represents : state.1.Represents values) (ends : EndFits cell)
    (allows : AllowsWords state.1 cell.offset (query.offset - cell.offset)) :
    Carries query state (splitLeft bigEndian kind query cell state) := by
  rw [splitLeft]
  split
  · exact splitCell_carries represents ends.start allows (by omega)
  · exact Carries.here

theorem splitRight_carries (represents : state.1.Represents values) (ends : EndFits cell)
    (allows : AllowsWords state.1 (query.offset + query.size)
      (cell.offset + cell.size - (query.offset + query.size))) :
    Carries query state (splitRight bigEndian kind query cell state) := by
  rw [splitRight]
  split
  · rename_i beyond
    exact splitCell_carries represents (ends.within beyond) allows (Or.inr le_rfl)
  · exact Carries.here

theorem splitStep_cases (run : splitStep bigEndian kind query state cell = some next) :
    EndFits cell ∧ Keeps state.2 next.2 := by
  rw [splitStep] at run
  split at run
  · cases run
  · rename_i fits
    rw [not_or, not_or, not_not, not_not, not_not] at fits
    have ends : EndFits cell := ⟨fits.1, fits.2.1, fits.2.2⟩
    refine ⟨ends, ?_⟩
    split at run
    · cases run
      exact Keeps.refl _
    · split at run
      · cases run
        exact Keeps.refl _
      · rcases Option.bind_eq_some_iff.mp run with ⟨between, leftRun, rightRun⟩
        exact (splitLeft_keeps ends leftRun).trans (splitRight_keeps ends rightRun)

theorem splitStep_carries (represents : state.1.Represents values) (ends : EndFits cell)
    (splits : SplitsWords state.1 state.2.numBytes kind query cell) :
    Carries query state (splitStep bigEndian kind query state cell) := by
  rw [splitStep, if_neg (not_or.mpr ⟨not_not.mpr ends.start,
    not_or.mpr ⟨not_not.mpr ends.last, not_not.mpr ends.behind⟩⟩)]
  split
  · exact Carries.here
  · rename_i large
    rw [not_or, not_not, sub_add_cancel] at large
    split
    · exact Carries.here
    · rename_i known
      rcases Option.ne_none_iff_exists'.mp (mt Option.isNone_iff_eq_none.mpr known) with ⟨n, single⟩
      have allows := splits large.1 (by omega) ⟨n, fixed_of_singleton single⟩
      exact (splitLeft_carries represents ends allows.1).bind represents
        (fun next others represents follows _ =>
          splitRight_carries represents ends (allows.2.follows follows))

theorem foldlM_splitStep_cases (run : cells.foldlM (splitStep bigEndian kind query)
    state = some next) :
    (∀ cell ∈ cells, EndFits cell) ∧ Keeps state.2 next.2 := by
  induction cells generalizing state with
  | nil =>
      cases run
      exact ⟨fun cell member => (List.not_mem_nil member).elim, Keeps.refl _⟩
  | cons cell rest inductionHypothesis =>
      rw [List.foldlM_cons] at run
      rcases Option.bind_eq_some_iff.mp run with ⟨between, stepRun, run⟩
      have step := splitStep_cases stepRun
      have later := inductionHypothesis run
      exact ⟨List.forall_mem_cons.mpr ⟨step.1, later.1⟩, step.2.trans later.2⟩

theorem foldlM_splitStep_carries (represents : state.1.Represents values)
    (ends : ∀ cell ∈ cells, EndFits cell) (overlaps : ∀ cell ∈ cells, ReachesInto query cell)
    (splits : ∀ cell ∈ cells, SplitsWords state.1 state.2.numBytes kind query cell) :
    Carries query state (cells.foldlM (splitStep bigEndian kind query) state) := by
  induction cells generalizing state values with
  | nil => exact Carries.here
  | cons cell rest inductionHypothesis =>
      rw [List.forall_mem_cons] at ends overlaps splits
      rw [List.foldlM_cons]
      refine (splitStep_carries represents ends.1 splits.1).bind represents ?_
      intro next others represents follows bits
      apply inductionHypothesis represents ends.2 overlaps.2
      intro other member
      rw [bits]
      exact (splits.2 other member).follows follows (overlaps.2 other member)

end Splits

/-! ## Stores and havocs -/

section Stores

variable {bigEndian : Bool} {values : Variable -> Int} {index size : LinearExpression Variable}
  {k width : Int} {state next : AddBottom Variable × ArrayDomain} {place : Option Cell}

/-- The places that an access can be made at. -/
structure PlaceFits (k width : Int) : Prop where
  size : IntType.uint32.Fits width
  offset : IntType.uint64.Fits k
  narrow : IntType.int32.Fits k.toNat

theorem splitNumberVar_cases (run : splitNumberVar bigEndian kind index size state = some next)
    (offset : (state.1.evalInterval index).singleton = some k)
    (bytes : (state.1.evalInterval size).singleton = some width) :
    PlaceFits k width ∧ ∀ cell ∈ ((state.2.arrayMap kind).overlapSearch ⟨k.toNat, width.toNat⟩).1,
      EndFits cell := by
  rw [splitNumberVar, offset, bytes] at run
  dsimp only at run
  split at run
  · rename_i fits
    rcases Option.bind_eq_some_iff.mp run with ⟨⟨cells, searched⟩, searchRun, run⟩
    rcases getOverlapCells_eq_some searchRun with ⟨narrow, rfl, _⟩
    exact ⟨⟨fits.1, fits.2, narrow⟩, (foldlM_splitStep_cases run).1⟩
  · cases run

theorem splitNumberVar_keeps (run : splitNumberVar bigEndian kind index size state = some next) :
    Keeps state.2 next.2 := by
  rw [splitNumberVar] at run
  split at run
  · split at run
    · rcases Option.bind_eq_some_iff.mp run with ⟨⟨cells, searched⟩, searchRun, run⟩
      rcases getOverlapCells_eq_some searchRun with ⟨_, _, old⟩
      have first : Keeps state.2 (state.2.setMap kind searched) :=
        keeps_setMap (fun cell contained => Or.inl ((old cell).mp contained))
      exact first.trans (foldlM_splitStep_cases run).2
    · cases run
  · cases run
    exact Keeps.refl _

omit [LinearOrder Variable] in
theorem overlap_of_mem_overlapSearch (positive : 1 ≤ query.size)
    (member : cell ∈ (map.overlapSearch query).1) :
    map.Contains cell ∧ ReachesInto query cell := by
  rcases ((OffsetMap.mem_overlapSearch positive).mp member).1 with
    ⟨contained, _, byte, covers, inQuery⟩
  have before := covers.1.trans_lt inQuery.2
  have behind := inQuery.1.trans_lt covers.2
  exact ⟨contained, by omega, by omega⟩

theorem splitNumberVar_carries (represents : state.1.Represents values)
    (offset : (state.1.evalInterval index).singleton = some k)
    (bytes : (state.1.evalInterval size).singleton = some width)
    (positive : 1 ≤ width.toNat) (fits : PlaceFits k width)
    (ends : ∀ cell ∈ ((state.2.arrayMap kind).overlapSearch ⟨k.toNat, width.toNat⟩).1, EndFits cell)
    (splits : ∀ cell ∈ ((state.2.arrayMap kind).overlapSearch ⟨k.toNat, width.toNat⟩).1,
      SplitsWords state.1 state.2.numBytes kind ⟨k.toNat, width.toNat⟩ cell) :
    Carries ⟨k.toNat, width.toNat⟩ state (splitNumberVar bigEndian kind index size state) := by
  rw [splitNumberVar, offset, bytes]
  dsimp only
  rw [if_pos ⟨fits.size, fits.offset⟩,
    @getOverlapCells_of_fits _ ⟨k.toNat, width.toNat⟩ fits.narrow]
  exact foldlM_splitStep_carries represents ends
    (fun cell member => (@overlap_of_mem_overlapSearch _ cell ⟨k.toNat, width.toNat⟩ positive
      member).2) splits

theorem killAndFindVar_cases (run : killAndFindVar kind index size state = some (place, next)) :
    Keeps state.2 next.2 ∧ ∀ found ∈ place, exists k width,
      (state.1.evalInterval index).singleton = some k ∧
      (state.1.evalInterval size).singleton = some width ∧ found = ⟨k.toNat, width.toNat⟩ ∧
      PlaceFits k width := by
  rw [killAndFindVar] at run
  rcases Option.bind_eq_some_iff.mp run with ⟨⟨cells, searched⟩, affected, same⟩
  cases same
  rw [OffsetMap.affectedCells] at affected
  cases offset : (state.1.evalInterval index).singleton with
  | none =>
      rw [offset] at affected
      cases affected
      refine ⟨keeps_setMap ?_, fun found impossible => by cases impossible⟩
      exact fun cell contained => Or.inl (OffsetMap.contains_removeCells.mp contained).1
  | some k =>
      cases bytes : (state.1.evalInterval size).singleton with
      | none =>
          rw [offset, bytes] at affected
          cases affected
          refine ⟨keeps_setMap ?_, fun found impossible => by cases impossible⟩
          exact fun cell contained => Or.inl (OffsetMap.contains_removeCells.mp contained).1
      | some width =>
          rw [offset, bytes] at affected
          dsimp only at affected
          split at affected
          · rename_i fits
            rcases getOverlapCells_eq_some affected with ⟨narrow, _, old⟩
            refine ⟨keeps_setMap ?_, ?_⟩
            · exact fun cell contained =>
                Or.inl ((old cell).mp (OffsetMap.contains_removeCells.mp contained).1)
            · intro found isPlace
              cases isPlace
              exact ⟨k, width, rfl, rfl, rfl, ⟨fits.1, fits.2, narrow⟩⟩
          · cases affected

/-- The search of a store returns if the place is not known, or fits. -/
theorem killAndFindVar_eq_some
    (fits : forall k width, (state.1.evalInterval index).singleton = some k ->
      (state.1.evalInterval size).singleton = some width -> PlaceFits k width) :
    exists place next, killAndFindVar kind index size state = some (place, next) := by
  have affected : exists out, (state.2.arrayMap kind).affectedCells state.1 index size =
      some out := by
    rw [OffsetMap.affectedCells]
    split
    · rename_i k width offset bytes
      have place := fits k width offset bytes
      rw [if_pos ⟨place.size, place.offset⟩,
        @getOverlapCells_of_fits _ ⟨k.toNat, width.toNat⟩ place.narrow]
      exact ⟨_, rfl⟩
    · exact ⟨_, rfl⟩
  rcases affected with ⟨⟨cells, searched⟩, affected⟩
  rw [killAndFindVar]
  simp only [affected]
  exact ⟨_, _, rfl⟩

theorem splitAndFindVar_keeps (run : splitAndFindVar bigEndian kind index size state = some
    (place, next)) :
    Keeps state.2 next.2 ∧ ∀ found ∈ place, IntType.int32.Fits found.offset := by
  rw [splitAndFindVar] at run
  rcases Option.bind_eq_some_iff.mp run with ⟨between, splitRun, killRun⟩
  have split : Keeps state.2 between.2 := by
    split at splitRun
    · exact splitNumberVar_keeps splitRun
    · cases splitRun
      exact Keeps.refl _
  have killed := killAndFindVar_cases killRun
  refine ⟨split.trans killed.1, ?_⟩
  intro found isPlace
  rcases killed.2 found isPlace with ⟨k, width, _, _, rfl, fits⟩
  exact fits.narrow

/-- A store or a havoc throws in every state, unless the place fits and the cells that are
split end where `int` ends or before. -/
theorem splitAndFindVar_fits (run : splitAndFindVar bigEndian kind index size state = some
    (place, next))
    (offset : (state.1.evalInterval index).singleton = some k)
    (bytes : (state.1.evalInterval size).singleton = some width) :
    PlaceFits k width ∧ (IsValue kind ->
      ∀ cell ∈ ((state.2.arrayMap kind).overlapSearch ⟨k.toNat, width.toNat⟩).1, EndFits cell) := by
  rw [splitAndFindVar] at run
  rcases Option.bind_eq_some_iff.mp run with ⟨between, splitRun, killRun⟩
  split at splitRun
  · have splits := splitNumberVar_cases splitRun offset bytes
    exact ⟨splits.1, fun _ => splits.2⟩
  · rename_i notValue
    cases splitRun
    refine ⟨?_, fun isValue => absurd isValue notValue⟩
    rw [killAndFindVar, OffsetMap.affectedCells, offset, bytes] at killRun
    rcases Option.bind_eq_some_iff.mp killRun with ⟨⟨cells, searched⟩, affected, _⟩
    dsimp only at affected
    split at affected
    · rename_i fits
      exact ⟨fits.1, fits.2, (getOverlapCells_eq_some affected).1⟩
    · cases affected

/-- If the cells that are split can be read, nothing else throws. -/
theorem splitAndFindVar_eq_some (represents : state.1.Represents values)
    (offset : (state.1.evalInterval index).singleton = some k)
    (bytes : (state.1.evalInterval size).singleton = some width)
    (indexAvoids : AvoidsCells index) (sizeAvoids : AvoidsCells size) (positive : 1 ≤ width.toNat)
    (fits : PlaceFits k width)
    (splits : IsValue kind ->
      ∀ cell ∈ ((state.2.arrayMap kind).overlapSearch ⟨k.toNat, width.toNat⟩).1,
      EndFits cell ∧ SplitsWords state.1 state.2.numBytes kind ⟨k.toNat, width.toNat⟩ cell) :
    exists place next, splitAndFindVar bigEndian kind index size state = some (place, next) := by
  have split : Carries ⟨k.toNat, width.toNat⟩ state
      (if IsValue kind then splitNumberVar bigEndian kind index size state else some state) := by
    split
    · rename_i isValue
      exact splitNumberVar_carries represents offset bytes positive fits
        (fun cell member => (splits isValue cell member).1)
        (fun cell member => (splits isValue cell member).2)
    · exact Carries.here
  rcases split with ⟨between, splitRun, follows, _⟩
  rcases follows.image values represents with ⟨others, after, same⟩
  rw [splitAndFindVar, splitRun]
  apply killAndFindVar_eq_some
  intro k' width' offset' bytes'
  have sameOffset : k' = k := by
    rw [<- eq_eval_of_singleton after offset', indexAvoids.eval same]
    exact eq_eval_of_singleton represents offset
  have sameWidth : width' = width := by
    rw [<- eq_eval_of_singleton after bytes', sizeAvoids.eval same]
    exact eq_eval_of_singleton represents bytes
  rw [sameOffset, sameWidth]
  exact fits

end Stores

end ArrayDomain
end Crab
end Prevail
