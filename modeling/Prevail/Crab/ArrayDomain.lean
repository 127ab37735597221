import Prevail.Crab.StackBits
import Prevail.Crab.SymbolicOverlap
import Prevail.Crab.SplitDbm.AddBottomUpdate

namespace Prevail
namespace Crab

/-!
# The stack as an array

`array_domain_t`, with the table of offset maps that all its values share.  A kind of
data has cells of its own.  The offset of an access is a number that becomes an unsigned
word, and the places of cells are such words.

An access at a known place looks for a cell of exactly that place.  A load of a number
may also put it together from the bytes of other cells.  A store or a havoc forgets the
cells that overlap with the access, after the numbers in them have been split at its
ends.

Only offsets that narrow to `int` can be searched for.  The places of the cells are
therefore taken to narrow as well.
-/

/-- `linear_expression_t`, as its constructors make it. -/
abbrev Expression : Type := {e : LinearExpression Variable // e.WellFormed}

namespace Expression

/-- An expression that is a number. -/
def const (n : Int) : Expression := ⟨.const n, LinearExpression.wellFormed_const n⟩

/-- An expression that is a variable. -/
def var (x : Variable) : Expression := ⟨.var x, LinearExpression.wellFormed_var x⟩

end Expression

def Cell.getScalar (cell : Cell) (kind : DataKind) : Variable := .cellVar kind cell.offset cell.size

/-- `array_domain_t`, with the offset maps of all kinds. -/
structure ArrayDomain where
  numBytes : BitsetDomain
  arrayMap : DataKind -> OffsetMap

namespace ArrayDomain

/-- Change the offset map of one kind. -/
def setMap (array : ArrayDomain) (kind : DataKind) (map : OffsetMap) : ArrayDomain :=
  ⟨array.numBytes, Function.update array.arrayMap kind map⟩

/-- The kinds whose cells are split and read by bytes. -/
def IsValue (kind : DataKind) : Prop := kind = .svalues ∨ kind = .uvalues

instance (kind : DataKind) : Decidable (IsValue kind) := inferInstanceAs (Decidable (_ ∨ _))

variable [LinearOrder Variable]

attribute [local instance(2000)] LinearOrder.toDecidableEq

/-- `assign` with an optional expression. -/
def assignOptional (x : Variable) (e : Option Expression) (inv : AddBottom Variable) :
    AddBottom Variable :=
  match e with
  | some e => inv.assign x e.1 e.2
  | none => inv.forget x

/-! ## Bytes of numbers -/

/-- The cell of a width that a byte is looked for in. -/
def alignedCell (o : BitVec 64) (width : Nat) : Cell := ⟨o.toNat / width * width, width⟩

/-- The byte at a position of a number that is stored with a width. -/
def valueByte (bigEndian : Bool) (n : BitVec 64) (width position : Nat) : BitVec 8 :=
  n.extractLsb' (8 * if bigEndian then width - 1 - position else position) 8

/-- `get_value_byte`.  Outside, a number that cannot be cast to a word throws. -/
def getValueByte (bigEndian : Bool) (inv : AddBottom Variable) (o : BitVec 64) (width : Nat) :
    Option (Option (BitVec 8)) :=
  match (inv.evalInterval (.var ((alignedCell o width).getScalar .svalues))).singleton with
  | none => some none
  | some t =>
      (IntType.uint64.cast t).map (fun n =>
        some (valueByte bigEndian (BitVec.ofInt 64 n) width (o.toNat % width)))

/-- The search for a byte in the cells of several widths. -/
def findByte (bigEndian : Bool) (inv : AddBottom Variable) (o : BitVec 64) :
    List Nat -> Option (Option (BitVec 8))
  | [] => some none
  | width :: rest => do
      match <- getValueByte bigEndian inv o width with
      | some byte => return some byte
      | none => findByte bigEndian inv o rest

/-- The bytes from a place on, if all of them are found. -/
def readBytes (bigEndian : Bool) (inv : AddBottom Variable) (o : BitVec 64) :
    Nat -> Option (Option (List (BitVec 8)))
  | 0 => some (some [])
  | rest + 1 => do
      match <- findByte bigEndian inv o [8, 4, 2, 1] with
      | none => return none
      | some byte =>
          let later <- readBytes bigEndian inv (o + 1) rest
          return later.map (byte :: ·)

/-- The number with given bytes, the lowest one first. -/
def fromBytes : List (BitVec 8) -> Nat
  | [] => 0
  | byte :: rest => byte.toNat + 256 * fromBytes rest

/-- The number that a load puts together from its bytes. -/
def compose (bigEndian : Bool) (kind : DataKind) (bytes : List (BitVec 8)) : Option Int :=
  let n := fromBytes (if bigEndian then bytes.reverse else bytes)
  if bytes.length = 1 ∨ bytes.length = 2 ∨ bytes.length = 4 then some n
  else if bytes.length = 8 then some (if kind = .uvalues then n else (BitVec.ofNat 64 n).toInt)
  else none

/-- The number that a load of a value finds in the bytes of the cells. -/
def readValue (bigEndian : Bool) (inv : AddBottom Variable) (kind : DataKind) (o : BitVec 64)
    (size : Nat) :
    Option (Option Int) :=
  if IsValue kind then do
    let bytes <- readBytes bigEndian inv o size
    return bytes.bind (compose bigEndian kind)
  else some none

/-! ## Loads -/

/-- `load` at a known place, after the test of the type. -/
def loadCell (bigEndian : Bool) (array : ArrayDomain) (inv : AddBottom Variable) (kind : DataKind)
    (o : BitVec 64) (size : Nat) : Option (Option Expression × ArrayDomain) :=
  let cell : Cell := ⟨o.toNat, size⟩
  let (found, touched) := (array.arrayMap kind).getCell cell
  if found.isSome then some (some (.var (cell.getScalar kind)), array.setMap kind touched)
  else do
    match <- readValue bigEndian inv kind o size with
    | some n => return (some (.const n), array.setMap kind touched)
    | none =>
        let (cells, searched) <- touched.getOverlapCells cell
        if cells.isEmpty then
          return (some (.var (cell.getScalar kind)), array.setMap kind (searched.mkCell cell))
        else return (none, array.setMap kind searched)

/-- `load` at a known place. -/
def loadAt (bigEndian : Bool) (array : ArrayDomain) (inv : AddBottom Variable)
    (kind : DataKind) (k : Int) (width : Nat) : Option (Option Expression × ArrayDomain) :=
  let o := BitVec.ofInt 64 k
  if kind = .types then do
    let (onlyNum, onlyNonNum) <- array.numBytes.uniformity o width
    if onlyNum then return (some (.const TypeEncoding.num.value), array)
    else if ¬ onlyNonNum ∨ width ≠ 8 then return (none, array)
    else loadCell bigEndian array inv kind o width
  else loadCell bigEndian array inv kind o width

def load (bigEndian : Bool) (array : ArrayDomain) (inv : AddBottom Variable) (kind : DataKind)
    (i : LinearExpression Variable) (width : Nat) : Option (Option Expression × ArrayDomain) :=
  let ii := inv.evalInterval i
  match ii.singleton with
  | some n => if IntType.int64.Fits n then loadAt bigEndian array inv kind n width else none
  | none =>
      if kind = .types then
        match ii.lb.number, ii.ub.number with
        | some lb, some ub =>
            let fullwidth := ub - lb + width
            if IntType.uint32.Fits lb ∧ IntType.uint32.Fits fullwidth then do
              let (onlyNum, _) <- array.numBytes.uniformity (BitVec.ofInt 64 lb)
                (IntType.int32.truncate fullwidth)
              return (if onlyNum then some (.const TypeEncoding.num.value) else none, array)
            else some (none, array)
        | _, _ => some (none, array)
      else some (none, array)

/-! ## Stores and havocs -/

def splitCell (bigEndian : Bool) (kind : DataKind) (start len : Nat)
    (state : AddBottom Variable × ArrayDomain) :
    Option (AddBottom Variable × ArrayDomain) := do
  let (svalue, array) <- load bigEndian state.2 state.1 .svalues (.const start) len
  let (uvalue, array) <- load bigEndian array state.1 .uvalues (.const start) len
  let cell : Cell := ⟨start, len⟩
  let inv := assignOptional (cell.getScalar .uvalues) uvalue
    (assignOptional (cell.getScalar .svalues) svalue state.1)
  return (inv, array.setMap kind ((array.arrayMap kind).mkCell cell))

/-- Split off the bytes of a cell to the left of the access. -/
def splitLeft (bigEndian : Bool) (kind : DataKind) (query cell : Cell)
    (state : AddBottom Variable × ArrayDomain) :
    Option (AddBottom Variable × ArrayDomain) :=
  if cell.offset < query.offset
    then splitCell bigEndian kind cell.offset (query.offset - cell.offset) state
  else some state

/-- Split off the bytes of a cell to the right of the access. -/
def splitRight (bigEndian : Bool) (kind : DataKind) (query cell : Cell)
    (state : AddBottom Variable × ArrayDomain) :
    Option (AddBottom Variable × ArrayDomain) :=
  if query.offset + query.size < cell.offset + cell.size then
    splitCell bigEndian kind (query.offset + query.size)
      (cell.offset + cell.size - (query.offset + query.size)) state
  else some state

/-- The step of the loop of `split_number_var` for one cell that overlaps with the access.
The last index of the cell is an `int`, and so is the sum of it and one that `all_num` is
asked about; where the sum overflows, nothing more is defined.  The second sum is a word. -/
def splitStep (bigEndian : Bool) (kind : DataKind) (query : Cell)
    (state : AddBottom Variable × ArrayDomain)
    (cell : Cell) : Option (AddBottom Variable × ArrayDomain) :=
  let cellEndIndex : Int := cell.offset + cell.size - 1
  if ¬ IntType.int32.Fits cell.offset ∨ ¬ IntType.int32.Fits cellEndIndex ∨
      ¬ IntType.int32.Fits (cellEndIndex + 1) then none
  else if ¬ state.2.numBytes.allNum cell.offset (cellEndIndex + 1) ∨
    cellEndIndex + 1 < cell.offset + 8 then some state
  else if (state.1.evalInterval (.var (cell.getScalar kind))).singleton.isNone then some state
  else (splitLeft bigEndian kind query cell state).bind (splitRight bigEndian kind query cell)

def splitNumberVar (bigEndian : Bool) (kind : DataKind) (i elemSize : LinearExpression Variable)
    (state : AddBottom Variable × ArrayDomain) : Option (AddBottom Variable × ArrayDomain) :=
  match (state.1.evalInterval i).singleton, (state.1.evalInterval elemSize).singleton with
  | some n, some bytes =>
      if IntType.uint32.Fits bytes ∧ IntType.uint64.Fits n then do
        let query : Cell := ⟨n.toNat, bytes.toNat⟩
        let (cells, searched) <- (state.2.arrayMap kind).getOverlapCells query
        cells.foldlM (splitStep bigEndian kind query) (state.1, state.2.setMap kind searched)
      else none
  | _, _ => some state

/-- Forget the scalar of a cell, and with a value its other reading. -/
def forgetCell (kind : DataKind) (inv : AddBottom Variable) (cell : Cell) : AddBottom Variable :=
  let forgotten := inv.forget (cell.getScalar kind)
  if kind = .svalues then forgotten.forget (cell.getScalar .uvalues)
  else if kind = .uvalues then forgotten.forget (cell.getScalar .svalues)
  else forgotten

/-- `kill_and_find_var`: the place of the access if it is known, and the state without the
cells that the access may change. -/
def killAndFindVar (kind : DataKind) (i elemSize : LinearExpression Variable)
    (state : AddBottom Variable × ArrayDomain) :
    Option (Option Cell × AddBottom Variable × ArrayDomain) := do
  let place := match (state.1.evalInterval i).singleton,
    (state.1.evalInterval elemSize).singleton with
    | some n, some bytes => some (⟨n.toNat, bytes.toNat⟩ : Cell)
    | _, _ => none
  let (cells, searched) <- (state.2.arrayMap kind).affectedCells state.1 i elemSize
  return (place, cells.foldl (forgetCell kind) state.1,
    state.2.setMap kind (searched.removeCells cells))

def splitAndFindVar (bigEndian : Bool) (kind : DataKind) (idx elemSize : LinearExpression Variable)
    (state : AddBottom Variable × ArrayDomain) :
    Option (Option Cell × AddBottom Variable × ArrayDomain) :=
  (if IsValue kind then splitNumberVar bigEndian kind idx elemSize state else some state).bind
    (killAndFindVar kind idx elemSize)

def storeBits (inv : AddBottom Variable) (val : LinearExpression Variable) (place : Cell)
    (bits : BitsetDomain) :
    Option BitsetDomain :=
  let size := IntType.int32.truncate place.size
  if (inv.evalInterval val).singleton = some TypeEncoding.num.value
    then bits.reset (BitVec.ofNat 64 place.offset) size
  else bits.havoc (BitVec.ofNat 64 place.offset) size

/-- `store`, and with the kind of types `store_type`.  The result is the variable to assign. -/
def store (bigEndian : Bool) (kind : DataKind) (idx elemSize val : LinearExpression Variable)
    (state : AddBottom Variable × ArrayDomain) :
    Option (Option Variable × AddBottom Variable × ArrayDomain) := do
  let (place, inv, array) <- splitAndFindVar bigEndian kind idx elemSize state
  match place with
  | none => return (none, inv, array)
  | some place =>
      let bits <- (if kind = .types then storeBits inv val place array.numBytes
        else some array.numBytes)
      let made : ArrayDomain := ⟨bits, array.arrayMap⟩
      return (some (place.getScalar kind), inv,
        made.setMap kind ((array.arrayMap kind).mkCell place))

def havoc (bigEndian : Bool) (kind : DataKind) (idx elemSize : LinearExpression Variable)
    (state : AddBottom Variable × ArrayDomain) : Option (AddBottom Variable × ArrayDomain) := do
  let (place, inv, array) <- splitAndFindVar bigEndian kind idx elemSize state
  match place with
  | some place =>
      if kind = .types then
        let bits <- array.numBytes.havoc (BitVec.ofNat 64 place.offset)
          (IntType.int32.truncate place.size)
        return (inv, ⟨bits, array.arrayMap⟩)
      else return (inv, array)
  | none => return (inv, array)

def storeNumbers (idx width : Variable) (state : AddBottom Variable × ArrayDomain) :
    Option (AddBottom Variable × ArrayDomain) :=
  match (state.1.getInterval idx).singleton, (state.1.getInterval width).singleton with
  | some n, some bytes =>
      if n + bytes > ebpfTotalStackSize then some state
      else if IntType.uint64.Fits n ∧ IntType.int32.Fits bytes then do
        let bits <- state.2.numBytes.reset (BitVec.ofInt 64 n) bytes
        return (state.1, ⟨bits, state.2.arrayMap⟩)
      else none
  | _, _ => some state

end ArrayDomain
end Crab
end Prevail
