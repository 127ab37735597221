import Prevail.Asm.Syntax
import Prevail.Crab.NumAbsDomain

namespace Prevail
namespace Crab

/-!
# Variables and types of registers

`variable_t`, `data_kind_t`, `type_encoding_t` and `reg_pack_t`.  The source
identifies a variable by its name.  A name is built from the owner of the
variable (a register, a register of a saved stack frame, a cell of the stack)
and a kind, which are kept apart here.
-/

inductive DataKind where
  | types | svalues | uvalues | ctxOffsets | mapFds | packetOffsets | sharedOffsets | stackOffsets
  | sharedRegionSizes | stackNumericSizes
  deriving DecidableEq

/-- What a variable with a kind belongs to. -/
inductive Owner where
  | reg (reg : Reg)
  | stackFrame (stackFramePrefix : List Char) (reg : Reg)
  | cell (offset : Int) (size : Int)
  deriving DecidableEq

inductive Variable where
  | of (owner : Owner) (kind : DataKind)
  | metaOffset
  | packetSize
  | loopCounter (label : List Char)
  deriving DecidableEq

namespace Variable

abbrev reg (kind : DataKind) (reg : Reg) : Variable := .of (.reg reg) kind

abbrev cellVar (kind : DataKind) (offset size : Int) : Variable := .of (.cell offset size) kind

/-- `variable_t::kind_var`, for a variable that has an owner. -/
def kindVar (kind : DataKind) : Variable -> Variable
  | .of owner _ => .of owner kind
  | other => other

end Variable

inductive TypeEncoding where
  | uninit | mapPrograms | map | num | ctx | packet | stack | shared
  deriving DecidableEq

namespace TypeEncoding

/-- The number of a type. -/
def value : TypeEncoding -> Int
  | uninit => -7
  | mapPrograms => -6
  | map => -5
  | num => -4
  | ctx => -3
  | packet => -2
  | stack => -1
  | shared => 0

/-- All types in increasing order. -/
def all : List TypeEncoding := [uninit, mapPrograms, map, num, ctx, packet, stack, shared]

theorem mem_all (type : TypeEncoding) : type ∈ all := by
  cases type <;> decide

theorem value_injective : Function.Injective value := by
  intro left right same
  cases left <;> cases right <;> first | rfl | cases same

theorem value_bounds (type : TypeEncoding) : -7 ≤ type.value ∧ type.value ≤ 0 := by
  cases type <;> decide

/-- `iterate_types`. -/
def iterate (lb ub : Int) : List TypeEncoding :=
  all.filter (fun type => decide (lb ≤ type.value) && decide (type.value ≤ ub))

theorem mem_iterate {lb ub : Int} {type : TypeEncoding} :
    type ∈ iterate lb ub ↔ lb ≤ type.value ∧ type.value ≤ ub := by
  simp [iterate, mem_all]

end TypeEncoding

/-- `reg_pack_t`: the variables of one register. -/
structure RegPack where
  reg : Reg

namespace RegPack

variable (pack : RegPack)

def svalue : Variable := .reg .svalues pack.reg
def uvalue : Variable := .reg .uvalues pack.reg
def ctxOffset : Variable := .reg .ctxOffsets pack.reg
def mapFd : Variable := .reg .mapFds pack.reg
def packetOffset : Variable := .reg .packetOffsets pack.reg
def sharedOffset : Variable := .reg .sharedOffsets pack.reg
def stackOffset : Variable := .reg .stackOffsets pack.reg
def type : Variable := .reg .types pack.reg
def sharedRegionSize : Variable := .reg .sharedRegionSizes pack.reg
def stackNumericSize : Variable := .reg .stackNumericSizes pack.reg

end RegPack

def regPack (reg : Reg) : RegPack := ⟨reg⟩

end Crab
end Prevail
