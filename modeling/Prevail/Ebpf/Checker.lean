import Prevail.Asm.Assertions
import Prevail.Crab.BitsetDomain
import Prevail.Crab.TypeDomain

namespace Prevail
namespace Ebpf

open Crab

/-!
# The checker of assertions

`ebpf_checker.cpp` with the callback of `ebpf_domain_check`, which collects the
messages of the requirements that fail and leaves the numerical state alone.
The state changes all the same where a check goes through `join_over_types`: it
becomes the join of as many copies as the register has types.

A check is absent where the source throws.  The descriptors of the platform and
the options are parameters.
-/

/-- `EbpfMapDescriptor`. -/
structure MapDescriptor where
  type : Nat
  keySize : Nat
  valueSize : Nat
  maxEntries : Nat
  innerMapFd : Nat

/-- The part of `program_info`, of the platform and of the options that the
checks read.  `noReturnIfSucceed` marks the helper functions whose return type
is `EBPF_RETURN_TYPE_INTEGER_OR_NO_RETURN_IF_SUCCEED`, and `typeOwners` are the
owners of the type variables that exist. -/
structure CheckerContext where
  contextDescriptorSize : Int
  mapDescriptor : Int -> Option MapDescriptor
  isArray : Nat -> Bool
  isHelperUsable : Int -> Bool
  makeCall : Int -> Call
  noReturnIfSucceed : Int -> Bool
  isPrivileged : Bool
  strict : Bool
  allowDivisionByZero : Bool
  typeOwners : List Owner

/-- A message together with the assertion that `create_warning` appends. -/
structure Warning where
  message : String
  assertion : Assertion
  deriving DecidableEq

structure EbpfDomain (dom : NumAbsDomain Variable) where
  inv : dom.State
  stack : BitsetDomain

def maxPacketSize : Int := 65535

/-- `BoundedLoopCount::limit`. -/
def loopLimit : Int := 100000

section Maps

variable (dom : NumAbsDomain Variable) (context : CheckerContext) (inv : dom.State)

def getMapFdRange (mapFdReg : Reg) : Option (Int × Int) :=
  let interval := evalVariable dom inv (regPack mapFdReg).mapFd
  match interval.lb.number, interval.ub.number, interval.finiteSize with
  | some lb, some ub, some size =>
      if IntType.int32.Fits lb ∧ IntType.int32.Fits ub ∧ size < 32 then some (lb, ub) else none
  | _, _, _ => none

/-- The file descriptors of a range in their order. -/
def fdsOfRange (range : Int × Int) : List Int :=
  (List.range (range.2 - range.1 + 1).toNat).map (fun step : Nat => range.1 + (step : Int))

/-- The loop of `get_map_type`. -/
def commonMapType : List Int -> Option Nat -> Option Nat
  | [], found => found
  | mapFd :: rest, found =>
      (context.mapDescriptor mapFd).bind (fun map =>
        match found with
        | none => commonMapType rest (some map.type)
        | some type => if map.type = type then commonMapType rest found else none)

def getMapType (mapFdReg : Reg) : Option Nat :=
  (getMapFdRange dom inv mapFdReg).bind (fun range => commonMapType context (fdsOfRange range) none)

/-- The loop of `get_map_key_size`, `get_map_value_size` and
`get_map_max_entries`. -/
def joinOverMaps (field : MapDescriptor -> Nat) : List Int -> Interval -> Interval
  | [], result => result
  | mapFd :: rest, result =>
      match context.mapDescriptor mapFd with
      | some map => joinOverMaps field rest (result.join (.ofNumber (field map)))
      | none => .top

/-- The interval of one member of the maps that a register may hold. -/
def getMapInterval (field : MapDescriptor -> Nat) (mapFdReg : Reg) : Interval :=
  match getMapFdRange dom inv mapFdReg with
  | some range => joinOverMaps context field (fdsOfRange range) .bottom
  | none => .top

def getMapKeySize (mapFdReg : Reg) :
    Interval := getMapInterval dom context inv MapDescriptor.keySize mapFdReg

def getMapValueSize (mapFdReg : Reg) :
    Interval := getMapInterval dom context inv MapDescriptor.valueSize mapFdReg

def getMapMaxEntries (mapFdReg : Reg) :
    Interval := getMapInterval dom context inv MapDescriptor.maxEntries mapFdReg

end Maps

section Requirements

variable (dom : NumAbsDomain Variable)

def checkRequire (inv : dom.State) (constraint : LinearConstraint Variable) : Bool :=
  dom.isBottom inv || (!constraint.isContradiction && dom.entail inv constraint)

/-- `require` of a constraint: the messages it produces. -/
def requireConstraint (inv : dom.State) (constraint : LinearConstraint Variable)
    (message : String) : List String :=
  if checkRequire dom inv constraint then [] else [message]

/-- `require` of a message. -/
def requireFalse (inv : dom.State) (message : String) : List String :=
  requireConstraint dom inv .falseConst message

/-- `check_access_stack`.  The difference is taken in `int64_t`. -/
def checkAccessStack (inv : dom.State) (lb ub : LinearExpression Variable) : Option (List String) :=
  let upper :=
    requireConstraint dom inv (.le ub (.const ebpfTotalStackSize))
      "Upper bound must be at most EBPF_TOTAL_STACK_SIZE"
  match (evalVariable dom inv (regPack r10StackPointer).stackOffset).singleton with
  | none => some upper
  | some singleton =>
      (IntType.int64.cast singleton).map (fun stackOffset =>
        requireConstraint dom inv
          (.ge lb (.const (IntType.int64.truncate (stackOffset - ebpfSubprogramStackSize))))
          "Lower bound must be at least r10.stack_offset - EBPF_SUBPROGRAM_STACK_SIZE" ++ upper)

def checkAccessContext (context : CheckerContext) (inv : dom.State)
    (lb ub : LinearExpression Variable) :
    List String :=
  requireConstraint dom inv (.ge lb (.const 0)) "Lower bound must be at least 0" ++
    requireConstraint dom inv (.le ub (.const context.contextDescriptorSize))
      ("Upper bound must be at most " ++ toString context.contextDescriptorSize)

def checkAccessPacket (inv : dom.State) (lb ub : LinearExpression Variable)
    (packetSize : Option Variable) :
    List String :=
  requireConstraint dom inv
    (.ge lb (.var .metaOffset)) "Lower bound must be at least meta_offset" ++
    match packetSize with
    | some size => requireConstraint dom inv (.le ub
      (.var size)) "Upper bound must be at most packet_size"
    | none =>
        requireConstraint dom inv (.le ub (.const maxPacketSize))
          ("Upper bound must be at most " ++ toString maxPacketSize)

/-- `check_access_shared`, for the region of one register. -/
def checkAccessShared (inv : dom.State) (lb ub : LinearExpression Variable) (reg : Reg) :
    List String :=
  requireConstraint dom inv (.ge lb (.const 0)) "Lower bound must be at least 0" ++
    requireConstraint dom inv (.le ub (.var (regPack reg).sharedRegionSize))
      ("Upper bound must be at most r" ++ toString reg.v.toNat ++ ".shared_region_size")

end Requirements

section Checks

variable (dom : NumAbsDomain Variable) (context : CheckerContext) (stack : BitsetDomain)

/-- The state that a check leaves and its messages. -/
abbrev Outcome := Option (dom.State × List String)

/-- `join_over_types` with a transition that only checks. -/
def checkOverTypes (inv : dom.State) (reg : Reg)
    (transition : TypeEncoding -> Option (List String)) :
    Outcome dom := do
  let visited ← visitedTypes (evalVariable dom inv (regPack reg).type)
  let messages ← visited.mapM transition
  let joined ← joinOverTypes dom context.typeOwners inv reg (fun _ state => state)
  some (joined, messages.flatten)

def lbUbAccessPair (s : ValidAccess) (offsetVariable : Variable) :
    LinearExpression Variable × LinearExpression Variable :=
  let lb := (LinearExpression.var offsetVariable).plus (.const s.offset)
  match s.width with
  | .imm imm => (lb, lb.plus (.const imm.v.toNat))
  | .reg reg => (lb, lb.plus (.var (regPack reg).svalue))

/-- The check that the bytes of a stack range are numbers. -/
def checkStackContent (inv : dom.State) (s : ValidAccess) (lb ub : LinearExpression Variable) :
    Option (List String) :=
  let numericSize := (LinearExpression.var (regPack s.reg).stackNumericSize).subtract
    (.const s.offset)
  if allNum dom inv stack lb ub then some []
  else if s.offset < 0 then some (requireFalse dom inv "Stack content is not numeric")
  else
    match s.width with
    | .imm imm =>
        -- `gsl::narrow<int>` throws unless the width fits.
        if 2 ^ 31 ≤ imm.v.toNat then none
        else if dom.entail inv (.le (.const imm.v.toNat) numericSize) then some []
        else some (requireFalse dom inv "Stack content is not numeric")
    | .reg reg =>
        if dom.entail inv (.le (.var (regPack reg).svalue) numericSize) then some []
        else some (requireFalse dom inv "Stack content is not numeric")

def isComparisonCheck (s : ValidAccess) : Bool := decide (s.width = .imm ⟨0⟩)

/-- The transition of `operator()(const ValidAccess&)`. -/
def checkAccess (inv : dom.State) (s : ValidAccess) (type : TypeEncoding) : Option (List String) :=
  match type with
  | .packet =>
      let pair := lbUbAccessPair s (regPack s.reg).packetOffset
      some (checkAccessPacket dom inv pair.1 pair.2 (if isComparisonCheck s then none
        else some .packetSize))
  | .stack => do
      let pair := lbUbAccessPair s (regPack s.reg).stackOffset
      let messages ← checkAccessStack dom inv pair.1 pair.2
      if s.accessType = .read then
        (checkStackContent dom stack inv s pair.1 pair.2).map (messages ++ ·)
      else some messages
  | .ctx =>
      let pair := lbUbAccessPair s (regPack s.reg).ctxOffset
      some (checkAccessContext dom context inv pair.1 pair.2)
  | .shared =>
      let pair := lbUbAccessPair s (regPack s.reg).sharedOffset
      some (checkAccessShared dom inv pair.1 pair.2 s.reg ++
        if !isComparisonCheck s && !s.orNull then
          requireConstraint dom inv (.gt (.var (regPack s.reg).svalue) (.const 0))
            "Possible null access"
        else [])
  | .num =>
      some (if isComparisonCheck s then []
        else if s.orNull then
          requireConstraint dom inv (.eq (.var (regPack s.reg).svalue) (.const 0)) "Non-null number"
        else requireFalse dom inv "Only pointers can be dereferenced")
  | .map | .mapPrograms =>
      some (if isComparisonCheck s then []
        else requireFalse dom inv "FDs cannot be dereferenced directly")
  | .uninit => some (requireFalse dom inv "Invalid type")

/-- `operator()(const ValidAccess&)`. -/
def checkValidAccess (inv : dom.State) (s : ValidAccess) : Outcome dom :=
  checkOverTypes dom context inv s.reg (checkAccess dom context stack inv s)

/-- The checks of the key of an array in strict mode. -/
def checkArrayKey (inv : dom.State) (s : ValidMapKeyValue) : List String :=
  match (evalVariable dom inv (regPack s.accessReg).stackOffset).singleton with
  | none => requireFalse dom inv "Pointer must be a singleton"
  | some offset =>
      if s.key then
        let keyValue := LinearExpression.var (.cellVar .svalues offset 4)
        (match (getMapMaxEntries dom context inv s.mapFdReg).lb.number with
          | some maxEntries =>
              requireConstraint dom inv (.lt keyValue (.const maxEntries)) "Array index overflow"
          | none => requireFalse dom inv "Max entries is not finite") ++
          requireConstraint dom inv (.ge keyValue (.const 0)) "Array index underflow"
      else []

/-- The text of a bound in a message, where `infinite` stands for the others. -/
def boundText (bound : Bound) (infinite : String) : String :=
  match bound.number with
  | some n => if IntType.int32.Fits n then toString n else infinite
  | none => infinite

/-- The transition of `operator()(const ValidMapKeyValue&)`. -/
def checkKeyValue (inv : dom.State) (s : ValidMapKeyValue) (width : Int) (type : TypeEncoding) :
    List String :=
  let access := regPack s.accessReg
  match type with
  | .stack =>
      let lb := LinearExpression.var access.stackOffset
      let ub := lb.plus (.const width)
      if !allNum dom inv stack lb ub then
        requireFalse dom inv
          ("Illegal map update with a non-numerical value [" ++
            boundText (evalVariable dom inv access.stackOffset).lb "-oo" ++ "-" ++
            boundText (dom.evalInterval inv ub).ub "oo" ++ ")")
      else if context.strict then
        match getMapType dom context inv s.mapFdReg with
        | some fdType => if context.isArray fdType then checkArrayKey dom context inv s else []
        | none => []
      else []
  | .packet =>
      let lb := LinearExpression.var access.packetOffset
      checkAccessPacket dom inv lb (lb.plus (.const width)) none
  | .shared =>
      let lb := LinearExpression.var access.sharedOffset
      checkAccessShared dom inv lb (lb.plus (.const width)) s.accessReg ++
        requireConstraint dom inv (.gt (.var access.svalue) (.const 0)) "Possible null access"
  | _ => requireFalse dom inv "Only stack or packet can be used as a parameter"

/-- `operator()(const ValidMapKeyValue&)`. -/
def checkValidMapKeyValue (inv : dom.State) (s : ValidMapKeyValue) : Outcome dom :=
  let size := if s.key then getMapKeySize dom context inv s.mapFdReg
    else getMapValueSize dom context inv s.mapFdReg
  match size.singleton with
  | none =>
      some (inv, requireFalse dom inv
        (if s.key then "Map key size is not singleton" else "Map value size is not singleton"))
  | some width =>
      if IntType.int32.Fits width then
        checkOverTypes dom context inv s.accessReg
          (fun type => some (checkKeyValue dom context stack inv s width type))
      else none

/-- `operator()(const Comparable&)`. -/
def checkComparable (inv : dom.State) (r1 r2 : Reg) : Outcome dom :=
  if sameType dom inv r1 r2 then
    let notNumber := dom.addConstraint (typeIsNot r2 .num) inv
    if !isInGroup dom notNumber r1 .singletonPtr && !isInGroup dom notNumber r1 .mapFd then
      some (inv, requireFalse dom inv "Cannot subtract pointers to non-singleton regions")
    else do
      let first ← checkValidAccess dom context stack inv ⟨maxCallStackFrames, r1, 0, .imm ⟨0⟩,
        false, .compare⟩
      let second ← checkValidAccess dom context stack first.1 ⟨maxCallStackFrames, r2, 0, .imm ⟨0⟩,
        false, .compare⟩
      some (second.1, first.2 ++ second.2)
  else some (inv, requireConstraint dom inv
    (typeIs r2 .num) "Cannot subtract pointers to different regions")

/-- `type_is_pointer`, `type_is_number` and `type_is_not_stack` in the checks
that ask for an implication between types. -/
def checkImplied (inv : dom.State) (premise : LinearConstraint Variable) (number : Reg)
    (message : String) :
    List String :=
  if impliesType dom inv premise (typeIs number .num) then [] else requireFalse dom inv message

/-- The checks of all assertions but `FuncConstraint`. -/
def checkDirect (inv : dom.State) : Assertion -> Outcome dom
  | .comparable r1 r2 _ => checkComparable dom context stack inv r1 r2
  | .addable ptr num =>
      some (inv, checkImplied dom inv
        (typeAtLeast ptr .ctx) num "Only numbers can be added to pointers")
  | .validDivisor reg isSigned =>
      some (inv,
        checkImplied dom inv (typeAtLeast reg .ctx) reg "Only numbers can be used as divisors" ++
          if context.allowDivisionByZero then []
          else
            requireConstraint dom inv
              (.ne (.var (if isSigned then (regPack reg).svalue else (regPack reg).uvalue))
                (.const 0))
              "Possible division by zero")
  | .validAccess access => checkValidAccess dom context stack inv access
  | .validStore mem val =>
      some (inv, checkImplied dom inv (typeIsNot mem .stack) val
        "Only numbers can be stored to externally-visible regions")
  | .validSize reg canBeZero =>
      let svalue := LinearExpression.var (regPack reg).svalue
      some (inv, requireConstraint dom inv (if canBeZero then .ge svalue (.const 0)
        else .gt svalue (.const 0))
        "Invalid size")
  | .validMapKeyValue assertion => checkValidMapKeyValue dom context stack inv assertion
  | .validCall func stackFramePrefix =>
      some (inv,
        if stackFramePrefix ≠ [] ∧ context.noReturnIfSucceed func then
          requireFalse dom inv "tail call not supported in subprogram"
        else [])
  | .typeConstraint reg types =>
      some (inv, if isInGroup dom inv reg types then [] else requireFalse dom inv "Invalid type")
  | .funcConstraint _ => some (inv, [])
  | .zeroCtxOffset reg =>
      some (inv, requireConstraint dom inv (.eq (.var (regPack reg).ctxOffset) (.const 0))
        "Nonzero context offset")
  | .boundedLoopCount name =>
      some (inv, requireConstraint dom inv (.le (.var (.loopCounter name.text)) (.const loopLimit))
        "Loop counter is too large")

/-- The warnings of one assertion after another. -/
def checkEach : List Assertion -> dom.State -> Option (List Warning)
  | [], _ => some []
  | assertion :: rest, inv => do
      let outcome ← checkDirect dom context stack inv assertion
      let warnings ← checkEach rest outcome.1
      some (outcome.2.map (fun message => ⟨message, assertion⟩) ++ warnings)

/-- `operator()(const FuncConstraint&)`: the checks of the call that the
register selects. -/
def checkFuncConstraint (inv : dom.State) (reg : Reg) : Option (List Warning) :=
  let warn (message : String) : List Warning :=
    (requireFalse dom inv message).map (fun message => ⟨message, .funcConstraint reg⟩)
  match (evalVariable dom inv (regPack reg).svalue).singleton with
  | none => some (warn "callx helper function id is not a valid singleton")
  | some id =>
      if IntType.int32.Fits id then
        if !context.isHelperUsable id
          then some (warn ("invalid helper function id " ++ toString id))
        else do
          let assertions ← AssertionContext.getAssertions ⟨context.isPrivileged, none⟩
            (.call (context.makeCall id))
          checkEach dom context stack assertions inv
      else some (warn "callx helper function id is not a valid singleton")

end Checks

def ebpfDomainCheck {dom : NumAbsDomain Variable} (context : CheckerContext)
    (state : EbpfDomain dom) (assertion : Assertion) : Option (List Warning) :=
  if dom.isBottom state.inv then some []
  else
    match assertion with
    | .funcConstraint reg => checkFuncConstraint dom context state.stack state.inv reg
    | other =>
        (checkDirect dom context state.stack state.inv other).map (fun outcome =>
          outcome.2.map (fun message => ⟨message, other⟩))

/-- An assertion is accepted without a warning. -/
def Accepts {dom : NumAbsDomain Variable} (context : CheckerContext) (state : EbpfDomain dom)
    (assertion : Assertion) : Prop :=
  ebpfDomainCheck context state assertion = some []

end Ebpf
end Prevail
