import Prevail.Crab.IntervalDomain
import Prevail.Ebpf.Checker

namespace Prevail
namespace Ebpf

open Crab

/-!
# What an accepted assertion guarantees

A requirement that produces no message holds of every represented assignment.
A check over the types of a register makes the requirements of every type in
the interval of its type variable, hence those of the type that the register
really has.
-/

variable {dom : NumAbsDomain Variable} {inv : dom.State} {values : Variable -> Int}

/-! ## Requirements -/

theorem holds_of_checkRequire {constraint : LinearConstraint Variable}
    (wellFormed : constraint.expression.WellFormed)
    (accepted : checkRequire dom inv constraint = true) (represents : dom.Represents inv values) :
    constraint.Holds values := by
  unfold checkRequire at accepted
  rcases Bool.or_eq_true _ _ ▸ accepted with empty | entailed
  · exact absurd represents (dom.not_represents_of_isBottom empty)
  · exact dom.holds_of_entail wellFormed (Bool.and_eq_true _ _ ▸ entailed).2 represents

theorem holds_of_requireConstraint {constraint : LinearConstraint Variable} {message : String}
    (wellFormed : constraint.expression.WellFormed)
    (accepted : requireConstraint dom inv constraint message = [])
    (represents : dom.Represents inv values) :
    constraint.Holds values := by
  unfold requireConstraint at accepted
  split at accepted
  · rename_i holds
    exact holds_of_checkRequire wellFormed holds represents
  · cases accepted

/-- A requirement that always fails is not met by a state that represents
something. -/
theorem requireFalse_ne_nil (represents : dom.Represents inv values) (message : String) :
    requireFalse dom inv message ≠ [] := by
  intro accepted
  exact LinearConstraint.not_holds_falseConst values
    (holds_of_requireConstraint (LinearExpression.wellFormed_const 0) accepted represents)

/-! ## Checks over the types of a register -/

theorem mem_visitedTypes_of_not_isTop {types : Interval} {visited : List TypeEncoding}
    {type : TypeEncoding}
    (visits : visitedTypes types = some visited) (notTop : ¬ types.IsTop)
    (member : type.value ∈ types) :
    type ∈ visited := by
  rw [visitedTypes, if_neg (Interval.not_isBottom_of_mem member), if_neg notTop] at visits
  have inRange : type.value ∈ Interval.range TypeEncoding.uninit.value TypeEncoding.shared.value :=
    Interval.mem_range.mpr (TypeEncoding.value_bounds type)
  have inBounded := Interval.mem_meet inRange member
  dsimp only at visits
  split at visits
  · cases visits
  · split at visits
    · rename_i lb ub lower upper
      cases visits
      have minimum := inBounded.1
      have maximum := inBounded.2
      rw [Bound.number_eq_some.mp lower, Bound.ofNumber_le_ofNumber] at minimum
      rw [Bound.number_eq_some.mp upper, Bound.ofNumber_le_ofNumber] at maximum
      exact TypeEncoding.mem_iterate.mpr ⟨minimum, maximum⟩
    · cases visits

theorem mem_visitedTypes {types : Interval} {visited : List TypeEncoding} {type : TypeEncoding}
    (visits : visitedTypes types = some visited) (member : type.value ∈ types) :
    type ∈ visited ∨ visited = [.uninit] := by
  by_cases isTop : types.IsTop
  · rw [visitedTypes, if_neg (Interval.not_isBottom_of_mem member), if_pos isTop] at visits
    cases visits
    exact Or.inr rfl
  · exact Or.inl (mem_visitedTypes_of_not_isTop visits isTop member)

theorem eq_nil_of_mapM {A B : Type} {transition : A -> Option (List B)} {items : List A}
    {results : List (List B)}
    (run : items.mapM transition = some results) (empty : results.flatten = []) {item : A}
    (member : item ∈ items) :
    transition item = some [] := by
  induction items generalizing results with
  | nil => cases member
  | cons first rest inductionHypothesis =>
      simp only [List.mapM_cons, Option.pure_def, Option.bind_eq_bind,
        Option.bind_eq_some_iff] at run
      rcases run with ⟨result, atFirst, others, atRest, same⟩
      cases same
      rcases List.append_eq_nil_iff.mp empty with ⟨resultEmpty, othersEmpty⟩
      rcases List.mem_cons.mp member with rfl | inRest
      · rw [atFirst, resultEmpty]
      · exact inductionHypothesis atRest othersEmpty inRest

/-- A check over the types passes for the type that the register has, if it
does not pass for a register without a type. -/
theorem checkOverTypes_accepted {context : CheckerContext} {reg : Reg} {final : dom.State}
    {transition : TypeEncoding -> Option (List String)} {type : TypeEncoding}
    (accepted : checkOverTypes dom context inv reg transition = some (final, []))
    (refused : transition .uninit ≠ some []) (represents : dom.Represents inv values)
    (typed : values (regPack reg).type = type.value) : transition type = some [] := by
  have member : type.value ∈ evalVariable dom inv (regPack reg).type := by
    rw [← typed]
    exact mem_evalVariable dom represents (regPack reg).type
  simp only [checkOverTypes, Option.bind_eq_bind, Option.bind_eq_some_iff] at accepted
  rcases accepted with ⟨visited, visits, results, run, joined, joins, same⟩
  simp only [Option.some.injEq, Prod.mk.injEq] at same
  rcases mem_visitedTypes visits member with inVisited | rfl
  · exact eq_nil_of_mapM run same.2 inVisited
  · exact absurd (eq_nil_of_mapM run same.2 List.mem_cons_self) refused

theorem accepts_direct {context : CheckerContext} {state : EbpfDomain dom} {assertion : Assertion}
    (direct : forall reg, assertion ≠ .funcConstraint reg)
    (accepted : Accepts context state assertion) (represents : dom.Represents state.inv values) :
    exists final, checkDirect dom context state.stack state.inv assertion = some (final, []) := by
  unfold Accepts ebpfDomainCheck at accepted
  split at accepted
  · rename_i empty
    exact absurd represents (dom.not_represents_of_isBottom empty)
  · split at accepted
    · exact absurd rfl (direct _)
    · rename_i other _
      rw [Option.map_eq_some_iff] at accepted
      rcases accepted with ⟨⟨final, messages⟩, run, none⟩
      rcases List.map_eq_nil_iff.mp none with rfl
      exact ⟨final, run⟩

/-! ## Accesses to memory -/

/-- The number that a width stands for. -/
def widthValue (values : Variable -> Int) : Value -> Int
  | .imm imm => imm.v.toNat
  | .reg reg => values (regPack reg).svalue

/-- The bytes that `stack_numeric_size` declares to be numbers are numbers. -/
def NumericSizeValid (values : Variable -> Int) (numeric : Int -> Prop) (reg : Reg) : Prop :=
  forall index, values (regPack reg).stackOffset ≤ index ->
    index < values (regPack reg).stackOffset + values (regPack reg).stackNumericSize ->
    numeric index

/-- The access stays in the region that the register points to.  A number is
accessed only as a null pointer that the access allows. -/
def SafeAccess (context : CheckerContext) (values : Variable -> Int) (numeric : Int -> Prop)
    (s : ValidAccess) (type : TypeEncoding) : Prop :=
  let reg := regPack s.reg
  let width := widthValue values s.width
  match type with
  | .stack =>
      values (regPack r10StackPointer).stackOffset - ebpfSubprogramStackSize ≤
        values reg.stackOffset + s.offset ∧
        values reg.stackOffset + s.offset + width ≤ ebpfTotalStackSize ∧
        (s.accessType = .read -> forall index, values reg.stackOffset + s.offset ≤ index ->
          index < values reg.stackOffset + s.offset + width -> 0 ≤ index -> numeric index)
  | .ctx =>
      0 ≤ values reg.ctxOffset + s.offset ∧
        values reg.ctxOffset + s.offset + width ≤ context.contextDescriptorSize
  | .packet =>
      values .metaOffset ≤ values reg.packetOffset + s.offset ∧
        values reg.packetOffset + s.offset + width ≤ values .packetSize
  | .shared =>
      0 ≤ values reg.sharedOffset + s.offset ∧
        values reg.sharedOffset + s.offset + width ≤ values reg.sharedRegionSize ∧
        (s.orNull = false -> 0 < values reg.svalue)
  | .num => s.orNull = true ∧ values reg.svalue = 0
  | .map | .mapPrograms | .uninit => False

section Pair

variable (s : ValidAccess) (offsetVariable : Variable)

@[simp] theorem eval_lower :
    (lbUbAccessPair s offsetVariable).1.eval values = values offsetVariable + s.offset := by
  unfold lbUbAccessPair
  split <;> simp

@[simp] theorem eval_upper :
    (lbUbAccessPair s offsetVariable).2.eval values =
      values offsetVariable + s.offset + widthValue values s.width := by
  unfold lbUbAccessPair widthValue
  cases s.width <;> simp

@[simp] theorem wellFormed_upper : (lbUbAccessPair s offsetVariable).2.WellFormed := by
  unfold lbUbAccessPair
  cases s.width <;> simp

end Pair

theorem checkAccessStack_accepted {lb ub : LinearExpression Variable} {frame : Int}
    (wellFormed : ub.WellFormed) (accepted : checkAccessStack dom inv lb ub = some [])
    (single : (evalVariable dom inv (regPack r10StackPointer).stackOffset).singleton = some frame)
    (fits : IntType.int64.Fits frame)
    (fitsBelow : IntType.int64.Fits (frame - ebpfSubprogramStackSize))
    (represents : dom.Represents inv values) :
    frame - ebpfSubprogramStackSize ≤ lb.eval values ∧ ub.eval values ≤ ebpfTotalStackSize := by
  have positive : 0 < IntType.int64.width := by decide
  have cast : IntType.int64.cast frame = some frame := by
    unfold IntType.cast
    rw [if_pos (show IntType.int64.FitsCast frame from Or.inl fits),
      IntType.truncate_of_fits positive fits]
  unfold checkAccessStack at accepted
  rw [single] at accepted
  simp only [cast, Option.map_some, Option.some.injEq, List.append_eq_nil_iff,
    IntType.truncate_of_fits positive fitsBelow] at accepted
  have lower := holds_of_requireConstraint (by simp) accepted.1 represents
  have upper := holds_of_requireConstraint (LinearConstraint.wellFormed_le wellFormed)
    accepted.2 represents
  rw [LinearConstraint.holds_ge, LinearExpression.eval_const] at lower
  rw [LinearConstraint.holds_le, LinearExpression.eval_const] at upper
  exact ⟨lower, upper⟩

theorem checkAccessPacket_accepted {lb ub : LinearExpression Variable} {size : Option Variable}
    (wellFormed : ub.WellFormed) (accepted : checkAccessPacket dom inv lb ub size = [])
    (represents : dom.Represents inv values) :
    values .metaOffset ≤ lb.eval values ∧
      ub.eval values ≤ (match size with | some target => values target | none => maxPacketSize) := by
  unfold checkAccessPacket at accepted
  rcases List.append_eq_nil_iff.mp accepted with ⟨lower, upper⟩
  have lowerHolds := holds_of_requireConstraint (by simp) lower represents
  rw [LinearConstraint.holds_ge, LinearExpression.eval_var] at lowerHolds
  refine ⟨lowerHolds, ?_⟩
  cases size with
  | none => simpa using holds_of_requireConstraint (LinearConstraint.wellFormed_le
    wellFormed) upper represents
  | some target => simpa using holds_of_requireConstraint (LinearConstraint.wellFormed_le wellFormed) upper represents

theorem checkAccessShared_accepted {lb ub : LinearExpression Variable} {reg : Reg} (wellFormed : ub.WellFormed)
    (accepted : checkAccessShared dom inv lb ub reg = []) (represents : dom.Represents inv values) :
    0 ≤ lb.eval values ∧ ub.eval values ≤ values (regPack reg).sharedRegionSize := by
  unfold checkAccessShared at accepted
  rcases List.append_eq_nil_iff.mp accepted with ⟨lower, upper⟩
  have lowerHolds := holds_of_requireConstraint (by simp) lower represents
  have upperHolds := holds_of_requireConstraint (LinearConstraint.wellFormed_le wellFormed)
    upper represents
  rw [LinearConstraint.holds_ge, LinearExpression.eval_const] at lowerHolds
  rw [LinearConstraint.holds_le, LinearExpression.eval_var] at upperHolds
  exact ⟨lowerHolds, upperHolds⟩

/-- The bytes of an accepted stack range are numbers, as far as they lie in the
stack.  The bits vouch for them, or the numeric size of the register. -/
theorem checkStackContent_accepted {stack : BitsetDomain} {s : ValidAccess} {numeric : Int -> Prop}
    (accepted : checkStackContent dom stack inv s (lbUbAccessPair s (regPack s.reg).stackOffset).1
      (lbUbAccessPair s (regPack s.reg).stackOffset).2 = some [])
    (represents : dom.Represents inv values) (bitsValid : stack.Valid numeric)
    (sizeValid : NumericSizeValid values numeric s.reg) {index : Int}
    (lower : values (regPack s.reg).stackOffset + s.offset ≤ index)
    (upper : index < values (regPack s.reg).stackOffset + s.offset + widthValue values s.width)
    (inStack : 0 ≤ index ∧ index < ebpfTotalStackSize) : numeric index := by
  have covered : 0 ≤ s.offset ->
      widthValue values s.width ≤ values (regPack s.reg).stackNumericSize - s.offset ->
      numeric index := by
    intro nonnegative fits
    exact sizeValid index (by omega) (by omega)
  unfold checkStackContent at accepted
  dsimp only at accepted
  split at accepted
  · rename_i all
    exact numeric_of_allNum all represents bitsValid (by simpa using lower)
      (by simpa using upper) inStack
  · split at accepted
    · exact absurd (Option.some.inj accepted) (requireFalse_ne_nil represents _)
    · rename_i nonnegative
      split at accepted
      · rename_i imm form
        split at accepted
        · cases accepted
        · split at accepted
          · rename_i entailed
            have holds := dom.holds_of_entail (by simp) entailed represents
            simp only [LinearConstraint.holds_le, LinearExpression.eval_const,
              LinearExpression.eval_subtract, LinearExpression.eval_var] at holds
            apply covered (by omega)
            rw [form]
            exact holds
          · exact absurd (Option.some.inj accepted) (requireFalse_ne_nil represents _)
      · rename_i reg form
        split at accepted
        · rename_i entailed
          have holds := dom.holds_of_entail (by simp) entailed represents
          simp only [LinearConstraint.holds_le, LinearExpression.eval_const,
            LinearExpression.eval_subtract, LinearExpression.eval_var] at holds
          apply covered (by omega)
          rw [form]
          exact holds
        · exact absurd (Option.some.inj accepted) (requireFalse_ne_nil represents _)

/-- An accepted `ValidAccess` with a width other than zero is a safe access, in
every represented assignment and for every type that the register may have. -/
theorem validAccess_safe (context : CheckerContext) (state : EbpfDomain dom) (s : ValidAccess)
    (nonzero : s.width ≠ .imm ⟨0⟩) (accepted : Accepts context state (.validAccess s))
    {values : Variable -> Int} (represents : dom.Represents state.inv values) {type : TypeEncoding}
    (typed : values (regPack s.reg).type = type.value) {frame : Int}
    (single : (evalVariable dom state.inv (regPack r10StackPointer).stackOffset).singleton =
      some frame)
    (fits : IntType.int64.Fits frame)
    (fitsBelow : IntType.int64.Fits (frame - ebpfSubprogramStackSize))
    {numeric : Int -> Prop} (bitsValid : state.stack.Valid numeric)
    (sizeValid : type = .stack -> NumericSizeValid values numeric s.reg) :
    SafeAccess context values numeric s type := by
  rcases accepts_direct (by simp) accepted represents with ⟨final, run⟩
  have refused : checkAccess dom context state.stack state.inv s .uninit ≠ some [] := by
    intro same
    exact requireFalse_ne_nil represents _ (Option.some.inj same)
  have passed := checkOverTypes_accepted run refused represents typed
  have noComparison : isComparisonCheck s = false := decide_eq_false nonzero
  have frameValue : values (regPack r10StackPointer).stackOffset = frame :=
     Interval.eq_of_singleton single (mem_evalVariable dom represents _)
  cases type with
  | uninit => exact absurd passed refused
  | mapPrograms =>
      simp only [checkAccess, noComparison, Option.some.injEq] at passed
      exact absurd passed (requireFalse_ne_nil represents _)
  | map =>
      simp only [checkAccess, noComparison, Option.some.injEq] at passed
      exact absurd passed (requireFalse_ne_nil represents _)
  | num =>
      simp only [checkAccess, noComparison, Option.some.injEq] at passed
      simp only [SafeAccess]
      by_cases null : s.orNull = true
      · rw [if_neg (by simp), if_pos null] at passed
        refine ⟨null, ?_⟩
        simpa using holds_of_requireConstraint (by simp) passed represents
      · rw [if_neg (by simp), if_neg null] at passed
        exact absurd passed (requireFalse_ne_nil represents _)
  | ctx =>
      simp only [checkAccess, checkAccessContext, Option.some.injEq,
        List.append_eq_nil_iff] at passed
      have lower := holds_of_requireConstraint (by simp) passed.1 represents
      have upper := holds_of_requireConstraint (by simp) passed.2 represents
      simp only [LinearConstraint.holds_ge, LinearConstraint.holds_le,
        LinearExpression.eval_const, eval_lower, eval_upper] at lower upper
      exact ⟨lower, upper⟩
  | packet =>
      simp only [checkAccess, noComparison, Option.some.injEq] at passed
      have bounds := checkAccessPacket_accepted (by simp) passed represents
      rw [eval_lower, eval_upper] at bounds
      exact bounds
  | shared =>
      simp only [checkAccess, noComparison, Option.some.injEq, List.append_eq_nil_iff] at passed
      have bounds := checkAccessShared_accepted (by simp) passed.1 represents
      simp only [eval_lower, eval_upper] at bounds
      refine ⟨bounds.1, bounds.2, ?_⟩
      intro notNull
      have positive := passed.2
      rw [notNull, if_pos (by decide)] at positive
      simpa using holds_of_requireConstraint (by simp) positive represents
  | stack =>
      simp only [checkAccess, Option.bind_eq_bind, Option.bind_eq_some_iff] at passed
      rcases passed with ⟨messages, bounded, content⟩
      by_cases read : s.accessType = .read
      · rw [if_pos read, Option.map_eq_some_iff] at content
        rcases content with ⟨contentMessages, contentRun, none⟩
        rcases List.append_eq_nil_iff.mp none with ⟨rfl, rfl⟩
        have bounds := checkAccessStack_accepted (by simp) bounded single fits fitsBelow represents
        simp only [eval_lower, eval_upper] at bounds
        refine ⟨by rw [frameValue]; exact bounds.1, bounds.2, ?_⟩
        intro _ index lower upper nonnegative
        exact checkStackContent_accepted contentRun represents bitsValid (sizeValid rfl) lower upper
          ⟨nonnegative, by omega⟩
      · rw [if_neg read] at content
        cases content
        have bounds := checkAccessStack_accepted (by simp) bounded single fits fitsBelow represents
        simp only [eval_lower, eval_upper] at bounds
        exact ⟨by rw [frameValue]; exact bounds.1, bounds.2, fun isRead => absurd isRead read⟩

/-! ## Accesses on the interval domain -/

/-- A platform with two maps, one of them with keys of four bytes and values of
eight, and a context of 64 bytes. -/
def sampleContext : CheckerContext where
  contextDescriptorSize := 64
  mapDescriptor mapFd :=
    if mapFd = 1 then some ⟨0, 4, 8, 16, 0⟩ else if mapFd = 2 then some ⟨1, 4, 8, 1, 0⟩ else none
  isArray _ := false
  isHelperUsable _ := true
  makeCall func := ⟨func, [], false, false, [], [], []⟩
  noReturnIfSucceed _ := false
  isPrivileged := false
  strict := false
  allowDivisionByZero := true
  typeOwners := [.reg ⟨1⟩, .reg ⟨10⟩]

/-- The stack pointers in r10 and r1. -/
def stackEntries (frame offset : Int) : List (Variable × Int) :=
  [((regPack r10StackPointer).stackOffset, frame), ((regPack ⟨1⟩).type, TypeEncoding.stack.value),
    ((regPack ⟨1⟩).stackOffset, offset)]

/-- The state in which both pointers are known exactly. -/
def stackState (frame offset : Int) (nonNumerical : Bool) : EbpfDomain (intervalDomain Variable) :=
  ⟨IntervalDomain.exactly (stackEntries frame offset), ⟨fun _ => nonNumerical⟩⟩

/-- A read of eight bytes through r1. -/
def readEight : ValidAccess := ⟨1, ⟨1⟩, 0, .imm ⟨8⟩, false, .read⟩

/-- The read of the last eight bytes of a stack of numbers. -/
theorem validAccess_safe_top :
    SafeAccess sampleContext (IntervalDomain.tableValues (stackEntries 4096 4088))
    (fun _ => True) readEight .stack :=
  validAccess_safe sampleContext (stackState 4096 4088 false) readEight (by decide)
    (by unfold Accepts; decide) (IntervalDomain.represents_exactly _) (by decide)
    (show _ = some 4096 by decide) (by decide) (by decide) (fun _ _ _ => trivial)
    (fun _ _ _ _ => trivial)

/-- Two accesses that are accepted and leave the region, for frames that lie at
the ends of the range of numbers.  The bits are read from the bottom of the
stack on: below a frame at the bottom, bytes are readable of which none is known
to be a number.  A frame from 2^63 on is read as negative, and the whole stack
lies above it. -/
theorem validAccess_unsafe_at_extreme_frames :
    (exists (values : Variable -> Int) (numeric : Int -> Prop) (index : Int),
      (evalVariable _ (stackState 0 (-8) true).inv
      (regPack r10StackPointer).stackOffset).singleton = some 0 ∧
        Accepts sampleContext (stackState 0 (-8) true) (.validAccess readEight) ∧
        (intervalDomain Variable).Represents (stackState 0 (-8) true).inv values ∧
          values (regPack readEight.reg).type = TypeEncoding.stack.value ∧
            (stackState 0 (-8) true).stack.Valid numeric ∧
            NumericSizeValid values numeric readEight.reg ∧
              values (regPack readEight.reg).stackOffset + readEight.offset ≤ index ∧
                index < values (regPack readEight.reg).stackOffset + readEight.offset +
                  widthValue values readEight.width ∧ ¬ numeric index) ∧
      exists (values : Variable -> Int),
        (evalVariable _ (stackState (2 ^ 64 - 4096) 0 false).inv
        (regPack r10StackPointer).stackOffset).singleton =
          some (2 ^ 64 - 4096) ∧
        Accepts sampleContext (stackState (2 ^ 64 - 4096) 0 false) (.validAccess readEight) ∧
          (intervalDomain Variable).Represents (stackState (2 ^ 64 - 4096) 0 false).inv values ∧
            values (regPack readEight.reg).type = TypeEncoding.stack.value ∧
              ¬ SafeAccess sampleContext values (fun _ => True) readEight .stack := by
  constructor
  · refine ⟨_, fun _ => False, -8, by decide, ?_, IntervalDomain.represents_exactly _, by
      decide, ?_, ?_, by decide, by decide, id⟩
    · unfold Accepts
      decide
    · intro index _ numerical
      cases numerical
    · intro index lower upper
      have empty : IntervalDomain.tableValues (stackEntries 0 (-8))
          (regPack readEight.reg).stackNumericSize = 0 := by
        decide
      omega
  · refine ⟨_, by decide, ?_, IntervalDomain.represents_exactly _, by decide, ?_⟩
    · unfold Accepts
      decide
    · intro safe
      exact absurd safe.1 (by decide)

/-! ## Keys and values of maps -/

theorem mem_fdsOfRange {range : Int × Int} {mapFd : Int} :
    mapFd ∈ fdsOfRange range ↔ range.1 ≤ mapFd ∧ mapFd ≤ range.2 := by
  simp only [fdsOfRange, List.mem_map, List.mem_range]
  constructor
  · rintro ⟨step, below, rfl⟩
    omega
  · rintro ⟨lower, upper⟩
    exact ⟨(mapFd - range.1).toNat, by omega, by omega⟩

theorem joinOverMaps_singleton {context : CheckerContext} {field : MapDescriptor -> Nat}
    {fds : List Int}
    {result : Interval} {size : Int}
    (single : (joinOverMaps context field fds result).singleton = some size) :
    (forall n, n ∈ result -> n = size) ∧
      ∀ mapFd ∈ fds, exists map, context.mapDescriptor mapFd = some map ∧
      (field map : Int) = size := by
  induction fds generalizing result with
  | nil => exact ⟨fun n member => Interval.eq_of_singleton single member, fun _ member =>
    nomatch member⟩
  | cons first rest inductionHypothesis =>
      unfold joinOverMaps at single
      split at single
      · rename_i map described
        rcases inductionHypothesis single with ⟨ofResult, ofRest⟩
        refine ⟨fun n member => ofResult n (Interval.mem_join (Or.inl member)), ?_⟩
        intro mapFd member
        rcases List.mem_cons.mp member with rfl | inRest
        · exact ⟨map, described,
            ofResult _ (Interval.mem_join (Or.inr (Interval.mem_ofNumber.mpr rfl)))⟩
        · exact ofRest mapFd inRest
      · cases single

/-- If the maps of a register have one size, every map that the register may hold
exists and has it. -/
theorem getMapInterval_singleton {context : CheckerContext} {field : MapDescriptor -> Nat}
    {mapFdReg : Reg}
    {size : Int} (single : (getMapInterval dom context inv field mapFdReg).singleton = some size)
    {mapFd : Int} (member : mapFd ∈ evalVariable dom inv (regPack mapFdReg).mapFd) :
    exists map, context.mapDescriptor mapFd = some map ∧ (field map : Int) = size := by
  unfold getMapInterval at single
  split at single
  · rename_i range ranged
    apply (joinOverMaps_singleton single).2
    rw [mem_fdsOfRange]
    unfold getMapFdRange at ranged
    dsimp only at ranged
    split at ranged
    · rename_i lb ub _ lower upper _
      split at ranged
      · cases ranged
        have minimum := member.1
        have maximum := member.2
        rw [Bound.number_eq_some.mp lower, Bound.ofNumber_le_ofNumber] at minimum
        rw [Bound.number_eq_some.mp upper, Bound.ofNumber_le_ofNumber] at maximum
        exact ⟨minimum, maximum⟩
      · cases ranged
    · cases ranged
  · cases single

/-- The size of the argument that an assertion is about. -/
def argumentSize (s : ValidMapKeyValue) (map : MapDescriptor) : Nat := if s.key then map.keySize
    else map.valueSize

/-- The checks that an accepted `ValidMapKeyValue` has passed, for the type that
the register has and any map that it may be used with. -/
theorem validMapKeyValue_accepted {context : CheckerContext} {state : EbpfDomain dom}
    {s : ValidMapKeyValue}
    (accepted : Accepts context state (.validMapKeyValue s))
    (represents : dom.Represents state.inv values)
    {type : TypeEncoding} (typed : values (regPack s.accessReg).type = type.value) {mapFd : Int}
    (member : mapFd ∈ evalVariable dom state.inv (regPack s.mapFdReg).mapFd) :
    exists map, context.mapDescriptor mapFd = some map ∧
      checkKeyValue dom context state.stack state.inv s (argumentSize s map) type = [] := by
  rcases accepts_direct (by simp) accepted represents with ⟨final, run⟩
  simp only [checkDirect, checkValidMapKeyValue] at run
  split at run
  · simp only [Option.some.injEq, Prod.mk.injEq] at run
    exact absurd run.2 (requireFalse_ne_nil represents _)
  · rename_i width single
    have described : exists map, context.mapDescriptor mapFd = some map ∧
        (argumentSize s map : Int) = width := by
      split at single
      · rename_i key
        simpa only [argumentSize, if_pos key] using getMapInterval_singleton single member
      · rename_i value
        simpa only [argumentSize, if_neg value] using getMapInterval_singleton single member
    rcases described with ⟨map, found, rfl⟩
    refine ⟨map, found, ?_⟩
    split at run
    · apply Option.some.inj
      refine checkOverTypes_accepted run ?_ represents typed
      intro same
      exact requireFalse_ne_nil represents _ (Option.some.inj same)
    · cases run

end Ebpf
end Prevail
