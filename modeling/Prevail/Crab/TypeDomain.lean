import Prevail.Crab.Variable

namespace Prevail
namespace Crab

/-!
# Types of registers in a numerical state

`TypeDomain` of `type_domain.cpp`.  The type of a register is the value of a
variable, and a set of types is an interval of it.

Some variables matter only for one type: the packet offset of a register says
nothing while the register holds a number.  An assignment is therefore read up
to the variables that its own types make irrelevant, and `selectively_join`
keeps the value of such a variable from the only side on which its type occurs.
The file descriptor of a map has two types and is read as irrelevant here.
-/

section Queries

variable (dom : NumAbsDomain Variable) (inv : dom.State)

/-- The interval of one variable. -/
def evalVariable (target : Variable) : Interval := dom.evalInterval inv (.var target)

omit inv in
theorem mem_evalVariable {inv : dom.State} {values : Variable -> Int}
    (represents : dom.Represents inv values)
    (target : Variable) : values target ∈ evalVariable dom inv target := by
  have member : (LinearExpression.var target).eval values ∈ _ := dom.mem_evalInterval represents
  rwa [LinearExpression.eval_var] at member

def sameType (a b : Reg) :
    Bool := dom.entail inv (.eq (.var (regPack a).type) (.var (regPack b).type))

def impliesType (a b : LinearConstraint Variable) : Bool := dom.entail (dom.addConstraint a inv) b

/-- The type variable of a register equals a type. -/
def typeIs (reg : Reg) (type : TypeEncoding) : LinearConstraint Variable :=
  .eq (.var (regPack reg).type) (.const type.value)

/-- The type variable of a register differs from a type. -/
def typeIsNot (reg : Reg) (type : TypeEncoding) : LinearConstraint Variable :=
  .ne (.var (regPack reg).type) (.const type.value)

/-- The type variable of a register is at least a type. -/
def typeAtLeast (reg : Reg) (type : TypeEncoding) : LinearConstraint Variable :=
  .ge (.var (regPack reg).type) (.const type.value)

/-- The type variable of a register is at most a type. -/
def typeAtMost (reg : Reg) (type : TypeEncoding) : LinearConstraint Variable :=
  .le (.var (regPack reg).type) (.const type.value)

section TypeConstraints

variable {reg : Reg} {type : TypeEncoding}

omit dom inv

@[simp] theorem wellFormed_typeIs : (typeIs reg type).expression.WellFormed :=
  LinearConstraint.wellFormed_eq (LinearExpression.wellFormed_var _)

@[simp] theorem wellFormed_typeAtLeast : (typeAtLeast reg type).expression.WellFormed :=
  LinearConstraint.wellFormed_ge (LinearExpression.wellFormed_const _)

@[simp] theorem wellFormed_typeAtMost : (typeAtMost reg type).expression.WellFormed :=
  LinearConstraint.wellFormed_le (LinearExpression.wellFormed_var _)

@[simp] theorem wellFormed_typeIsNot : (typeIsNot reg type).expression.WellFormed :=
  LinearConstraint.wellFormed_ne (LinearExpression.wellFormed_var _)

theorem admissible_typeAtLeast : (typeAtLeast reg type).Admissible :=
  .of_kind wellFormed_typeAtLeast (by simp [typeAtLeast, LinearConstraint.ge, LinearConstraint.le])

theorem admissible_typeIsNot : (typeIsNot reg type).Admissible := by
  refine ⟨wellFormed_typeIsNot, fun _ term member => ?_⟩
  have only : term = ((regPack reg).type, 1) := List.mem_singleton.mp member
  rw [only]
  exact isUnit_one

end TypeConstraints

def isInGroup (reg : Reg) (group : TypeGroup) : Bool :=
  match group with
  | .number => dom.entail inv (typeIs reg .num)
  | .mapFd => dom.entail inv (typeIs reg .map)
  | .mapFdPrograms => dom.entail inv (typeIs reg .mapPrograms)
  | .ctx => dom.entail inv (typeIs reg .ctx)
  | .packet => dom.entail inv (typeIs reg .packet)
  | .stack => dom.entail inv (typeIs reg .stack)
  | .shared => dom.entail inv (typeIs reg .shared)
  | .mem => dom.entail inv (typeAtLeast reg .packet)
  | .memOrNum => dom.entail inv (typeAtLeast reg .num) && dom.entail inv (typeIsNot reg .ctx)
  | .pointer => dom.entail inv (typeAtLeast reg .ctx)
  | .ptrOrNum => dom.entail inv (typeAtLeast reg .num)
  | .stackOrPacket => dom.entail inv (typeAtLeast reg
    .packet) && dom.entail inv (typeAtMost reg .stack)
  | .singletonPtr => dom.entail inv (typeAtLeast reg .ctx) && dom.entail inv (typeAtMost reg .stack)

/-- The types that `join_over_types` visits: the one that stands for no
knowledge, or all types of the interval.  `interval_t::bound` throws for an
interval without any type. -/
def visitedTypes (types : Interval) : Option (List TypeEncoding) :=
  if types.IsBottom then some []
  else if types.IsTop then some [.uninit]
  else
    let bounded := (Interval.range TypeEncoding.uninit.value TypeEncoding.shared.value).meet types
    if bounded.IsBottom then none
    else
      match bounded.lb.number, bounded.ub.number with
      | some lb, some ub => some (TypeEncoding.iterate lb ub)
      | _, _ => none

end Queries

section Join

variable (dom : NumAbsDomain Variable)

/-- The types and kinds that `selectively_join_based_on_type` treats apart. -/
def typeSpecificKinds : List (TypeEncoding × DataKind) :=
  [(.ctx, .ctxOffsets), (.map, .mapFds), (.mapPrograms, .mapFds), (.packet, .packetOffsets),
    (.shared, .sharedOffsets), (.stack, .stackOffsets), (.shared, .sharedRegionSizes),
    (.stack, .stackNumericSizes)]

/-- `std::map::emplace`, which keeps a value that is present. -/
def emplace (entries : List (Variable × Interval)) (key : Variable) (interval : Interval) :
    List (Variable × Interval) :=
  if entries.any (fun entry => decide (entry.1 = key)) then entries
    else entries ++ [(key, interval)]

/-- The operations of a numerical state that the join of types uses. -/
structure JoinOperations (S : Type) where
  isBottom : S -> Bool
  evalVariable : S -> Variable -> Interval
  set : Variable -> Interval -> S -> S
  join : S -> S -> S

namespace JoinOperations

variable {S : Type} (ops : JoinOperations S)

def hasType (inv : S) (owner : Owner) (type : TypeEncoding) : Bool :=
  decide (type.value ∈ ops.evalVariable inv (.of owner .types))

def addExtraInvariant (dst src : S) (owner : Owner) (type : TypeEncoding) (kind : DataKind)
    (extraInvariants : List (Variable × Interval)) : List (Variable × Interval) :=
  let dstHasType := ops.hasType dst owner type
  let srcHasType := ops.hasType src owner type
  if dstHasType && !srcHasType then
    emplace extraInvariants (.of owner kind) (ops.evalVariable dst (.of owner kind))
  else if !dstHasType && srcHasType then
    emplace extraInvariants (.of owner kind) (ops.evalVariable src (.of owner kind))
  else extraInvariants

/-- The extra invariants of all owners of a type variable. -/
def extraInvariants (owners : List Owner) (dst src : S) : List (Variable × Interval) :=
  owners.foldl
    (fun entries owner =>
      typeSpecificKinds.foldl
        (fun entries typed => ops.addExtraInvariant dst src owner typed.1 typed.2 entries) entries)
    []

/-- The loop that adds the extra invariants.  The map is read by the numbers of
its variables.  This is the order in which they were emplaced, as the owners come
by the numbers of their type variables and the kinds of one owner as they are
numbered. -/
def setAll (entries : List (Variable × Interval)) (state : S) : S :=
  entries.foldl (fun state entry => ops.set entry.1 entry.2 state) state

/-- `TypeDomain::selectively_join_based_on_type`, where `owners` are the owners
of the type variables that exist. -/
def selectivelyJoin (owners : List Owner) (dst src : S) : S :=
  ops.setAll (if ops.isBottom dst then [] else ops.extraInvariants owners dst src)
    (ops.join dst src)

end JoinOperations

def NumAbsDomain.joinOperations (dom : NumAbsDomain Variable) : JoinOperations dom.State where
  isBottom := dom.isBottom
  evalVariable := evalVariable dom
  set := dom.set
  join := dom.join

/-- The loop of `join_over_types`. -/
def joinVisited (owners : List Owner) (inv : dom.State)
    (transition : TypeEncoding -> dom.State -> dom.State) :
    List TypeEncoding -> dom.State -> dom.State
  | [], result => result
  | type :: rest, result =>
      joinVisited owners inv transition rest
        (dom.joinOperations.selectivelyJoin owners result (transition type inv))

def joinOverTypes (owners : List Owner) (inv : dom.State) (reg : Reg)
    (transition : TypeEncoding -> dom.State -> dom.State) : Option dom.State :=
  let types := evalVariable dom inv (regPack reg).type
  if types.IsTop ∧ ¬ types.IsBottom then some (transition .uninit inv)
  else (visitedTypes types).map
    (fun visited => joinVisited dom owners inv transition visited dom.bottom)

end Join

end Crab
end Prevail
