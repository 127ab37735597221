import Prevail.Ebpf.CheckerSound

namespace Prevail
namespace Ebpf

open Crab

/-!
# What the maps of a range agree upon

`get_map_type` and `get_map_inner_map_fd` walk over the file descriptors that a
register may hold and give up at the first map that does not agree with the one
they started from.  The first compares the types.  The second starts from the
inner map of the first descriptor, and compares it with the types of the others.

Both are one walk that reads one member of the first descriptor and another one
of each later descriptor; it answers with the number of the first member if all
numbers of the second member are equal to it.
-/

/-- The walk over a range, which starts from one member and compares it with
another. -/
def agreement (context : CheckerContext) (start compared : MapDescriptor -> Nat) :
    List Int -> Option Nat -> Option Nat
  | [], found => found
  | mapFd :: rest, found =>
      (context.mapDescriptor mapFd).bind (fun map =>
        match found with
        | none => agreement context start compared rest (some (start map))
        | some number => if compared map = number then agreement context start compared rest found else none)

/-- The loop of `get_map_inner_map_fd`. -/
def commonInnerMapFd (context : CheckerContext) : List Int -> Option Nat -> Option Nat :=
  agreement context MapDescriptor.innerMapFd MapDescriptor.type

def getMapInnerMapFd (dom : NumAbsDomain Variable) (context : CheckerContext) (inv : dom.State)
    (mapFdReg : Reg) :
    Option Nat :=
  (getMapFdRange dom inv mapFdReg).bind
    (fun range => commonInnerMapFd context (fdsOfRange range) none)

variable {context : CheckerContext} {start compared : MapDescriptor -> Nat}

/-- A file descriptor whose map exists and has the given number in one of its
members. -/
def HasNumber (context : CheckerContext) (member : MapDescriptor -> Nat) (number : Nat)
    (mapFd : Int) : Prop :=
  exists map, context.mapDescriptor mapFd = some map ∧ member map = number

/-- Once the walk has a number it keeps it exactly if all maps to come agree. -/
theorem agreement_some_iff {fds : List Int} {number value : Nat} :
    agreement context start compared fds (some number) = some value ↔
      number = value ∧ ∀ mapFd ∈ fds, HasNumber context compared value mapFd := by
  induction fds with
  | nil => simp only [agreement, Option.some.injEq, List.not_mem_nil, false_implies,
    implies_true, and_true]
  | cons mapFd rest inductionHypothesis =>
      rw [agreement, Option.bind_eq_some_iff, List.forall_mem_cons]
      constructor
      · intro walked
        rcases walked with ⟨map, described, continued⟩
        dsimp only at continued
        split at continued
        · rename_i agrees
          rcases inductionHypothesis.mp continued with ⟨same, later⟩
          exact ⟨same, ⟨map, described, agrees.trans same⟩, later⟩
        · cases continued
      · intro all
        rcases all with ⟨same, ⟨map, described, agrees⟩, later⟩
        refine ⟨map, described, ?_⟩
        dsimp only
        rw [if_pos (agrees.trans same.symm)]
        exact inductionHypothesis.mpr ⟨same, later⟩

/-- The answer of the walk over the maps of a list that is not empty. -/
theorem agreement_cons_iff {mapFd : Int} {rest : List Int} {value : Nat} :
    agreement context start compared (mapFd :: rest) none = some value ↔
      HasNumber context start value mapFd ∧
      ∀ later ∈ rest, HasNumber context compared value later := by
  rw [agreement, Option.bind_eq_some_iff]
  simp only [agreement_some_iff, HasNumber, <- and_assoc, exists_and_right]

/-! ## Ranges -/

/-- A range that is not empty begins with its lower end. -/
theorem fdsOfRange_eq_cons {range : Int × Int} (ordered : range.1 ≤ range.2) :
    fdsOfRange range = range.1 :: fdsOfRange (range.1 + 1, range.2) := by
  rcases range with ⟨lower, upper⟩
  dsimp only at ordered
  have count : (upper - lower + 1).toNat = (upper - (lower + 1) + 1).toNat + 1 := by omega
  rw [fdsOfRange, fdsOfRange, count, List.range_succ_eq_map, List.map_cons, List.map_map]
  congr 1
  · simp
  · apply List.map_congr_left
    intro step _
    simp only [Function.comp_apply, Nat.succ_eq_add_one, Nat.cast_add, Nat.cast_one]
    omega

theorem fdsOfRange_eq_nil {range : Int × Int} (empty : range.2 < range.1) :
    fdsOfRange range = [] := by
  apply List.eq_nil_iff_forall_not_mem.mpr
  intro mapFd member
  have bounds := mem_fdsOfRange.mp member
  omega

/-! ## Inner maps -/

/-- The descriptors of a range are all there. -/
def AllDescribed (context : CheckerContext) (range : Int × Int) : Prop :=
  ∀ mapFd ∈ fdsOfRange range, context.mapDescriptor mapFd ≠ none

/-- The maps of a range after the first have in one member the inner map of the
first. -/
def LaterHaveInner (context : CheckerContext) (range : Int × Int)
    (member : MapDescriptor -> Nat) : Prop :=
  forall first, context.mapDescriptor range.1 = some first ->
    ∀ later ∈ fdsOfRange (range.1 + 1, range.2), HasNumber context member first.innerMapFd later

/-- All maps of a range have descriptors with the given inner map. -/
def AllHaveInner (context : CheckerContext) (range : Int × Int) (innerMapFd : Nat) : Prop :=
  ∀ mapFd ∈ fdsOfRange range, HasNumber context MapDescriptor.innerMapFd innerMapFd mapFd

theorem AllHaveInner.described {range : Int × Int} {innerMapFd : Nat}
    (common : AllHaveInner context range innerMapFd) : AllDescribed context range := by
  intro mapFd member absent
  rcases common mapFd member with ⟨map, described, _⟩
  rw [absent] at described
  cases described

/-- Over a range whose first map exists, the walk finds exactly the inner map of
the first one, if the types of the others are equal to it. -/
theorem commonInnerMapFd_iff {range : Int × Int} (ordered : range.1 ≤ range.2)
    {first : MapDescriptor} (described : context.mapDescriptor range.1 = some first) {value : Nat} :
    commonInnerMapFd context (fdsOfRange range) none = some value ↔
      first.innerMapFd = value ∧ LaterHaveInner context range MapDescriptor.type := by
  rw [commonInnerMapFd, fdsOfRange_eq_cons ordered, agreement_cons_iff]
  constructor
  · intro agreed
    rcases agreed with ⟨⟨map, sameMap, inner⟩, later⟩
    obtain rfl : first = map := Option.some.inj (described.symm.trans sameMap)
    refine ⟨inner, fun other sameOther => ?_⟩
    obtain rfl : first = other := Option.some.inj (described.symm.trans sameOther)
    rw [inner]
    exact later
  · intro agreed
    rcases agreed with ⟨rfl, later⟩
    exact ⟨⟨first, described, rfl⟩, later first described⟩

theorem allHaveInner_iff {range : Int × Int} (ordered : range.1 ≤ range.2) {first : MapDescriptor}
    (described : context.mapDescriptor range.1 = some first) {value : Nat} :
    AllHaveInner context range value ↔
      first.innerMapFd = value ∧ LaterHaveInner context range MapDescriptor.innerMapFd := by
  rw [AllHaveInner, fdsOfRange_eq_cons ordered, List.forall_mem_cons]
  constructor
  · intro common
    rcases common with ⟨⟨map, sameMap, inner⟩, later⟩
    obtain rfl : first = map := Option.some.inj (described.symm.trans sameMap)
    refine ⟨inner, fun other sameOther => ?_⟩
    obtain rfl : first = other := Option.some.inj (described.symm.trans sameOther)
    rw [inner]
    exact later
  · intro common
    rcases common with ⟨rfl, later⟩
    exact ⟨⟨first, described, rfl⟩, later first described⟩

/-- If a descriptor is missing, the walk gives up. -/
theorem commonInnerMapFd_undescribed {range : Int × Int} (missing : ¬ AllDescribed context range) :
    commonInnerMapFd context (fdsOfRange range) none = none := by
  rcases not_forall.mp missing with ⟨mapFd, atMapFd⟩
  rcases Classical.not_imp.mp atMapFd with ⟨member, absent⟩
  apply Option.eq_none_iff_forall_ne_some.mpr
  intro value agreed
  have ordered : range.1 ≤ range.2 := by
    have bounds := mem_fdsOfRange.mp member
    omega
  rw [fdsOfRange_eq_cons ordered] at agreed member
  rcases agreement_cons_iff.mp agreed with ⟨⟨first, described, _⟩, later⟩
  rcases List.mem_cons.mp member with rfl | inRest
  · exact absent (by rw [described]; exact Option.some_ne_none first)
  · rcases later mapFd inRest with ⟨map, described, _⟩
    exact absent (by rw [described]; exact Option.some_ne_none map)

/-- The answer of `get_map_inner_map_fd` is the inner map that all maps of the
range share exactly if the range is not empty and the types of the maps after the
first are the inner map of the first just when their inner maps are. -/
theorem getMapInnerMapFd_exact_iff {dom : NumAbsDomain Variable} {inv : dom.State} {mapFdReg : Reg}
    {range : Int × Int} (found : getMapFdRange dom inv mapFdReg = some range) :
    (forall value, getMapInnerMapFd dom context inv mapFdReg = some value ↔
      AllHaveInner context range value) ↔ range.1 ≤ range.2 ∧
        (AllDescribed context range ->
          (LaterHaveInner context range MapDescriptor.type ↔
          LaterHaveInner context range MapDescriptor.innerMapFd)) := by
  rw [getMapInnerMapFd, found, Option.bind_some]
  by_cases ordered : range.1 ≤ range.2
  · by_cases described : AllDescribed context range
    · have member : range.1 ∈ fdsOfRange range := mem_fdsOfRange.mpr ⟨le_refl _, ordered⟩
      rcases Option.ne_none_iff_exists'.mp (described range.1 member) with ⟨first, firstDescribed⟩
      simp only [commonInnerMapFd_iff ordered firstDescribed,
        allHaveInner_iff ordered firstDescribed, ordered, described, true_and, true_implies,
        and_congr_right_iff, forall_eq']
    · simp only [commonInnerMapFd_undescribed described, ordered, described, true_and,
        false_implies, iff_true]
      intro value
      constructor
      · intro impossible
        cases impossible
      · intro common
        exact absurd (AllHaveInner.described common) described
  · have empty := fdsOfRange_eq_nil (not_le.mp ordered)
    simp only [ordered, false_and, iff_false, AllHaveInner, empty, List.not_mem_nil, false_implies,
      implies_true, iff_true]
    intro everything
    exact nomatch everything 0

/-! ## Two maps of maps with one inner map -/

/-- A platform on which all maps have the type three and the inner map seven. -/
def mapsOfMaps : CheckerContext where
  contextDescriptorSize := 0
  mapDescriptor _ := some ⟨3, 4, 8, 16, 7⟩
  isArray _ := false
  isHelperUsable _ := false
  makeCall := sampleContext.makeCall
  noReturnIfSucceed _ := false
  isPrivileged := false
  strict := false
  allowDivisionByZero := false
  typeOwners := []

/-- A state in which r1 is one of the maps of a range. -/
def mapsInR1 (lower upper : Int) : (intervalDomain Variable).State :=
  (intervalDomain Variable).set (regPack ⟨1⟩).mapFd (.range lower upper) (IntervalDomain.exactly [])

/-- The same platform, where the number of the type is that of the inner map. -/
def mapsTypedAsInner : CheckerContext :=
  { mapsOfMaps with mapDescriptor := fun _ => some ⟨7, 4, 8, 16, 7⟩ }

/-- Two maps with one inner map, which the function finds on that platform. -/
theorem getMapInnerMapFd_two_maps :
    getMapInnerMapFd (intervalDomain Variable) mapsTypedAsInner (mapsInR1 1 2) ⟨1⟩ = some 7 ∧
      (getMapInnerMapFd (intervalDomain Variable) mapsTypedAsInner (mapsInR1 1 2) ⟨1⟩ = some 7 ↔
        AllHaveInner mapsTypedAsInner (1, 2) 7) := by
  have found : getMapFdRange (intervalDomain Variable) (mapsInR1 1 2) ⟨1⟩ = some (1, 2) := by decide
  refine ⟨by decide, (getMapInnerMapFd_exact_iff found).mpr ⟨by decide, fun _ => ?_⟩ 7⟩
  have same : forall member : MapDescriptor -> Nat, member ⟨7, 4, 8, 16, 7⟩ = 7 ->
      LaterHaveInner mapsTypedAsInner (1, 2) member := by
    intro member isInner first described later _
    obtain rfl := Option.some.inj described
    exact ⟨_, rfl, isInner⟩
  exact iff_of_true (same _ rfl) (same _ rfl)

/-- Two maps with one inner map, for which the function gives up. -/
theorem not_getMapInnerMapFd_exact :
    getMapFdRange (intervalDomain Variable) (mapsInR1 1 2) ⟨1⟩ = some (1, 2) ∧
      AllHaveInner mapsOfMaps (1, 2) 7 ∧
        getMapInnerMapFd (intervalDomain Variable) mapsOfMaps (mapsInR1 1 2) ⟨1⟩ = none := by
  refine ⟨by decide, fun mapFd _ => ⟨_, rfl, rfl⟩, by decide⟩

end Ebpf
end Prevail
