import Prevail.Crab.SplitDbm.AddBottom
import Prevail.Crab.TypeDomain

namespace Prevail
namespace Crab

/-!
# The join of types

`selectively_join_based_on_type` keeps the value of a variable that matters for
one type only from the single side on which that type occurs.  The join is here
a function of the four operations that it uses, so that it can be performed on
difference bounds as well as on any numerical domain.

The descriptor of a map matters for two types.  The join remembers it from the
side of one of them and writes it over the descriptors of the other side, which
is sound only where the other side has no further descriptors of maps.
-/

/-- The operations of difference bounds. -/
def AddBottom.joinOperations [LinearOrder Variable] : JoinOperations (AddBottom Variable) where
  isBottom := AddBottom.isBottom
  evalVariable state target := state.evalInterval (.var target)
  set := AddBottom.set
  join := AddBottom.join

/-! ## What is remembered -/

namespace JoinOperations

variable {S : Type} (ops : JoinOperations S)

/-- The only side on which a type occurs. -/
def onlySide (dst src : S) (owner : Owner) (type : TypeEncoding) : Option S :=
  if ops.hasType dst owner type && !ops.hasType src owner type then some dst
  else if !ops.hasType dst owner type && ops.hasType src owner type then some src
  else none

/-- The side from which a variable is remembered: that of the first of its
types that occurs on one side only. -/
def remembered (dst src : S) (owner : Owner) (kind : DataKind) : Option S :=
  (typeSpecificKinds.filter (fun typed => decide (typed.2 = kind))).findSome?
    (fun typed => ops.onlySide dst src owner typed.1)

/-- What the join emplaces for some types of an owner, in this order. -/
def candidates (dst src : S) (owner : Owner) (types : List (TypeEncoding × DataKind)) :
    List (Variable × Interval) :=
  types.filterMap (fun typed => (ops.onlySide dst src owner typed.1).map
    (fun side => (.of owner typed.2, ops.evalVariable side (.of owner typed.2))))

section Remember

variable {ops} {dst src side : S} {owner : Owner} {kind : DataKind} {type : TypeEncoding}

theorem onlySide_eq_some (found : ops.onlySide dst src owner type = some side) :
    (side = dst ∧ ops.hasType dst owner type = true ∧ ops.hasType src owner type = false) ∨
      (side = src ∧ ops.hasType src owner type = true ∧ ops.hasType dst owner type = false) := by
  unfold onlySide at found
  split at found
  · rename_i onDst
    rw [Bool.and_eq_true, Bool.not_eq_true'] at onDst
    exact Or.inl ⟨(Option.some.inj found).symm, onDst⟩
  · split at found
    · rename_i onSrc
      rw [Bool.and_eq_true, Bool.not_eq_true'] at onSrc
      exact Or.inr ⟨(Option.some.inj found).symm, onSrc.2, onSrc.1⟩
    · cases found

theorem addExtraInvariant_eq (entries : List (Variable × Interval)) :
    ops.addExtraInvariant dst src owner type kind entries =
      match ops.onlySide dst src owner type with
      | some side => emplace entries (.of owner kind) (ops.evalVariable side (.of owner kind))
      | none => entries := by
  unfold addExtraInvariant onlySide
  dsimp only
  split
  · rfl
  · split <;> rfl

theorem candidates_cons (typed : TypeEncoding × DataKind) (types : List (TypeEncoding × DataKind)) :
    ops.candidates dst src owner (typed :: types) =
      ((ops.onlySide dst src owner typed.1).map
        (fun side => (.of owner typed.2, ops.evalVariable side (.of owner typed.2)))).toList ++
          ops.candidates dst src owner types := by
  unfold candidates
  rw [List.filterMap_cons]
  cases ops.onlySide dst src owner typed.1 <;> rfl

theorem foldl_addExtraInvariant (types : List (TypeEncoding × DataKind))
    (entries : List (Variable × Interval)) :
    types.foldl (fun entries typed => ops.addExtraInvariant dst src owner typed.1 typed.2 entries)
    entries =
      (ops.candidates dst src owner types).foldl
      (fun entries found => emplace entries found.1 found.2) entries := by
  induction types generalizing entries with
  | nil => rfl
  | cons typed rest inductionHypothesis =>
      rw [List.foldl_cons, inductionHypothesis, addExtraInvariant_eq, candidates_cons]
      cases ops.onlySide dst src owner typed.1 <;> rfl

theorem extraInvariants_eq (owners : List Owner) : ops.extraInvariants owners dst src =
    (owners.flatMap (fun owner => ops.candidates dst src owner typeSpecificKinds)).foldl
      (fun entries found => emplace entries found.1 found.2) [] := by
  rw [extraInvariants, List.foldl_flatMap]
  simp only [foldl_addExtraInvariant]

theorem lookup_toList_of_ne {found : Option S} {key other : Variable} {value : S -> Interval}
    (different : key ≠ other) :
    (found.map (fun side => (other, value side))).toList.lookup key = none := by
  cases found with
  | none => rfl
  | some side =>
      rw [Option.map_some, Option.toList_some, List.lookup_cons, beq_false_of_ne different]
      rfl

/-- The first value of a variable among the candidates of an owner. -/
theorem lookup_candidates (types : List (TypeEncoding × DataKind)) (other : Owner) :
    (ops.candidates dst src other types).lookup (.of owner kind) =
      if other = owner then
        ((types.filter (fun typed => decide (typed.2 = kind))).findSome?
          (fun typed => ops.onlySide dst src owner typed.1)).map
          (fun side => ops.evalVariable side (.of owner kind))
      else none := by
  induction types with
  | nil => simp [candidates]
  | cons typed rest inductionHypothesis =>
      rw [candidates_cons, List.lookup_append, inductionHypothesis]
      by_cases sameOwner : other = owner
      · subst sameOwner
        rw [if_pos rfl, if_pos rfl]
        by_cases sameKind : typed.2 = kind
        · subst sameKind
          rw [List.filter_cons_of_pos (by simp), List.findSome?_cons]
          cases ops.onlySide dst src other typed.1 <;> simp
        · rw [List.filter_cons_of_neg (by simp [sameKind])]
          have different : Variable.of other kind ≠ Variable.of other typed.2 :=
            fun same => sameKind (Variable.of.inj same).2.symm
          rw [lookup_toList_of_ne different, Option.none_or]
      · rw [if_neg sameOwner, if_neg sameOwner]
        have different : Variable.of owner kind ≠ Variable.of other typed.2 :=
          fun same => sameOwner (Variable.of.inj same).1.symm
        rw [lookup_toList_of_ne different, Option.none_or]

/-- The first value of a variable among all candidates. -/
theorem lookup_flatMap_candidates (owners : List Owner) :
    (owners.flatMap (fun owner => ops.candidates dst src owner typeSpecificKinds)).lookup
      (.of owner kind) =
      if owner ∈ owners then
        (ops.remembered dst src owner kind).map (fun side => ops.evalVariable side (.of owner kind))
      else none := by
  induction owners with
  | nil => rfl
  | cons first rest inductionHypothesis =>
      rw [List.flatMap_cons, List.lookup_append, inductionHypothesis, lookup_candidates]
      by_cases same : first = owner
      · subst same
        rw [if_pos rfl, if_pos List.mem_cons_self, ← remembered]
        split
        · cases ops.remembered dst src first kind <;> rfl
        · rw [Option.or_none]
      · rw [if_neg same, Option.none_or]
        simp [List.mem_cons, Ne.symm same]

end Remember

/-! ## Loops of `emplace` -/

section Emplace

variable {entries found : List (Variable × Interval)} {key : Variable} {interval : Interval}

theorem emplace_of_mem (present : key ∈ entries.map Prod.fst) :
    emplace entries key interval = entries := by
  unfold emplace
  rw [if_pos]
  rcases List.mem_map.mp present with ⟨old, member, same⟩
  exact List.any_eq_true.mpr ⟨old, member, decide_eq_true same⟩

theorem emplace_of_not_mem (absent : key ∉ entries.map Prod.fst) :
    emplace entries key interval = entries ++ [(key, interval)] := by
  unfold emplace
  rw [if_neg]
  intro isPresent
  rcases List.any_eq_true.mp isPresent with ⟨old, member, same⟩
  exact absent (List.mem_map.mpr ⟨old, member, of_decide_eq_true same⟩)

theorem lookup_cons_eq_some {first : Variable × Interval} {rest : List (Variable × Interval)} :
    (first :: rest).lookup key = some interval ↔
      (key = first.1 ∧ first.2 = interval) ∨ (key ≠ first.1 ∧ rest.lookup key = some interval) := by
  rw [List.lookup_cons]
  by_cases same : key = first.1
  · simp [same]
  · rw [beq_false_of_ne same]
    simp [same]

/-- A loop of `emplace` keeps the first value of each key. -/
theorem mem_foldl_emplace {entry : Variable × Interval} :
    entry ∈ found.foldl (fun entries found => emplace entries found.1 found.2) entries ↔
      entry ∈ entries ∨ (entry.1 ∉ entries.map Prod.fst ∧ found.lookup entry.1 = some entry.2) := by
  induction found generalizing entries with
  | nil => simp
  | cons first rest inductionHypothesis =>
      rw [List.foldl_cons, inductionHypothesis, lookup_cons_eq_some]
      by_cases present : first.1 ∈ entries.map Prod.fst
      · rw [emplace_of_mem present]
        by_cases same : entry.1 = first.1
        · simp [same, present]
        · simp [same]
      · rw [emplace_of_not_mem present, List.mem_append, List.mem_singleton, List.map_append,
          List.mem_append]
        rcases entry with ⟨key, interval⟩
        by_cases same : key = first.1
        · subst same
          have fresh : (first.1, interval) ∉ entries :=
            fun member => present (List.mem_map.mpr ⟨_, member, rfl⟩)
          simp [fresh, present, Prod.ext_iff, eq_comm]
        · have other : (key, interval) ≠ (first.1, first.2) :=
            fun equal => same (congrArg Prod.fst equal)
          simp [same, other]

theorem nodup_foldl_emplace (distinct : (entries.map Prod.fst).Nodup) :
    ((found.foldl (fun entries found => emplace entries found.1 found.2) entries).map
      Prod.fst).Nodup := by
  induction found generalizing entries with
  | nil => exact distinct
  | cons first rest inductionHypothesis =>
      rw [List.foldl_cons]
      apply inductionHypothesis
      by_cases present : first.1 ∈ entries.map Prod.fst
      · rw [emplace_of_mem present]
        exact distinct
      · rw [emplace_of_not_mem present, List.map_append]
        exact List.nodup_append.mpr ⟨distinct, List.nodup_singleton _,
          fun old member other isOther same =>
          present (List.mem_singleton.mp isOther ▸ same ▸ member)⟩

end Emplace

section Extra

variable {ops} {dst src : S} {owners : List Owner}

theorem mem_extraInvariants {owner : Owner} {kind : DataKind} {interval : Interval} :
    (.of owner kind, interval) ∈ ops.extraInvariants owners dst src ↔
      owner ∈ owners ∧ exists side, ops.remembered dst src owner kind = some side ∧
        interval = ops.evalVariable side (.of owner kind) := by
  rw [extraInvariants_eq, mem_foldl_emplace, lookup_flatMap_candidates]
  split
  · rename_i member
    simp [member, eq_comm]
  · rename_i notMember
    simp [notMember]

theorem extraInvariants_of {entry : Variable × Interval}
    (member : entry ∈ ops.extraInvariants owners dst src) :
    exists owner kind, entry.1 = .of owner kind := by
  rw [extraInvariants_eq, mem_foldl_emplace] at member
  rcases member with impossible | ⟨_, found⟩
  · cases impossible
  · rcases List.lookup_eq_some_iff.mp found with ⟨front, rest, split, _⟩
    have inside : entry ∈ owners.flatMap
        (fun owner => ops.candidates dst src owner typeSpecificKinds) := by
      rw [split]
      exact List.mem_append_right _ List.mem_cons_self
    rcases List.mem_flatMap.mp inside with ⟨owner, _, isCandidate⟩
    rcases List.mem_filterMap.mp isCandidate with ⟨typed, _, same⟩
    rcases Option.map_eq_some_iff.mp same with ⟨side, _, rfl⟩
    exact ⟨owner, typed.2, rfl⟩

theorem nodup_extraInvariants : ((ops.extraInvariants owners dst src).map Prod.fst).Nodup := by
  rw [extraInvariants_eq]
  exact nodup_foldl_emplace List.nodup_nil

end Extra

end JoinOperations

/-! ## Soundness -/

/-- A variable is specific to types that its owner does not have. -/
def IsIrrelevant (values : Variable -> Int) : Variable -> Prop
  | .of owner kind =>
      (exists type, (type, kind) ∈ typeSpecificKinds) ∧
        forall type, (type, kind) ∈ typeSpecificKinds -> values (.of owner .types) ≠ type.value
  | _ => False

/-- Two assignments agree on all variables that the types of the first one make
relevant. -/
def AgreesOnRelevant (values others : Variable -> Int) : Prop :=
  forall target, ¬ IsIrrelevant values target -> others target = values target

/-- The types of an owner are always relevant. -/
theorem not_isIrrelevant_types (values : Variable -> Int) (owner : Owner) :
    ¬ IsIrrelevant values (.of owner .types) := by
  rintro ⟨⟨type, specific⟩, _⟩
  revert specific
  cases type <;> decide

theorem AgreesOnRelevant.trans {values others last : Variable -> Int}
    (first : AgreesOnRelevant values others)
    (second : AgreesOnRelevant others last) : AgreesOnRelevant values last := by
  intro target relevant
  rw [← first target relevant]
  apply second
  intro irrelevant
  apply relevant
  cases target with
  | of owner kind =>
      have sameTypes := first _ (not_isIrrelevant_types values owner)
      refine ⟨irrelevant.1, fun type specific => ?_⟩
      rw [← sameTypes]
      exact irrelevant.2 type specific
  | _ => exact irrelevant

namespace JoinOperations

variable {S : Type} (ops : JoinOperations S) (Represents : S -> (Variable -> Int) -> Prop)

/-- The join loses no assignment of either side, up to what its types make
irrelevant. -/
def JoinsSoundly (owners : List Owner) (dst src : S) : Prop :=
  forall values, Represents dst values ∨ Represents src values ->
    exists others, Represents (ops.selectivelyJoin owners dst src) others ∧
    AgreesOnRelevant values others

/-- The descriptors of maps lie in the interval that is remembered for them, if
one is. -/
def KeepsMapFds (owners : List Owner) (dst src : S) : Prop :=
  ∀ owner ∈ owners, forall side, ops.remembered dst src owner .mapFds = some side ->
    forall values, Represents dst values ∨ Represents src values ->
      values (.of owner .types) = TypeEncoding.map.value ∨
      values (.of owner .types) = TypeEncoding.mapPrograms.value ->
        values (.of owner .mapFds) ∈ ops.evalVariable side (.of owner .mapFds)

/-- What the operations promise.  An interval with a number in it is assigned
exactly. -/
structure Laws : Prop where
  mem_evalVariable : forall {state values}, Represents state values ->
    forall target, values target ∈ ops.evalVariable state target
  exists_represents : forall {state}, ops.isBottom state = false ->
    exists values, Represents state values
  evalVariable_isBottom : forall {state}, ops.isBottom state = true -> forall target (n : Int),
    n ∉ ops.evalVariable state target
  represents_set : forall {state values others interval target}, Represents state values ->
    (forall other, other ≠ target -> others other = values other) -> others target ∈ interval ->
      Represents (ops.set target interval state) others
  represents_join : forall {left right values}, Represents left values ∨ Represents right values ->
    Represents (ops.join left right) values
  mem_of_setAll : forall {entries state values}, (entries.map Prod.fst).Nodup ->
    (∀ entry ∈ entries, exists n : Int, n ∈ entry.2) ->
    Represents (ops.setAll entries state) values ->
      ∀ entry ∈ entries, values entry.1 ∈ entry.2

section Sound

variable {ops} {Represents} (laws : ops.Laws Represents) {dst src side : S} {owners : List Owner}
  {owner : Owner} {kind : DataKind} {type : TypeEncoding} {values : Variable -> Int}

include laws

theorem not_isBottom_of_mem {state : S} {target : Variable} {n : Int}
    (member : n ∈ ops.evalVariable state target) :
    exists values, Represents state values := by
  cases isBottom : ops.isBottom state with
  | false => exact laws.exists_represents isBottom
  | true => exact absurd member (laws.evalVariable_isBottom isBottom target n)

theorem hasType_of_represents {state : S} (represents : Represents state values)
    (isType : values (.of owner .types) = type.value) : ops.hasType state owner type = true := by
  have member := laws.mem_evalVariable represents (.of owner .types)
  rw [isType] at member
  exact decide_eq_true member

omit laws in
theorem remembered_eq_some (found : ops.remembered dst src owner kind = some side) :
    exists type, (type, kind) ∈ typeSpecificKinds ∧
      ops.onlySide dst src owner type = some side := by
  rcases List.exists_of_findSome?_eq_some found with ⟨typed, member, only⟩
  rw [List.mem_filter, decide_eq_true_eq] at member
  rcases typed with ⟨type, _⟩
  cases member.2
  exact ⟨type, member.1, only⟩

theorem remembered_inhabited (found : ops.remembered dst src owner kind = some side)
    (target : Variable) :
    exists n : Int, n ∈ ops.evalVariable side target := by
  rcases remembered_eq_some found with ⟨type, _, only⟩
  have has : ops.hasType side owner type = true := by
    rcases onlySide_eq_some only with ⟨rfl, has, _⟩ | ⟨rfl, has, _⟩
    · exact has
    · exact has
  rcases not_isBottom_of_mem laws (of_decide_eq_true has) with ⟨values, represents⟩
  exact ⟨_, laws.mem_evalVariable represents target⟩

theorem mem_of_onlySide (only : ops.onlySide dst src owner type = some side)
    (represents : Represents dst values ∨ Represents src values)
    (isType : values (.of owner .types) = type.value) (target : Variable) :
    values target ∈ ops.evalVariable side target := by
  rcases onlySide_eq_some only with ⟨rfl, _, lacks⟩ | ⟨rfl, _, lacks⟩
  · rcases represents with here | there
    · exact laws.mem_evalVariable here target
    · rw [hasType_of_represents laws there isType] at lacks
      cases lacks
  · rcases represents with there | here
    · rw [hasType_of_represents laws there isType] at lacks
      cases lacks
    · exact laws.mem_evalVariable here target

omit laws in
/-- Every kind but that of the descriptors has one type. -/
theorem type_unique {first second : TypeEncoding} (inFirst : (first, kind) ∈ typeSpecificKinds)
    (inSecond : (second, kind) ∈ typeSpecificKinds) :
    first = second ∨ (kind = .mapFds ∧ (first = .map ∨ first = .mapPrograms)) := by
  cases kind <;> cases first <;> simp [typeSpecificKinds] at inFirst <;> cases second <;>
    simp [typeSpecificKinds] at inSecond <;> simp

/-- A relevant variable has a value of the interval that is remembered. -/
theorem mem_or_irrelevant (keeps : ops.KeepsMapFds Represents owners dst src)
    (member : owner ∈ owners)
    (found : ops.remembered dst src owner kind = some side)
    (represents : Represents dst values ∨ Represents src values) :
    values (.of owner kind) ∈ ops.evalVariable side (.of owner kind) ∨
      IsIrrelevant values (.of owner kind) := by
  rcases remembered_eq_some found with ⟨type, inKinds, only⟩
  by_cases irrelevant : IsIrrelevant values (.of owner kind)
  · exact Or.inr irrelevant
  · left
    have relevant : exists other, (other, kind) ∈ typeSpecificKinds ∧
        values (.of owner .types) = other.value := by
      by_contra none_
      refine irrelevant ⟨⟨type, inKinds⟩, fun other inOther same => none_ ⟨other, inOther, same⟩⟩
    rcases relevant with ⟨other, inOther, isType⟩
    rcases type_unique inOther inKinds with rfl | ⟨rfl, isMap⟩
    · exact mem_of_onlySide laws only represents isType _
    · apply keeps owner member side found values represents
      rcases isMap with rfl | rfl
      · exact Or.inl isType
      · exact Or.inr isType

/-- The descriptors are kept if one of the two types of maps occurs on neither side. -/
theorem keepsMapFds_of_absent (absent : ∀ owner ∈ owners, exists first second,
      ops.hasType dst owner first = false ∧ ops.hasType src owner first = false ∧
        ((first = .map ∧ second = .mapPrograms) ∨
        (first = .mapPrograms ∧ second = TypeEncoding.map))) :
    ops.KeepsMapFds Represents owners dst src := by
  intro owner member side found values represents isMap
  rcases absent owner member with ⟨first, second, notDst, notSrc, types⟩
  have notFirst : values (.of owner .types) ≠ first.value := by
    intro isFirst
    rcases represents with here | there
    · exact absurd (hasType_of_represents laws here isFirst)
        (by rw [notDst]; exact Bool.false_ne_true)
    · exact absurd (hasType_of_represents laws there isFirst)
        (by rw [notSrc]; exact Bool.false_ne_true)
  have isSecond : values (.of owner .types) = second.value := by
    rcases types with ⟨rfl, rfl⟩ | ⟨rfl, rfl⟩
    · exact isMap.resolve_left notFirst
    · exact isMap.resolve_right notFirst
  rcases remembered_eq_some found with ⟨type, inKinds, only⟩
  have occurs : type ≠ first := by
    rintro rfl
    rcases onlySide_eq_some only with ⟨_, has, _⟩ | ⟨_, has, _⟩
    · exact absurd has (by rw [notDst]; exact Bool.false_ne_true)
    · exact absurd has (by rw [notSrc]; exact Bool.false_ne_true)
  have sameType : type = second := by
    rcases types with ⟨rfl, rfl⟩ | ⟨rfl, rfl⟩
    · rcases type_unique inKinds
        (show (TypeEncoding.mapPrograms, DataKind.mapFds) ∈ typeSpecificKinds by decide) with
        same | ⟨_, isFirst | isSecond⟩
      · exact same
      · exact absurd isFirst occurs
      · exact isSecond
    · rcases type_unique inKinds
        (show (TypeEncoding.map, DataKind.mapFds) ∈ typeSpecificKinds by decide) with
        same | ⟨_, isSecond | isFirst⟩
      · exact same
      · exact isSecond
      · exact absurd isFirst occurs
  subst sameType
  exact mem_of_onlySide laws only represents isSecond _

/-- The loop of assignments keeps the relevant variables. -/
theorem exists_setAll (entries : List (Variable × Interval)) {state : S} {others : Variable -> Int}
    (represents : Represents state others) (agrees : AgreesOnRelevant values others)
    (fits : ∀ entry ∈ entries, (exists n : Int, n ∈ entry.2) ∧
      (values entry.1 ∈ entry.2 ∨ IsIrrelevant values entry.1)) :
    exists last, Represents (ops.setAll entries state) last ∧ AgreesOnRelevant values last := by
  induction entries generalizing state others with
  | nil => exact ⟨others, represents, agrees⟩
  | cons entry rest inductionHypothesis =>
      have chosen : exists n : Int, n ∈ entry.2 ∧
          (¬ IsIrrelevant values entry.1 -> n = values entry.1) := by
        rcases fits entry List.mem_cons_self with ⟨⟨n, inside⟩, member | irrelevant⟩
        · exact ⟨_, member, fun _ => rfl⟩
        · exact ⟨n, inside, fun relevant => absurd irrelevant relevant⟩
      rcases chosen with ⟨n, inside, isValue⟩
      have assigned : Represents (ops.set entry.1 entry.2 state)
          (Function.update others entry.1 n) := by
        apply laws.represents_set represents
        · intro other different
          exact Function.update_of_ne different ..
        · rw [Function.update_self]
          exact inside
      apply inductionHypothesis assigned
      · intro target relevant
        by_cases same : target = entry.1
        · subst same
          rw [Function.update_self]
          exact isValue relevant
        · rw [Function.update_of_ne same]
          exact agrees target relevant
      · exact fun other inRest => fits other (List.mem_cons_of_mem _ inRest)

theorem joinsSoundly_of_keepsMapFds (keeps : ops.KeepsMapFds Represents owners dst src) :
    ops.JoinsSoundly Represents owners dst src := by
  intro values represents
  apply exists_setAll laws _ (laws.represents_join represents) (fun _ _ => rfl)
  intro entry member
  split at member
  · cases member
  · rcases extraInvariants_of member with ⟨owner, kind, isKey⟩
    rcases entry with ⟨target, interval⟩
    dsimp only at isKey
    subst isKey
    rcases mem_extraInvariants.mp member with ⟨inOwners, side, found, rfl⟩
    exact ⟨remembered_inhabited laws found _,
      mem_or_irrelevant laws keeps inOwners found represents⟩

theorem keepsMapFds_of_joinsSoundly (sound : ops.JoinsSoundly Represents owners dst src) :
    ops.KeepsMapFds Represents owners dst src := by
  intro owner inOwners side found values represents isMap
  have relevant : ¬ IsIrrelevant values (.of owner .mapFds) := by
    rintro ⟨_, never⟩
    rcases isMap with isType | isType
    · exact never .map (by decide) isType
    · exact never .mapPrograms (by decide) isType
  cases isBottom : ops.isBottom dst with
  | true =>
      have onSrc : Represents src values := by
        rcases represents with here | there
        · exact absurd (laws.mem_evalVariable here (.of owner .types))
            (laws.evalVariable_isBottom isBottom _ _)
        · exact there
      rcases remembered_eq_some found with ⟨type, _, only⟩
      rcases onlySide_eq_some only with ⟨rfl, has, _⟩ | ⟨rfl, _, _⟩
      · exact absurd (of_decide_eq_true has) (laws.evalVariable_isBottom isBottom _ _)
      · exact laws.mem_evalVariable onSrc _
  | false =>
      rcases sound values represents with ⟨others, joined, agrees⟩
      rw [selectivelyJoin, isBottom] at joined
      rw [← agrees _ relevant]
      apply laws.mem_of_setAll nodup_extraInvariants ?_ joined (.of owner .mapFds, _)
        (mem_extraInvariants.mpr ⟨inOwners, side, found, rfl⟩)
      intro entry member
      rcases extraInvariants_of member with ⟨owner, kind, isKey⟩
      rcases entry with ⟨target, interval⟩
      dsimp only at isKey
      subst isKey
      rcases mem_extraInvariants.mp member with ⟨_, side, found, rfl⟩
      exact remembered_inhabited laws found _

end Sound

end JoinOperations

/-! ## Difference bounds -/

namespace AddBottom

variable [LinearOrder Variable]

theorem joinLaws : JoinOperations.Laws joinOperations (AddBottom.Represents (V := Variable)) where
  mem_evalVariable := by
    intro state values represents target
    have member := mem_evalInterval represents (.var target)
    rwa [LinearExpression.eval_var] at member
  exists_represents := exists_represents
  evalVariable_isBottom := by
    intro state isBottom target n member
    cases state with
    | none =>
        have empty : Interval.bottom.IsBottom := by decide
        exact absurd empty (Interval.not_isBottom_of_mem member)
    | some s => cases isBottom
  represents_set := represents_set
  represents_join := represents_join
  mem_of_setAll := mem_of_setEntries

/-- The join of types is sound exactly where it remembers the descriptors of all
maps. -/
theorem joinsSoundly_iff_keepsMapFds (owners : List Owner) (dst src : AddBottom Variable) :
    joinOperations.JoinsSoundly AddBottom.Represents owners dst src ↔
      joinOperations.KeepsMapFds AddBottom.Represents owners dst src :=
  ⟨JoinOperations.keepsMapFds_of_joinsSoundly joinLaws,
    JoinOperations.joinsSoundly_of_keepsMapFds joinLaws⟩

end AddBottom

/-! ## Two kinds of maps -/

namespace Variable

/-- A number of a kind. -/
def kindIndex : DataKind -> Int
  | .types => 0
  | .svalues => 1
  | .uvalues => 2
  | .ctxOffsets => 3
  | .mapFds => 4
  | .packetOffsets => 5
  | .sharedOffsets => 6
  | .stackOffsets => 7
  | .sharedRegionSizes => 8
  | .stackNumericSizes => 9

/-- The members by which variables are ordered. -/
def key : Variable -> Nat ×ₗ List Char ×ₗ Int ×ₗ Int ×ₗ Int
  | .of (.reg reg) kind => toLex (0, toLex ([], toLex (reg.v.toNat, toLex (0, kindIndex kind))))
  | .of (.stackFrame stackFramePrefix reg) kind =>
      toLex (1, toLex (stackFramePrefix, toLex (reg.v.toNat, toLex (0, kindIndex kind))))
  | .of (.cell offset size) kind =>
    toLex (2, toLex ([], toLex (offset, toLex (size, kindIndex kind))))
  | .metaOffset => toLex (3, toLex ([], toLex (0, toLex (0, 0))))
  | .packetSize => toLex (4, toLex ([], toLex (0, toLex (0, 0))))
  | .loopCounter label => toLex (5, toLex (label, toLex (0, toLex (0, 0))))

theorem kindIndex_injective : Function.Injective kindIndex := by
  intro first second same
  cases first <;> cases second <;> first | rfl | cases same

theorem reg_injective {first second : Reg} (same : (first.v.toNat : Int) = second.v.toNat) :
    first = second := by
  rcases first with ⟨first⟩
  rcases second with ⟨second⟩
  rw [Reg.mk.injEq]
  exact UInt8.toNat.inj (Int.ofNat.inj same)

theorem key_injective : Function.Injective key := by
  intro first second same
  rcases first with ⟨_ | _ | _, _⟩ | _ | _ | _ <;> rcases second with ⟨_ | _ | _, _⟩ | _ | _ | _ <;>
    simp only [key, EmbeddingLike.apply_eq_iff_eq, Prod.mk.injEq, true_and, and_true] at same <;>
    first
      | exact absurd same.1 (by decide)
      | exact absurd same (by decide)
      | rfl
      | rw [same]
      | rw [same.1, same.2.1, kindIndex_injective same.2.2]
      | rw [same.1, reg_injective same.2.1, kindIndex_injective same.2.2]
      | rw [reg_injective same.1, kindIndex_injective same.2]

@[reducible] def variableOrder : LinearOrder Variable := LinearOrder.lift' key key_injective

end Variable

section MapKinds

attribute [local instance] Variable.variableOrder

/-- A state in which `r1` holds a map of one type with one descriptor. -/
def mapState (type : TypeEncoding) (mapFd : Int) : AddBottom Variable :=
  AddBottom.set (regPack ⟨1⟩).mapFd (.ofNumber mapFd)
    (AddBottom.set (regPack ⟨1⟩).type (.ofNumber type.value)
      (some ⟨SplitDbm.top, SplitDbm.invariant_top⟩))

theorem represents_mapState (type : TypeEncoding) (mapFd : Int) : (mapState type mapFd).Represents
    (Function.update (Function.update (fun _ => 0) (regPack ⟨1⟩).type type.value)
      (regPack ⟨1⟩).mapFd mapFd) := by
  have typed := @AddBottom.represents_set Variable _ (some ⟨SplitDbm.top, SplitDbm.invariant_top⟩)
    (fun _ => 0)
    (Function.update (fun _ => 0) (regPack ⟨1⟩).type type.value) (.ofNumber type.value)
    (regPack ⟨1⟩).type
    ⟨_, rfl, SplitDbm.represents_top _⟩ (fun other different => Function.update_of_ne different ..)
    (Interval.mem_ofNumber.mpr (Function.update_self ..))
  exact AddBottom.represents_set typed (fun other different => Function.update_of_ne different ..)
    (Interval.mem_ofNumber.mpr (Function.update_self ..))

/-- A map of programs on one side is lost when there is another map on the other
side. -/
theorem not_joinsSoundly_mapKinds :
    ¬ AddBottom.joinOperations.JoinsSoundly AddBottom.Represents [.reg ⟨1⟩]
    (mapState .mapPrograms 1) (mapState .map 2) := by
  intro sound
  have keeps := JoinOperations.keepsMapFds_of_joinsSoundly AddBottom.joinLaws sound
  have found : (AddBottom.joinOperations.remembered (mapState .mapPrograms 1) (mapState .map 2)
      (.reg ⟨1⟩) .mapFds).map
      (fun side => AddBottom.joinOperations.evalVariable side (regPack ⟨1⟩).mapFd) = some
      (.ofNumber 2) := by
    decide
  rcases Option.map_eq_some_iff.mp found with ⟨side, remembered, interval⟩
  have member := keeps (.reg ⟨1⟩) List.mem_cons_self side remembered
    _ (Or.inl (represents_mapState .mapPrograms 1))
    (Or.inr rfl)
  change _ ∈ AddBottom.joinOperations.evalVariable side (regPack ⟨1⟩).mapFd at member
  rw [interval, Interval.mem_ofNumber] at member
  exact absurd member (by decide)

end MapKinds

end Crab
end Prevail
