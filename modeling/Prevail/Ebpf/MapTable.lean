import Prevail.Ebpf.CheckerSound

namespace Prevail
namespace Ebpf

open Crab

/-!
# The table of maps

The maps of an object file are found again by their descriptors, and with
`mock_map_fds` the verifier makes the descriptors up: `create_map_crab` numbers
the kinds of maps that it meets.  Definitions of one kind share their descriptor,
and the table answers with the first of them.

A kind keeps the sizes of the keys and of the values and the type of the values.
It keeps neither the type of the map nor its inner map, so that for these the
answer may be that of another map.

The bytes of the section are read elsewhere: here its definitions are given.
-/

/-- `EbpfMapValueType`. -/
inductive MapValueType where
  | any
  | map
  | program
  deriving DecidableEq

/-- `EbpfMapType`: the part that a made up descriptor depends on. -/
structure MapType where
  isArray : Bool
  valueType : MapValueType

def linuxMapTypes : List MapType :=
  [⟨false, .any⟩, ⟨false, .any⟩, ⟨true, .any⟩, ⟨true, .program⟩, ⟨true, .any⟩, ⟨false, .any⟩,
    ⟨true, .any⟩, ⟨false, .any⟩, ⟨true, .any⟩, ⟨false, .any⟩, ⟨false, .any⟩, ⟨false, .any⟩,
    ⟨true, .map⟩, ⟨false, .map⟩, ⟨false, .any⟩, ⟨false, .any⟩, ⟨false, .any⟩]

def getMapTypeLinux (platformSpecificType : Nat) : MapType :=
  linuxMapTypes.getD platformSpecificType ⟨false, .any⟩

structure EquivalenceKey where
  valueType : MapValueType
  keySize : Nat
  valueSize : Nat
  maxEntries : Nat
  deriving DecidableEq

/-- The `cache` of `program_info`. -/
abbrev MapCache := List (EquivalenceKey × Int)

/-- The key that `create_map_crab` builds. -/
def equivalenceKey (mapType : MapType) (keySize valueSize maxEntries : Nat) : EquivalenceKey :=
  ⟨mapType.valueType, keySize, valueSize, if mapType.isArray then maxEntries else 0⟩

/-- `create_map_crab`.  It throws where the size of the cache is no `int`. -/
def createMapCrab (mapType : MapType) (keySize valueSize maxEntries : Nat) (cache : MapCache) :
    Option (Int × MapCache) :=
  let equiv := equivalenceKey mapType keySize valueSize maxEntries
  match cache.find? (fun entry => entry.1 = equiv) with
  | some entry => some (entry.2, cache)
  | none =>
      if IntType.int32.Fits cache.length then
        some ((cache.length : Int) + 1, cache ++ [(equiv, (cache.length : Int) + 1)])
      else none

/-- `bpf_load_map_def`: the members that are read. -/
structure BpfLoadMapDef where
  type : Nat
  keySize : Nat
  valueSize : Nat
  maxEntries : Nat
  innerMapIdx : Nat

/-- `EbpfMapDescriptor` with its descriptor. -/
structure EbpfMapDescriptor extends MapDescriptor where
  originalFd : Int

/-- One definition in `parse_maps_section_linux`, with `mock_map_fds`.  The index of
the inner map takes the place of its descriptor for the time being. -/
def parseMapDef (state : List EbpfMapDescriptor × MapCache) (s : BpfLoadMapDef) :
    Option (List EbpfMapDescriptor × MapCache) :=
  (createMapCrab (getMapTypeLinux s.type) s.keySize s.valueSize s.maxEntries state.2).map
    (fun created =>
    (state.1 ++ [⟨⟨s.type, s.keySize, s.valueSize, s.maxEntries, s.innerMapIdx⟩, created.1⟩],
      created.2))

def parseMapsSectionLinux (mapdefs : List BpfLoadMapDef)
    (state : List EbpfMapDescriptor × MapCache) :
    Option (List EbpfMapDescriptor × MapCache) :=
  mapdefs.foldlM parseMapDef state

/-- One map in `resolve_inner_map_references_linux`. -/
def resolveInnerMap (maps : List EbpfMapDescriptor) (i : Nat) : Option (List EbpfMapDescriptor) :=
  maps[i]?.bind (fun map =>
    maps[map.innerMapFd]?.map (fun inner =>
      maps.set i { map with innerMapFd := (inner.originalFd % 2 ^ 32).toNat }))

def resolveInnerMapReferencesLinux (maps : List EbpfMapDescriptor) :
    Option (List EbpfMapDescriptor) :=
  (List.range maps.length).foldlM resolveInnerMap maps

def findMapDescriptor (maps : List EbpfMapDescriptor) (mapFd : Int) : Option EbpfMapDescriptor :=
  maps.find? (fun map => map.originalFd = mapFd)

/-- `get_map_descriptor_linux`, which throws without a map. -/
def getMapDescriptorLinux (maps : List EbpfMapDescriptor) (mapFd : Int) : Option MapDescriptor :=
  (findMapDescriptor maps mapFd).map EbpfMapDescriptor.toMapDescriptor

/-- The kind of a definition. -/
def BpfLoadMapDef.key (s : BpfLoadMapDef) : EquivalenceKey :=
  equivalenceKey (getMapTypeLinux s.type) s.keySize s.valueSize s.maxEntries

/-- The kind of a map. -/
def MapDescriptor.key (map : MapDescriptor) : EquivalenceKey :=
  equivalenceKey (getMapTypeLinux map.type) map.keySize map.valueSize map.maxEntries

/-- A map has the members of its definition, the inner map apart. -/
structure BpfLoadMapDef.Describes (s : BpfLoadMapDef) (map : MapDescriptor) : Prop where
  type : map.type = s.type
  keySize : map.keySize = s.keySize
  valueSize : map.valueSize = s.valueSize
  maxEntries : map.maxEntries = s.maxEntries

theorem BpfLoadMapDef.Describes.key {s : BpfLoadMapDef} {map : MapDescriptor}
    (describes : s.Describes map) :
    map.key = s.key := by
  rw [MapDescriptor.key, BpfLoadMapDef.key, describes.type, describes.keySize, describes.valueSize,
    describes.maxEntries]

/-! ## The cache -/

/-- The cache numbers its kinds from one on. -/
structure Numbered (cache : MapCache) : Prop where
  lower : ∀ entry ∈ cache, 1 ≤ entry.2
  upper : ∀ entry ∈ cache, entry.2 ≤ cache.length
  width : ∀ entry ∈ cache, entry.2 < 2 ^ 32
  keys : (cache.map Prod.fst).Nodup
  fds : (cache.map Prod.snd).Nodup

theorem numbered_nil : Numbered [] where
  lower := List.forall_mem_nil _
  upper := List.forall_mem_nil _
  width := List.forall_mem_nil _
  keys := List.nodup_nil
  fds := List.nodup_nil

theorem Numbered.eq_iff {cache : MapCache} (numbered : Numbered cache)
    {first second : EquivalenceKey × Int}
    (isFirst : first ∈ cache) (isSecond : second ∈ cache) : first.2 = second.2 ↔
      first.1 = second.1 := by
  constructor
  · intro same
    exact congrArg Prod.fst (List.inj_on_of_nodup_map numbered.fds isFirst isSecond same)
  · intro same
    exact congrArg Prod.snd (List.inj_on_of_nodup_map numbered.keys isFirst isSecond same)

/-- A kind that the cache does not hold gets the number after the last one. -/
theorem Numbered.push {cache : MapCache} (numbered : Numbered cache) {key : EquivalenceKey}
    (fresh : ∀ entry ∈ cache, entry.1 ≠ key) (fits : IntType.int32.Fits cache.length) :
    Numbered (cache ++ [(key, (cache.length : Int) + 1)]) where
  lower := by
    rw [List.forall_mem_append, List.forall_mem_singleton]
    exact ⟨numbered.lower, by dsimp only; omega⟩
  upper := by
    rw [List.forall_mem_append, List.forall_mem_singleton, List.length_append,
      List.length_singleton]
    exact ⟨fun entry member => by have := numbered.upper entry member; push_cast; omega, by
      push_cast; omega⟩
  width := by
    rw [List.forall_mem_append, List.forall_mem_singleton]
    have limit : (cache.length : Int) ≤ 2 ^ 31 - 1 := fits.2
    exact ⟨numbered.width, by dsimp only; omega⟩
  keys := by
    rw [List.map_append, List.map_singleton, ← List.concat_eq_append, List.nodup_concat]
    refine ⟨?_, numbered.keys⟩
    intro member
    rcases List.mem_map.mp member with ⟨entry, isEntry, same⟩
    exact fresh entry isEntry same
  fds := by
    rw [List.map_append, List.map_singleton, ← List.concat_eq_append, List.nodup_concat]
    refine ⟨?_, numbered.fds⟩
    intro member
    rcases List.mem_map.mp member with ⟨entry, isEntry, same⟩
    have bound := numbered.upper entry isEntry
    dsimp only at same
    omega

/-- `create_map_crab` answers with the number of the kind, and keeps the numbers
that it gave before. -/
theorem createMapCrab_spec {mapType : MapType} {keySize valueSize maxEntries : Nat}
    {cache after : MapCache} {fd : Int} (numbered : Numbered cache)
    (created : createMapCrab mapType keySize valueSize maxEntries cache = some (fd, after)) :
    Numbered after ∧ (equivalenceKey mapType keySize valueSize maxEntries, fd) ∈ after ∧
      cache ⊆ after := by
  unfold createMapCrab at created
  dsimp only at created
  split at created
  · rename_i entry found
    cases created
    have isKey : entry.1 = equivalenceKey mapType keySize valueSize maxEntries := by
      simpa using List.find?_some found
    rw [← isKey]
    exact ⟨numbered, List.mem_of_find?_eq_some found, List.Subset.refl _⟩
  · rename_i absent
    have fresh : ∀ entry ∈ cache,
        entry.1 ≠ equivalenceKey mapType keySize valueSize maxEntries := by
      intro entry member
      simpa using List.find?_eq_none.mp absent entry member
    split at created
    · rename_i fits
      cases created
      exact ⟨numbered.push fresh fits, List.mem_append_right _ (List.mem_singleton_self _),
        List.subset_append_left _ _⟩
    · cases created

/-! ## The definitions -/

/-- What holds after some definitions: every map has the number of its kind, and the
index of its inner map. -/
structure Parsed (mapdefs : List BpfLoadMapDef) (state : List EbpfMapDescriptor × MapCache) :
    Prop where
  numbered : Numbered state.2
  maps : List.Forall₂ (fun s map =>
    s.Describes map.toMapDescriptor ∧ map.innerMapFd = s.innerMapIdx ∧
    (s.key, map.originalFd) ∈ state.2)
    mapdefs state.1

theorem Parsed.snoc {mapdefs : List BpfLoadMapDef} {state next : List EbpfMapDescriptor × MapCache}
    (parsed : Parsed mapdefs state) {s : BpfLoadMapDef} (step : parseMapDef state s = some next) :
    Parsed (mapdefs ++ [s]) next := by
  rcases Option.map_eq_some_iff.mp step with ⟨⟨fd, after⟩, created, rfl⟩
  rcases createMapCrab_spec parsed.numbered created with ⟨numbered, member, kept⟩
  refine ⟨numbered, List.rel_append ?_ ?_⟩
  · exact parsed.maps.imp (fun _ _ described => ⟨described.1, described.2.1, kept described.2.2⟩)
  · exact .cons ⟨⟨rfl, rfl, rfl, rfl⟩, rfl, member⟩ .nil

theorem Parsed.run {mapdefs : List BpfLoadMapDef} (rest : List BpfLoadMapDef)
    {state after : List EbpfMapDescriptor × MapCache} (parsed : Parsed mapdefs state)
    (ran : parseMapsSectionLinux rest state = some after) : Parsed (mapdefs ++ rest) after := by
  induction rest generalizing mapdefs state with
  | nil =>
      cases ran
      rw [List.append_nil]
      exact parsed
  | cons s rest inductionHypothesis =>
      rw [parseMapsSectionLinux, List.foldlM_cons] at ran
      rcases Option.bind_eq_some_iff.mp ran with ⟨next, step, later⟩
      rw [List.append_cons]
      exact inductionHypothesis (parsed.snoc step) later

theorem Parsed.entered {mapdefs : List BpfLoadMapDef} {state : List EbpfMapDescriptor × MapCache}
    (parsed : Parsed mapdefs state) {map : EbpfMapDescriptor} (member : map ∈ state.1) :
    (map.key, map.originalFd) ∈ state.2 := by
  rcases List.mem_iff_get.mp member with ⟨⟨i, inside⟩, rfl⟩
  have inDefinitions : i < mapdefs.length := by rw [parsed.maps.length_eq]; exact inside
  rcases (List.forall₂_iff_get.mp parsed.maps).2 i inDefinitions inside with ⟨describes, _, entered⟩
  rw [describes.key]
  exact entered

/-- Two maps share their descriptor exactly if they are of one kind. -/
theorem Parsed.originalFd_eq_iff {mapdefs : List BpfLoadMapDef}
    {state : List EbpfMapDescriptor × MapCache}
    (parsed : Parsed mapdefs state) {first second : EbpfMapDescriptor} (isFirst : first ∈ state.1)
    (isSecond : second ∈ state.1) : first.originalFd = second.originalFd ↔ first.key = second.key :=
  parsed.numbered.eq_iff (parsed.entered isFirst) (parsed.entered isSecond)

/-! ## The inner maps -/

/-- What holds after the inner maps of the first maps are resolved. -/
structure Resolved (maps : List EbpfMapDescriptor) (n : Nat)
    (after : List EbpfMapDescriptor) : Prop where
  length : after.length = maps.length
  below : ∀ i map, i < n -> maps[i]? = some map ->
    exists inner, maps[map.innerMapFd]? = some inner ∧
      after[i]? = some { map with innerMapFd := (inner.originalFd % 2 ^ 32).toNat }
  above : ∀ i map, n ≤ i -> maps[i]? = some map -> after[i]? = some map

variable {maps after next : List EbpfMapDescriptor} {n : Nat}

/-- Only the inner map of a map changes. -/
theorem Resolved.source (resolved : Resolved maps n after) {i : Nat} {map : EbpfMapDescriptor}
    (isMap : after[i]? = some map) :
    exists before, maps[i]? = some before ∧
      exists number : Nat, map = { before with innerMapFd := number } := by
  have inside : i < maps.length := by
    rw [← resolved.length]
    exact (List.getElem?_eq_some_iff.mp isMap).1
  refine ⟨maps[i], List.getElem?_eq_getElem inside, ?_⟩
  rcases Nat.lt_or_ge i n with below | above
  · rcases resolved.below i _ below (List.getElem?_eq_getElem inside) with ⟨inner, _, same⟩
    exact ⟨_, Option.some.inj (isMap.symm.trans same)⟩
  · exact ⟨_, Option.some.inj
      (isMap.symm.trans (resolved.above i _ above (List.getElem?_eq_getElem inside)))⟩

theorem resolved_zero (maps : List EbpfMapDescriptor) : Resolved maps 0 maps where
  length := rfl
  below _ _ below := absurd below (Nat.not_lt_zero _)
  above _ _ _ isMap := isMap

theorem Resolved.step (resolved : Resolved maps n after)
    (step : resolveInnerMap after n = some next) :
    Resolved maps (n + 1) next := by
  rcases Option.bind_eq_some_iff.mp step with ⟨map, isMap, mapped⟩
  rcases Option.map_eq_some_iff.mp mapped with ⟨inner, isInner, rfl⟩
  rcases resolved.source isMap with ⟨before, isBefore, _⟩
  obtain rfl : before = map := Option.some.inj
    ((resolved.above n before le_rfl isBefore).symm.trans isMap)
  rcases resolved.source isInner with ⟨innerBefore, isInnerBefore, number, rfl⟩
  refine ⟨by rw [List.length_set, resolved.length], ?_, ?_⟩
  · intro i other below isOther
    rcases Nat.lt_succ_iff_lt_or_eq.mp below with earlier | rfl
    · rw [List.getElem?_set_ne (Nat.ne_of_gt earlier)]
      exact resolved.below i other earlier isOther
    · obtain rfl : before = other := Option.some.inj (isBefore.symm.trans isOther)
      exact ⟨innerBefore, isInnerBefore,
        List.getElem?_set_self (List.getElem?_eq_some_iff.mp isMap).1⟩
  · intro i other above isOther
    rw [List.getElem?_set_ne (by omega)]
    exact resolved.above i other (by omega) isOther

theorem Resolved.run (ran : (List.range n).foldlM resolveInnerMap maps = some after) :
    Resolved maps n after := by
  induction n generalizing after with
  | zero =>
      cases ran
      exact resolved_zero maps
  | succ n inductionHypothesis =>
      rw [List.range_succ, List.foldlM_append] at ran
      rcases Option.bind_eq_some_iff.mp ran with ⟨middle, earlier, last⟩
      simp only [List.foldlM_cons, List.foldlM_nil, bind_pure] at last
      exact (inductionHypothesis earlier).step last

/-! ## The table -/

/-- The maps of some definitions.  Every map has the members and the inner map of its
definition, and the table describes it by a map of its kind. -/
structure TableOf (mapdefs : List BpfLoadMapDef) (table : List EbpfMapDescriptor) : Prop where
  maps : List.Forall₂ (fun s map => s.Describes map.toMapDescriptor ∧ 1 ≤ map.originalFd ∧
    (exists inner, table[s.innerMapIdx]? = some inner ∧ (map.innerMapFd : Int) = inner.originalFd) ∧
    exists found, getMapDescriptorLinux table map.originalFd = some found ∧
      found.key = s.key) mapdefs table
  shared : ∀ first ∈ table, ∀ second ∈ table, first.originalFd = second.originalFd ↔ first.key = second.key

theorem exists_getMapDescriptorLinux {table : List EbpfMapDescriptor}
    (shared : ∀ first ∈ table, ∀ second ∈ table, first.originalFd = second.originalFd ↔ first.key = second.key)
    {map : EbpfMapDescriptor} (member : map ∈ table) :
    exists found, found ∈ table ∧
      getMapDescriptorLinux table map.originalFd = some found.toMapDescriptor ∧
      found.key = map.key := by
  cases answer : findMapDescriptor table map.originalFd with
  | none => exact absurd (decide_eq_true rfl) (List.find?_eq_none.mp answer map member)
  | some found =>
      have isFound : found ∈ table := List.mem_of_find?_eq_some answer
      have sameFd : found.originalFd = map.originalFd := by simpa using List.find?_some answer
      refine ⟨found, isFound, ?_, (shared found isFound map member).mp sameFd⟩
      rw [getMapDescriptorLinux, answer, Option.map_some]

theorem originalFd_eq_iff_of_resolved {mapdefs : List BpfLoadMapDef} {cache : MapCache}
    {table : List EbpfMapDescriptor}
    (parsed : Parsed mapdefs (maps, cache)) (resolved : Resolved maps n table) :
    ∀ first ∈ table, ∀ second ∈ table, first.originalFd = second.originalFd ↔ first.key = second.key := by
  intro first isFirst second isSecond
  rcases List.mem_iff_getElem?.mp isFirst with ⟨i, atFirst⟩
  rcases List.mem_iff_getElem?.mp isSecond with ⟨j, atSecond⟩
  rcases resolved.source atFirst with ⟨firstBefore, isFirstBefore, _, rfl⟩
  rcases resolved.source atSecond with ⟨secondBefore, isSecondBefore, _, rfl⟩
  have isFirstMember : firstBefore ∈ maps := List.mem_of_getElem? isFirstBefore
  have isSecondMember : secondBefore ∈ maps := List.mem_of_getElem? isSecondBefore
  change firstBefore.originalFd = secondBefore.originalFd ↔ firstBefore.key = secondBefore.key
  exact parsed.originalFd_eq_iff isFirstMember isSecondMember

section Files

variable {earlier mapdefs : List BpfLoadMapDef} {old table : List EbpfMapDescriptor}
  {cache extended : MapCache}

/-- The maps of an object file are a table of its definitions, whatever was parsed
before. -/
theorem tableOf_parsed (parsedEarlier : parseMapsSectionLinux earlier ([], []) = some (old, cache))
    (parsed : parseMapsSectionLinux mapdefs ([], cache) = some (maps, extended))
    (isResolved : resolveInnerMapReferencesLinux maps = some table) : TableOf mapdefs table := by
  have empty : Parsed [] ([], []) := ⟨numbered_nil, .nil⟩
  have start : Parsed [] ([], cache) := ⟨(empty.run earlier parsedEarlier).numbered, .nil⟩
  have invariant : Parsed mapdefs (maps, extended) := start.run mapdefs parsed
  have resolved : Resolved maps maps.length table := Resolved.run isResolved
  have shared := originalFd_eq_iff_of_resolved invariant resolved
  refine ⟨?_, shared⟩
  rw [List.forall₂_iff_get]
  refine ⟨invariant.maps.length_eq.trans resolved.length.symm, ?_⟩
  intro i inDefinitions inTable
  have inside : i < maps.length := by rw [← resolved.length]; exact inTable
  rcases (List.forall₂_iff_get.mp invariant.maps).2 i inDefinitions inside with
    ⟨describes, isIndex, entered⟩
  rcases resolved.below i _ inside (List.getElem?_eq_getElem inside) with ⟨inner, isInner, isMap⟩
  have atMap : table.get ⟨i, inTable⟩ =
      { maps[i] with innerMapFd := (inner.originalFd % 2 ^ 32).toNat } :=
    Option.some.inj ((List.getElem?_eq_getElem inTable).symm.trans isMap)
  have describesAfter : (mapdefs.get ⟨i, inDefinitions⟩).Describes
      (table.get ⟨i, inTable⟩).toMapDescriptor := by
    rw [atMap]
    exact ⟨describes.type, describes.keySize, describes.valueSize, describes.maxEntries⟩
  refine ⟨describesAfter, ?_, ?_, ?_⟩
  · rw [atMap]
    exact invariant.numbered.lower _ entered
  · rcases resolved.below _ _ (List.getElem?_eq_some_iff.mp isInner).1 isInner with
      ⟨_, _, isInnerAfter⟩
    refine ⟨_, by rw [← isIndex]; exact isInnerAfter, ?_⟩
    have innerEntered := invariant.entered (List.mem_of_getElem? isInner)
    have lower : 1 ≤ inner.originalFd := invariant.numbered.lower _ innerEntered
    have width : inner.originalFd < 2 ^ 32 := invariant.numbered.width _ innerEntered
    rw [atMap]
    dsimp only
    rw [Int.emod_eq_of_lt (by omega) width, Int.toNat_of_nonneg (by omega)]
  · rcases exists_getMapDescriptorLinux shared (List.get_mem table ⟨i, inTable⟩) with
      ⟨found, _, answer, isKind⟩
    exact ⟨found.toMapDescriptor, answer, isKind.trans describesAfter.key⟩

/-- The size that the checks read for a register is that of every definition whose
map the register may hold. -/
def ReadsSize (context : CheckerContext) (field : MapDescriptor -> Nat)
    (size : BpfLoadMapDef -> Nat)
    (mapdefs : List BpfLoadMapDef) (table : List EbpfMapDescriptor) : Prop :=
  forall (dom : NumAbsDomain Variable) (inv : dom.State) (mapFdReg : Reg) (n : Int),
    (getMapInterval dom context inv field mapFdReg).singleton = some n ->
      List.Forall₂ (fun s map =>
        map.originalFd ∈ evalVariable dom inv (regPack mapFdReg).mapFd ->
          (size s : Int) = n) mapdefs table

theorem TableOf.readsSize {context : CheckerContext} (tableOf : TableOf mapdefs table)
    (onTable : context.mapDescriptor = getMapDescriptorLinux table)
    (member : EquivalenceKey -> Nat) :
    ReadsSize context (fun map => member map.key) (fun s => member s.key) mapdefs table := by
  intro dom inv mapFdReg n single
  refine tableOf.maps.imp ?_
  rintro s map ⟨_, _, _, found, answer, isKind⟩ mayHold
  rcases getMapInterval_singleton single mayHold with ⟨described, isDescribed, hasSize⟩
  rw [onTable, answer] at isDescribed
  cases isDescribed
  change (member s.key : Int) = n
  rw [← isKind]
  exact hasSize

/-- Whatever was parsed before, two maps of an object file share their descriptor
exactly if they are of one kind, the inner map of a map is the one at the index of
its definition, and the sizes that the checks read for a register are those of every
map that it may hold. -/
theorem parseMapsSection_table {context : CheckerContext}
    (parsedEarlier : parseMapsSectionLinux earlier ([], []) = some (old, cache))
    (parsed : parseMapsSectionLinux mapdefs ([], cache) = some (maps, extended))
    (isResolved : resolveInnerMapReferencesLinux maps = some table)
    (onTable : context.mapDescriptor = getMapDescriptorLinux table) :
    TableOf mapdefs table ∧ ReadsSize context MapDescriptor.keySize BpfLoadMapDef.keySize
      mapdefs table ∧ ReadsSize context MapDescriptor.valueSize BpfLoadMapDef.valueSize
      mapdefs table := by
  have tableOf := tableOf_parsed parsedEarlier parsed isResolved
  exact ⟨tableOf, tableOf.readsSize onTable EquivalenceKey.keySize,
    tableOf.readsSize onTable EquivalenceKey.valueSize⟩

/-- An array of maps, whose inner map follows it, and two arrays of one kind. -/
def nestedMaps : List BpfLoadMapDef := [⟨12, 4, 4, 8, 1⟩, ⟨2, 4, 8, 16, 0⟩, ⟨6, 4, 8, 16, 0⟩]

/-- The table of `nestedMaps`. -/
def nestedTable : List EbpfMapDescriptor :=
  [⟨⟨12, 4, 4, 8, 2⟩, 1⟩, ⟨⟨2, 4, 8, 16, 1⟩, 2⟩, ⟨⟨6, 4, 8, 16, 1⟩, 2⟩]

theorem parseMapsSection_table_nestedMaps :
    TableOf nestedMaps nestedTable ∧
      ReadsSize { sampleContext with mapDescriptor := getMapDescriptorLinux nestedTable }
      MapDescriptor.keySize
        BpfLoadMapDef.keySize nestedMaps nestedTable ∧
      ReadsSize { sampleContext with mapDescriptor := getMapDescriptorLinux nestedTable }
      MapDescriptor.valueSize
        BpfLoadMapDef.valueSize nestedMaps nestedTable :=
  @parseMapsSection_table _ [] nestedMaps [] nestedTable [] _ _ rfl rfl rfl rfl

/-- The table answers with the right member of every map exactly if the maps of one
kind agree on it. -/
theorem getMapDescriptor_exact_iff {Value : Type} (member : MapDescriptor -> Value)
    (parsedEarlier : parseMapsSectionLinux earlier ([], []) = some (old, cache))
    (parsed : parseMapsSectionLinux mapdefs ([], cache) = some (maps, extended))
    (isResolved : resolveInnerMapReferencesLinux maps = some table) :
    (∀ map ∈ table, (getMapDescriptorLinux table map.originalFd).map member = some
      (member map.toMapDescriptor)) ↔ ∀ first ∈ table, ∀ second ∈ table,
        first.key = second.key -> member first.toMapDescriptor = member second.toMapDescriptor := by
  have shared := (tableOf_parsed parsedEarlier parsed isResolved).shared
  constructor
  · intro answered first isFirst second isSecond sameKey
    have sameFd : first.originalFd = second.originalFd :=
      (shared first isFirst second isSecond).mpr sameKey
    have atFirst := answered first isFirst
    rw [sameFd, answered second isSecond] at atFirst
    exact (Option.some.inj atFirst).symm
  · intro agree map isMap
    rcases exists_getMapDescriptorLinux shared isMap with ⟨found, isFound, answer, isKind⟩
    rw [answer, Option.map_some]
    exact congrArg some (agree found isFound map isMap isKind)

/-- Two arrays of maps of one kind with different inner maps, and the inner maps. -/
def twinMaps : List BpfLoadMapDef :=
  [⟨12, 4, 4, 8, 2⟩, ⟨12, 4, 4, 8, 3⟩, ⟨2, 4, 8, 16, 0⟩, ⟨2, 4, 64, 16, 0⟩]

/-- The table of `twinMaps`. -/
def twinTable : List EbpfMapDescriptor :=
  [⟨⟨12, 4, 4, 8, 2⟩, 1⟩, ⟨⟨12, 4, 4, 8, 3⟩, 1⟩, ⟨⟨2, 4, 8, 16, 1⟩, 2⟩, ⟨⟨2, 4, 64, 16, 1⟩, 3⟩]

/-- The second map of maps is answered with the inner map of the first. -/
theorem getMapDescriptor_exact_iff_twinMaps :
    ¬ ∀ map ∈ twinTable,
      (getMapDescriptorLinux twinTable map.originalFd).map MapDescriptor.innerMapFd =
      some map.innerMapFd := by
  rw [@getMapDescriptor_exact_iff _ [] twinMaps [] twinTable
    [] _ _ MapDescriptor.innerMapFd rfl rfl rfl]
  intro agree
  have same := agree ⟨⟨12, 4, 4, 8, 2⟩, 1⟩ (.head _) ⟨⟨12, 4, 4, 8, 3⟩, 1⟩ (.tail _ (.head _)) rfl
  exact absurd same (by decide)

end Files
end Ebpf
end Prevail
