import Prevail.Asm.LabelText
import Prevail.Crab.Interval
import Prevail.Crab.Variable

namespace Prevail
namespace Crab

/-!
# The names of variables

The factories of `crab/var_factory.cpp`.  A variable is the position of its name
in a list of names that only grows, so two variables are the same exactly if
their names are.  The names are built from a slot and a kind, and `kind_var`
takes them apart at the last dot.

A name determines the call that makes it.  The last dot ends the slot, since no
kind contains one.  The last frame delimiter ends the prefix of a frame, the
first dot ends the offset of a cell, and only the name of a loop counter ends
with a bracket.  The offset of a cell is determined up to the cast that
`cell_var` applies to it.
-/

def nameOf : DataKind -> List Char
  | .ctxOffsets => "ctx_offset".toList
  | .mapFds => "map_fd".toList
  | .packetOffsets => "packet_offset".toList
  | .sharedOffsets => "shared_offset".toList
  | .sharedRegionSizes => "shared_region_size".toList
  | .stackNumericSizes => "stack_numeric_size".toList
  | .stackOffsets => "stack_offset".toList
  | .svalues => "svalue".toList
  | .types => "type".toList
  | .uvalues => "uvalue".toList

/-- The text of a register, with the dot behind it. -/
def regText (i : Int) : List Char := 'r' :: Label.decimal i ++ ['.']

/-- The text of a cell in `mk_scalar_name`, with the dot behind it. -/
def cellText (o size : Int) : List Char :=
  ['s', '['] ++ Label.decimal o ++ (if size ≠ 1 then ['.', '.', '.'] ++ Label.decimal (o + size - 1)
    else []) ++
    [']', '.']

/-- The name of `variable_t::reg`. -/
def regName (kind : DataKind) (i : Int) : List Char := regText i ++ nameOf kind

/-- The name of `variable_t::stack_frame_var`. -/
def stackFrameName (kind : DataKind) (i : Int) (stackFramePrefix : List Char) : List Char :=
  stackFramePrefix ++ [Label.stackFrameDelimiter] ++ regText i ++ nameOf kind

/-- The name of `variable_t::cell_var`.  The cast of the offset can throw. -/
def cellName (array : DataKind) (offset size : Int) : Option (List Char) :=
  (IntType.uint64.cast offset).map (fun o => cellText o size ++ nameOf array)

/-- The name of `variable_t::loop_counter`. -/
def loopCounterName (label : List Char) : List Char := ['p', 'c', '['] ++ label ++ [']']

/-- The part of a name up to its last dot, the dot included, and nothing of a
name without dots. -/
def upToLastDot (name : List Char) :
    List Char := (name.reverse.dropWhile (fun char => char ≠ '.')).reverse

/-- The name of `variable_t::kind_var`. -/
def kindName (kind : DataKind) (typeName : List Char) :
    List Char := upToLastDot typeName ++ nameOf kind

/-! ## The list of names -/

abbrev Names := List (List Char)

def make (name : List Char) (names : Names) : Nat × Names :=
  match names.findIdx? (fun other => other = name) with
  | some id => (id, names)
  | none => (names.length, names ++ [name])

/-- `variable_t::kind_var`, which reads the name of the given variable first. -/
def kindVar (kind : DataKind) (typeVariable : Nat) (names : Names) : Option (Nat × Names) :=
  names[typeVariable]?.map (fun name => make (kindName kind name) names)

section Make

variable {names later : Names} {name other : List Char}

theorem prefix_make (name : List Char) (names : Names) : names <+: (make name names).2 := by
  unfold make
  split
  · exact List.prefix_rfl
  · exact List.prefix_append _ _

/-- A variable keeps its name, and it is the first one with it. -/
theorem make_spec (name : List Char) (names : Names) :
    (make name names).2[(make name names).1]? = some name ∧
      forall earlier, earlier < (make name names).1 ->
      (make name names).2[earlier]? ≠ some name := by
  unfold make
  split
  · rename_i id found
    rw [List.findIdx?_eq_some_iff_getElem] at found
    rcases found with ⟨inside, here, before⟩
    refine ⟨?_, fun earlier less same => ?_⟩
    · rw [List.getElem?_eq_getElem inside]
      exact congrArg some (of_decide_eq_true here)
    · have earlierInside := less.trans inside
      rw [List.getElem?_eq_getElem earlierInside] at same
      exact before earlier less (decide_eq_true (Option.some.inj same))
  · rename_i absent
    rw [List.findIdx?_eq_none_iff] at absent
    refine ⟨List.getElem?_concat_length, fun earlier less same => ?_⟩
    rw [List.getElem?_append_left less] at same
    exact absurd (absent name (List.mem_of_getElem? same)) (by simp)

theorem getElem?_of_extension (extends_ : names <+: later) {id : Nat} (inside : id < names.length) :
    later[id]? = names[id]? := by
  rcases extends_ with ⟨rest, rfl⟩
  exact List.getElem?_append_left inside

/-- Two variables are the same exactly if their names are, whatever was named in
between. -/
theorem make_eq_iff (extends_ : (make name names).2 <+: later) :
    (make name names).1 = (make other later).1 ↔ name = other := by
  rcases make_spec name names with ⟨here, first⟩
  rcases make_spec other later with ⟨there, second⟩
  have inside := (List.getElem?_eq_some_iff.mp here).1
  have kept : forall id, id < (make name names).2.length ->
      (make other later).2[id]? = (make name names).2[id]? :=
    fun id below => getElem?_of_extension (extends_.trans (prefix_make other later)) below
  constructor
  · intro same
    rw [← same, kept _ inside, here] at there
    exact Option.some.inj there
  · intro same
    subst same
    rcases lt_trichotomy (make name names).1 (make name later).1 with less | equal | greater
    · exact absurd ((kept _ inside).trans here) (second _ less)
    · exact equal
    · exact absurd ((kept _ (greater.trans inside)).symm.trans there) (first _ greater)

end Make

/-! ## The parts of a name -/

theorem nameOf_injective : Function.Injective nameOf := by
  intro left right same
  cases left <;> cases right <;> first | rfl | exact absurd same (by decide)

theorem dot_not_mem_nameOf (kind : DataKind) : '.' ∉ nameOf kind := by
  cases kind <;> decide

theorem getLast?_nameOf (kind : DataKind) : exists char, (nameOf kind).getLast? = some char ∧
    char ≠ ']' := by
  cases kind <;> exact ⟨_, rfl, by decide⟩

theorem upToLastDot_append (front : List Char) {rest : List Char} (noDot : '.' ∉ rest) :
    upToLastDot (front ++ '.' :: rest) = front ++ ['.'] := by
  have skipped : forall char, char ∈ rest.reverse -> decide (char ≠ '.') = true := by
    intro char member
    rw [decide_eq_true_eq]
    exact fun same => noDot (same ▸ List.mem_reverse.mp member)
  rw [upToLastDot, List.reverse_append, List.reverse_cons, List.append_assoc,
    List.dropWhile_append_of_pos skipped]
  simp

theorem not_mem_decimal {char : Char} (notMinus : char ≠ '-') (notDigit : char.isDigit = false)
    (value : Int) :
    char ∉ Label.decimal value := by
  intro member
  rcases Label.mem_decimal member with same | digit
  · exact notMinus same
  · rw [notDigit] at digit
    cases digit

theorem regText_injective {i j : Int} (same : regText i = regText j) : i = j := by
  rw [regText, regText] at same
  exact Label.decimal_injective (List.cons.inj (List.append_cancel_right same)).2

theorem cellText_injective {o size o' size' : Int} (same : cellText o size = cellText o' size') :
    o = o' ∧ size = size' := by
  have noDot : forall value, '.' ∉ Label.decimal value := not_mem_decimal (by decide) (by decide)
  rw [cellText, cellText] at same
  have inner := List.append_cancel_right same
  rw [List.append_assoc, List.append_assoc] at inner
  have parts := List.append_cancel_left inner
  split at parts <;> split at parts
  · rcases Label.append_cons_inj (noDot o) (noDot o') parts with ⟨offsets, rests⟩
    have ends := Label.decimal_injective
      (List.append_cancel_left (show ['.', '.'] ++ _ = ['.', '.'] ++ _ from rests))
    have offset := Label.decimal_injective offsets
    exact ⟨offset, by omega⟩
  · rw [List.append_nil] at parts
    exact absurd (parts ▸ List.mem_append_right _ List.mem_cons_self) (noDot o')
  · rw [List.append_nil] at parts
    exact absurd (parts ▸ List.mem_append_right _ List.mem_cons_self) (noDot o)
  · rename_i first second
    rw [List.append_nil, List.append_nil] at parts
    exact ⟨Label.decimal_injective parts, (not_not.mp first).trans (not_not.mp second).symm⟩

/-! ## Names determine the calls -/

/-- The arguments of a factory besides the kind. -/
inductive Slot where
  | reg (i : Int)
  | stackFrame (i : Int) (stackFramePrefix : List Char)
  | cell (offset size : Int)
  deriving DecidableEq

/-- A call of a factory. -/
inductive Factory where
  | of (kind : DataKind) (slot : Slot)
  | metaOffset
  | packetSize
  | loopCounter (label : List Char)
  deriving DecidableEq

def Factory.name : Factory -> Option (List Char)
  | .of kind (.reg i) => some (regName kind i)
  | .of kind (.stackFrame i stackFramePrefix) => some (stackFrameName kind i stackFramePrefix)
  | .of kind (.cell offset size) => cellName kind offset size
  | .metaOffset => some "meta_offset".toList
  | .packetSize => some "packet_size".toList
  | .loopCounter label => some (loopCounterName label)

/-- A slot, with the offset of a cell as `cell_var` casts it. -/
def Slot.cast : Slot -> Slot
  | .cell offset size => .cell (IntType.uint64.truncate offset) size
  | slot => slot

/-- A call with its slot cast. -/
def Factory.cast : Factory -> Factory
  | .of kind slot => .of kind slot.cast
  | other => other

/-- The text that the names of a slot begin with. -/
def Slot.text : Slot -> List Char
  | .reg i => regText i
  | .stackFrame i stackFramePrefix => stackFramePrefix ++ [Label.stackFrameDelimiter] ++ regText i
  | .cell offset size => cellText (IntType.uint64.truncate offset) size

section Slots

variable {left right : Slot}

theorem Slot.text_eq (slot : Slot) : exists front, slot.text = front ++ ['.'] := by
  cases slot with
  | reg i => exact ⟨_, rfl⟩
  | stackFrame i stackFramePrefix =>
      exact ⟨stackFramePrefix ++ [Label.stackFrameDelimiter] ++ ('r' :: Label.decimal i),
        by rw [Slot.text, regText, List.append_assoc _ _ ['.']]⟩
  | cell offset size =>
      refine ⟨['s', '['] ++ Label.decimal (IntType.uint64.truncate offset) ++ (if size ≠ 1 then
        ['.', '.', '.'] ++ Label.decimal (IntType.uint64.truncate offset + size - 1)
          else []) ++ [']'], ?_⟩
      rw [Slot.text, cellText, List.append_assoc _ [']'] ['.']]
      rfl

theorem delimiter_not_mem_regText (i : Int) : Label.stackFrameDelimiter ∉ regText i := by
  have notDecimal := not_mem_decimal (show Label.stackFrameDelimiter ≠ '-' by decide) (by decide) i
  intro member
  rw [regText, List.mem_append, List.mem_cons, List.mem_singleton] at member
  rcases member with (first | inDecimal) | last
  · exact absurd first (by decide)
  · exact notDecimal inDecimal
  · exact absurd last (by decide)

theorem delimiter_not_mem_cellText (o size : Int) :
    Label.stackFrameDelimiter ∉ cellText o size := by
  have notDecimal := not_mem_decimal (show Label.stackFrameDelimiter ≠ '-' by decide) (by decide)
  have notRange : Label.stackFrameDelimiter ∉
      (if size ≠ 1 then ['.', '.', '.'] ++ Label.decimal (o + size - 1) else []) := by
    split
    · intro member
      rcases List.mem_append.mp member with dots | inDecimal
      · exact absurd dots (by decide)
      · exact notDecimal _ inDecimal
    · exact List.not_mem_nil
  intro member
  rw [cellText, List.mem_append, List.mem_append, List.mem_append] at member
  rcases member with ((first | inDecimal) | inRange) | last
  · exact absurd first (by decide)
  · exact notDecimal o inDecimal
  · exact notRange inRange
  · exact absurd last (by decide)

theorem delimiter_mem_text (i : Int) (stackFramePrefix : List Char) :
    Label.stackFrameDelimiter ∈ (Slot.stackFrame i stackFramePrefix).text :=
  List.mem_append_left _ (List.mem_append_right _ (List.mem_singleton_self _))

theorem Slot.cast_eq_of_text (same : left.text = right.text) : left.cast = right.cast := by
  cases left with
  | reg i =>
      cases right with
      | reg j => rw [regText_injective same]
      | stackFrame j stackFramePrefix =>
          have member := delimiter_mem_text j stackFramePrefix
          rw [← same] at member
          exact absurd member (delimiter_not_mem_regText i)
      | cell offset size => exact absurd (List.cons.inj same).1 (by decide)
  | stackFrame i stackFramePrefix =>
      have member := delimiter_mem_text i stackFramePrefix
      cases right with
      | reg j =>
          rw [same] at member
          exact absurd member (delimiter_not_mem_regText j)
      | stackFrame j otherPrefix =>
          rw [Slot.text, Slot.text, List.append_assoc, List.append_assoc] at same
          rcases Label.append_cons_inj_right (delimiter_not_mem_regText i)
            (delimiter_not_mem_regText j) same with
            ⟨prefixes, registers⟩
          rw [prefixes, regText_injective registers]
      | cell offset size =>
          rw [same] at member
          exact absurd member (delimiter_not_mem_cellText _ _)
  | cell offset size =>
      cases right with
      | reg j => exact absurd (List.cons.inj same).1 (by decide)
      | stackFrame j stackFramePrefix =>
          have member := delimiter_mem_text j stackFramePrefix
          rw [← same] at member
          exact absurd member (delimiter_not_mem_cellText _ _)
      | cell otherOffset otherSize =>
          rcases cellText_injective same with ⟨offsets, sizes⟩
          rw [Slot.cast, Slot.cast, offsets, sizes]

theorem Slot.text_cast (slot : Slot) : slot.cast.text = slot.text := by
  cases slot with
  | reg i => rfl
  | stackFrame i stackFramePrefix => rfl
  | cell offset size =>
      have fits := IntType.truncate_fits (show 0 < IntType.uint64.width by decide) offset
      rw [Slot.cast, Slot.text, Slot.text, IntType.truncate_of_fits (by decide) fits]

end Slots

section Calls

variable {left right : Factory} {name : List Char}

theorem truncate_of_cast {type : IntType} {n o : Int} (cast : type.cast n = some o) :
    type.truncate n = o := by
  unfold IntType.cast at cast
  split at cast
  · exact Option.some.inj cast
  · cases cast

theorem Factory.name_of {kind : DataKind} {slot : Slot}
    (named : (Factory.of kind slot).name = some name) :
    name = slot.text ++ nameOf kind := by
  cases slot with
  | reg i => exact (Option.some.inj named).symm
  | stackFrame i stackFramePrefix =>
      rw [← Option.some.inj named, stackFrameName, Slot.text]
  | cell offset size =>
      rcases Option.map_eq_some_iff.mp named with ⟨o, cast, rfl⟩
      rw [Slot.text, truncate_of_cast cast]

theorem Factory.name_of_kind {other kind : DataKind} {slot : Slot}
    (named : (Factory.of other slot).name = some name) :
    (Factory.of kind slot).name = some (slot.text ++ nameOf kind) := by
  cases slot with
  | reg i => rfl
  | stackFrame i stackFramePrefix => rfl
  | cell offset size =>
      rcases Option.map_eq_some_iff.mp named with ⟨o, cast, _⟩
      rw [Factory.name, cellName, cast, Slot.text, truncate_of_cast cast]
      rfl

theorem Factory.upToLastDot_name {kind : DataKind} {slot : Slot}
    (named : (Factory.of kind slot).name = some name) : upToLastDot name = slot.text := by
  rcases slot.text_eq with ⟨front, form⟩
  rw [Factory.name_of named, form, List.append_assoc, List.singleton_append,
    upToLastDot_append front (dot_not_mem_nameOf kind)]

/-- A name with a slot contains a dot and does not end with a bracket. -/
theorem Factory.slot_marks {kind : DataKind} {slot : Slot}
    (named : (Factory.of kind slot).name = some name) :
    '.' ∈ name ∧ name.getLast? ≠ some ']' := by
  rcases slot.text_eq with ⟨front, form⟩
  rcases getLast?_nameOf kind with ⟨char, last, notBracket⟩
  rw [Factory.name_of named, form]
  refine ⟨by simp, ?_⟩
  rw [List.getLast?_append, last]
  exact fun same => notBracket (Option.some.inj same)

theorem getLast?_loopCounterName (label : List Char) :
    (loopCounterName label).getLast? = some ']' :=
  List.getLast?_concat

theorem Factory.cast_eq_of_name (named : left.name = some name)
    (otherNamed : right.name = some name) :
    left.cast = right.cast := by
  cases left with
  | of kind slot =>
      rcases Factory.slot_marks named with ⟨dot, notBracket⟩
      cases right with
      | of otherKind otherSlot =>
          have texts := (Factory.upToLastDot_name named).symm.trans
            (Factory.upToLastDot_name otherNamed)
          have kinds := (Factory.name_of named).symm.trans (Factory.name_of otherNamed)
          rw [texts] at kinds
          rw [Factory.cast, Factory.cast, Slot.cast_eq_of_text texts,
            nameOf_injective (List.append_cancel_left kinds)]
      | metaOffset =>
          cases otherNamed
          exact absurd dot (by decide)
      | packetSize =>
          cases otherNamed
          exact absurd dot (by decide)
      | loopCounter label =>
          cases otherNamed
          exact absurd (getLast?_loopCounterName label) notBracket
  | metaOffset =>
      cases named
      cases right with
      | of kind slot => exact absurd (Factory.slot_marks otherNamed).1 (by decide)
      | metaOffset => rfl
      | packetSize => exact absurd (Option.some.inj otherNamed) (by decide)
      | loopCounter label => exact absurd (List.cons.inj (Option.some.inj otherNamed)).1 (by decide)
  | packetSize =>
      cases named
      cases right with
      | of kind slot => exact absurd (Factory.slot_marks otherNamed).1 (by decide)
      | metaOffset => exact absurd (Option.some.inj otherNamed) (by decide)
      | packetSize => rfl
      | loopCounter label =>
          exact absurd (List.cons.inj (List.cons.inj (Option.some.inj otherNamed)).2).1 (by decide)
  | loopCounter label =>
      cases named
      cases right with
      | of kind slot => exact absurd (getLast?_loopCounterName label) (Factory.slot_marks
        otherNamed).2
      | metaOffset => exact absurd (List.cons.inj (Option.some.inj otherNamed)).1 (by decide)
      | packetSize => exact absurd (List.cons.inj
        (List.cons.inj (Option.some.inj otherNamed)).2).1 (by decide)
      | loopCounter otherLabel =>
          have labels := List.append_cancel_right (Option.some.inj otherNamed)
          rw [List.append_cancel_left labels]

theorem Factory.name_eq_of_cast {otherName : List Char} (named : left.name = some name)
    (otherNamed : right.name = some otherName) (same : left.cast = right.cast) :
    name = otherName := by
  cases left <;> cases right <;> first | cases same | skip
  · rename_i kind slot otherKind otherSlot
    rcases Factory.of.inj same with ⟨rfl, slots⟩
    rw [Factory.name_of named, Factory.name_of otherNamed, ← Slot.text_cast slot, slots,
      Slot.text_cast]
  · exact Option.some.inj (named.symm.trans otherNamed)
  · exact Option.some.inj (named.symm.trans otherNamed)
  · exact Option.some.inj (named.symm.trans otherNamed)

end Calls

/-! ## The variables -/

/-- What a factory returns.  There is no variable if the cast of an offset
throws. -/
def Factory.variable (factory : Factory) (names : Names) : Option (Nat × Names) :=
  factory.name.map (fun name => make name names)

/-- The offset of a cell is an `index_t`. -/
def Factory.HasIndex : Factory -> Prop
  | .of _ (.cell offset _) => IntType.uint64.Fits offset
  | _ => True

theorem Factory.cast_of_hasIndex {factory : Factory} (index : factory.HasIndex) :
    factory.cast = factory := by
  cases factory with
  | of kind slot =>
      cases slot with
      | reg i => rfl
      | stackFrame i stackFramePrefix => rfl
      | cell offset size => rw [Factory.cast, Slot.cast, IntType.truncate_of_fits (by decide) index]
  | metaOffset => rfl
  | packetSize => rfl
  | loopCounter label => rfl

section Variables

variable {left right : Factory} {names leftNames rightNames later : Names} {leftId rightId : Nat}

/-- Two calls return the same variable exactly if they are the same after the
cast. -/
theorem Factory.variable_eq_iff (made : left.variable names = some (leftId, leftNames))
    (extends_ : leftNames <+: later)
    (otherMade : right.variable later = some (rightId, rightNames)) :
    leftId = rightId ↔ left.cast = right.cast := by
  rcases Option.map_eq_some_iff.mp made with ⟨leftName, leftNamed, leftForm⟩
  rcases Option.map_eq_some_iff.mp otherMade with ⟨rightName, rightNamed, rightForm⟩
  have extended : (make leftName names).2 <+: later := by
    rw [leftForm]
    exact extends_
  have ids := @make_eq_iff names later leftName rightName extended
  rw [leftForm, rightForm] at ids
  rw [ids]
  constructor
  · intro same
    subst same
    exact Factory.cast_eq_of_name leftNamed rightNamed
  · exact Factory.name_eq_of_cast leftNamed rightNamed

/-- From the variable of one kind, `kind_var` makes that of another kind of the
same slot. -/
theorem kindVar_eq {kind other : DataKind} {slot : Slot}
    (made : (Factory.of other slot).variable names = some (leftId, leftNames))
    (extends_ : leftNames <+: later) :
    kindVar kind leftId later = (Factory.of kind slot).variable later := by
  rcases Option.map_eq_some_iff.mp made with ⟨name, named, form⟩
  have here := (make_spec name names).1
  rw [form] at here
  have kept : later[leftId]? = some name :=
    (getElem?_of_extension extends_ (List.getElem?_eq_some_iff.mp here).1).trans here
  rw [kindVar, kept, Factory.variable, @Factory.name_of_kind name other kind slot named,
    Option.map_some, Option.map_some, kindName, Factory.upToLastDot_name named]

end Variables

/-- The frames of two calls and the counters of two loops have different names
if the labels are different. -/
theorem Factory.labels_of_name {label other : Label} (plain : label.IsPlain)
    (otherPlain : other.IsPlain) :
    (forall kind otherKind i j, (Factory.of kind (.stackFrame i label.text)).name =
      (Factory.of otherKind (.stackFrame j other.text)).name -> kind = otherKind ∧ i = j ∧
      label = other) ∧
    ((Factory.loopCounter label.text).name = (Factory.loopCounter other.text).name ->
      label = other) := by
  constructor
  · intro kind otherKind i j same
    have casts : (Factory.of kind (.stackFrame i label.text)).cast =
        (Factory.of otherKind (.stackFrame j other.text)).cast := Factory.cast_eq_of_name same rfl
    rcases Factory.of.inj casts with ⟨kinds, slots⟩
    rcases Slot.stackFrame.inj slots with ⟨registers, texts⟩
    exact ⟨kinds, registers, Label.text_injective_of_isPlain plain otherPlain texts⟩
  · intro same
    have casts : (Factory.loopCounter label.text).cast = (Factory.loopCounter other.text).cast :=
      Factory.cast_eq_of_name same rfl
    exact Label.text_injective_of_isPlain plain otherPlain (Factory.loopCounter.inj casts)

/-- Variables never collide, up to the cast of the offset of a cell. -/
theorem Factory.variables_distinct (names : Names) :
    (forall left right leftId leftNames later rightId rightNames,
      Factory.variable left names = some (leftId, leftNames) -> leftNames <+: later ->
      Factory.variable right later = some (rightId, rightNames) ->
      (leftId = rightId ↔ left.cast = right.cast) ∧
        (left.HasIndex -> right.HasIndex -> (leftId = rightId ↔ left = right))) ∧
    (forall slot typeId typeNames later kind,
      (Factory.of .types slot).variable names = some (typeId, typeNames) -> typeNames <+: later ->
      kindVar kind typeId later = (Factory.of kind slot).variable later) ∧
    (forall label other : Label, label.IsPlain -> other.IsPlain ->
      (forall kind otherKind i j, (Factory.of kind (.stackFrame i label.text)).name =
        (Factory.of otherKind (.stackFrame j other.text)).name -> kind = otherKind ∧ i = j ∧
        label = other) ∧
      ((Factory.loopCounter label.text).name = (Factory.loopCounter other.text).name ->
      label = other)) := by
  refine ⟨?_, ?_, fun label other plain otherPlain => Factory.labels_of_name plain otherPlain⟩
  · intro left right leftId leftNames later rightId rightNames made extends_ otherMade
    have same := Factory.variable_eq_iff made extends_ otherMade
    refine ⟨same, fun leftIndex rightIndex => ?_⟩
    rw [same, Factory.cast_of_hasIndex leftIndex, Factory.cast_of_hasIndex rightIndex]
  · intro slot typeId typeNames later kind made extends_
    exact kindVar_eq made extends_

/-- Two cells next to each other, and the value of the first one from its type. -/
theorem variables_distinct_cells :
    ((0 = 1) ↔ (Factory.of .types (.cell 8 8)).cast = (Factory.of .types (.cell 16 8)).cast) ∧
      kindVar .svalues 0 ["s[8...15].type".toList] =
        (Factory.of .svalues (.cell 8 8)).variable ["s[8...15].type".toList] := by
  rcases Factory.variables_distinct [] with ⟨distinct, kinds, _⟩
  constructor
  · exact (distinct (.of .types (.cell 8 8)) (.of .types (.cell 16 8)) 0 ["s[8...15].type".toList]
      ["s[8...15].type".toList] 1 ["s[8...15].type".toList, "s[16...23].type".toList]
      (by decide) List.prefix_rfl
      (by decide)).1
  · exact kinds (.cell 8 8) 0 ["s[8...15].type".toList] ["s[8...15].type".toList] .svalues
      (by decide) List.prefix_rfl

/-- The cast gives one name to two offsets. -/
theorem name_cell_negative :
    (Factory.of .svalues (.cell (-8) 4)).name =
      some "s[18446744073709551608...18446744073709551611].svalue".toList ∧
      (Factory.of .svalues (.cell (-8) 4)).name =
      (Factory.of .svalues (.cell (2 ^ 64 - 8) 4)).name ∧
      Factory.of .svalues (.cell (-8) 4) ≠ Factory.of .svalues (.cell (2 ^ 64 - 8) 4) := by
  decide

/-! ## The variables of the domain -/

def Owner.slot : Owner -> Slot
  | .reg register => .reg register.v.toNat
  | .stackFrame stackFramePrefix register => .stackFrame register.v.toNat stackFramePrefix
  | .cell offset size => .cell offset size

/-- The call that makes a variable of the domain. -/
def Variable.factory : Variable -> Factory
  | .of owner kind => .of kind owner.slot
  | .metaOffset => .metaOffset
  | .packetSize => .packetSize
  | .loopCounter label => .loopCounter label

theorem Owner.slot_injective : Function.Injective Owner.slot := by
  have registers : forall left right : Reg, (left.v.toNat : Int) = right.v.toNat ->
      left = right := by
    intro left right same
    rcases left with ⟨left⟩
    rcases right with ⟨right⟩
    exact congrArg Reg.mk (UInt8.toNat_inj.mp (Int.ofNat_inj.mp same))
  intro left right same
  cases left with
  | reg register =>
      cases right with
      | reg other => rw [registers register other (Slot.reg.inj same)]
      | stackFrame stackFramePrefix other => cases same
      | cell offset size => cases same
  | stackFrame stackFramePrefix register =>
      cases right with
      | reg other => cases same
      | stackFrame otherPrefix other =>
          rcases Slot.stackFrame.inj same with ⟨numbers, rfl⟩
          rw [registers register other numbers]
      | cell offset size => cases same
  | cell offset size =>
      cases right with
      | reg other => cases same
      | stackFrame stackFramePrefix other => cases same
      | cell otherOffset otherSize =>
          rcases Slot.cell.inj same with ⟨rfl, rfl⟩
          rfl

theorem Variable.factory_injective : Function.Injective Variable.factory := by
  intro left right same
  cases left with
  | of owner kind =>
      cases right with
      | of other otherKind =>
          rcases Factory.of.inj same with ⟨rfl, slots⟩
          rw [Owner.slot_injective slots]
      | metaOffset => cases same
      | packetSize => cases same
      | loopCounter label => cases same
  | metaOffset =>
      cases right <;> first | rfl | cases same
  | packetSize =>
      cases right <;> first | rfl | cases same
  | loopCounter label =>
      cases right with
      | loopCounter other => rw [Factory.loopCounter.inj same]
      | of owner kind => cases same
      | metaOffset => cases same
      | packetSize => cases same

theorem Variable.eq_of_name {left right : Variable} {name : List Char}
    (leftIndex : left.factory.HasIndex)
    (rightIndex : right.factory.HasIndex) (named : left.factory.name = some name)
    (otherNamed : right.factory.name = some name) : left = right := by
  have casts := Factory.cast_eq_of_name named otherNamed
  rw [Factory.cast_of_hasIndex leftIndex, Factory.cast_of_hasIndex rightIndex] at casts
  exact Variable.factory_injective casts

/-- `Variable.kindVar` is `kind_var` on the names. -/
theorem Variable.name_kindVar {owner : Owner} {kind other : DataKind} {name : List Char}
    (named : (Variable.of owner other).factory.name = some name) :
    ((Variable.of owner other).kindVar kind).factory.name = some (kindName kind name) := by
  rw [kindName, Factory.upToLastDot_name named]
  exact Factory.name_of_kind named

end Crab
end Prevail
