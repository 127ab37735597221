import Prevail.Crab.ArrayDomain

namespace Prevail
namespace Crab
namespace ArrayDomain

/-!
# Reads of numbers from cells

When the reads of `array_domain_t` succeed.  The only read that can throw before an
offset is searched for is the cast to a word of the number that a cell is known to hold.
Of the cells of 8, 4, 2 and 1 bytes around a byte, the widest one that is known is read.

The assignments and removals of a split change variables of cells beside the access
only, and the numbers that they assign are words.  After a split, no cell therefore has
to hold a number that is not a word, unless it had to before.
-/

/-! ## Registers and cells -/

/-- A variable of a cell that does not overlap with an access. -/
inductive Beside (query : Cell) : Variable -> Prop
  | of (kind : DataKind) (cell : Cell)
      (apart : cell.offset + cell.size ≤ query.offset ∨ query.offset + query.size ≤ cell.offset) :
      Beside query (cell.getScalar kind)

/-- A cell that reaches into the range of an access. -/
def ReachesInto (query cell : Cell) : Prop :=
  query.offset < cell.offset + cell.size ∧ cell.offset < query.offset + query.size

/-- An expression without variables of cells. -/
def AvoidsCells (e : LinearExpression Variable) : Prop :=
  ∀ term ∈ e.variableTerms, forall kind offset size, term.1 ≠ .cellVar kind offset size

variable {values others : Variable -> Int} {e : LinearExpression Variable} {query : Cell}

/-- The value of an expression without cells. -/
theorem AvoidsCells.eval (avoids : AvoidsCells e)
    (same : forall x, ¬ Beside query x -> others x = values x) : e.eval others = e.eval values := by
  have terms : LinearExpression.evalTerms others e.variableTerms =
      LinearExpression.evalTerms values e.variableTerms := by
    rw [LinearExpression.evalTerms, LinearExpression.evalTerms]
    refine congrArg List.sum (List.map_congr_left ?_)
    intro term member
    have notBeside : ¬ Beside query term.1 := by
      intro beside
      cases isCell : term.1 with
      | of owner kind =>
          rw [isCell] at beside
          cases beside
          exact avoids term member _ _ _ isCell
      | metaOffset =>
          rw [isCell] at beside
          cases beside
      | packetSize =>
          rw [isCell] at beside
          cases beside
      | loopCounter label =>
          rw [isCell] at beside
          cases beside
    rw [same term.1 notBeside]
  rw [LinearExpression.eval, LinearExpression.eval, terms]

theorem avoidsCells_const {n : Int} : AvoidsCells (.const n) :=
  fun _ member => absurd member List.not_mem_nil

theorem not_beside_of_overlap {kind : DataKind} {cell : Cell} (overlap : ReachesInto query cell) :
    ¬ Beside query (cell.getScalar kind) := by
  intro beside
  generalize same : cell.getScalar kind = x at beside
  cases beside with
  | of otherKind other apart =>
      simp only [Cell.getScalar, Variable.of.injEq, Owner.cell.injEq, Nat.cast_inj] at same
      have before := overlap.1
      have behind := overlap.2
      omega

theorem singleton_ofNumber (n : Int) : (Interval.ofNumber n).singleton = some n := by
  have nonempty : ¬ (Interval.ofNumber n).IsBottom :=
    Interval.not_isBottom_of_mem (Interval.mem_ofNumber.mpr rfl)
  rw [Interval.singleton, if_pos ⟨nonempty, rfl⟩]
  rfl

/-! ## Numbers that are known -/

variable [LinearOrder Variable]

attribute [local instance(2000)] LinearOrder.toDecidableEq

/-- Everything represented gives a variable one number. -/
def Fixed (inv : AddBottom Variable) (x : Variable) (n : Int) : Prop :=
  forall values, inv.Represents values -> values x = n

/-- A variable need not have a number that is not a word. -/
def AllowsWord (inv : AddBottom Variable) (x : Variable) : Prop :=
  forall n, Fixed inv x n -> IntType.uint64.FitsCast n

variable {inv next : AddBottom Variable} {x : Variable} {n : Int}

/-- A known value is the one of whatever is represented. -/
theorem eq_eval_of_singleton {k : Int} (represents : inv.Represents values)
    (single : (inv.evalInterval e).singleton = some k) : e.eval values = k :=
  Interval.eq_of_singleton single (AddBottom.mem_evalInterval represents e)

theorem fixed_of_singleton (single : (inv.evalInterval (.var x)).singleton = some n) :
    Fixed inv x n := by
  intro values represents
  have value := eq_eval_of_singleton represents single
  rwa [LinearExpression.eval_var] at value

/-- A number is known in every state but bottom. -/
theorem singleton_const (represents : inv.Represents values) (n : Int) :
    (inv.evalInterval (.const n)).singleton = some n := by
  rcases represents with ⟨s, rfl, _⟩
  exact singleton_ofNumber n

theorem allowsWord_of_represents (represents : inv.Represents values)
    (word : IntType.uint64.FitsCast (values x)) : AllowsWord inv x := by
  intro n fixed
  rwa [<- fixed values represents]

/-- What splits beside an access leave: everything represented still is, up to the
variables of cells beside the access, and no signed value has to be other than a word. -/
structure Follows (query : Cell) (inv next : AddBottom Variable) : Prop where
  image : forall values, inv.Represents values -> exists others, next.Represents others ∧
    forall x, ¬ Beside query x -> others x = values x
  allows : forall cell : Cell, AllowsWord inv (cell.getScalar .svalues) ->
    AllowsWord next (cell.getScalar .svalues)

theorem Follows.refl (query : Cell) (inv : AddBottom Variable) : Follows query inv inv :=
  ⟨fun values represents => ⟨values, represents, fun _ _ => rfl⟩, fun _ allows => allows⟩

theorem Follows.trans {last : AddBottom Variable} (first : Follows query inv next)
    (second : Follows query next last) : Follows query inv last := by
  refine ⟨?_, fun cell allows => second.allows cell (first.allows cell allows)⟩
  intro values represents
  rcases first.image values represents with ⟨others, between, same⟩
  rcases second.image others between with ⟨final, represented, sameLater⟩
  exact ⟨final, represented, fun x notBeside => (sameLater x notBeside).trans (same x notBeside)⟩

theorem Follows.fixed (follows : Follows query inv next) (notBeside : ¬ Beside query x)
    (fixed : Fixed next x n) : Fixed inv x n := by
  intro values represents
  rcases follows.image values represents with ⟨others, after, same⟩
  rw [<- same x notBeside]
  exact fixed others after

/-- The assignment of what a load gave to a variable beside the access: nothing, the
variable itself, or a number, which for a signed value is a word. -/
theorem follows_assignOptional {result : Option Expression} (represents : inv.Represents values)
    (beside : Beside query x)
    (gave : ∀ e ∈ result, e = .var x ∨ exists n, e = .const n ∧
      ((exists cell : Cell, cell.getScalar .svalues = x) -> IntType.uint64.FitsCast n)) :
    Follows query inv (assignOptional x result inv) := by
  have image : forall values, inv.Represents values -> exists others,
      (assignOptional x result inv).Represents others ∧ forall y, y ≠ x -> others y = values y := by
    intro values represents
    cases result with
    | none =>
        exact ⟨_, AddBottom.represents_forget x 0 represents,
          fun y different => Function.update_of_ne different ..⟩
    | some e =>
        exact ⟨_, AddBottom.represents_assign x e.2 represents,
          fun y different => Function.update_of_ne different ..⟩
  constructor
  · intro values represents
    rcases image values represents with ⟨others, after, same⟩
    refine ⟨others, after, fun y notBeside => same y ?_⟩
    rintro rfl
    exact notBeside beside
  · intro cell allows n fixed
    by_cases isCell : cell.getScalar .svalues = x
    · cases result with
      | none =>
          -- a variable without a value may be zero
          have zero := fixed _ (AddBottom.represents_forget x 0 represents)
          rw [isCell, Function.update_self] at zero
          rw [<- zero]
          decide
      | some e =>
          rcases gave e rfl with rfl | ⟨m, rfl, word⟩
          · apply allows n
            intro others before
            have value := fixed _ (AddBottom.represents_assign x (Expression.var x).2 before)
            rw [isCell, Function.update_self] at value
            rw [isCell, <- value]
            exact (LinearExpression.eval_var others x).symm
          · have value := fixed _ (AddBottom.represents_assign x (Expression.const m).2 represents)
            rw [isCell, Function.update_self] at value
            have isNumber : n = m := value.symm.trans (LinearExpression.eval_const values m)
            rw [isNumber]
            exact word ⟨cell, isCell⟩
    · apply allows n
      intro others before
      rcases image others before with ⟨final, after, same⟩
      rw [<- same _ isCell]
      exact fixed final after

/-! ## Bytes -/

/-- The number that the cell of a width around a byte is known to hold. -/
def knownNumber (inv : AddBottom Variable) (o : BitVec 64) (width : Nat) : Option Int :=
  (inv.evalInterval (.var ((alignedCell o width).getScalar .svalues))).singleton

/-- A cell around a byte is known to hold a number. -/
def KnownByte (inv : AddBottom Variable) (o : BitVec 64) : Prop :=
  ([8, 4, 2, 1].findSome? (knownNumber inv o)).isSome

/-- The widest cell around a byte that is known to hold a number holds a word. -/
def ReadableByte (inv : AddBottom Variable) (o : BitVec 64) : Prop :=
  ∀ t ∈ [8, 4, 2, 1].findSome? (knownNumber inv o), IntType.uint64.FitsCast t

def KnownBytes (inv : AddBottom Variable) (o : BitVec 64) (size : Nat) : Prop :=
  ∀ index < size, KnownByte inv (o + BitVec.ofNat 64 index)

/-- The bytes of a range can be read, up to the first one that is not known. -/
def ReadableBytes (inv : AddBottom Variable) (o : BitVec 64) (size : Nat) : Prop :=
  ∀ index < size, (∀ earlier < index, KnownByte inv (o + BitVec.ofNat 64 earlier)) ->
    ReadableByte inv (o + BitVec.ofNat 64 index)

/-- The cells around the bytes of a range need not hold other numbers than words. -/
def AllowsWords (inv : AddBottom Variable) (start len : Nat) : Prop :=
  forall o, start ≤ o -> o < start + len -> ∀ width ∈ [8, 4, 2, 1],
    AllowsWord inv ((alignedCell (BitVec.ofNat 64 o) width).getScalar .svalues)

theorem AllowsWords.follows {start len : Nat} (allows : AllowsWords inv start len)
    (follows : Follows query inv next) : AllowsWords next start len :=
  fun o lower upper width isWidth => follows.allows _ (allows o lower upper width isWidth)

variable {bigEndian : Bool} {o : BitVec 64} {size : Nat} {kind : DataKind} {widths : List Nat}

/-- What the search for a byte gives is decided by the first cell that is known. -/
theorem findByte_eq_none (unknown : widths.findSome? (knownNumber inv o) = none) :
    findByte bigEndian inv o widths = some none := by
  induction widths with
  | nil => rfl
  | cons width rest inductionHypothesis =>
      rw [List.findSome?_cons] at unknown
      cases here : knownNumber inv o width with
      | none =>
          rw [here] at unknown
          have read : getValueByte bigEndian inv o width = some none := by
            rw [knownNumber] at here
            rw [getValueByte, here]
          rw [findByte, read]
          exact inductionHypothesis unknown
      | some t =>
          rw [here] at unknown
          cases unknown

theorem findByte_eq_cast {t : Int} (known : widths.findSome? (knownNumber inv o) = some t) :
    if IntType.uint64.FitsCast t
      then exists byte, findByte bigEndian inv o widths = some (some byte)
    else findByte bigEndian inv o widths = none := by
  induction widths with
  | nil => cases known
  | cons width rest inductionHypothesis =>
      rw [List.findSome?_cons] at known
      cases here : knownNumber inv o width with
      | none =>
          rw [here] at known
          have read : getValueByte bigEndian inv o width = some none := by
            rw [knownNumber] at here
            rw [getValueByte, here]
          rw [findByte, read]
          exact inductionHypothesis known
      | some n =>
          rw [here] at known
          cases known
          rw [knownNumber] at here
          rw [findByte, getValueByte, here]
          dsimp only
          rw [IntType.cast]
          split
          · exact ⟨_, rfl⟩
          · rfl

/-- A byte can be searched for just if it is readable. -/
theorem isSome_findByte :
    (findByte bigEndian inv o [8, 4, 2, 1]).isSome ↔ ReadableByte inv o := by
  rw [ReadableByte]
  cases known : [8, 4, 2, 1].findSome? (knownNumber inv o) with
  | none =>
      rw [findByte_eq_none known]
      simp
  | some t =>
      have read := @findByte_eq_cast _ inv bigEndian o _ t known
      split at read
      · rename_i word
        rcases read with ⟨byte, read⟩
        rw [read]
        simp [word]
      · rename_i notWord
        rw [read]
        simp [notWord]

theorem findByte_found {found : Option (BitVec 8)}
    (read : findByte bigEndian inv o [8, 4, 2, 1] = some found) : found.isSome ↔
      KnownByte inv o := by
  rw [KnownByte]
  cases known : [8, 4, 2, 1].findSome? (knownNumber inv o) with
  | none =>
      rw [findByte_eq_none known] at read
      cases read
      rfl
  | some t =>
      have cast := @findByte_eq_cast _ inv bigEndian o _ t known
      split at cast
      · rcases cast with ⟨byte, cast⟩
        rw [cast] at read
        cases read
        rfl
      · rw [cast] at read
        cases read

omit [LinearOrder Variable] in
/-- The byte behind a place, counted from the next place. -/
theorem succ_add_ofNat (o : BitVec 64) (index : Nat) :
    o + 1 + BitVec.ofNat 64 index = o + BitVec.ofNat 64 (index + 1) := by
  rw [BitVec.add_assoc, BitVec.add_comm 1, BitVec.ofNat_add]
  rfl

omit [LinearOrder Variable] in
theorem add_ofNat_zero (o : BitVec 64) : o + BitVec.ofNat 64 0 = o := BitVec.add_zero o

theorem knownBytes_succ {rest : Nat} :
    KnownBytes inv o (rest + 1) ↔ KnownByte inv o ∧ KnownBytes inv (o + 1) rest := by
  constructor
  · intro known
    refine ⟨?_, ?_⟩
    · have first := known 0 (Nat.succ_pos rest)
      rwa [add_ofNat_zero] at first
    · intro index below
      rw [succ_add_ofNat]
      exact known (index + 1) (Nat.succ_lt_succ below)
  · intro known index below
    cases index with
    | zero =>
        rw [add_ofNat_zero]
        exact known.1
    | succ previous =>
        rw [<- succ_add_ofNat]
        exact known.2 previous (Nat.lt_of_succ_lt_succ below)

theorem readableBytes_succ {rest : Nat} : ReadableBytes inv o (rest + 1) ↔
    ReadableByte inv o ∧ (KnownByte inv o -> ReadableBytes inv (o + 1) rest) := by
  constructor
  · intro readable
    refine ⟨?_, ?_⟩
    · have first := readable 0 (Nat.succ_pos rest) (fun earlier below =>
        absurd below (Nat.not_lt_zero _))
      rwa [add_ofNat_zero] at first
    · intro known index below earlierKnown
      rw [succ_add_ofNat]
      apply readable (index + 1) (Nat.succ_lt_succ below)
      intro earlier before
      cases earlier with
      | zero =>
          rw [add_ofNat_zero]
          exact known
      | succ previous =>
          rw [<- succ_add_ofNat]
          exact earlierKnown previous (Nat.lt_of_succ_lt_succ before)
  · intro readable index below earlierKnown
    cases index with
    | zero =>
        rw [add_ofNat_zero]
        exact readable.1
    | succ previous =>
        have first := earlierKnown 0 (Nat.succ_pos previous)
        rw [add_ofNat_zero] at first
        rw [<- succ_add_ofNat]
        apply readable.2 first previous (Nat.lt_of_succ_lt_succ below)
        intro earlier before
        rw [succ_add_ofNat]
        exact earlierKnown (earlier + 1) (Nat.succ_lt_succ before)

theorem isSome_readBytes : (readBytes bigEndian inv o size).isSome ↔ ReadableBytes inv o size := by
  induction size generalizing o with
  | zero => exact ⟨fun _ index below => absurd below (Nat.not_lt_zero index), fun _ => rfl⟩
  | succ rest inductionHypothesis =>
      rw [readableBytes_succ, <- inductionHypothesis,
        <- @isSome_findByte _ inv bigEndian, readBytes]
      cases read : findByte bigEndian inv o [8, 4, 2, 1] with
      | none => simp
      | some found =>
          have known := findByte_found read
          rw [<- known]
          cases found with
          | none => simp
          | some byte =>
              change ((readBytes bigEndian inv (o + 1) rest).bind _).isSome ↔ _
              simp [Option.isSome_bind]

theorem readBytes_found {bytes : Option (List (BitVec 8))}
    (read : readBytes bigEndian inv o size = some bytes) :
    (bytes.isSome ↔ KnownBytes inv o size) ∧ ∀ list ∈ bytes, list.length = size := by
  induction size generalizing o bytes with
  | zero =>
      cases read
      refine ⟨⟨fun _ index below => absurd below (Nat.not_lt_zero index), fun _ => rfl⟩, ?_⟩
      intro list same
      cases same
      rfl
  | succ rest inductionHypothesis =>
      rw [readBytes] at read
      rcases Option.bind_eq_some_iff.mp read with ⟨here, readHere, later⟩
      have known : here.isSome ↔ KnownByte inv o := findByte_found readHere
      rw [knownBytes_succ, <- known]
      cases here with
      | none =>
          cases later
          refine ⟨by simp, ?_⟩
          intro list same
          cases same
      | some byte =>
          rcases Option.bind_eq_some_iff.mp later with ⟨found, readLater, same⟩
          have tail := inductionHypothesis readLater
          cases same
          refine ⟨by simp [tail.1], ?_⟩
          intro list same
          rcases Option.map_eq_some_iff.mp same with ⟨shorter, isFound, rfl⟩
          rw [List.length_cons, tail.2 shorter isFound]

/-- Cells that need not hold other numbers can be read. -/
theorem AllowsWords.readable {start len : Nat} (allows : AllowsWords inv start len) :
    ReadableBytes inv (BitVec.ofNat 64 start) len := by
  intro index below _ t known
  rcases List.exists_of_findSome?_eq_some known with ⟨width, isWidth, single⟩
  have place : BitVec.ofNat 64 start + BitVec.ofNat 64 index = BitVec.ofNat 64 (start + index) :=
    (BitVec.ofNat_add ..).symm
  rw [place] at single
  exact allows (start + index) (Nat.le_add_right ..) (Nat.add_lt_add_left below _) width isWidth t
    (fixed_of_singleton single)

/-- The widths of memory accesses. -/
def IsAccessWidth (width : Nat) : Prop := width = 1 ∨ width = 2 ∨ width = 4 ∨ width = 8

instance (width : Nat) : Decidable (IsAccessWidth width) := inferInstanceAs (Decidable (_ ∨ _))

omit [LinearOrder Variable] in
theorem isSome_compose {bytes : List (BitVec 8)} :
    (compose bigEndian kind bytes).isSome ↔ IsAccessWidth bytes.length := by
  rw [compose, IsAccessWidth]
  split
  · rename_i short
    simp only [Option.isSome_some, true_iff]
    tauto
  · rename_i notShort
    split
    · rename_i isEight
      simp [isEight]
    · rename_i notEight
      simp only [Option.isSome_none, Bool.false_eq_true, false_iff]
      tauto

omit [LinearOrder Variable] in
theorem fromBytes_lt (bytes : List (BitVec 8)) : fromBytes bytes < 256 ^ bytes.length := by
  induction bytes with
  | nil => decide
  | cons byte rest inductionHypothesis =>
      have small := byte.isLt
      rw [fromBytes, List.length_cons, pow_succ]
      omega

omit [LinearOrder Variable] in
/-- A number that is put together from bytes is a word. -/
theorem fitsCast_compose {bytes : List (BitVec 8)} {n : Int}
    (composed : compose bigEndian kind bytes = some n) :
    IntType.uint64.FitsCast n := by
  have unsigned : forall m : Nat, m < 2 ^ 64 -> IntType.uint64.FitsCast m := by
    intro m small
    refine Or.inl ⟨Int.natCast_nonneg m, ?_⟩
    change (m : Int) ≤ 2 ^ 64 - 1
    omega
  have bound := fromBytes_lt (if bigEndian then bytes.reverse else bytes)
  have length : (if bigEndian then bytes.reverse else bytes).length = bytes.length := by
    split
    · exact List.length_reverse
    · rfl
  rw [length] at bound
  rw [compose] at composed
  split at composed
  · rename_i short
    cases composed
    apply unsigned
    refine bound.trans_le ?_
    rcases short with isShort | isShort | isShort <;> rw [isShort] <;> norm_num
  · split at composed
    · rename_i isEight
      rw [isEight] at bound
      split at composed
      · cases composed
        exact unsigned _ (bound.trans_le (by norm_num))
      · cases composed
        refine Or.inr ⟨?_, ?_⟩
        · exact BitVec.le_toInt _
        · have upper := BitVec.toInt_lt
            (x := BitVec.ofNat 64 (fromBytes (if bigEndian then bytes.reverse else bytes)))
          change _ ≤ 2 ^ 63 - 1
          omega
    · cases composed

/-- A number that a load reads from bytes is a word. -/
theorem fitsCast_readValue {n : Int} (read : readValue bigEndian inv kind o size = some (some n)) :
    IntType.uint64.FitsCast n := by
  rw [readValue] at read
  split at read
  · rcases Option.bind_eq_some_iff.mp read with ⟨bytes, _, same⟩
    rcases Option.bind_eq_some_iff.mp (Option.some.inj same) with ⟨list, _, composed⟩
    exact fitsCast_compose composed
  · cases read

/-- A number is put together just if the kind is a value whose bytes are all known. -/
theorem readValue_found {found : Option Int}
    (read : readValue bigEndian inv kind o size = some found) :
    found.isSome ↔ IsAccessWidth size ∧ IsValue kind ∧ KnownBytes inv o size := by
  rw [readValue] at read
  split at read
  · rename_i isValue
    rcases Option.bind_eq_some_iff.mp read with ⟨bytes, readAll, same⟩
    cases same
    have known := readBytes_found readAll
    rw [<- known.1]
    cases bytes with
    | none => simp
    | some list =>
        have length := known.2 list rfl
        rw [Option.bind_some, isSome_compose, length]
        simp [isValue]
  · rename_i notValue
    cases read
    simp [notValue]

/-- A number can be looked for just if the bytes of a value can be read. -/
theorem isSome_readValue : (readValue bigEndian inv kind o size).isSome ↔
    (IsValue kind -> ReadableBytes inv o size) := by
  rw [readValue]
  split
  · rename_i isValue
    rw [<- @isSome_readBytes _ inv bigEndian]
    cases read : readBytes bigEndian inv o size with
    | none => simp [isValue]
    | some bytes => simp
  · rename_i notValue
    simp [notValue]

end ArrayDomain
end Crab
end Prevail
