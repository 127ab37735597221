import Prevail.Crab.IntervalWords
import Prevail.Crab.SplitDbm.Normal
import Prevail.Crab.SplitDbm.Reachable

namespace Prevail
namespace Crab

open DifferenceBounds

/-!
# Reading a variable with a finite width

`get_interval` of `crab/split_dbm.cpp` truncates each bound of a variable on its
own.  The result is right for a variable whose values lie in one window of the
machine type, that is between two numbers at which the truncation starts over.
Otherwise it is right only at bounds that are truncated to the ends of the type.
-/

namespace IntType

variable {type : IntType} {m n : Int}

/-- The number of the window of a type that a number lies in. -/
def window (type : IntType) (n : Int) : Int := (n - type.min) / 2 ^ type.width

theorem truncate_eq_sub_window (positive : 0 < type.width) (n : Int) :
    type.truncate n = n - 2 ^ type.width * type.window n := by
  have modulus : (0 : Int) < 2 ^ type.width := by positivity
  have span := span positive
  have lower := Int.emod_nonneg (n - type.min) modulus.ne'
  have upper := Int.emod_lt_of_pos (n - type.min) modulus
  have split := Int.emod_add_mul_ediv (n - type.min) (2 ^ type.width)
  apply truncate_eq positive
  · rw [window]
    constructor
    · omega
    · omega
  · exact ⟨type.window n, by ring⟩

/-- The first number of a window, and the last one. -/
def windowStart (type : IntType) (index : Int) : Int := type.min + 2 ^ type.width * index

theorem truncate_windowStart (positive : 0 < type.width) (index : Int) :
    type.truncate (type.windowStart index) = type.min := by
  have modulus : (0 : Int) < 2 ^ type.width := by positivity
  have span := span positive
  apply truncate_eq positive ⟨le_rfl, by omega⟩
  exact ⟨index, by rw [windowStart]; ring⟩

theorem truncate_windowEnd (positive : 0 < type.width) (index : Int) :
    type.truncate (type.windowStart index - 1) = type.max := by
  have modulus : (0 : Int) < 2 ^ type.width := by positivity
  have span := span positive
  apply truncate_eq positive ⟨by omega, le_rfl⟩
  refine ⟨index - 1, ?_⟩
  rw [windowStart, show type.max = type.min + 2 ^ type.width - 1 by omega]
  ring

theorem windowStart_between (different : type.window m < type.window n) :
    m < type.windowStart (type.window n) ∧ type.windowStart (type.window n) ≤ n := by
  have modulus : (0 : Int) < 2 ^ type.width := by positivity
  have upper := Int.emod_nonneg (n - type.min) modulus.ne'
  have split := Int.emod_add_mul_ediv (n - type.min) (2 ^ type.width)
  have below := Int.emod_lt_of_pos (m - type.min) modulus
  have splitLower := Int.emod_add_mul_ediv (m - type.min) (2 ^ type.width)
  have product : 2 ^ type.width * (type.window m + 1) ≤ 2 ^ type.width * type.window n :=
    Int.mul_le_mul_of_nonneg_left different modulus.le
  rw [mul_add, mul_one] at product
  rw [windowStart]
  rw [window, window] at *
  constructor
  · omega
  · omega

end IntType

namespace SplitDbm

variable {V : Type} [LinearOrder V]

/-- `get_interval` with a finite width, for a variable that is read as a number of
the given type: the sign follows from the name of the variable. -/
def getIntervalOfWidth (s : SplitDbm V) (type : IntType) (x : V) : Interval :=
  match s.tryAt x with
  | some vert =>
      .mk'
        (match s.g.lookup vert 0 with
          | some weight => .ofNumber (type.truncate (-weight))
          | none => .minusInfinity)
        (match s.g.lookup 0 vert with
          | some weight => .ofNumber (type.truncate weight)
          | none => .plusInfinity)
  | none => .top

/-- The values that a variable takes in a state. -/
def valuesOf (s : SplitDbm V) (x : V) :
    Set Int := { n | exists values, s.Represents values ∧ values x = n }

/-- The truncation of every value of the variable belongs to what is read. -/
def ReadsWidth (s : SplitDbm V) (type : IntType) (x : V) : Prop :=
  ∀ n ∈ s.valuesOf x, type.truncate n ∈ s.getIntervalOfWidth type x

/-- All values of the variable lie in one window of the type. -/
def InOneWindow (s : SplitDbm V) (type : IntType) (x : V) : Prop :=
  ∀ m ∈ s.valuesOf x, ∀ n ∈ s.valuesOf x, type.window m = type.window n

/-- A bound of the variable is truncated to the end of the type on its side, or
the values lie in one window and the truncated bound does not pass the extreme
one of them. -/
structure FitsWindow (s : SplitDbm V) (type : IntType) (x : V) : Prop where
  lower : forall l, (s.getInterval x).lb = .ofNumber l -> type.truncate l = type.min ∨
    (s.InOneWindow type x ∧ forall least, IsLeast (s.valuesOf x) least ->
      type.truncate l ≤ type.truncate least)
  upper : forall u, (s.getInterval x).ub = .ofNumber u -> type.truncate u = type.max ∨
    (s.InOneWindow type x ∧ forall greatest, IsGreatest (s.valuesOf x) greatest ->
      type.truncate greatest ≤ type.truncate u)

section Values

variable {s : SplitDbm V} {x : V} {m n k : Int} {type : IntType}

theorem mem_valuesOf_of_between (wellFormed : s.WellFormed) (first : m ∈ s.valuesOf x)
    (last : n ∈ s.valuesOf x) (above : m ≤ k) (below : k ≤ n) : k ∈ s.valuesOf x := by
  rcases first with ⟨lower, lowerRepresents, atLower⟩
  rcases last with ⟨upper, upperRepresents, atUpper⟩
  cases found : s.tryAt x with
  | none => exact ⟨_, wellFormed.represents_update lowerRepresents found k, Function.update_self ..⟩
  | some vert =>
      -- The least of the second assignment and of the first one, moved up to the value.
      let between : Nat -> Int :=
        fun vert => min (s.vertexValue upper vert) (s.vertexValue lower vert + (k - m))
      have models : Models s.g.lookup between := by
        intro source target weight here
        have inLower := lowerRepresents source target weight here
        have inUpper := upperRepresents source target weight here
        simp only [between]
        omega
      rcases wellFormed.represents_of_vertexValues models (fun _ => 0) with
        ⟨values, represents, mapped, _⟩
      refine ⟨values, represents, ?_⟩
      rw [mapped x vert found]
      simp only [between, Shape.vertexValue_of_tryAt wellFormed _ found,
        Shape.vertexValue_zero wellFormed, atLower, atUpper]
      omega

/-- The bounds of a variable with a vertex do not cross. -/
theorem getInterval_of_tryAt (invariant : Invariant s) {vert : Nat}
    (found : s.tryAt x = some vert) :
    s.getInterval x = ⟨s.lowerBound vert, s.upperBound vert⟩ := by
  have inside := Shape.mem_getInterval invariant.wellFormed invariant.represents_potential x
  rw [getInterval, found] at inside ⊢
  have bounds := Interval.mem_mk'_iff.mp inside
  exact if_neg (not_lt.mpr (bounds.1.trans bounds.2))

theorem mem_getIntervalOfWidth (invariant : Invariant s) : k ∈ s.getIntervalOfWidth type x ↔
    (forall l, (s.getInterval x).lb = .ofNumber l -> type.truncate l ≤ k) ∧
      (forall u, (s.getInterval x).ub = .ofNumber u -> k ≤ type.truncate u) := by
  rw [getIntervalOfWidth]
  cases found : s.tryAt x with
  | none =>
      have unknown : s.getInterval x = .top := by rw [getInterval, found]
      rw [unknown]
      refine iff_of_true ⟨Bound.minusInfinity_le _, Bound.le_plusInfinity _⟩
        ⟨fun l impossible => ?_, fun u impossible => ?_⟩
      · cases impossible
      · cases impossible
  | some vert =>
      rw [getInterval_of_tryAt invariant found, lowerBound, upperBound, Interval.mem_mk'_iff]
      cases s.g.lookup vert 0 <;> cases s.g.lookup 0 vert <;> simp

variable (positive : 0 < type.width)

include positive

/-- In one window, truncation keeps the order. -/
theorem truncate_le_truncate (below : m ≤ n) (same : type.window m = type.window n) :
    type.truncate m ≤ type.truncate n := by
  rw [IntType.truncate_eq_sub_window positive, IntType.truncate_eq_sub_window positive, same]
  omega

theorem readsWidth_of_fitsWindow (invariant : Invariant s) (fits : s.FitsWindow type x) :
    s.ReadsWidth type x := by
  intro n member
  have bounds := fun {values : V -> Int} (represents : s.Represents values) =>
    Shape.mem_getInterval invariant.wellFormed represents x
  apply (mem_getIntervalOfWidth invariant).mpr
  constructor
  · intro l atLower
    rcases fits.lower l atLower with atEnd | ⟨oneWindow, passes⟩
    · rw [atEnd]
      exact (IntType.truncate_fits positive n).1
    · have bounded : exists b, ∀ m ∈ s.valuesOf x, b ≤ m := by
        refine ⟨l, ?_⟩
        rintro m ⟨values, represents, rfl⟩
        have inside := (bounds represents).1
        rwa [atLower, Bound.ofNumber_le_ofNumber] at inside
      rcases Int.exists_least_of_bdd bounded ⟨n, member⟩ with ⟨least, isMember, isLeast⟩
      exact (passes least ⟨isMember, isLeast⟩).trans
        (truncate_le_truncate positive (isLeast n member) (oneWindow least isMember n member))
  · intro u atUpper
    rcases fits.upper u atUpper with atEnd | ⟨oneWindow, passes⟩
    · rw [atEnd]
      exact (IntType.truncate_fits positive n).2
    · have bounded : exists b, ∀ m ∈ s.valuesOf x, m ≤ b := by
        refine ⟨u, ?_⟩
        rintro m ⟨values, represents, rfl⟩
        have inside := (bounds represents).2
        rwa [atUpper, Bound.ofNumber_le_ofNumber] at inside
      rcases Int.exists_greatest_of_bdd bounded ⟨n, member⟩ with ⟨greatest, isMember, isGreatest⟩
      exact (truncate_le_truncate positive (isGreatest n member)
        (oneWindow n member greatest isMember)).trans
        (passes greatest ⟨isMember, isGreatest⟩)

omit positive in
/-- Values in different windows have the start of a window among them, and the
end of the one before it. -/
theorem exists_windowStart (wellFormed : s.WellFormed) (several : ¬ s.InOneWindow type x) :
    exists index, type.windowStart index ∈ s.valuesOf x ∧
      type.windowStart index - 1 ∈ s.valuesOf x := by
  simp only [InOneWindow, not_forall] at several
  rcases several with ⟨m, inLower, n, inUpper, different⟩
  have between : forall {m n : Int}, m ∈ s.valuesOf x -> n ∈ s.valuesOf x ->
      type.window m < type.window n -> exists index, type.windowStart index ∈ s.valuesOf x ∧
      type.windowStart index - 1 ∈ s.valuesOf x := by
    intro m n inLower inUpper below
    have starts := IntType.windowStart_between below
    refine ⟨type.window n, ?_, ?_⟩
    · exact mem_valuesOf_of_between wellFormed inLower inUpper starts.1.le starts.2
    · exact mem_valuesOf_of_between wellFormed inLower inUpper (by omega) (by omega)
  rcases lt_or_gt_of_ne different with below | above
  · exact between inLower inUpper below
  · exact between inUpper inLower above

theorem fitsWindow_of_readsWidth (invariant : Invariant s) (reads : s.ReadsWidth type x) :
    s.FitsWindow type x := by
  have lower := fun n member => ((mem_getIntervalOfWidth invariant).mp (reads n member)).1
  have upper := fun n member => ((mem_getIntervalOfWidth invariant).mp (reads n member)).2
  constructor
  · intro l atLower
    by_cases atEnd : type.truncate l = type.min
    · exact Or.inl atEnd
    · refine Or.inr ⟨?_, fun least isLeast => lower least isLeast.1 l atLower⟩
      by_contra several
      rcases exists_windowStart invariant.wellFormed several with ⟨index, starts, _⟩
      have below := lower _ starts l atLower
      rw [IntType.truncate_windowStart positive] at below
      exact atEnd (le_antisymm below (IntType.truncate_fits positive l).1)
  · intro u atUpper
    by_cases atEnd : type.truncate u = type.max
    · exact Or.inl atEnd
    · refine Or.inr ⟨?_, fun greatest isGreatest => upper greatest isGreatest.1 u atUpper⟩
      by_contra several
      rcases exists_windowStart invariant.wellFormed several with ⟨index, _, ends⟩
      have above := upper _ ends u atUpper
      rw [IntType.truncate_windowEnd positive] at above
      exact atEnd (le_antisymm (IntType.truncate_fits positive u).2 above)

end Values

/-- Where reading a variable with a finite width is sound. -/
theorem readsWidth_iff_fitsWindow {s : SplitDbm V} (invariant : Invariant s) (type : IntType)
    (width : type.width = 32 ∨ type.width = 64) (x : V) : s.ReadsWidth type x ↔
      s.FitsWindow type x := by
  have positive : 0 < type.width := by omega
  constructor
  · exact fitsWindow_of_readsWidth positive invariant
  · exact readsWidth_of_fitsWindow positive invariant

/-- The same of a variable whose bounds are in different windows. -/
theorem readsWidth_iff_fitsWindow_range :
    ((top : SplitDbm Nat).set 0 (.range 0 (2 ^ 32))).ReadsWidth .uint32 0 ↔
      ((top : SplitDbm Nat).set 0 (.range 0 (2 ^ 32))).FitsWindow .uint32 0 :=
  readsWidth_iff_fitsWindow (set_spec invariant_top 0 (by decide)).1 .uint32 (by decide) 0

/-- The bounds of the numbers from zero to `2^32` are both truncated to zero. -/
theorem not_readsWidth_wrap : ¬ forall (s : SplitDbm Nat) (type : IntType) (x : Nat), Reachable s ->
    type.width = 32 ∨ type.width = 64 -> s.ReadsWidth type x := by
  intro all
  have inhabited : ¬ (Interval.range 0 (2 ^ 32)).IsBottom := by decide
  have reachable : Reachable ((top : SplitDbm Nat).set 0 (.range 0 (2 ^ 32))) :=
    .set 0 .top inhabited
  have represents := (set_spec (@invariant_top Nat _) 0 inhabited).2 (fun _ => 0)
    (Function.update (fun _ => 0) 0 5)
    (represents_top _) (fun w different => Function.update_of_ne different ..) (by decide)
  have member := all _ .uint32 0 reachable (by decide) 5 ⟨_, represents, Function.update_self ..⟩
  revert member
  decide

end SplitDbm
end Crab
end Prevail
