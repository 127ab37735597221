import Prevail.Asm.LabelText
import Prevail.Crab.IntervalDomain
import Prevail.Crab.VariableNames
import Prevail.Cfg.Halting

namespace Prevail

/-!
# The verdict

What `crab_verifier.cpp` makes of the table of invariants: the report of all
warnings, the value at the exit, and the number of loop iterations that `check`
prints for a program that passes.

The report asks every assertion again and keeps the messages, where `verified`
only asks whether there are any.  It stands label by label: the assertions of a
label without warnings hold there on every concrete path, whatever is reported
elsewhere.
-/

/-! ## The text of an assumption -/

/-- The text of a register. -/
def Reg.text (reg : Reg) : List Char := 'r' :: Label.decimal reg.v.toNat

def Value.text : Value -> List Char
  | .imm value => Label.decimal value.v.toInt
  | .reg register => register.text

/-- The text of a comparison. -/
def ConditionOp.text : ConditionOp -> List Char
  | eq => "==".toList
  | ne => "!=".toList
  | set => "&==".toList
  | nset => "&!=".toList
  | lt => "<".toList
  | le => "<=".toList
  | gt => ">".toList
  | ge => ">=".toList
  | slt => "s<".toList
  | sle => "s<=".toList
  | sgt => "s>".toList
  | sge => "s>=".toList

def Condition.text (cond : Condition) : List Char :=
  cond.left.text ++ [' '] ++ (if cond.is64 then [] else ['w']) ++ cond.op.text ++ [' '] ++
    cond.right.text

/-- The text of an assumption. -/
def Assume.text (ins : Assume) : List Char := "assume ".toList ++ ins.cond.text

namespace Cfg

open Crab
open Ebpf (loopLimit)
open Fixpoint (Contained Domain InvariantPair Options Program Reaches SoundCheck SoundDomain
  contained_of_returned
  runForwardAnalyzer verified)

/-! ## Messages -/

/-- A fold whose steps each add something has what it started with and what the
steps add. -/
theorem holds_foldl_iff {A B : Type} {advance : B -> A -> B} (holds : B -> Prop) (adds : A -> Prop)
    (each : forall result item, holds (advance result item) ↔ adds item ∨ holds result)
    (items : List A) (result : B) :
    holds (items.foldl advance result) ↔ (∃ item ∈ items, adds item) ∨ holds result := by
  induction items generalizing result with
  | nil => simp
  | cons item rest inductionHypothesis =>
      rw [List.foldl_cons, inductionHypothesis, each, List.exists_mem_cons_iff,
        or_left_comm, or_assoc]

/-- A fold with `max` is above a bound exactly if its start or one of its items is. -/
theorem le_foldl_max {A B : Type} [LinearOrder B] {value : A -> B} {bound : B} (items : List A)
    (start : B) :
    bound ≤ items.foldl (fun result item => max result (value item)) start ↔
      (∃ item ∈ items, bound ≤ value item) ∨ bound ≤ start :=
  holds_foldl_iff (bound ≤ ·) (fun item => bound ≤ value item)
    (fun _ _ => le_max_iff.trans or_comm) items start

/-- A map from labels to messages, in which no label is kept without a message. -/
structure Messages where
  entries : List (Label × List (List Char))
  sorted : entries.Pairwise (fun first second => first.1 < second.1)
  filled : ∀ entry ∈ entries, entry.2 ≠ []

namespace Messages

/-- The map without messages. -/
def empty : Messages := ⟨[], List.Pairwise.nil, fun _ member => absurd member List.not_mem_nil⟩

/-- The entries with a message appended to those of a label. -/
def emplaceEntries (label : Label) (msg : List Char) :
    List (Label × List (List Char)) -> List (Label × List (List Char))
  | [] => [(label, [msg])]
  | (first, messages) :: rest =>
      if label < first then (label, [msg]) :: (first, messages) :: rest
      else if first < label then (first, messages) :: emplaceEntries label msg rest
      else (first, messages ++ [msg]) :: rest

/-- A message is among those of a label. -/
def Holds (entries : List (Label × List (List Char))) (label : Label) (msg : List Char) : Prop :=
  exists messages, (label, messages) ∈ entries ∧ msg ∈ messages

theorem holds_cons {entry : Label × List (List Char)} {entries : List (Label × List (List Char))}
    {label : Label} {msg : List Char} : Holds (entry :: entries) label msg ↔
      (label = entry.1 ∧ msg ∈ entry.2) ∨ Holds entries label msg := by
  unfold Holds
  constructor
  · rintro ⟨messages, member, isMessage⟩
    rcases List.mem_cons.mp member with rfl | later
    · exact Or.inl ⟨rfl, isMessage⟩
    · exact Or.inr ⟨messages, later, isMessage⟩
  · rintro (⟨rfl, isMessage⟩ | ⟨messages, later, isMessage⟩)
    · exact ⟨entry.2, List.mem_cons_self, isMessage⟩
    · exact ⟨messages, List.mem_cons_of_mem _ later, isMessage⟩

theorem holds_emplaceEntries {label : Label} {msg : List Char}
    {entries : List (Label × List (List Char))}
    {other : Label} {text : List Char} : Holds (emplaceEntries label msg entries) other text ↔
      (other = label ∧ text = msg) ∨ Holds entries other text := by
  induction entries with
  | nil => rw [emplaceEntries, holds_cons, List.mem_singleton]
  | cons entry rest inductionHypothesis =>
      rcases entry with ⟨first, messages⟩
      unfold emplaceEntries
      split
      · rw [holds_cons, List.mem_singleton]
      · split
        · rw [holds_cons, inductionHypothesis, holds_cons]
          tauto
        · rename_i notLess notGreater
          have same : first = label := le_antisymm (not_lt.mp notLess) (not_lt.mp notGreater)
          rw [holds_cons, holds_cons, same, List.mem_append, List.mem_singleton]
          tauto

theorem key_of_emplaceEntries {label : Label} {msg : List Char}
    {entries : List (Label × List (List Char))}
    {entry : Label × List (List Char)} (member : entry ∈ emplaceEntries label msg entries) :
    entry.1 = label ∨ entry.1 ∈ entries.map Prod.fst := by
  induction entries with
  | nil =>
      rw [List.mem_singleton.mp member]
      exact Or.inl rfl
  | cons first rest inductionHypothesis =>
      unfold emplaceEntries at member
      split at member
      · rcases List.mem_cons.mp member with rfl | old
        · exact Or.inl rfl
        · exact Or.inr (List.mem_map_of_mem old)
      · split at member
        · rcases List.mem_cons.mp member with rfl | later
          · exact Or.inr List.mem_cons_self
          · exact (inductionHypothesis later).imp_right (List.mem_cons_of_mem _)
        · rcases List.mem_cons.mp member with rfl | later
          · exact Or.inr List.mem_cons_self
          · exact Or.inr (List.mem_cons_of_mem _ (List.mem_map_of_mem later))

theorem sorted_emplaceEntries {label : Label} {msg : List Char}
    {entries : List (Label × List (List Char))}
    (sorted : entries.Pairwise (fun first second => first.1 < second.1)) :
    (emplaceEntries label msg entries).Pairwise (fun first second => first.1 < second.1) := by
  induction entries with
  | nil => exact List.pairwise_singleton _ _
  | cons first rest inductionHypothesis =>
      rcases List.pairwise_cons.mp sorted with ⟨below, restSorted⟩
      unfold emplaceEntries
      split
      · rename_i less
        refine List.pairwise_cons.mpr ⟨fun entry member => ?_, sorted⟩
        rcases List.mem_cons.mp member with rfl | later
        · exact less
        · exact less.trans (below entry later)
      · split
        · rename_i greater
          refine List.pairwise_cons.mpr ⟨fun entry member => ?_, inductionHypothesis restSorted⟩
          rcases key_of_emplaceEntries member with new | old
          · rw [new]
            exact greater
          · rcases List.mem_map.mp old with ⟨before, isOld, same⟩
            rw [← same]
            exact below before isOld
        · exact List.pairwise_cons.mpr ⟨below, restSorted⟩

theorem filled_emplaceEntries {label : Label} {msg : List Char}
    {entries : List (Label × List (List Char))}
    (filled : ∀ entry ∈ entries, entry.2 ≠ []) : ∀ entry ∈ emplaceEntries label msg entries,
      entry.2 ≠ [] := by
  induction entries with
  | nil => simp [emplaceEntries]
  | cons first rest inductionHypothesis =>
      rcases List.forall_mem_cons.mp filled with ⟨firstFilled, restFilled⟩
      unfold emplaceEntries
      split
      · exact List.forall_mem_cons.mpr ⟨List.cons_ne_nil _ _, filled⟩
      · split
        · exact List.forall_mem_cons.mpr ⟨firstFilled, inductionHypothesis restFilled⟩
        · exact List.forall_mem_cons.mpr
            ⟨List.append_ne_nil_of_right_ne_nil _ (List.cons_ne_nil _ _), restFilled⟩

/-- `operator[]` followed by `emplace_back`. -/
def emplaceBack (label : Label) (msg : List Char) (messages : Messages) : Messages where
  entries := emplaceEntries label msg messages.entries
  sorted := sorted_emplaceEntries messages.sorted
  filled := filled_emplaceEntries messages.filled

/-- A message stands at a label. -/
def Reports (messages : Messages) (label : Label) (msg : List Char) :
    Prop := Holds messages.entries label msg

@[simp] theorem reports_empty (label : Label) (msg : List Char) : ¬ empty.Reports label msg := by
  rintro ⟨_, member, _⟩
  cases member

@[simp] theorem reports_emplaceBack {messages : Messages} {label other : Label}
    {msg text : List Char} :
    (messages.emplaceBack label msg).Reports other text ↔ (other = label ∧ text = msg) ∨
      messages.Reports other text :=
  holds_emplaceEntries

theorem isEmpty_iff {messages : Messages} :
    messages.entries.isEmpty = true ↔ forall label msg, ¬ messages.Reports label msg := by
  rw [List.isEmpty_iff]
  constructor
  · rintro none label msg ⟨_, member, _⟩
    rw [none] at member
    cases member
  · intro silent
    cases form : messages.entries with
    | nil => rfl
    | cons entry rest =>
        have first : entry ∈ messages.entries := form ▸ List.mem_cons_self
        rcases List.exists_mem_of_ne_nil _ (messages.filled entry first) with ⟨msg, isMessage⟩
        exact absurd ⟨entry.2, first, isMessage⟩ (silent entry.1 msg)

/-- The texts of the messages, each behind the text of its label. -/
def texts (messages : Messages) : OrderedSet (List Char) :=
  messages.entries.foldl (fun result entry =>
    entry.2.foldl (fun result msg => result.insert (entry.1.text ++ ": ".toList ++ msg)) result)
      OrderedSet.empty

theorem mem_texts {messages : Messages} {text : List Char} :
    text ∈ messages.texts ↔ exists label msg, messages.Reports label msg ∧
      text = label.text ++ ": ".toList ++ msg := by
  have each : forall (result : OrderedSet (List Char)) (entry : Label × List (List Char)),
      text ∈ entry.2.foldl (fun result msg =>
        result.insert (entry.1.text ++ ": ".toList ++ msg)) result ↔
        (∃ msg ∈ entry.2, text = entry.1.text ++ ": ".toList ++ msg) ∨ text ∈ result :=
    fun result entry => holds_foldl_iff (text ∈ ·)
      (fun msg => text = entry.1.text ++ ": ".toList ++ msg)
      (fun _ _ => OrderedSet.mem_insert) entry.2 result
  rw [texts, holds_foldl_iff (text ∈ ·) _ each]
  simp only [OrderedSet.not_mem_empty, or_false, Reports, Holds]
  constructor
  · rintro ⟨⟨label, messages⟩, member, msg, isMessage, same⟩
    exact ⟨label, msg, ⟨messages, member, isMessage⟩, same⟩
  · rintro ⟨label, msg, ⟨messages, member, isMessage⟩, same⟩
    exact ⟨⟨label, messages⟩, member, msg, isMessage, same⟩

end Messages

/-! ## The report -/

structure Report where
  warnings : Messages
  reachability : Messages

def Report.verified (report : Report) : Bool := report.warnings.entries.isEmpty

def Report.warningSet (report : Report) : OrderedSet (List Char) := report.warnings.texts

def Report.reachabilitySet (report : Report) : OrderedSet (List Char) := report.reachability.texts

def Report.allMessages (report : Report) : OrderedSet (List Char) :=
  report.reachabilitySet.elements.foldl OrderedSet.insert report.warningSet

/-- The note on an assumption that no state passes. -/
def unreachableNote (ins : Assume) :
    List Char := "Code becomes unreachable (".toList ++ ins.text ++ [')']

section Check

variable {D : Type} (program : Program Label Instruction Assertion)
  (domain : Domain D Label Instruction Assertion (List Char)) (inv : Label -> InvariantPair D)

/-- The assertions of a label in `check_assertions`. -/
def checkLabelAssertions (label : Label) (warnings : Messages) : Messages :=
  (program.assertionsAt label).foldl (fun warnings assertion =>
    (domain.check (inv label).pre assertion).foldl
      (fun warnings msg => warnings.emplaceBack label msg) warnings) warnings

/-- One label in `check_assertions`. -/
def checkLabel (report : Report) (label : Label) : Report :=
  if domain.isBottom (inv label).pre then report
  else
    let report := { report with
      warnings := checkLabelAssertions program domain inv label report.warnings }
    match program.instructionAt label with
    | .assume ins =>
        if domain.isBottom (inv label).post then
          { report with reachability := report.reachability.emplaceBack label (unreachableNote ins) }
        else report
    | _ => report

def checkAssertions : Report :=
  program.labels.foldl (checkLabel program domain inv) ⟨.empty, .empty⟩

/-- The check of an assertion of a label yields a warning. -/
def Warned (label : Label) (msg : List Char) : Prop :=
  domain.isBottom (inv label).pre = false ∧
    ∃ assertion ∈ program.assertionsAt label, msg ∈ domain.check (inv label).pre assertion

/-- A label has states, and its assumption leaves none of them. -/
def CutOff (label : Label) (msg : List Char) : Prop :=
  domain.isBottom (inv label).pre = false ∧
    exists ins, program.instructionAt label = .assume ins ∧
    domain.isBottom (inv label).post = true ∧
      msg = unreachableNote ins

variable {program domain inv}

theorem reports_checkLabelAssertions {warnings : Messages} {label other : Label} {msg : List Char} :
    (checkLabelAssertions program domain inv label warnings).Reports other msg ↔
      (∃ assertion ∈ program.assertionsAt label, other = label ∧
      msg ∈ domain.check (inv label).pre assertion) ∨
        warnings.Reports other msg := by
  have each : forall (warnings : Messages) (assertion : Assertion),
      ((domain.check (inv label).pre assertion).foldl
        (fun warnings msg => warnings.emplaceBack label msg)
          warnings).Reports other msg ↔
        (other = label ∧ msg ∈ domain.check (inv label).pre assertion) ∨
          warnings.Reports other msg := by
    intro warnings assertion
    rw [holds_foldl_iff (Messages.Reports · other msg) (fun text => other = label ∧ msg = text)
      (fun _ _ => Messages.reports_emplaceBack)]
    simp only [and_left_comm, exists_and_left, exists_eq_right']
  exact holds_foldl_iff (Messages.Reports · other msg) _ each _ _

theorem reports_checkLabel {report : Report} {label other : Label} {msg : List Char} :
    ((checkLabel program domain inv report label).warnings.Reports other msg ↔
      (other = label ∧ Warned program domain inv label msg) ∨ report.warnings.Reports other msg) ∧
    ((checkLabel program domain inv report label).reachability.Reports other msg ↔
      (other = label ∧ CutOff program domain inv label msg) ∨
      report.reachability.Reports other msg) := by
  unfold checkLabel
  split
  · rename_i empty
    simp [Warned, CutOff, empty]
  · rename_i notEmpty
    have inhabited : domain.isBottom (inv label).pre = false := eq_false_of_ne_true notEmpty
    have warned : (checkLabelAssertions program domain inv label report.warnings).Reports other
        msg ↔
        (other = label ∧ Warned program domain inv label msg) ∨ report.warnings.Reports other msg := by
      rw [reports_checkLabelAssertions]
      simp only [Warned, inhabited, true_and, and_left_comm, exists_and_left]
    split
    · rename_i ins isAssume
      split
      · rename_i noneLeft
        refine ⟨warned, ?_⟩
        simp [CutOff, inhabited, isAssume, noneLeft]
      · rename_i someLeft
        refine ⟨warned, ?_⟩
        simp [CutOff, someLeft]
    · rename_i notAssume
      refine ⟨warned, ?_⟩
      have notCut : ¬ CutOff program domain inv label msg := by
        rintro ⟨_, ins, isAssume, _⟩
        exact notAssume ins isAssume
      simp [notCut]

theorem reports_checkAssertions (label : Label) (msg : List Char) :
    ((checkAssertions program domain inv).warnings.Reports label msg ↔
      label ∈ program.labels ∧ Warned program domain inv label msg) ∧
    ((checkAssertions program domain inv).reachability.Reports label msg ↔
      label ∈ program.labels ∧ CutOff program domain inv label msg) := by
  constructor
  · have collected := holds_foldl_iff (fun report : Report => report.warnings.Reports label msg) _
      (fun report other => (@reports_checkLabel D program domain inv report other label msg).1)
      program.labels
      ⟨.empty, .empty⟩
    rw [checkAssertions, collected]
    simp
  · have collected := holds_foldl_iff
      (fun report : Report => report.reachability.Reports label msg) _
      (fun report other => (@reports_checkLabel D program domain inv report other label msg).2)
      program.labels
      ⟨.empty, .empty⟩
    rw [checkAssertions, collected]
    simp

theorem verified_iff : verified program domain inv = true ↔
    forall label msg, ¬ (label ∈ program.labels ∧ Warned program domain inv label msg) := by
  unfold verified
  simp only [List.all_eq_true, Bool.or_eq_true, List.isEmpty_iff]
  constructor
  · rintro allPass label msg ⟨isLabel, notEmpty, assertion, asserted, isMessage⟩
    rcases allPass label isLabel with empty | pass
    · rw [empty] at notEmpty
      cases notEmpty
    · rw [pass assertion asserted] at isMessage
      cases isMessage
  · intro silent label isLabel
    by_cases empty : domain.isBottom (inv label).pre = true
    · exact Or.inl empty
    · refine Or.inr (fun assertion asserted =>
        List.eq_nil_iff_forall_not_mem.mpr (fun msg isMessage => ?_))
      exact silent label msg ⟨isLabel, eq_false_of_ne_true empty, assertion, asserted, isMessage⟩

/-- The report has exactly the warnings of the assertions and exactly the
assumptions that leave no state, it passes a program exactly if `verified` does,
and its texts are those of its messages. -/
theorem checkAssertions_exact (program : Program Label Instruction Assertion)
    (domain : Domain D Label Instruction Assertion (List Char)) (inv : Label -> InvariantPair D) :
    (checkAssertions program domain inv).verified = verified program domain inv ∧
    (forall label msg, ((checkAssertions program domain inv).warnings.Reports label msg ↔
        label ∈ program.labels ∧ Warned program domain inv label msg) ∧
      ((checkAssertions program domain inv).reachability.Reports label msg ↔
        label ∈ program.labels ∧ CutOff program domain inv label msg)) ∧
    forall text, text ∈ (checkAssertions program domain inv).allMessages ↔
      ∃ label ∈ program.labels, exists msg, text = label.text ++ ": ".toList ++ msg ∧
        (Warned program domain inv label msg ∨ CutOff program domain inv label msg) := by
  refine ⟨?_, reports_checkAssertions, ?_⟩
  · rw [Bool.eq_iff_iff, Report.verified, Messages.isEmpty_iff, verified_iff]
    exact forall₂_congr (fun label msg => not_congr (reports_checkAssertions label msg).1)
  · intro text
    rw [Report.allMessages, holds_foldl_iff (text ∈ ·) (text = ·)
      (fun _ _ => OrderedSet.mem_insert)]
    have notes := @Messages.mem_texts (checkAssertions program domain inv).reachability text
    have warnings := @Messages.mem_texts (checkAssertions program domain inv).warnings text
    simp only [reports_checkAssertions] at notes warnings
    rw [exists_eq_right', ← OrderedSet.mem_def, Report.reachabilitySet, Report.warningSet,
      notes, warnings]
    constructor
    · rintro (⟨label, msg, ⟨isLabel, cut⟩, same⟩ | ⟨label, msg, ⟨isLabel, warned⟩, same⟩)
      · exact ⟨label, isLabel, msg, same, Or.inr cut⟩
      · exact ⟨label, isLabel, msg, same, Or.inl warned⟩
    · rintro ⟨label, isLabel, msg, same, warned | cut⟩
      · exact Or.inr ⟨label, msg, ⟨isLabel, warned⟩, same⟩
      · exact Or.inl ⟨label, msg, ⟨isLabel, cut⟩, same⟩

end Check

/-! ## What the report means -/

section Meaning

variable {D State : Type} {domain : Domain D Label Instruction Assertion (List Char)}
  {gamma : D -> Set State}
  {step : Instruction -> State -> State -> Prop} {counterZero : Label -> Set State}
  {dom : NumAbsDomain Variable} {view : D -> dom.State} {values : State -> Variable -> Int}

/-- `Invariants::exit_value`, with `get_r0` of `ebpf_domain_t`. -/
def exitValue (view : D -> dom.State) (inv : Label -> InvariantPair D) : Interval :=
  evalVariable dom (view (inv Label.exit).post) (regPack r0ReturnValue).svalue

/-- Whatever the whole report says, the assertions of a label without warnings
hold on every concrete path, no path passes an assumption that is noted, and
what a path leaves in `r0` at the exit is in the exit value. -/
theorem checkAssertions_sound {result : Cfg} {resultFormed : result.WellFormed}
    (entryFirst : forall label, Label.entry ∉ result.childrenOf label)
    (sound : SoundDomain domain gamma step counterZero) {holds : Assertion -> State -> Prop}
    (soundCheck : SoundCheck domain gamma holds)
    (represents : forall value, ∀ state ∈ gamma value, dom.Represents (view value) (values state))
    {options : Options} (assumeOff : options.assumeAssertions = false) {again : Nat} {entryInv : D}
    {inv : Label -> InvariantPair D}
    (returned : runForwardAnalyzer (result.analyzed resultFormed) domain options again
      entryInv = some inv)
    {initial : State} (initialMember : initial ∈ gamma entryInv)
    (zero : forall label, initial ∈ counterZero label)
    {label : Label} {state : State}
    (reached : Reaches (result.analyzed resultFormed) step initial label state) :
    ((forall msg, ¬ (checkAssertions (result.analyzed resultFormed) domain inv).warnings.Reports
      label msg) -> ∀ assertion ∈ (result.instructions label).preconditions,
      holds assertion state) ∧
    ((exists msg, (checkAssertions (result.analyzed resultFormed) domain inv).reachability.Reports
      label msg) -> forall after, ¬ step (result.instructions label).cmd state after) ∧
    (label = Label.exit -> forall after, step (result.instructions label).cmd state after ->
      values after (regPack r0ReturnValue).svalue ∈ exitValue view inv) := by
  have contained := contained_of_returned sound entryFirst assumeOff returned
    initialMember zero reached
  have inhabited : domain.isBottom (inv label).pre = false := by
    apply eq_false_of_ne_true
    intro empty
    have inPre := contained.1
    rw [sound.isBottom empty] at inPre
    exact inPre
  refine ⟨?_, ?_, ?_⟩
  · intro silent assertion asserted
    apply soundCheck _ assertion _ state contained.1
    refine List.eq_nil_iff_forall_not_mem.mpr (fun msg isMessage => silent msg ?_)
    exact (reports_checkAssertions label msg).1.mpr ⟨reached.mem_labels, inhabited, assertion,
      asserted, isMessage⟩
  · rintro ⟨msg, noted⟩ after stepped
    rcases ((reports_checkAssertions label msg).2.mp noted).2 with ⟨_, ins, _, noneLeft, _⟩
    have inPost := contained.2 after stepped
    rw [sound.isBottom noneLeft] at inPost
    exact inPost
  · rintro rfl after stepped
    exact mem_evalVariable dom (represents _ after (contained.2 after stepped)) _

end Meaning

/-! ## The report on a loop that is taken once -/

/-- The analysis of `singleRound` with a message for every assertion that may fail. -/
def roundReportDomain : Domain (List RoundState) Label Instruction Assertion (List Char) :=
  { roundDomain with
    check := fun value assertion => (roundDomain.check value assertion).map (fun _ => "Loop counter is too large".toList) }

/-- The greatest count in a list of states. -/
def roundMost (value : List RoundState) : Nat := value.foldl (fun most state => max most state.2) 0

/-- The numbers that are known of these states. -/
def roundView (value : List RoundState) : (intervalDomain Variable).State :=
  some (IntervalDomain.update (.loopCounter ['1']) (Interval.range 0 (roundMost value))
    ⟨0, Interval.mem_range.mpr ⟨le_rfl, Int.natCast_nonneg _⟩⟩
    ⟨fun _ => .top, fun _ => ⟨0, trivial, trivial⟩⟩)

/-- The values of the variables in a state. -/
def roundValues (state : RoundState) (target : Variable) : Int := if target = .loopCounter ['1'] then state.2 else 0

theorem roundReportDomain_sound : SoundDomain roundReportDomain (listStates id) roundStep
    (fun label => {state | roundCounter label state = 0}) :=
  { roundDomain_sound with }

theorem roundReportDomain_soundCheck :
    SoundCheck roundReportDomain (listStates id) (fun assertion state => roundHolds assertion state = true) := by
  intro value assertion none state member
  exact (@listDomain_soundCheck _ _ _ _ _ id) value assertion (List.map_eq_nil_iff.mp none) state member

theorem le_roundMost {value : List RoundState} {state : RoundState} (member : state ∈ value) :
    state.2 ≤ roundMost value :=
  (le_foldl_max value 0).mpr (Or.inl ⟨state, member, le_rfl⟩)

theorem roundView_represents (value : List RoundState) :
    ∀ state ∈ listStates id value,
      (intervalDomain Variable).Represents (roundView value) (roundValues state) := by
  intro state member
  refine ⟨_, rfl, fun target => ?_⟩
  unfold IntervalDomain.update roundValues
  dsimp only
  by_cases isCounter : target = .loopCounter ['1']
  · have most : (state.2 : Int) ≤ roundMost value := Int.ofNat_le.mpr (le_roundMost member)
    rw [if_pos isCounter, isCounter, Function.update_self, Interval.mem_range]
    exact ⟨Int.natCast_nonneg _, most⟩
  · rw [if_neg isCounter, Function.update_of_ne isCounter]
    exact ⟨trivial, trivial⟩

theorem singleRoundCfg_entryFirst (label : Label) :
    Label.entry ∉ singleRoundCfg.childrenOf label := by
  intro child
  have noParent : singleRoundCfg.parents Label.entry = OrderedSet.empty := by decide
  have isChild : Label.entry ∈ singleRoundCfg.children label := child
  rw [singleRoundCfg_wellFormed.converse, noParent] at isChild
  cases isChild

/-- The jump back is noted, and no path takes it. -/
theorem checkAssertions_sound_singleRound :
    exists inv, runForwardAnalyzer (singleRoundCfg.analyzed singleRoundCfg_wellFormed)
    roundReportDomain ⟨false, true⟩ 100
        [(0, 0)] = some inv ∧
      (checkAssertions (singleRoundCfg.analyzed singleRoundCfg_wellFormed) roundReportDomain
      inv).allMessages.elements =
        ["2:1: Code becomes unreachable (assume r1 < 1)".toList] ∧
      forall state, Reaches (singleRoundCfg.analyzed singleRoundCfg_wellFormed) roundStep (0, 0)
          { fromIndex := 2, toIndex := 1 } state ->
        forall after, ¬ roundStep (singleRoundCfg.instructions { fromIndex := 2, toIndex := 1 }).cmd
          state after := by
  have reports : (runForwardAnalyzer (singleRoundCfg.analyzed singleRoundCfg_wellFormed)
      roundReportDomain ⟨false, true⟩ 100
      [(0, 0)]).any (fun inv =>
        decide ((checkAssertions (singleRoundCfg.analyzed singleRoundCfg_wellFormed)
          roundReportDomain inv).allMessages.elements =
          ["2:1: Code becomes unreachable (assume r1 < 1)".toList] ∧
        (checkAssertions (singleRoundCfg.analyzed singleRoundCfg_wellFormed) roundReportDomain
          inv).reachability.entries =
          [({ fromIndex := 2, toIndex := 1 }, ["Code becomes unreachable (assume r1 < 1)".toList])])) = true := by
    decide
  rcases (Option.any_eq_true _ _).mp reports with ⟨inv, returned, reported⟩
  rcases of_decide_eq_true reported with ⟨messages, notes⟩
  refine ⟨inv, returned, messages, fun state reached => ?_⟩
  have sound := checkAssertions_sound singleRoundCfg_entryFirst roundReportDomain_sound
    roundReportDomain_soundCheck
    roundView_represents rfl returned (List.mem_singleton_self _)
    (fun label => by simp [roundCounter]) reached
  refine sound.2.1 ⟨"Code becomes unreachable (assume r1 < 1)".toList, _, ?_,
    List.mem_singleton_self _⟩
  rw [notes]
  exact List.mem_singleton_self _

/-! ## Loop iterations -/

/-- `variable_t::get_loop_counters`, of the variables that have a name. -/
def getLoopCounters (named : List Variable) : List Variable :=
  named.filter (fun target => target.factory.name.any (fun name => "pc".toList.isPrefixOf name))

def getLoopCountUpperBound (dom : NumAbsDomain Variable) (named : List Variable)
    (inv : dom.State) : Bound :=
  (getLoopCounters named).foldl (fun ub counter => max ub (evalVariable dom inv counter).ub)
    (.ofNumber 0)

def maxLoopCount {dom : NumAbsDomain Variable} (named : List Variable) (labels : List Label)
    (post : Label -> dom.State) : Int :=
  let maxLoopCount := labels.foldl
    (fun bound label => max bound (getLoopCountUpperBound dom named (post label)))
    (.ofNumber 0)
  match maxLoopCount.number with
  | some m => if IntType.int32.Fits m then m else IntType.int32.max
  | none => IntType.int32.max

theorem loopCounter_mem_getLoopCounters {named : List Variable} {label : List Char}
    (member : Variable.loopCounter label ∈ named) :
    Variable.loopCounter label ∈ getLoopCounters named :=
  List.mem_filter.mpr ⟨member, rfl⟩

section Rounds

variable {State : Type}

/-- The concrete paths from the entry, with the number of times that they pass
the counter of one loop. -/
inductive Rounds (program : Program Label Instruction Assertion)
    (step : Instruction -> State -> State -> Prop)
    (initial : State) (name : Label) : Nat -> Label -> State -> Prop where
  | entry : Rounds program step initial name 0 program.entry initial
  | counted {rounds : Nat} {label successor : Label} {before after : State}
      (earlier : Rounds program step initial name rounds label before)
      (stepped : step (program.instructionAt label) before after)
      (child : successor ∈ program.children label)
      (counts : program.instructionAt label = .incrementLoopCounter name) :
      Rounds program step initial name (rounds + 1) successor after
  | other {rounds : Nat} {label successor : Label} {before after : State}
      (earlier : Rounds program step initial name rounds label before)
      (stepped : step (program.instructionAt label) before after)
      (child : successor ∈ program.children label)
      (different : program.instructionAt label ≠ .incrementLoopCounter name) :
      Rounds program step initial name rounds successor after

variable {program : Program Label Instruction Assertion} {step : Instruction -> State ->
  State -> Prop}
  {initial state : State} {name label : Label} {rounds : Nat}

theorem Rounds.path (passed : Rounds program step initial name rounds label state) :
    exists steps, Path program step initial steps label state := by
  induction passed with
  | entry => exact ⟨0, .entry⟩
  | counted _ stepped child _ inductionHypothesis =>
      rcases inductionHypothesis with ⟨steps, path⟩
      exact ⟨steps + 1, path.next stepped child⟩
  | other _ stepped child _ inductionHypothesis =>
      rcases inductionHypothesis with ⟨steps, path⟩
      exact ⟨steps + 1, path.next stepped child⟩

/-- The counter of a loop has the number of times that it was passed. -/
theorem Rounds.counter_eq {counter : Label -> State -> Int} {holds : Assertion -> State -> Prop}
    (counts : CountsLoops step counter holds) (zero : counter name initial = 0)
    (passed : Rounds program step initial name rounds label state) :
    counter name state = rounds := by
  induction passed with
  | entry => exact zero
  | counted _ stepped _ increments inductionHypothesis =>
      rw [increments] at stepped
      rw [counts.increments stepped, inductionHypothesis]
      rfl
  | other _ stepped _ different inductionHypothesis =>
      rw [counts.keeps stepped different, inductionHypothesis]

theorem Rounds.exists_counter (passed : Rounds program step initial name rounds label state)
    (passes : rounds ≠ 0) :
    ∃ label ∈ program.labels, program.instructionAt label = .incrementLoopCounter name := by
  induction passed with
  | entry => exact absurd rfl passes
  | counted earlier _ _ increments _ =>
      rcases earlier.path with ⟨_, path⟩
      exact ⟨_, path.reaches.mem_labels, increments⟩
  | other _ _ _ _ inductionHypothesis => exact inductionHypothesis passes

/-- The last step of a path leads to its state. -/
theorem Rounds.exists_last (passed : Rounds program step initial name rounds label state)
    (passes : rounds ≠ 0) :
    exists last before, Reaches program step initial last before ∧
      step (program.instructionAt last) before state := by
  cases passed with
  | entry => exact absurd rfl passes
  | counted earlier stepped _ _ =>
      rcases earlier.path with ⟨_, path⟩
      exact ⟨_, _, path.reaches, stepped⟩
  | other earlier stepped _ _ =>
      rcases earlier.path with ⟨_, path⟩
      exact ⟨_, _, path.reaches, stepped⟩

end Rounds

theorem le_maxLoopCount {dom : NumAbsDomain Variable} {named : List Variable} {labels : List Label}
    {post : Label -> dom.State} {count : Int} (small : count ≤ IntType.int32.max)
    (bounded : count = 0 ∨ ∃ label ∈ labels, ∃ counter ∈ getLoopCounters named,
      .ofNumber count ≤ (evalVariable dom (post label) counter).ub) :
    count ≤ maxLoopCount named labels post := by
  have below : .ofNumber count ≤ labels.foldl (fun bound label =>
      max bound (getLoopCountUpperBound dom named (post label))) (.ofNumber 0) := by
    rw [le_foldl_max]
    rcases bounded with rfl | ⟨label, isLabel, counter, isCounter, below⟩
    · exact Or.inr le_rfl
    · exact Or.inl ⟨label, isLabel, (le_foldl_max _ _).mpr (Or.inl ⟨counter, isCounter, below⟩)⟩
  simp only [maxLoopCount]
  split
  · rename_i m found
    split
    · rw [Bound.number_eq_some.mp found, Bound.ofNumber_le_ofNumber] at below
      exact below
    · exact small
  · exact small

/-- No path of a program that the analysis accepts under `check_for_termination`
passes the counter of a loop more often than the number that is printed.
`noPredecessor` is what `instructionSeqToCfg_entry_not_child` says of decoded
programs. -/
theorem rounds_le_maxLoopCount {prog : InstructionSeq}
    {isPrivileged mustHaveExit : Bool} {fuel : Nat} {result cfg : Cfg} {wto : Wto Label}
    (prepared : prepareCfg prog isPrivileged ⟨true, mustHaveExit⟩ fuel = .ok result)
    (built : instructionSeqToCfg prog mustHaveExit = .ok cfg)
    (ordered : cfg.buildWto fuel = .ok wto) (decoded : ∀ labelled ∈ prog, NotCounter labelled.2)
    (noPredecessor : forall label, Label.entry ∉ cfg.children label)
    (resultFormed : result.WellFormed)
    {D Warning State : Type} {domain : Domain D Label Instruction Assertion Warning}
    {gamma : D -> Set State}
    {step : Instruction -> State -> State -> Prop} {counter : Label -> State -> Int}
    {holds : Assertion -> State -> Prop}
    (sound : SoundDomain domain gamma step (fun label => {state | counter label state = 0}))
    (soundCheck : SoundCheck domain gamma holds) (counts : CountsLoops step counter holds)
    {dom : NumAbsDomain Variable} {view : D -> dom.State} {values : State -> Variable -> Int}
    (represents : forall value, ∀ state ∈ gamma value, dom.Represents (view value) (values state))
    {named : List Variable}
    (shown : ∀ label ∈ result.labels,
      forall name, (result.instructions label).cmd = .incrementLoopCounter name ->
      .loopCounter name.text ∈ named ∧
      forall state, values state (.loopCounter name.text) = counter name state)
    {options : Options} (assumeOff : options.assumeAssertions = false) {again : Nat} {entryInv : D}
    {inv : Label -> InvariantPair D}
    (returned : runForwardAnalyzer (result.analyzed resultFormed) domain options again
      entryInv = some inv)
    (isVerified : verified (result.analyzed resultFormed) domain inv = true) {initial : State}
    (initialMember : initial ∈ gamma entryInv) (zero : forall label, counter label initial = 0)
    {name label : Label} {rounds : Nat} {state : State}
    (passed : Rounds (result.analyzed resultFormed) step initial name rounds label state) :
    (rounds : Int) ≤ maxLoopCount named result.labels.elements
      (fun label => view (inv label).post) := by
  have wellFormed := instructionSeqToCfg_wellFormed built
  have counted := prepareCfg_counted prepared built ordered
  have entryFirst : forall label, Label.entry ∉ result.childrenOf label :=
    counted.entry_not_child wellFormed resultFormed noPredecessor
  have value := passed.counter_eq counts (zero name)
  rcases passed.path with ⟨steps, path⟩
  rcases path.counted counted (instructionSeqToCfg_counterFree decoded built)
    resultFormed counts zero
    (fun _ _ reached => asserted_of_verified sound soundCheck entryFirst assumeOff returned
      isVerified initialMember zero
      reached) with ⟨_, _, _, _, limited⟩
  apply le_maxLoopCount
  · rw [← value]
    exact (limited name).trans (by decide)
  · by_cases passes : rounds = 0
    · exact Or.inl (congrArg Nat.cast passes)
    · rcases passed.exists_counter passes with ⟨head, isLabel, increments⟩
      rcases shown head isLabel name increments with ⟨isNamed, same⟩
      rcases passed.exists_last passes with ⟨last, before, reached, stepped⟩
      have inPost : state ∈ gamma (inv last).post :=
        (contained_of_returned sound entryFirst assumeOff returned initialMember zero reached).2
          state stepped
      have inside := mem_evalVariable dom (represents _ state inPost) (.loopCounter name.text)
      rw [same, value] at inside
      exact Or.inr ⟨last, reached.mem_labels, _, loopCounter_mem_getLoopCounters isNamed, inside.2⟩

/-- The instruction counts no other loop. -/
def countsOnly (name : Label) : Instruction -> Bool
  | .incrementLoopCounter other => decide (other = name)
  | _ => true

theorem singleRound_rounds :
    Rounds (singleRoundCfg.analyzed singleRoundCfg_wellFormed) roundStep (0, 0) { fromIndex := 1 } 1
    { fromIndex := 2 } (1, 1) := by
  have first : Label.mk [] 0 (-1) [] ∈ singleRoundCfg.childrenOf Label.entry := by decide
  have second : Label.mk [] 1 (-1) [] ∈ singleRoundCfg.childrenOf { fromIndex := 0 } := by decide
  have third : Label.makeIncrementCounter { fromIndex := 1 } ∈ singleRoundCfg.childrenOf
    { fromIndex := 1 } := by decide
  have fourth : Label.mk [] 2 (-1) [] ∈ singleRoundCfg.childrenOf
      (Label.makeIncrementCounter { fromIndex := 1 }) := by
    decide
  have entered : (0, 0) ∈ roundExec (singleRoundCfg.instructions Label.entry).cmd (0, 0) := by
    decide
  have moved : (0, 0) ∈ roundExec (singleRoundCfg.instructions { fromIndex := 0 }).cmd (0, 0) := by
    decide
  have added : (1, 0) ∈ roundExec (singleRoundCfg.instructions { fromIndex := 1 }).cmd (0, 0) := by
    decide
  have counted : (1, 1) ∈ roundExec
      (singleRoundCfg.instructions (Label.makeIncrementCounter { fromIndex := 1 })).cmd (1, 0) := by
    decide
  have atEntry : Rounds (singleRoundCfg.analyzed singleRoundCfg_wellFormed) roundStep (0, 0)
      { fromIndex := 1 } 0
      { fromIndex := 0 } (0, 0) := .other .entry entered first (by decide)
  have atHead : Rounds (singleRoundCfg.analyzed singleRoundCfg_wellFormed) roundStep (0, 0)
      { fromIndex := 1 } 0
      { fromIndex := 1 } (0, 0) := .other atEntry moved second (by decide)
  have atCounter : Rounds (singleRoundCfg.analyzed singleRoundCfg_wellFormed) roundStep (0, 0)
      { fromIndex := 1 } 0
      (Label.makeIncrementCounter { fromIndex := 1 }) (1, 0) := .other atHead added
      third (by decide)
  exact .counted atCounter counted fourth (by decide)

/-- The one loop of `singleRound` is passed once on a path, and on no path more
often. -/
theorem rounds_le_maxLoopCount_singleRound :
    Rounds (singleRoundCfg.analyzed singleRoundCfg_wellFormed) roundStep (0, 0) { fromIndex := 1 } 1
      { fromIndex := 2 }
        (1, 1) ∧
      forall name label rounds state,
        Rounds (singleRoundCfg.analyzed singleRoundCfg_wellFormed) roundStep (0, 0) name rounds
        label state -> rounds ≤ 1 := by
  have accepted : (runForwardAnalyzer (singleRoundCfg.analyzed singleRoundCfg_wellFormed)
      roundReportDomain ⟨false, true⟩ 100
      [(0, 0)]).any (fun inv =>
        decide (verified (singleRoundCfg.analyzed singleRoundCfg_wellFormed) roundReportDomain inv =
        true ∧ @maxLoopCount (intervalDomain Variable) [.loopCounter ['1']] singleRoundCfg.labels.elements
          (fun label => roundView (inv label).post) = 1)) = true := by
    decide
  have counters : singleRoundCfg.labels.elements.all
      (fun label => countsOnly { fromIndex := 1 } (singleRoundCfg.instructions label).cmd) = true := by
    decide
  rcases exists_singleRoundWto with ⟨cfg, wto, built, ordered, _, _, noPredecessor⟩
  rcases (Option.any_eq_true _ _).mp accepted with ⟨inv, returned, checked⟩
  rcases of_decide_eq_true checked with ⟨isVerified, most⟩
  have shown : ∀ label ∈ singleRoundCfg.labels, forall name,
      (singleRoundCfg.instructions label).cmd = .incrementLoopCounter name ->
        Variable.loopCounter name.text ∈ [Variable.loopCounter ['1']] ∧
          forall state, roundValues state (.loopCounter name.text) = roundCounter name state := by
    intro label member name increments
    have only := List.all_eq_true.mp counters label member
    rw [increments] at only
    have same : name = { fromIndex := 1 } := of_decide_eq_true only
    have text : Label.text { fromIndex := 1 } = ['1'] := by decide
    rw [same, text]
    exact ⟨List.mem_singleton_self _, fun state => rfl⟩
  refine ⟨singleRound_rounds, fun name label rounds state passed => ?_⟩
  have bounded := rounds_le_maxLoopCount singleRoundCfg_prepared built ordered singleRound_decoded
    noPredecessor
    singleRoundCfg_wellFormed roundReportDomain_sound roundReportDomain_soundCheck roundStep_counts
    roundView_represents
    shown rfl returned isVerified (List.mem_singleton_self _)
    (fun label => by simp [roundCounter]) passed
  rw [most] at bounded
  exact Int.ofNat_le.mp bounded

end Cfg
end Prevail
