import Prevail.Asm.Label

namespace Prevail
namespace Label

/-!
# The text of a label

`add_cfg_nodes` uses the text of a call label as the prefix of the labels
inside the call.  The text determines the label: the last frame delimiter ends
the prefix, a colon separates the two indices, and the text of a counter ends
with a parenthesis.  A call label therefore owns the frame that its text names,
and the depth of that frame is one more than its own.
-/

/-- The indices in a text, behind its prefix. -/
def indexText (label : Label) : List Char :=
  decimal label.fromIndex ++ (if label.toIndex = -1 then [] else ':' :: decimal label.toIndex)

def prefixText (label : Label) : List Char :=
  if label.stackFramePrefix = [] then [] else label.stackFramePrefix ++ [stackFrameDelimiter]

theorem text_eq {label : Label} (notEntry : label ≠ entry) (notExit : label ≠ exit)
    (special : label.specialLabel = []) : label.text = label.prefixText ++ label.indexText := by
  simp [text, prefixText, indexText, notEntry, notExit, special]

theorem mem_decimal {value : Int} {char : Char} (member : char ∈ decimal value) :
    char = '-' ∨ char.isDigit = true := by
  unfold decimal at member
  split at member
  · rcases List.mem_cons.mp member with same | digit
    · exact Or.inl same
    · exact Or.inr (Nat.isDigit_of_mem_toDigits (by decide) (by decide) digit)
  · exact Or.inr (Nat.isDigit_of_mem_toDigits (by decide) (by decide) member)

theorem toDigits_injective {left right : Nat}
    (same : Nat.toDigits 10 left = Nat.toDigits 10 right) : left = right := by
  rw [← @Nat.ofDigitChars_toDigits 10 left (by decide) (by decide), same,
    Nat.ofDigitChars_toDigits (by decide) (by decide)]

theorem decimal_injective {left right : Int} (same : decimal left = decimal right) :
    left = right := by
  have noSign : forall (value : Nat) (rest : List Char), Nat.toDigits 10 value ≠ '-' :: rest := by
    intro value rest form
    have digit : ('-' : Char).isDigit = true :=
      Nat.isDigit_of_mem_toDigits (by decide) (by decide) (form ▸ List.mem_cons_self)
    exact absurd digit (by decide)
  unfold decimal at same
  split at same <;> split at same
  · have equal := toDigits_injective (List.cons.inj same).2
    omega
  · exact absurd same.symm (noSign _ _)
  · exact absurd same (noSign _ _)
  · have equal := toDigits_injective same
    omega

theorem decimal_ne_nil (value : Int) : decimal value ≠ [] := by
  unfold decimal
  split
  · exact List.cons_ne_nil _ _
  · exact Nat.toDigits_ne_nil

theorem delimiter_not_mem_indexText (label : Label) : stackFrameDelimiter ∉ label.indexText := by
  have notDecimal : forall value, stackFrameDelimiter ∉ decimal value := by
    intro value member
    exact absurd (mem_decimal member) (by decide)
  intro member
  unfold indexText at member
  rcases List.mem_append.mp member with first | second
  · exact notDecimal _ first
  · split at second
    · cases second
    · rcases List.mem_cons.mp second with colon | last
      · exact absurd colon (by decide)
      · exact notDecimal _ last

/-- A separator that one part of a list does not contain marks its end. -/
theorem append_cons_inj {A : Type} [DecidableEq A] {separator : A}
    {front front' rest rest' : List A} (outside : separator ∉ front) (outside' : separator ∉ front')
    (same : front ++ separator :: rest = front' ++ separator :: rest') : front = front' ∧
      rest = rest' := by
  have firsts : forall (list : List A) (later : List A), separator ∉ list ->
      (list ++ separator :: later).takeWhile (fun item => item ≠ separator) = list := by
    intro list later notMember
    rw [List.takeWhile_append_of_pos]
    · simp
    · intro item member
      have different : item ≠ separator := fun equal => notMember (equal ▸ member)
      simpa using different
  have fronts : front = front' := by
    rw [← firsts front rest outside, same, firsts front' rest' outside']
  subst fronts
  exact ⟨rfl, (List.cons.inj (List.append_cancel_left same)).2⟩

/-- The mirrored statement: the separator ends the front if the rest does not
contain it. -/
theorem append_cons_inj_right {A : Type} [DecidableEq A] {separator : A}
    {front front' rest rest' : List A} (outside : separator ∉ rest) (outside' : separator ∉ rest')
    (same : front ++ separator :: rest = front' ++ separator :: rest') : front = front' ∧
      rest = rest' := by
  have mirrored := congrArg List.reverse same
  simp only [List.reverse_append, List.reverse_cons, List.append_assoc,
    List.singleton_append] at mirrored
  rcases append_cons_inj (by simpa using outside) (by simpa using outside') mirrored with
    ⟨rests, fronts⟩
  exact ⟨List.reverse_injective fronts, List.reverse_injective rests⟩

theorem indexText_injective {left right : Label} (same : left.indexText = right.indexText) :
    left.fromIndex = right.fromIndex ∧ left.toIndex = right.toIndex := by
  have noColon : forall value, ':' ∉ decimal value := by
    intro value member
    exact absurd (mem_decimal member) (by decide)
  unfold indexText at same
  split at same <;> split at same
  · rename_i leftNone rightNone
    rw [List.append_nil, List.append_nil] at same
    exact ⟨decimal_injective same, leftNone.trans rightNone.symm⟩
  · rw [List.append_nil] at same
    exact absurd (same ▸ List.mem_append_right _ List.mem_cons_self) (noColon left.fromIndex)
  · rw [List.append_nil] at same
    exact absurd (same ▸ List.mem_append_right _ List.mem_cons_self) (noColon right.fromIndex)
  · rcases append_cons_inj (noColon _) (noColon _) same with ⟨first, second⟩
    exact ⟨decimal_injective first, decimal_injective second⟩

/-- The prefix and the indices in a text determine those of the label. -/
theorem indices_injective {left right : Label}
    (same : left.prefixText ++ left.indexText = right.prefixText ++ right.indexText) :
    left.stackFramePrefix = right.stackFramePrefix ∧ left.fromIndex = right.fromIndex ∧
      left.toIndex = right.toIndex := by
  have outside := delimiter_not_mem_indexText left
  have outside' := delimiter_not_mem_indexText right
  have parts : left.stackFramePrefix = right.stackFramePrefix ∧
      left.indexText = right.indexText := by
    unfold prefixText at same
    split at same <;> split at same
    · rename_i leftNone rightNone
      exact ⟨leftNone.trans rightNone.symm, same⟩
    · rw [List.nil_append] at same
      rw [same] at outside
      simp at outside
    · rw [List.nil_append] at same
      rw [← same] at outside'
      simp at outside'
    · rw [List.append_assoc, List.append_assoc, List.singleton_append,
        List.singleton_append] at same
      exact append_cons_inj_right outside outside' same
  exact ⟨parts.1, indexText_injective parts.2⟩

/-- The text of a label that is no counter determines the label. -/
theorem text_injective {left right : Label} (leftEntry : left ≠ entry) (leftExit : left ≠ exit)
    (leftSpecial : left.specialLabel = []) (rightEntry : right ≠ entry) (rightExit : right ≠ exit)
    (rightSpecial : right.specialLabel = []) (same : left.text = right.text) : left = right := by
  rw [text_eq leftEntry leftExit leftSpecial, text_eq rightEntry rightExit rightSpecial] at same
  rcases indices_injective same with ⟨prefixes, first, second⟩
  exact key_injective (by rw [key, key, prefixes, first, second, leftSpecial, rightSpecial])

/-- The special labels that the program makes: none, and that of a counter. -/
def IsPlain (label : Label) : Prop :=
  label.specialLabel = [] ∨ label.specialLabel = ['c', 'o', 'u', 'n', 't', 'e', 'r']

instance (label : Label) : Decidable label.IsPlain := inferInstanceAs (Decidable (_ ∨ _))

theorem decimal_getLast? (value : Int) : exists digit, (decimal value).getLast? = some digit ∧
    digit.isDigit = true := by
  have last : forall n : Nat, exists digit, (Nat.toDigits 10 n).getLast? = some digit ∧
      digit.isDigit = true := by
    intro n
    refine ⟨_, List.getLast?_eq_some_getLast Nat.toDigits_ne_nil, ?_⟩
    exact Nat.isDigit_of_mem_toDigits (by decide) (by decide) (List.getLast_mem _)
  unfold decimal
  split
  · rcases last value.natAbs with ⟨digit, form, isDigit⟩
    exact ⟨digit, by rw [List.getLast?_cons, form]; rfl, isDigit⟩
  · exact last value.natAbs

/-- The prefix and the indices end with a digit. -/
theorem indices_getLast? (label : Label) :
    exists digit, (label.prefixText ++ label.indexText).getLast? = some digit ∧
      digit.isDigit = true := by
  have last : exists digit, label.indexText.getLast? = some digit ∧ digit.isDigit = true := by
    rw [indexText]
    split
    · rw [List.append_nil]
      exact decimal_getLast? _
    · rcases decimal_getLast? label.toIndex with ⟨digit, form, isDigit⟩
      refine ⟨digit, ?_, isDigit⟩
      rw [List.getLast?_append, List.getLast?_cons, form]
      rfl
  rcases last with ⟨digit, form, isDigit⟩
  exact ⟨digit, by rw [List.getLast?_append, form]; rfl, isDigit⟩

/-- The four forms of a text, told apart by their last characters. -/
theorem text_cases {label : Label} (plain : label.IsPlain) :
    (label = entry ∧ label.text.getLast? = some 'y') ∨
      (label = exit ∧ label.text.getLast? = some 't') ∨
      (label.specialLabel = [] ∧ label.text = label.prefixText ++ label.indexText ∧
        exists digit, label.text.getLast? = some digit ∧ digit.isDigit = true) ∨
      (label.specialLabel = ['c', 'o', 'u', 'n', 't', 'e', 'r'] ∧
        label.text = label.prefixText ++ label.indexText ++ [' ', '(', 'c', 'o', 'u', 'n', 't',
        'e', 'r', ')'] ∧ label.text.getLast? = some ')') := by
  by_cases isEntry : label = entry
  · subst isEntry
    exact Or.inl ⟨rfl, by decide⟩
  · by_cases isExit : label = exit
    · subst isExit
      exact Or.inr (Or.inl ⟨rfl, by decide⟩)
    · rcases plain with none | counter
      · have form := text_eq isEntry isExit none
        exact Or.inr (Or.inr (Or.inl ⟨none, form, by rw [form]; exact indices_getLast? label⟩))
      · have form : label.text =
            label.prefixText ++ label.indexText ++ [' ', '(', 'c', 'o', 'u', 'n', 't', 'e',
              'r', ')'] := by
          simp [text, prefixText, indexText, isEntry, isExit, counter]
        refine Or.inr (Or.inr (Or.inr ⟨counter, form, ?_⟩))
        rw [form, List.getLast?_append]
        rfl

/-- The text determines the label, entry, exit and counters included. -/
theorem text_injective_of_isPlain {left right : Label} (leftPlain : left.IsPlain)
    (rightPlain : right.IsPlain) (same : left.text = right.text) : left = right := by
  have lasts : left.text.getLast? = right.text.getLast? := congrArg List.getLast? same
  have build : left.prefixText ++ left.indexText = right.prefixText ++ right.indexText ->
      left.specialLabel = right.specialLabel -> left = right := by
    intro indices specials
    rcases indices_injective indices with ⟨prefixes, first, second⟩
    exact key_injective (by rw [key, key, prefixes, first, second, specials])
  rcases text_cases leftPlain with ⟨leftForm, leftLast⟩ | ⟨leftForm, leftLast⟩ |
      ⟨leftSpecial, leftForm, digit, leftLast, isDigit⟩ | ⟨leftSpecial, leftForm, leftLast⟩ <;>
    rcases text_cases rightPlain with ⟨rightForm, rightLast⟩ | ⟨rightForm, rightLast⟩ |
      ⟨rightSpecial, rightForm, digit', rightLast, isDigit'⟩ |
      ⟨rightSpecial, rightForm, rightLast⟩ <;>
    rw [leftLast, rightLast] at lasts <;> cases lasts
  · exact leftForm.trans rightForm.symm
  · cases isDigit'
  · exact leftForm.trans rightForm.symm
  · cases isDigit'
  · cases isDigit
  · cases isDigit
  · exact build (leftForm.symm.trans (same.trans rightForm)) (leftSpecial.trans rightSpecial.symm)
  · cases isDigit
  · cases isDigit'
  · refine build ?_ (leftSpecial.trans rightSpecial.symm)
    exact List.append_cancel_right (leftForm.symm.trans (same.trans rightForm))

theorem text_ne_nil {label : Label} (notEntry : label ≠ entry) (notExit : label ≠ exit)
    (special : label.specialLabel = []) : label.text ≠ [] := by
  rw [text_eq notEntry notExit special]
  intro empty
  have index := (List.append_eq_nil_iff.mp empty).2
  exact decimal_ne_nil _ (List.append_eq_nil_iff.mp index).1

/-- The frame that a label names is one deeper than the label. -/
theorem two_add_delimiters_text {label : Label} (notEntry : label ≠ entry) (notExit : label ≠ exit)
    (special : label.specialLabel = []) :
    2 + (delimiters label.text : Int) = label.callStackDepth + 1 := by
  have none : delimiters label.indexText = 0 :=
    List.count_eq_zero.mpr (delimiter_not_mem_indexText label)
  have sum : delimiters label.text = delimiters label.prefixText + delimiters label.indexText := by
    rw [text_eq notEntry notExit special]
    exact List.count_append
  rw [sum, none, callStackDepth, prefixText]
  split
  · rfl
  · simp only [delimiters, List.count_append, List.count_singleton_self]
    omega

end Label
end Prevail
