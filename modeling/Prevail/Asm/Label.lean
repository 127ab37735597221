import Mathlib

namespace Prevail

/-!
# Labels

`label_t` of `crab/label.hpp`, its order, and its text.  A label names an
instruction by its index, or a conditional edge by the indices of its two ends.
The text of a call label is the prefix of the labels inside the call.

A `std::string` is a list of characters here, which makes the order of labels
and the texts of labels evaluate.
-/

structure Label where
  stackFramePrefix : List Char := []
  fromIndex : Int
  toIndex : Int := -1
  specialLabel : List Char := []
  deriving DecidableEq, Repr

namespace Label

/-- The members in the order in which the default comparison reads them. -/
def key (label : Label) : List Char ×ₗ Int ×ₗ Int ×ₗ List Char :=
  toLex (label.stackFramePrefix, toLex (label.fromIndex, toLex (label.toIndex, label.specialLabel)))

theorem key_injective : Function.Injective key := by
  intro left right same
  cases left
  cases right
  simp only [key, EmbeddingLike.apply_eq_iff_eq, Prod.mk.injEq] at same
  rcases same with ⟨rfl, rfl, rfl, rfl⟩
  rfl

instance : LinearOrder Label := LinearOrder.lift' key key_injective

def entry : Label := { fromIndex := -1 }

def exit : Label := { fromIndex := 2147483647 }

def makeJump (src target : Label) : Label :=
  { stackFramePrefix := target.stackFramePrefix, fromIndex := src.fromIndex,
    toIndex := target.fromIndex }

def makeIncrementCounter (label : Label) : Label :=
  { label with specialLabel := ['c', 'o', 'u', 'n', 't', 'e', 'r'] }

def stackFrameDelimiter : Char := '/'

/-- The number of frame delimiters in a text. -/
def delimiters (text : List Char) : Nat := text.count stackFrameDelimiter

def callStackDepth (label : Label) : Int :=
  if label.stackFramePrefix = [] then 1 else 2 + delimiters label.stackFramePrefix

/-- The decimal text of an integer. -/
def decimal (value : Int) : List Char :=
  if value < 0 then '-' :: Nat.toDigits 10 value.natAbs else Nat.toDigits 10 value.natAbs

/-- `to_string` of a label. -/
def text (label : Label) : List Char :=
  if label = entry then ['e', 'n', 't', 'r', 'y']
  else if label = exit then ['e', 'x', 'i', 't']
  else
    (if label.stackFramePrefix = [] then [] else label.stackFramePrefix ++ [stackFrameDelimiter]) ++
      decimal label.fromIndex ++
      (if label.toIndex = -1 then [] else ':' :: decimal label.toIndex) ++
      (if label.specialLabel = [] then [] else [' ', '('] ++ label.specialLabel ++ [')'])

end Label

end Prevail
