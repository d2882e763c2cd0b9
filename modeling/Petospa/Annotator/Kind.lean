import Petospa.Lib.Text

/-!
# Kinds of optimistic choices and control characters

The enumeration is `OptimisticChoiceKind` of the annotator, in its order: the
position of a kind is the number that the tuner and the control strings use.
-/

namespace Petospa

open Text

inductive OptimisticChoiceKind where
  | first
  | parameterNoAlias
  | functionReturnNoAlias
  | parameterNoCapture
  | overflowNsw
  | overflowNuw
  | inboundsGep
  | functionNoUnwind
  | loopParallelInnermost
  | loopParallelOuter
  | functionInternal
  | functionReturnDereferenceable
  | parameterDereferenceable
  | memoryAccessDereferenceable
  | parameterAligned
  | memoryAccessAlign
  | memoryAccessResAlign
  | controlFlowTrg
  | memoryLoadInvariant
  | parameterReturned
  | parameterMemBehavior
  | functionMemEffects
  | loopBackedgeTaken
  | last
  deriving DecidableEq, Repr

namespace OptimisticChoiceKind

/-- The C++ enumerator's value. -/
def number : OptimisticChoiceKind → Nat
  | first => 0
  | parameterNoAlias => 1
  | functionReturnNoAlias => 2
  | parameterNoCapture => 3
  | overflowNsw => 4
  | overflowNuw => 5
  | inboundsGep => 6
  | functionNoUnwind => 7
  | loopParallelInnermost => 8
  | loopParallelOuter => 9
  | functionInternal => 10
  | functionReturnDereferenceable => 11
  | parameterDereferenceable => 12
  | memoryAccessDereferenceable => 13
  | parameterAligned => 14
  | memoryAccessAlign => 15
  | memoryAccessResAlign => 16
  | controlFlowTrg => 17
  | memoryLoadInvariant => 18
  | parameterReturned => 19
  | parameterMemBehavior => 20
  | functionMemEffects => 21
  | loopBackedgeTaken => 22
  | last => 23

/-- The cast from an integer to the enumeration. -/
def ofNumber : Nat → OptimisticChoiceKind
  | 0 => first
  | 1 => parameterNoAlias
  | 2 => functionReturnNoAlias
  | 3 => parameterNoCapture
  | 4 => overflowNsw
  | 5 => overflowNuw
  | 6 => inboundsGep
  | 7 => functionNoUnwind
  | 8 => loopParallelInnermost
  | 9 => loopParallelOuter
  | 10 => functionInternal
  | 11 => functionReturnDereferenceable
  | 12 => parameterDereferenceable
  | 13 => memoryAccessDereferenceable
  | 14 => parameterAligned
  | 15 => memoryAccessAlign
  | 16 => memoryAccessResAlign
  | 17 => controlFlowTrg
  | 18 => memoryLoadInvariant
  | 19 => parameterReturned
  | 20 => parameterMemBehavior
  | 21 => functionMemEffects
  | 22 => loopBackedgeTaken
  | _ => last

@[simp] theorem ofNumber_number (kind : OptimisticChoiceKind) : ofNumber kind.number = kind := by
  cases kind <;> rfl

theorem number_ofNumber {n : Nat} (hn : n < 23) : (ofNumber n).number = n := by
  revert n
  decide

theorem number_injective {a b : OptimisticChoiceKind} (h : a.number = b.number) : a = b := by
  rw [← ofNumber_number a, h, ofNumber_number]

/-- `OCK_LAST` as an array bound. -/
def count : Nat := last.number

/-- A kind that some annotation pass asks about: `OCK_FIRST` and `OCK_LAST` only
delimit the enumeration. -/
def IsChoice (kind : OptimisticChoiceKind) : Prop :=
  first.number < kind.number ∧ kind.number < count

instance (kind : OptimisticChoiceKind) : Decidable kind.IsChoice :=
  inferInstanceAs (Decidable (_ ∧ _))

theorem isChoice_ofNumber {n : Nat} (hpos : 1 ≤ n) (hn : n ≤ 22) : (ofNumber n).IsChoice := by
  change 0 < (ofNumber n).number ∧ (ofNumber n).number < 23
  rw [number_ofNumber (by omega)]
  omega

theorem IsChoice.bounds {kind : OptimisticChoiceKind} (h : kind.IsChoice) :
    1 ≤ kind.number ∧ kind.number ≤ 22 := by
  have hlow : 0 < kind.number := h.1
  have hhigh : kind.number < 23 := h.2
  omega

/-- The category and the kind that a printed choice is labelled with. -/
def label : OptimisticChoiceKind → Str × Str
  | first => (lit "N/A", lit "FIRST    ")
  | parameterNoAlias => (lit "Par", lit "NoAlias  ")
  | functionReturnNoAlias => (lit "Fn", lit "RetNoAlia ")
  | parameterNoCapture => (lit "Par", lit "NoCapture")
  | overflowNsw => (lit "Op ", lit "NoSgnWrap")
  | overflowNuw => (lit "Op ", lit "NoUnsWrap")
  | inboundsGep => (lit "GEP", lit "Inbounds ")
  | functionNoUnwind => (lit "Fn", lit "NoUnwind  ")
  | loopParallelInnermost => (lit "Lop", lit "ParallelI")
  | loopParallelOuter => (lit "Lop", lit "ParallelO")
  | functionInternal => (lit "Fn", lit "Internaliz")
  | functionReturnDereferenceable => (lit "Fn", lit "RetDerefe ")
  | parameterDereferenceable => (lit "Par", lit "Dereferen")
  | memoryAccessDereferenceable => (lit "Mem", lit "Dereferen")
  | parameterAligned => (lit "Par", lit "Alignment")
  | memoryAccessAlign => (lit "Mem", lit "Alignment")
  | memoryAccessResAlign => (lit "Mem", lit "ResAlign ")
  | controlFlowTrg => (lit "CFG", lit "BranchTrg")
  | memoryLoadInvariant => (lit "Ld ", lit "Invariant")
  | parameterReturned => (lit "Fn", lit "Returned  ")
  | parameterMemBehavior => (lit "Par", lit "MemAccess")
  | functionMemEffects => (lit "Fn", lit "MemEffects")
  | loopBackedgeTaken => (lit "Lop", lit "BackEdgeT")
  | last => (lit "N/A", lit "LAST     ")

end OptimisticChoiceKind

def isValidControlChar (numChoices : Nat) (controlChar : CChar) : Bool :=
  48 ≤ controlChar.toInt && controlChar.toInt < 48 + numChoices

/-- The stored choice is one more than the value: zero marks an unset entry.
The conversion to `unsigned` wraps for a `char` below the digit zero. -/
def getControlCharChoice (controlChar : CChar) : Nat :=
  ((controlChar.toInt - 48 + 1) % 2 ^ 32).toNat

def getOptimisticChoiceKindForControlChar (controlChar : CChar) : OptimisticChoiceKind :=
  .ofNumber (getControlCharChoice controlChar - 1)

/-- A seven-bit value character stores its value. -/
theorem getControlCharChoice_value {v : Nat} (hv : v < 80) :
    getControlCharChoice (Int8.ofNat (48 + v)) = v + 1 := by
  rw [getControlCharChoice, toInt_ofNat (by omega)]
  omega

theorem isValidControlChar_kind {kind : Nat} (hkind : kind ≤ 22) :
    isValidControlChar OptimisticChoiceKind.count (Int8.ofNat (48 + kind)) = true := by
  have hcount : OptimisticChoiceKind.count = 23 := rfl
  simp only [isValidControlChar, toInt_ofNat (by omega : 48 + kind < 128), hcount,
    Bool.and_eq_true, decide_eq_true_eq]
  omega

theorem getOptimisticChoiceKindForControlChar_kind {kind : Nat} (hkind : kind ≤ 22) :
    getOptimisticChoiceKindForControlChar (Int8.ofNat (48 + kind)) = .ofNumber kind := by
  rw [getOptimisticChoiceKindForControlChar, getControlCharChoice_value (by omega)]
  rfl

end Petospa
