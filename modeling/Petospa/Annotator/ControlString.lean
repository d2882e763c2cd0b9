import Petospa.Annotator.Kind

/-!
# The two control-string parsers of the annotator

`scan` is the command-line loop of `initializeChoiceMaps`, `scanEmbedded` its
loop over an embedded annotation string. Each mode of a scan is one of the
places in the loop body that reads the next character, so every `++ArrayPos` is
one step of the recursion. The annotator is an assertion-enabled program: a
scan that does not finish reports the check, or the memory error, it ends with.
-/

namespace Petospa

open Text

/-- How a C++ or Python run stops without a result. -/
inductive Fault where
  /-- A failing `assert`. -/
  | assertion
  /-- `llvm_unreachable`. -/
  | unreachable
  /-- A read past the end of the string. -/
  | outOfBounds
  /-- A write behind the local `Buffer`. -/
  | bufferOverflow
  /-- A Python list index out of range. -/
  | indexError
  /-- A process argument that cannot be encoded. -/
  | encoding
  deriving DecidableEq, Repr

/-- `ChoiceMaps[Kind][FnNo]`: the choices of a function, by position. -/
abbrev ChoiceMaps := OptimisticChoiceKind → Nat → List Nat

namespace ChoiceMaps

def empty : ChoiceMaps := fun _ _ => []

/-- `ChoiceMaps[Kind][FnNo].push_back(...)` for a run of choices. -/
def append (maps : ChoiceMaps) (kind : OptimisticChoiceKind) (fnNo : Nat) (choices : List Nat) :
    ChoiceMaps :=
  fun k n => if k = kind ∧ n = fnNo then maps k n ++ choices else maps k n

@[simp] theorem append_nil (maps : ChoiceMaps) (kind : OptimisticChoiceKind) (fnNo : Nat) :
    maps.append kind fnNo [] = maps := by
  funext k n
  simp [append]

theorem append_append (maps : ChoiceMaps) (kind : OptimisticChoiceKind) (fnNo : Nat)
    (xs ys : List Nat) :
    (maps.append kind fnNo xs).append kind fnNo ys = maps.append kind fnNo (xs ++ ys) := by
  funext k n
  by_cases h : k = kind ∧ n = fnNo <;> simp [append, h]

end ChoiceMaps

/-- `atoi` on a buffer that starts with a digit: the leading digits as a `long`
(clamped by `strtol`), converted to `int`. -/
def atoi (buffer : List CChar) : Int :=
  Int.bmod (min (decimal (buffer.takeWhile isDigit)) (2 ^ 63 - 1) : Nat) (2 ^ 32)

inductive ScanMode where
  /-- At the head of the loop. -/
  | main
  /-- Behind a `#`. -/
  | hash
  /-- At the first character of a function number. -/
  | fnFirst
  /-- In a function number, with the characters in `Buffer` so far. -/
  | fnDigits (buffer : List CChar)
  /-- At a kind character. -/
  | kind

structure ScanState where
  fnNo : Int
  curOCKind : OptimisticChoiceKind
  choiceMaps : ChoiceMaps

namespace ScanState

def initial (maps : ChoiceMaps) : ScanState := ⟨-1, .first, maps⟩

/-- `ChoiceMaps[CurOCKind][FnNo].push_back(getControlCharChoice(ControlChar))`. -/
def push (st : ScanState) (controlChar : CChar) : ScanState :=
  { st with
    choiceMaps := st.choiceMaps.append st.curOCKind st.fnNo.toNat
      [getControlCharChoice controlChar] }

end ScanState

/-- The loop over the control string given on the command line. -/
def scan : ScanMode → List CChar → ScanState → Except Fault ScanState
  | .main, [], st => .ok st
  | .main, c :: rest, st =>
      if c.toInt = ord '#' then
        -- assert(ArrayPos + 2 < e)
        if rest.length < 2 then .error .assertion else scan .hash rest st
      else if st.fnNo < 0 then .error .assertion
      else if ¬ st.curOCKind.IsChoice then .error .assertion
      else scan .main rest (st.push c)
  | .hash, [], _ => .error .unreachable
  | .hash, c :: rest, st =>
      if c.toInt = ord 'f' then scan .fnFirst rest st
      else if c.toInt = ord 'c' then scan .kind rest st
      else .error .unreachable
  | .fnFirst, [], _ => .error .assertion
  | .fnFirst, c :: rest, st =>
      if isDigit c then scan (.fnDigits [c]) rest st else .error .assertion
  | .fnDigits buffer, [], _ =>
      -- s[e] is the terminating NUL: it is copied too, and the next read is past the end.
      if buffer.length = 20 then .error .assertion else .error .outOfBounds
  | .fnDigits buffer, c :: rest, st =>
      if c.toInt = ord 'f' then
        if buffer.length = 20 then .error .bufferOverflow
        else if atoi buffer < 0 then .error .assertion
        else scan .main rest { st with fnNo := atoi buffer }
      else if buffer.length = 20 then .error .assertion
      else scan (.fnDigits (buffer ++ [c])) rest st
  | .kind, [], _ => .error .assertion
  | .kind, c :: rest, st =>
      if isValidControlChar OptimisticChoiceKind.count c then
        scan .main rest { st with curOCKind := getOptimisticChoiceKindForControlChar c }
      else .error .assertion

/-- A finished scan of a prefix hands its state to the scan of the rest. -/
theorem scan_append {mode : ScanMode} {front back : List CChar} {st st' : ScanState}
    (h : scan mode front st = .ok st') :
    scan mode (front ++ back) st = scan .main back st' := by
  induction front generalizing mode st with
  | nil =>
      cases mode with
      | main =>
          obtain rfl : st = st' := Except.ok.inj h
          rfl
      | fnDigits buffer =>
          rw [scan] at h
          split at h <;> simp at h
      | hash => simp [scan] at h
      | fnFirst => simp [scan] at h
      | kind => simp [scan] at h
  | cons c front ih =>
      cases mode with
      | main =>
          simp only [scan, List.cons_append] at h ⊢
          split at h
          · rename_i hash
            split at h
            · simp at h
            · rename_i long
              rw [if_pos hash, if_neg (by simp only [List.length_append]; omega)]
              exact ih h
          · rename_i plain
            split at h
            · simp at h
            · rename_i hfn
              split at h
              · simp at h
              · rename_i hkind
                rw [if_neg plain, if_neg hfn, if_neg hkind]
                exact ih h
      | hash =>
          simp only [scan, List.cons_append] at h ⊢
          split at h
          · rename_i hf
            rw [if_pos hf]
            exact ih h
          · rename_i hf
            split at h
            · rename_i hc
              rw [if_neg hf, if_pos hc]
              exact ih h
            · simp at h
      | fnFirst =>
          simp only [scan, List.cons_append] at h ⊢
          split at h
          · rename_i digit
            rw [if_pos digit]
            exact ih h
          · simp at h
      | fnDigits buffer =>
          simp only [scan, List.cons_append] at h ⊢
          split at h
          · rename_i hf
            split at h
            · simp at h
            · rename_i short
              split at h
              · simp at h
              · rename_i hfn
                rw [if_pos hf, if_neg short, if_neg hfn]
                exact ih h
          · rename_i hf
            split at h
            · simp at h
            · rename_i short
              rw [if_neg hf, if_neg short]
              exact ih h
      | kind =>
          simp only [scan, List.cons_append] at h ⊢
          split at h
          · rename_i valid
            rw [if_pos valid]
            exact ih h
          · simp at h

/-- What the annotator makes of a control string on its command line, which
reaches it as an encoded process argument. -/
def decode (maps : ChoiceMaps) (controlString : Str) : Except Fault ChoiceMaps :=
  match fsencode controlString with
  | none => .error .encoding
  | some bytes => (scan .main bytes (.initial maps)).map ScanState.choiceMaps

inductive EmbeddedMode where
  | main
  | hash
  | kind

/-- The loop over an embedded annotation string, whose last character (the
literal's NUL) it never looks at. `fnNo` is the number of the annotated
function; characters before a first kind header go to `OCK_FIRST`. -/
def scanEmbedded (fnNo : Nat) :
    EmbeddedMode → List CChar → OptimisticChoiceKind → ChoiceMaps → Except Fault ChoiceMaps
  | .main, [], _, maps => .ok maps
  | .main, c :: rest, curOCKind, maps =>
      if rest = [] then .ok maps
      else if c.toInt = ord '#' then
        -- assert(ArrayPos + 2 < e)
        if rest.length < 2 then .error .assertion
        else scanEmbedded fnNo .hash rest curOCKind maps
      else
        scanEmbedded fnNo .main rest curOCKind
          (maps.append curOCKind fnNo [getControlCharChoice c])
  | .hash, [], _, _ => .error .unreachable
  | .hash, c :: rest, curOCKind, maps =>
      if c.toInt = ord 'c' then scanEmbedded fnNo .kind rest curOCKind maps
      else .error .unreachable
  | .kind, [], _, _ => .error .assertion
  | .kind, c :: rest, _, maps =>
      if isValidControlChar OptimisticChoiceKind.count c then
        scanEmbedded fnNo .main rest (getOptimisticChoiceKindForControlChar c) maps
      else .error .assertion

end Petospa
