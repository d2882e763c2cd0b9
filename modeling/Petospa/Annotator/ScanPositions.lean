import Petospa.Lib.Except
import Petospa.Annotator.ScanSafety

/-!
# The command-line scan by positions

The loop of `initializeChoiceMaps` as it stands in the code: `ArrayPos` goes up in
four places, every read is checked against the end of the string and every write
against the 20 bytes of `Buffer`. It refines to `scan`, which has the string behind
the position in its place.
-/

namespace Petospa

open Text

/-! ### The loop -/

/-- `OptimisticAnnotationsControlStr[Pos]`. Behind the last character is a NUL. -/
def charAt (s : List CChar) (pos : Nat) : Except Fault CChar :=
  if pos < s.length then .ok (s.getD pos 0)
  else if pos = s.length then .ok 0
  else .error .outOfBounds

/-- `Buffer[BufIdx] = C`, where `BufIdx` characters are written. -/
def store (buffer : List CChar) (c : CChar) : Except Fault (List CChar) :=
  if buffer.length < 20 then .ok (buffer ++ [c]) else .error .bufferOverflow

theorem length_store {buffer buffer' : List CChar} {c : CChar} (h : store buffer c = .ok buffer') :
    buffer.length < 20 ∧ buffer' = buffer ++ [c] := by
  rw [store] at h
  split at h
  · exact ⟨‹_›, (Except.ok.inj h).symm⟩
  · cases h

/-- The `do` loop over a function number, with the position of its `f`. -/
def readNumber (s : List CChar) (arrayPos : Nat) (controlChar : CChar) (buffer : List CChar) :
    Except Fault (Nat × List CChar) :=
  -- assert(BufIdx != 20)
  if buffer.length = 20 then .error .assertion
  else
    match _h : store buffer controlChar with
    | .error fault => .error fault
    | .ok buffer =>
        match charAt s (arrayPos + 1) with
        | .error fault => .error fault
        | .ok controlChar =>
            if controlChar = letterF then .ok (arrayPos + 1, buffer)
            else readNumber s (arrayPos + 1) controlChar buffer
termination_by 20 - buffer.length
decreasing_by
  obtain ⟨hlt, rfl⟩ := length_store _h
  rw [List.length_append, List.length_singleton]
  omega

/-- Behind the loop: the terminator and `atoi`. -/
def endNumber (arrayPos : Nat) (buffer : List CChar) (st : ScanState) :
    Except Fault (Nat × ScanState) := do
  let _ ← store buffer 0
  if atoi buffer < 0 then .error .assertion
  else .ok (arrayPos, { st with fnNo := atoi buffer })

/-- Behind `#f`. -/
def readFnNo (s : List CChar) (arrayPos : Nat) (st : ScanState) :
    Except Fault (Nat × ScanState) := do
  let controlChar ← charAt s (arrayPos + 1)
  if !isDigit controlChar then .error .assertion
  else
    let number ← readNumber s (arrayPos + 1) controlChar []
    endNumber number.1 number.2 st

/-- Behind `#c`. -/
def readKind (s : List CChar) (arrayPos : Nat) (st : ScanState) :
    Except Fault (Nat × ScanState) := do
  let controlChar ← charAt s (arrayPos + 1)
  if isValidControlChar OptimisticChoiceKind.count controlChar then
    .ok (arrayPos + 1, { st with curOCKind := getOptimisticChoiceKindForControlChar controlChar })
  else .error .assertion

/-- The body of the loop. -/
def scanBody (s : List CChar) (arrayPos : Nat) (st : ScanState) :
    Except Fault (Nat × ScanState) := do
  let controlChar ← charAt s arrayPos
  if controlChar = hash then
    -- assert(ArrayPos + 2 < e)
    if ¬ arrayPos + 2 < s.length then .error .assertion
    else
      let controlChar ← charAt s (arrayPos + 1)
      if controlChar = letterF then readFnNo s (arrayPos + 1) st
      else if controlChar = letterC then readKind s (arrayPos + 1) st
      else .error .unreachable
  else if st.fnNo < 0 then .error .assertion
  else if ¬ st.curOCKind.IsChoice then .error .assertion
  else .ok (arrayPos, st.push controlChar)

theorem readNumber_of_full {s buffer : List CChar} {arrayPos : Nat} {controlChar : CChar}
    (hfull : buffer.length = 20) :
    readNumber s arrayPos controlChar buffer = .error .assertion := by
  rw [readNumber, if_pos hfull]

theorem readNumber_of_lt {s buffer : List CChar} {arrayPos : Nat} {controlChar : CChar}
    (hlt : buffer.length < 20) :
    readNumber s arrayPos controlChar buffer = charAt s (arrayPos + 1) >>= fun next =>
      if next = letterF then .ok (arrayPos + 1, buffer ++ [controlChar])
      else readNumber s (arrayPos + 1) next (buffer ++ [controlChar]) := by
  have hstore : store buffer controlChar = .ok (buffer ++ [controlChar]) := if_pos hlt
  rw [readNumber, if_neg (by omega)]
  split
  · rename_i hfail
    rw [hstore] at hfail
    cases hfail
  · rename_i hok
    obtain rfl := Except.ok.inj (hstore.symm.trans hok)
    cases charAt s (arrayPos + 1) <;> rfl

/-- Positions only go up. -/
theorem le_of_readNumber {s buffer : List CChar} {arrayPos : Nat} {controlChar : CChar}
    {last : Nat × List CChar} (h : readNumber s arrayPos controlChar buffer = .ok last) :
    arrayPos ≤ last.1 := by
  induction hn : 20 - buffer.length using Nat.strong_induction_on
    generalizing arrayPos controlChar buffer with
  | _ n ih =>
    obtain hlt | hfull | hover := Nat.lt_trichotomy buffer.length 20
    · rw [readNumber_of_lt hlt, Except.bind_eq_ok_iff] at h
      obtain ⟨next, -, h⟩ := h
      split at h
      · obtain rfl := Except.ok.inj h
        exact Nat.le_succ _
      · refine Nat.le_of_succ_le (ih _ ?_ h rfl)
        rw [List.length_append, List.length_singleton]
        omega
    · rw [readNumber_of_full hfull] at h
      cases h
    · have hstore : store buffer controlChar = .error .bufferOverflow := if_neg (by omega)
      rw [readNumber, if_neg (by omega)] at h
      split at h
      · cases h
      · rename_i hok
        rw [hstore] at hok
        cases hok

theorem le_of_readFnNo {s : List CChar} {arrayPos : Nat} {st : ScanState} {next : Nat × ScanState}
    (h : readFnNo s arrayPos st = .ok next) : arrayPos ≤ next.1 := by
  rw [readFnNo, Except.bind_eq_ok_iff] at h
  obtain ⟨first, -, h⟩ := h
  split at h
  · cases h
  · simp only [endNumber, Except.bind_eq_ok_iff] at h
    obtain ⟨number, hnumber, _, -, h⟩ := h
    split at h
    · cases h
    · obtain rfl := Except.ok.inj h
      exact Nat.le_of_succ_le (le_of_readNumber hnumber)

theorem le_of_readKind {s : List CChar} {arrayPos : Nat} {st : ScanState} {next : Nat × ScanState}
    (h : readKind s arrayPos st = .ok next) : arrayPos ≤ next.1 := by
  rw [readKind, Except.bind_eq_ok_iff] at h
  obtain ⟨kind, -, h⟩ := h
  split at h
  · obtain rfl := Except.ok.inj h
    exact Nat.le_succ _
  · cases h

theorem le_of_scanBody {s : List CChar} {arrayPos : Nat} {st : ScanState} {next : Nat × ScanState}
    (h : scanBody s arrayPos st = .ok next) : arrayPos ≤ next.1 := by
  rw [scanBody, Except.bind_eq_ok_iff] at h
  obtain ⟨controlChar, -, h⟩ := h
  split at h
  · split at h
    · cases h
    · rw [Except.bind_eq_ok_iff] at h
      obtain ⟨controlChar, -, h⟩ := h
      split at h
      · exact Nat.le_of_succ_le (le_of_readFnNo h)
      · split at h
        · exact Nat.le_of_succ_le (le_of_readKind h)
        · cases h
  · split at h
    · cases h
    · split at h
      · cases h
      · obtain rfl := Except.ok.inj h
        exact le_rfl

def scanFrom (s : List CChar) (arrayPos : Nat) (st : ScanState) : Except Fault ScanState :=
  if arrayPos < s.length then
    match _h : scanBody s arrayPos st with
    | .error fault => .error fault
    | .ok next => scanFrom s (next.1 + 1) next.2
  else .ok st
termination_by s.length - arrayPos
decreasing_by
  have hle := le_of_scanBody _h
  omega

/-! ### Refinement -/

variable {s : List CChar} {arrayPos : Nat} {st : ScanState}

theorem scanFrom_of_lt (h : arrayPos < s.length) :
    scanFrom s arrayPos st =
      scanBody s arrayPos st >>= fun next => scanFrom s (next.1 + 1) next.2 := by
  rw [scanFrom, if_pos h]
  split
  · rename_i hfail
    rw [hfail]
    rfl
  · rename_i hok
    rw [hok]
    rfl

theorem scanFrom_of_le (h : s.length ≤ arrayPos) : scanFrom s arrayPos st = .ok st := by
  rw [scanFrom, if_neg (Nat.not_lt.mpr h)]

theorem lt_of_drop_eq {c : CChar} {rest : List CChar} (h : s.drop arrayPos = c :: rest) :
    arrayPos < s.length := by
  by_contra hle
  rw [List.drop_eq_nil_of_le (Nat.not_lt.mp hle)] at h
  cases h

theorem charAt_eq {c : CChar} {rest : List CChar} (h : s.drop arrayPos = c :: rest) :
    charAt s arrayPos = .ok c := by
  have hc : s[arrayPos]? = some c := by
    rw [← Nat.add_zero arrayPos, ← List.getElem?_drop, h]
    rfl
  rw [charAt, if_pos (lt_of_drop_eq h), List.getD_eq_getElem?_getD, hc, Option.getD_some]

theorem drop_succ_eq {c : CChar} {rest : List CChar} (h : s.drop arrayPos = c :: rest) :
    s.drop (arrayPos + 1) = rest := by
  rw [← List.drop_drop, h]
  rfl

/-- The passes behind a position are those of `scan`. -/
def RefinesBehind (s : List CChar) (arrayPos : Nat) : Prop :=
  ∀ later st, arrayPos < later → scanFrom s later st = scan .main (s.drop later) st

theorem error_bind {α β : Type} (fault : Fault) (f : α → Except Fault β) :
    (.error fault >>= f : Except Fault β) = .error fault := rfl

theorem ok_bind {α β : Type} (a : α) (f : α → Except Fault β) : (.ok a >>= f) = f a := rfl

theorem endNumber_refines {buffer : List CChar} (hbehind : RefinesBehind s arrayPos)
    (hbuffer : buffer.length ≤ 20) :
    (endNumber arrayPos buffer st >>= fun next => scanFrom s (next.1 + 1) next.2) =
      if buffer.length = 20 then .error .bufferOverflow
      else if atoi buffer < 0 then .error .assertion
      else scan .main (s.drop (arrayPos + 1)) { st with fnNo := atoi buffer } := by
  rw [endNumber, store]
  by_cases hfull : buffer.length = 20
  · rw [if_neg (by omega), if_pos hfull, error_bind, error_bind]
  · rw [if_pos (by omega), if_neg hfull, ok_bind]
    by_cases hnumber : atoi buffer < 0
    · rw [if_pos hnumber, if_pos hnumber, error_bind]
    · rw [if_neg hnumber, if_neg hnumber, ok_bind]
      exact hbehind _ _ (Nat.lt_succ_self arrayPos)

theorem RefinesBehind.succ (h : RefinesBehind s arrayPos) : RefinesBehind s (arrayPos + 1) :=
  fun later st hlater => h later st (by omega)

theorem readNumber_refines {c : CChar} {buffer : List CChar} (hpos : arrayPos < s.length)
    (hbehind : RefinesBehind s arrayPos) (hbuffer : buffer.length < 20) :
    (readNumber s arrayPos c buffer >>= fun number => endNumber number.1 number.2 st >>=
        fun next => scanFrom s (next.1 + 1) next.2) =
      scan (.fnDigits (buffer ++ [c])) (s.drop (arrayPos + 1)) st := by
  induction hn : 20 - buffer.length using Nat.strong_induction_on
    generalizing arrayPos c buffer with
  | _ n ih =>
    have hlength : (buffer ++ [c]).length = buffer.length + 1 := by
      rw [List.length_append, List.length_singleton]
    rw [readNumber_of_lt hbuffer, bind_assoc]
    cases hrest : s.drop (arrayPos + 1) with
    | nil =>
        -- the terminating NUL is no `f`
        have hend : s.length = arrayPos + 1 := by
          have hle := List.drop_eq_nil_iff.mp hrest
          omega
        have hnul : charAt s (arrayPos + 1) = .ok 0 := by
          rw [charAt, if_neg (by omega), if_pos hend.symm]
        rw [hnul, ok_bind, if_neg (by decide), scan]
        by_cases hfull : (buffer ++ [c]).length = 20
        · rw [if_pos hfull, readNumber_of_full hfull, error_bind]
        · have hbehindEnd : charAt s (arrayPos + 1 + 1) = .error .outOfBounds := by
            rw [charAt, if_neg (by omega), if_neg (by omega)]
          rw [if_neg hfull, readNumber_of_lt (by omega), hbehindEnd, error_bind, error_bind]
    | cons next rest =>
        have hnext := lt_of_drop_eq hrest
        rw [charAt_eq hrest, ok_bind, scan]
        by_cases hf : next = letterF
        · rw [if_pos hf, if_pos (toInt_eq_letterF.mpr hf), ok_bind,
            endNumber_refines hbehind.succ (show (buffer ++ [c]).length ≤ 20 by omega),
            drop_succ_eq hrest]
        · rw [if_neg hf, if_neg (fun h => hf (toInt_eq_letterF.mp h))]
          by_cases hfull : (buffer ++ [c]).length = 20
          · rw [if_pos hfull, readNumber_of_full hfull, error_bind]
          · rw [if_neg hfull, ih _ (by omega) hnext hbehind.succ (by omega) rfl, drop_succ_eq hrest]

theorem readFnNo_refines {rest : List CChar} (hrest : s.drop (arrayPos + 1) = rest)
    (hlong : rest ≠ []) (hbehind : RefinesBehind s arrayPos) :
    (readFnNo s arrayPos st >>= fun next => scanFrom s (next.1 + 1) next.2) =
      scan .fnFirst rest st := by
  cases rest with
  | nil => exact absurd rfl hlong
  | cons c rest =>
      have hpos := lt_of_drop_eq hrest
      rw [readFnNo, charAt_eq hrest, ok_bind, scan]
      by_cases hdigit : isDigit c = true
      · rw [if_neg (by simp [hdigit]), if_pos hdigit, bind_assoc,
          readNumber_refines hpos hbehind.succ (by simp), drop_succ_eq hrest, List.nil_append]
      · rw [if_pos (by simpa using hdigit), if_neg hdigit, error_bind]

theorem readKind_refines {rest : List CChar} (hrest : s.drop (arrayPos + 1) = rest)
    (hlong : rest ≠ []) (hbehind : RefinesBehind s arrayPos) :
    (readKind s arrayPos st >>= fun next => scanFrom s (next.1 + 1) next.2) =
      scan .kind rest st := by
  cases rest with
  | nil => exact absurd rfl hlong
  | cons c rest =>
      rw [readKind, charAt_eq hrest, ok_bind, scan]
      by_cases hvalid : isValidControlChar OptimisticChoiceKind.count c = true
      · rw [if_pos hvalid, if_pos hvalid, ok_bind,
          hbehind _ _ (show arrayPos < arrayPos + 1 + 1 by omega), drop_succ_eq hrest]
      · rw [if_neg hvalid, if_neg hvalid, error_bind]

theorem scanBody_refines {c : CChar} {rest : List CChar} (hrest : s.drop arrayPos = c :: rest)
    (hbehind : RefinesBehind s arrayPos) :
    (scanBody s arrayPos st >>= fun next => scanFrom s (next.1 + 1) next.2) =
      scan .main (c :: rest) st := by
  have htail := drop_succ_eq hrest
  have hlength : s.length = arrayPos + 1 + rest.length := by
    have h := congrArg List.length hrest
    rw [List.length_drop, List.length_cons] at h
    omega
  rw [scanBody, charAt_eq hrest, ok_bind, scan]
  by_cases hc : c = hash
  · rw [if_pos hc, if_pos (toInt_eq_hash.mpr hc)]
    by_cases hshort : rest.length < 2
    · rw [if_pos (by omega), if_pos hshort, error_bind]
    · rw [if_neg (by omega), if_neg hshort]
      cases rest with
      | nil => exact absurd (by simp) hshort
      | cons c' rest =>
          have hlong : rest ≠ [] := by
            rintro rfl
            exact hshort (by simp)
          rw [charAt_eq htail, ok_bind, scan]
          by_cases hf : c' = letterF
          · rw [if_pos hf, if_pos (toInt_eq_letterF.mpr hf),
              readFnNo_refines (drop_succ_eq htail) hlong hbehind.succ]
          · rw [if_neg hf, if_neg (fun h => hf (toInt_eq_letterF.mp h))]
            by_cases hkind : c' = letterC
            · rw [if_pos hkind, if_pos (toInt_eq_letterC.mpr hkind),
                readKind_refines (drop_succ_eq htail) hlong hbehind.succ]
            · rw [if_neg hkind, if_neg (fun h => hkind (toInt_eq_letterC.mp h)), error_bind]
  · rw [if_neg hc, if_neg (fun h => hc (toInt_eq_hash.mp h))]
    by_cases hfnNo : st.fnNo < 0
    · rw [if_pos hfnNo, if_pos hfnNo, error_bind]
    · rw [if_neg hfnNo, if_neg hfnNo]
      by_cases hkind : st.curOCKind.IsChoice
      · rw [if_neg (not_not.mpr hkind), if_neg (not_not.mpr hkind), ok_bind,
          hbehind _ _ (Nat.lt_succ_self arrayPos), htail]
      · rw [if_pos hkind, if_pos hkind, error_bind]

/-- The loop is `scan` on the string behind the position. -/
theorem scanFrom_eq_scan (s : List CChar) (arrayPos : Nat) (st : ScanState) :
    scanFrom s arrayPos st = scan .main (s.drop arrayPos) st := by
  induction hn : s.length - arrayPos using Nat.strong_induction_on generalizing arrayPos st with
  | _ n ih =>
    cases hrest : s.drop arrayPos with
    | nil => rw [scanFrom_of_le (List.drop_eq_nil_iff.mp hrest), scan]
    | cons c rest =>
        have hlt := lt_of_drop_eq hrest
        rw [scanFrom_of_lt hlt]
        apply scanBody_refines hrest
        intro later st hlater
        exact ih _ (by omega) later st rfl

/-- The scan stays within the string and the buffer if the function numbers fit. -/
theorem scanFrom_stopsSafely_iff (maps : ChoiceMaps) (s : List CChar) :
    StopsSafely (scanFrom s 0 (.initial maps)) ↔ NumbersFit s := by
  rw [scanFrom_eq_scan, List.drop_zero]
  exact scan_stopsSafely_iff maps s

/-- `#f1`: the number is not ended, so its terminating NUL is copied and the
character behind that is read. -/
theorem not_stopsSafely_cutOff :
    ¬ ∀ s, StopsSafely (scanFrom s 0 (.initial ChoiceMaps.empty)) := by
  intro h
  have hcutOff := h [hash, letterF, Int8.ofNat (ord '1')]
  rw [scanFrom_eq_scan] at hcutOff
  exact absurd (hcutOff .outOfBounds rfl) (by decide)

end Petospa
