import Mathlib.Data.List.TakeWhile
import Mathlib.Data.Nat.Digits.Defs
import Petospa.Tuner.Valid

/-!
# The control string as a code

The tuner writes a header when the function or the kind changes and one
character for each value; the annotator remembers the last headers and pushes
one entry for each byte it reads. `Synced` ties the two memories together; it is
carried through every cut between two choices.
-/

namespace Petospa

open Text

/-- The entries that the character of a value leaves in a choice map: one for
each of its bytes. -/
def entries (v : Nat) : List Nat :=
  ((fsencodeChar (optionChar v)).getD []).map fun byte => getControlCharChoice (Int8.ofNat byte)

/-- A seven-bit character stores its value, and nothing else. -/
theorem entries_of_lt {v : Nat} (hv : v < 80) : entries v = [v + 1] := by
  have hchar : fsencodeChar (optionChar v) = some [48 + v] := by
    change fsencodeChar (48 + v) = _
    rw [fsencodeChar, if_pos (by omega)]
  rw [entries, hchar]
  exact congrArg (fun entry => [entry]) (getControlCharChoice_value hv)

namespace OptimisticChoice

/-- A choice that has a function number and a kind which the annotator reads. -/
structure Codable (oc : OptimisticChoice) : Prop where
  functionNo_nonneg : 0 ≤ oc.functionNo
  functionNo_lt : oc.functionNo < 2 ^ 31
  one_le_kind : 1 ≤ oc.opportunityNo
  kind_le : oc.opportunityNo ≤ 22

/-- A value that a process argument can carry. -/
def Encodable (oc : OptimisticChoice) : Prop := (fsencodeChar (optionChar oc.value)).isSome

theorem encodable_of_lt {oc : OptimisticChoice} (h : oc.value < 80) : oc.Encodable := by
  have hchar : optionChar oc.value < 0x80 := by
    change 48 + oc.value < 128
    omega
  simp [Encodable, fsencodeChar, hchar]

/-- The choices of a pair of kind and function. -/
def belongsTo (kind : OptimisticChoiceKind) (fnNo : Nat) (oc : OptimisticChoice) : Bool :=
  oc.opportunityNo = kind.number ∧ oc.functionNo = fnNo

end OptimisticChoice

namespace ChoiceMaps

/-- The maps with the values of further choices behind the entries they have. -/
def extend (maps : ChoiceMaps) (ocs : List OptimisticChoice) : ChoiceMaps :=
  fun kind fnNo => maps kind fnNo ++
    (ocs.filter (·.belongsTo kind fnNo)).flatMap fun oc => entries oc.value

@[simp] theorem extend_nil (maps : ChoiceMaps) : maps.extend [] = maps := by
  funext kind fnNo
  simp [extend]

theorem extend_append (maps : ChoiceMaps) (xs ys : List OptimisticChoice) :
    maps.extend (xs ++ ys) = (maps.extend xs).extend ys := by
  funext kind fnNo
  simp [extend]

/-- One choice extends the map of its pair. -/
theorem extend_singleton (maps : ChoiceMaps) {oc : OptimisticChoice} (h : oc.Codable) :
    maps.extend [oc] =
      maps.append (.ofNumber oc.opportunityNo.toNat) oc.functionNo.toNat (entries oc.value) := by
  funext kind fnNo
  have hpair : oc.belongsTo kind fnNo = true ↔
      kind = .ofNumber oc.opportunityNo.toNat ∧ fnNo = oc.functionNo.toNat := by
    have hlow := h.one_le_kind
    have hhigh := h.kind_le
    have hfn := h.functionNo_nonneg
    simp only [OptimisticChoice.belongsTo, decide_eq_true_eq]
    constructor
    · rintro ⟨hkind, hfunction⟩
      refine ⟨?_, by omega⟩
      rw [hkind, Int.toNat_natCast, OptimisticChoiceKind.ofNumber_number]
    · rintro ⟨hkind, hfunction⟩
      refine ⟨?_, by omega⟩
      rw [hkind, OptimisticChoiceKind.number_ofNumber (by omega)]
      omega
  by_cases hbelongs : oc.belongsTo kind fnNo = true
  · simp [extend, append, hbelongs, if_pos (hpair.mp hbelongs)]
  · simp [extend, append, hbelongs, if_neg (mt hpair.mpr hbelongs)]

end ChoiceMaps

/-! ### Reading the pieces of an encoding -/

/-- The characters of a function number. -/
def digitBytes (n : Nat) : List CChar := ((Nat.toDigits 10 n).map Char.toNat).map Int8.ofNat

theorem toInt_digitBytes {n : Nat} {c : CChar} (hc : c ∈ digitBytes n) :
    48 ≤ c.toInt ∧ c.toInt ≤ 57 := by
  simp only [digitBytes, List.mem_map] at hc
  obtain ⟨_, ⟨d, hd, rfl⟩, rfl⟩ := hc
  have hcode := digit_code hd
  rw [toInt_ofNat (by omega)]
  omega

theorem length_digitBytes {n : Nat} (hn : n < 2 ^ 31) :
    1 ≤ (digitBytes n).length ∧ (digitBytes n).length ≤ 10 := by
  simp only [digitBytes, List.length_map]
  exact ⟨Nat.length_toDigits_pos, Nat.toDigits_length 10 n 10 (by omega) (by omega)⟩

theorem atoi_digitBytes {n : Nat} (hn : n < 2 ^ 31) : atoi (digitBytes n) = n := by
  have htake : (digitBytes n).takeWhile isDigit = digitBytes n := by
    rw [List.takeWhile_eq_self_iff]
    intro c hc
    have := toInt_digitBytes hc
    simp only [isDigit, Bool.and_eq_true, decide_eq_true_eq]
    exact this
  have hdecimal : decimal (digitBytes n) = n := decimal_str n
  have hlong : min n (2 ^ 63 - 1) = n := by omega
  have hint : Int.bmod (n : Int) (2 ^ 32) = n := Int.bmod_eq_of_le (by omega) (by omega)
  unfold atoi
  rw [htake, hdecimal, hlong]
  exact hint

/-- The loop that copies a function number into its buffer. -/
theorem scan_fnDigits {digits : List CChar} (hdigits : ∀ c ∈ digits, 48 ≤ c.toInt ∧ c.toInt ≤ 57)
    (buffer rest : List CChar) (st : ScanState) (hlen : buffer.length + digits.length < 20)
    (hnum : 0 ≤ atoi (buffer ++ digits)) :
    scan (.fnDigits buffer) (digits ++ Int8.ofNat (ord 'f') :: rest) st =
      scan .main rest { st with fnNo := atoi (buffer ++ digits) } := by
  induction digits generalizing buffer with
  | nil =>
      simp only [List.append_nil, List.length_nil, Nat.add_zero] at hlen hnum ⊢
      rw [List.nil_append, scan, if_pos (by decide), if_neg (by omega), if_neg (by omega)]
  | cons c digits ih =>
      have hc := hdigits c (by simp)
      have hf : ¬ c.toInt = (ord 'f' : Nat) := by
        change ¬ c.toInt = 102
        omega
      simp only [List.length_cons] at hlen
      have htail := ih (fun d hd => hdigits d (by simp [hd])) (buffer ++ [c])
        (by simp only [List.length_append, List.length_singleton]; omega) (by simpa using hnum)
      rw [List.cons_append, scan, if_neg hf, if_neg (by omega), htail]
      simp

/-- Reading a function header. -/
theorem scan_functionHeader {n : Nat} (hn : n < 2 ^ 31) (st : ScanState) :
    scan .main (Int8.ofNat (ord '#') :: Int8.ofNat (ord 'f') ::
      (digitBytes n ++ [Int8.ofNat (ord 'f')])) st = .ok { st with fnNo := n } := by
  have hlen := length_digitBytes hn
  cases hdigits : digitBytes n with
  | nil => simp [hdigits] at hlen
  | cons c digits =>
      have hall : ∀ d ∈ c :: digits, 48 ≤ d.toInt ∧ d.toInt ≤ 57 := by
        intro d hd
        exact toInt_digitBytes (hdigits ▸ hd)
      have hc : isDigit c = true := by
        have := hall c (by simp)
        simp only [isDigit, Bool.and_eq_true, decide_eq_true_eq]
        exact this
      have hnum : atoi ([c] ++ digits) = n := by
        rw [List.singleton_append, ← hdigits]
        exact atoi_digitBytes hn
      rw [hdigits, List.length_cons] at hlen
      rw [scan, if_pos (by decide), if_neg (by simp), scan, if_pos (by decide), List.cons_append,
        scan, if_pos hc, scan_fnDigits (fun d hd => hall d (by simp [hd])) [c] [] st
          (by simp only [List.length_singleton]; omega) (by rw [hnum]; omega), hnum]
      rfl

/-- Reading a kind header. -/
theorem scan_kindHeader {kind : Nat} (hkind : kind ≤ 22) (st : ScanState) :
    scan .main [Int8.ofNat (ord '#'), Int8.ofNat (ord 'c'), Int8.ofNat (optionChar kind)] st =
      .ok { st with curOCKind := .ofNumber kind } := by
  rw [scan, if_pos (by decide), if_neg (by simp), scan, if_neg (by decide), if_pos (by decide),
    scan]
  change (if isValidControlChar OptimisticChoiceKind.count (Int8.ofNat (48 + kind)) = true then
    scan .main [] { st with
      curOCKind := getOptimisticChoiceKindForControlChar (Int8.ofNat (48 + kind)) } else _) = _
  rw [if_pos (isValidControlChar_kind hkind), getOptimisticChoiceKindForControlChar_kind hkind]
  rfl

/-- No byte of a value is a `#`. -/
theorem toInt_valueByte {v : Nat} {bytes : List Nat} (h : fsencodeChar (optionChar v) = some bytes)
    {byte : Nat} (hbyte : byte ∈ bytes) : (Int8.ofNat byte).toInt ≠ (ord '#' : Nat) := by
  have hrange : 48 ≤ byte ∧ byte < 256 := by
    cases fsencodeChar_cases h with
    | inl hlow =>
        obtain ⟨hlt, rfl⟩ := hlow
        obtain rfl := List.mem_singleton.mp hbyte
        exact ⟨Nat.le_add_right 48 v, by omega⟩
    | inr hhigh =>
        have := hhigh.2.2 byte hbyte
        omega
  change (Int8.ofNat byte).toInt ≠ 35
  have hsize : Int8.size = 256 := rfl
  rw [Int8.toInt_ofNat']
  intro hhash
  rw [Int.bmod_def, hsize] at hhash
  split at hhash <;> omega

/-- Reading value bytes behind headers for a function and a kind. -/
theorem scan_values {bytes : List Nat} (st : ScanState)
    (hbytes : ∀ byte ∈ bytes, (Int8.ofNat byte).toInt ≠ (ord '#' : Nat)) (hfn : 0 ≤ st.fnNo)
    (hkind : st.curOCKind.IsChoice) :
    scan .main (bytes.map Int8.ofNat) st = .ok { st with
      choiceMaps := st.choiceMaps.append st.curOCKind st.fnNo.toNat
        (bytes.map fun byte => getControlCharChoice (Int8.ofNat byte)) } := by
  induction bytes generalizing st with
  | nil => simp [scan]
  | cons byte bytes ih =>
      have htail := ih (st.push (Int8.ofNat byte)) (fun b hb => hbytes b (by simp [hb])) hfn hkind
      rw [List.map_cons, scan, if_neg (hbytes byte (by simp)), if_neg (by omega),
        if_neg (by simpa using hkind), htail]
      simp [ScanState.push, ChoiceMaps.append_append]

/-! ### Reading an encoding -/

/-- What the annotator last switched to is what the tuner last wrote. -/
structure Synced (lastFunctionNo lastOpportunityNo : Int) (st : ScanState) : Prop where
  function : lastFunctionNo = -1 ∨ st.fnNo = lastFunctionNo
  kind : lastOpportunityNo = -1 ∨ st.curOCKind = .ofNumber lastOpportunityNo.toNat

theorem fsencode_functionHeader (n : Nat) :
    fsencode ([ord '#', ord 'f'] ++ str n ++ [ord 'f']) =
      some (Int8.ofNat (ord '#') :: Int8.ofNat (ord 'f') ::
        (digitBytes n ++ [Int8.ofNat (ord 'f')])) := by
  rw [fsencode_ascii]
  · simp [digitBytes]
  · intro c hc
    simp only [str_natCast, List.mem_append, List.mem_cons, List.not_mem_nil, or_false,
      List.mem_map] at hc
    rcases hc with (hc | ⟨d, hd, rfl⟩) | hc
    · have h35 : ord '#' = 35 := rfl
      have h102 : ord 'f' = 102 := rfl
      omega
    · have := digit_code hd
      omega
    · have h102 : ord 'f' = 102 := rfl
      omega

theorem fsencode_kindHeader {kind : Nat} (hkind : kind ≤ 22) :
    fsencode [ord '#', ord 'c', optionChar kind] =
      some [Int8.ofNat (ord '#'), Int8.ofNat (ord 'c'), Int8.ofNat (optionChar kind)] := by
  rw [fsencode_ascii]
  · rfl
  · intro c hc
    simp only [List.mem_cons, List.not_mem_nil, or_false] at hc
    have h35 : ord '#' = 35 := rfl
    have h99 : ord 'c' = 99 := rfl
    have hchar : optionChar kind = 48 + kind := rfl
    omega

/-- Reading the header of a choice. -/
theorem scan_header {f k : Int} {st : ScanState} {oc : OptimisticChoice} (hsync : Synced f k st)
    (hoc : oc.Codable) :
    ∃ bytes, fsencode (header f k oc) = some bytes ∧ scan .main bytes st =
      .ok ⟨oc.functionNo, .ofNumber oc.opportunityNo.toNat, st.choiceMaps⟩ := by
  obtain ⟨n, hn⟩ := Int.eq_ofNat_of_zero_le hoc.functionNo_nonneg
  have hnonneg : 0 ≤ oc.opportunityNo := by linarith [hoc.one_le_kind]
  obtain ⟨kind, hkind⟩ := Int.eq_ofNat_of_zero_le hnonneg
  have hn31 : n < 2 ^ 31 := by have := hoc.functionNo_lt; omega
  have hkind22 : kind ≤ 22 := by have := hoc.kind_le; omega
  have hkindPos : 1 ≤ kind := by have := hoc.one_le_kind; omega
  -- First the function, then the kind.
  have hfunction : ∃ bytes, fsencode (if f ≠ oc.functionNo then
      [ord '#', ord 'f'] ++ str oc.functionNo ++ [ord 'f'] else []) = some bytes ∧
      scan .main bytes st = .ok { st with fnNo := oc.functionNo } := by
    by_cases hsame : f = oc.functionNo
    · refine ⟨[], by simp [hsame, fsencode], ?_⟩
      have hfn : st.fnNo = oc.functionNo := by
        rcases hsync.function with hnone | hlast
        · omega
        · rw [hlast, hsame]
      rw [scan, ← hfn]
    · rw [if_pos hsame, hn]
      exact ⟨_, fsencode_functionHeader n, scan_functionHeader hn31 st⟩
  have hopportunity : ∃ bytes, fsencode (if k ≠ oc.opportunityNo then
      [ord '#', ord 'c', optionChar oc.opportunityNo.toNat] else []) = some bytes ∧
      ∀ st' : ScanState, st'.curOCKind = st.curOCKind → scan .main bytes st' =
        .ok { st' with curOCKind := .ofNumber oc.opportunityNo.toNat } := by
    by_cases hsame : k = oc.opportunityNo
    · refine ⟨[], by simp [hsame, fsencode], ?_⟩
      intro st' hst'
      have hcur : st.curOCKind = .ofNumber oc.opportunityNo.toNat := by
        rcases hsync.kind with hnone | hlast
        · omega
        · rw [hlast, hsame]
      rw [scan, ← hcur, ← hst']
    · rw [if_pos hsame, hkind, Int.toNat_natCast]
      exact ⟨_, fsencode_kindHeader hkind22, fun st' _ => scan_kindHeader hkind22 st'⟩
  obtain ⟨front, hfront, hscanFront⟩ := hfunction
  obtain ⟨back, hback, hscanBack⟩ := hopportunity
  refine ⟨front ++ back, fsencode_append hfront hback, ?_⟩
  rw [scan_append hscanFront]
  exact hscanBack { st with fnNo := oc.functionNo } rfl

/-- Reading a choice. -/
theorem scan_choice {f k : Int} {st : ScanState} {oc : OptimisticChoice} (hsync : Synced f k st)
    (hoc : oc.Codable) (hvalue : oc.Encodable) :
    ∃ bytes, fsencode (header f k oc ++ [optionChar oc.value]) = some bytes ∧
      scan .main bytes st = .ok ⟨oc.functionNo, .ofNumber oc.opportunityNo.toNat,
        st.choiceMaps.extend [oc]⟩ := by
  obtain ⟨front, hfront, hscan⟩ := scan_header hsync hoc
  obtain ⟨bytes, hbytes⟩ := Option.isSome_iff_exists.mp hvalue
  have hback : fsencode [optionChar oc.value] = some (bytes.map Int8.ofNat) := by
    simp [fsencode, hbytes]
  refine ⟨front ++ bytes.map Int8.ofNat, fsencode_append hfront hback, ?_⟩
  have hkind : (OptimisticChoiceKind.ofNumber oc.opportunityNo.toNat).IsChoice :=
    OptimisticChoiceKind.isChoice_ofNumber (by have := hoc.one_le_kind; omega)
      (by have := hoc.kind_le; omega)
  rw [scan_append hscan, scan_values _ (fun byte => toInt_valueByte hbytes)
    hoc.functionNo_nonneg hkind, ChoiceMaps.extend_singleton _ hoc]
  simp [entries, hbytes]

/-- Reading the encoding of choices leaves their values in the maps. -/
theorem scan_encode {f k : Int} {st : ScanState} {ocs : List OptimisticChoice}
    (hsync : Synced f k st) (hocs : ∀ oc ∈ ocs, oc.Codable) (hvalues : ∀ oc ∈ ocs, oc.Encodable) :
    ∃ bytes st', fsencode (encode f k ocs) = some bytes ∧ scan .main bytes st = .ok st' ∧
      st'.choiceMaps = st.choiceMaps.extend ocs := by
  induction ocs generalizing f k st with
  | nil => exact ⟨[], st, rfl, rfl, by simp⟩
  | cons oc ocs ih =>
      obtain ⟨front, hfront, hscan⟩ := scan_choice hsync (hocs oc (by simp)) (hvalues oc (by simp))
      have hsync' : Synced oc.functionNo oc.opportunityNo
          ⟨oc.functionNo, .ofNumber oc.opportunityNo.toNat, st.choiceMaps.extend [oc]⟩ :=
        ⟨.inr rfl, .inr rfl⟩
      obtain ⟨back, st', hback, hscan', hmaps⟩ := ih hsync' (fun o ho => hocs o (by simp [ho]))
        (fun o ho => hvalues o (by simp [ho]))
      refine ⟨front ++ back, st', ?_, ?_, ?_⟩
      · have := fsencode_append hfront hback
        simpa [encode] using this
      · rw [scan_append hscan, hscan']
      · rw [hmaps, ← ChoiceMaps.extend_append]
        rfl

/-- The codec: appending choices to a string that decodes extends what it
decodes to. The headers of the first choice are always written, so it does not
matter what the string was last switched to. -/
theorem decode_layout {maps maps' : ChoiceMaps} {s : Str} (hs : decode maps s = .ok maps')
    {ocs : List OptimisticChoice} (hocs : ∀ oc ∈ ocs, oc.Codable)
    (hvalues : ∀ oc ∈ ocs, oc.Encodable) :
    decode maps (layout s ocs) = .ok (maps'.extend ocs) := by
  rw [decode] at hs
  cases hfront : fsencode s with
  | none => simp [hfront] at hs
  | some front =>
      simp only [hfront] at hs
      cases hscan : scan .main front (.initial maps) with
      | error fault => simp [hscan, Except.map] at hs
      | ok st =>
          obtain rfl : st.choiceMaps = maps' := by simpa [hscan, Except.map] using hs
          have hsync : Synced (-1) (-1) st := ⟨.inl rfl, .inl rfl⟩
          obtain ⟨back, st', hback, hscan', hmaps⟩ := scan_encode hsync hocs hvalues
          rw [decode, layout, fsencode_append hfront hback]
          simp [scan_append hscan, hscan', hmaps, Except.map]

end Petospa
