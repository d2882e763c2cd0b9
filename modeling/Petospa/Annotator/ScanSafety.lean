import Petospa.Annotator.ControlString

/-!
# Strings that the command-line scan gets through

Behind a `#` the scan checks once that two more characters follow. The loop over
a function number has no such check: it ends at the next `f`, or when the buffer
is full in front of a write. A number of 20 characters leaves no room for its
terminator, and one that ends with the string is read on behind it.
-/

namespace Petospa

open Text

/-- A run that finishes or stops at a check of its own. -/
def StopsSafely {α : Type} (r : Except Fault α) : Prop :=
  ∀ fault, r = .error fault → fault = .assertion ∨ fault = .unreachable

theorem stopsSafely_ok {α : Type} (a : α) : StopsSafely (.ok a : Except Fault α) := by
  intro fault h
  cases h

@[simp] theorem stopsSafely_error {α : Type} (fault : Fault) :
    StopsSafely (.error fault : Except Fault α) ↔ fault = .assertion ∨ fault = .unreachable := by
  constructor
  · intro h
    exact h fault rfl
  · rintro h _ ⟨⟩
    exact h

/-! ### The language of control strings -/

def hash : CChar := Int8.ofNat (ord '#')

def letterF : CChar := Int8.ofNat (ord 'f')

def letterC : CChar := Int8.ofNat (ord 'c')

theorem toInt_eq_hash {c : CChar} : c.toInt = (ord '#' : Nat) ↔ c = hash :=
  ⟨fun h => Int8.toInt_inj.mp h, fun h => h ▸ rfl⟩

theorem toInt_eq_letterF {c : CChar} : c.toInt = (ord 'f' : Nat) ↔ c = letterF :=
  ⟨fun h => Int8.toInt_inj.mp h, fun h => h ▸ rfl⟩

theorem toInt_eq_letterC {c : CChar} : c.toInt = (ord 'c' : Nat) ↔ c = letterC :=
  ⟨fun h => Int8.toInt_inj.mp h, fun h => h ▸ rfl⟩

/-- What values need: a function number and a kind in front of them. -/
structure Headers where
  named : Bool
  chosen : Bool

/-- A piece of a control string that passes all checks, with the headers that are
set in front of it and behind it. -/
inductive Accepts : Headers → List CChar → Headers → Prop where
  | nil (hs : Headers) : Accepts hs [] hs
  | value {c : CChar} {rest : List CChar} {hs : Headers} (hc : c ≠ hash)
      (hrest : Accepts ⟨true, true⟩ rest hs) : Accepts ⟨true, true⟩ (c :: rest) hs
  | kind {c : CChar} {rest : List CChar} {hs hs' : Headers}
      (hc : isValidControlChar OptimisticChoiceKind.count c = true)
      (hrest : Accepts
        ⟨hs.named, decide (getOptimisticChoiceKindForControlChar c).IsChoice⟩ rest hs') :
      Accepts hs (hash :: letterC :: c :: rest) hs'
  | number {d : CChar} {ds rest : List CChar} {hs hs' : Headers} (hd : isDigit d = true)
      (hds : letterF ∉ ds) (hlength : ds.length + 1 < 20) (hnumber : 0 ≤ atoi (d :: ds))
      (hrest : Accepts ⟨true, hs.chosen⟩ rest hs') :
      Accepts hs (hash :: letterF :: d :: (ds ++ letterF :: rest)) hs'

/-- The characters behind the first one of a function number: there is room for
the terminator if the number ends, and the buffer is full in time if it does not. -/
def NumberFits (ds : List CChar) : Prop :=
  if letterF ∈ ds then (ds.takeWhile fun c => decide (c ≠ letterF)).length + 1 ≠ 20
  else 20 ≤ ds.length + 1

/-! ### Function numbers -/

variable {st st' : ScanState} {buffer ds rest : List CChar}

theorem length_append_cons (buffer ds : List CChar) (c : CChar) :
    (buffer ++ [c]).length + ds.length = buffer.length + (c :: ds).length := by
  simp only [List.length_append, List.length_cons, List.length_nil]
  omega

/-- Another character of a function number. -/
theorem scan_fnDigits_cons {c : CChar} (hc : c ≠ letterF) :
    scan (.fnDigits buffer) (c :: ds) st =
      if buffer.length = 20 then .error .assertion
      else scan (.fnDigits (buffer ++ [c])) ds st := by
  rw [scan, if_neg (fun h => hc (toInt_eq_letterF.mp h))]

theorem scan_fnDigits_letterF (hds : letterF ∉ ds) (hbuffer : buffer.length ≤ 20) :
    scan (.fnDigits buffer) (ds ++ letterF :: rest) st =
      if 20 < buffer.length + ds.length then .error .assertion
      else if buffer.length + ds.length = 20 then .error .bufferOverflow
      else if atoi (buffer ++ ds) < 0 then .error .assertion
      else scan .main rest { st with fnNo := atoi (buffer ++ ds) } := by
  induction ds generalizing buffer with
  | nil =>
      have hlt : ¬ 20 < buffer.length := by omega
      rw [List.nil_append, scan, if_pos (toInt_eq_letterF.mpr rfl)]
      simp [hlt]
  | cons c ds ih =>
      obtain ⟨hc, hds⟩ := not_or.mp (mt List.mem_cons.mpr hds)
      rw [List.cons_append, scan_fnDigits_cons (Ne.symm hc)]
      by_cases hfull : buffer.length = 20
      · have hover : 20 < buffer.length + (c :: ds).length := by
          rw [List.length_cons]
          omega
        rw [if_pos hfull, if_pos hover]
      · have hroom : (buffer ++ [c]).length ≤ 20 := by
          rw [List.length_append, List.length_singleton]
          omega
        rw [if_neg hfull, ih hds hroom, length_append_cons, List.append_assoc,
          List.singleton_append]

/-- A number that nothing ends. -/
theorem scan_fnDigits_cutOff (hds : letterF ∉ ds) (hbuffer : buffer.length ≤ 20) :
    scan (.fnDigits buffer) ds st =
      if 20 ≤ buffer.length + ds.length then .error .assertion else .error .outOfBounds := by
  induction ds generalizing buffer with
  | nil =>
      rw [scan]
      by_cases hfull : buffer.length = 20
      · rw [if_pos hfull, if_pos (by omega)]
      · rw [if_neg hfull, if_neg (by rw [List.length_nil]; omega)]
  | cons c ds ih =>
      obtain ⟨hc, hds⟩ := not_or.mp (mt List.mem_cons.mpr hds)
      rw [scan_fnDigits_cons (Ne.symm hc)]
      by_cases hfull : buffer.length = 20
      · rw [if_pos hfull, if_pos (by omega)]
      · have hroom : (buffer ++ [c]).length ≤ 20 := by
          rw [List.length_append, List.length_singleton]
          omega
        rw [if_neg hfull, ih hds hroom, length_append_cons]

theorem numberFits_terminated (hds : letterF ∉ ds) :
    NumberFits (ds ++ letterF :: rest) ↔ ds.length + 1 ≠ 20 := by
  have htake : (ds ++ letterF :: rest).takeWhile (fun c => decide (c ≠ letterF)) = ds := by
    rw [List.takeWhile_append_of_pos, List.takeWhile_cons_of_neg (by simp), List.append_nil]
    intro c hc
    exact decide_eq_true fun h => hds (h ▸ hc)
  have hmem : letterF ∈ ds ++ letterF :: rest :=
    List.mem_append_right ds (List.mem_cons_self ..)
  rw [NumberFits, if_pos hmem, htake]

theorem numberFits_cutOff (hds : letterF ∉ ds) : NumberFits ds ↔ 20 ≤ ds.length + 1 := by
  rw [NumberFits, if_neg hds]

/-- Either a number ends or the string does. -/
theorem terminated_or_cutOff (s : List CChar) :
    (∃ ds rest, s = ds ++ letterF :: rest ∧ letterF ∉ ds) ∨ letterF ∉ s := by
  by_cases h : letterF ∈ s
  · obtain ⟨ds, rest, hs, hds⟩ := List.eq_append_cons_of_mem h
    exact .inl ⟨ds, rest, hs, hds⟩
  · exact .inr h

/-! ### One pass through the loop body -/

theorem scan_value {c : CChar} (hc : c ≠ hash) (hfnNo : 0 ≤ st.fnNo)
    (hkind : st.curOCKind.IsChoice) :
    scan .main (c :: rest) st = scan .main rest (st.push c) := by
  have hc : ¬ c.toInt = (ord '#' : Nat) := fun h => hc (toInt_eq_hash.mp h)
  rw [scan, if_neg hc, if_neg (by omega), if_neg (not_not.mpr hkind)]

theorem scan_letterF {d : CChar} :
    scan .main (hash :: letterF :: d :: ds) st =
      if isDigit d then scan (.fnDigits [d]) ds st else .error .assertion := by
  have hlong : ¬ (letterF :: d :: ds).length < 2 := by simp
  rw [scan, if_pos (toInt_eq_hash.mpr rfl), if_neg hlong, scan,
    if_pos (toInt_eq_letterF.mpr rfl), scan]

theorem scan_letterC {c : CChar} :
    scan .main (hash :: letterC :: c :: rest) st =
      if isValidControlChar OptimisticChoiceKind.count c then
        scan .main rest { st with curOCKind := getOptimisticChoiceKindForControlChar c }
      else .error .assertion := by
  have hlong : ¬ (letterC :: c :: rest).length < 2 := by simp
  have hneq : ¬ letterC.toInt = (ord 'f' : Nat) := by decide
  rw [scan, if_pos (toInt_eq_hash.mpr rfl), if_neg hlong, scan, if_neg hneq,
    if_pos (toInt_eq_letterC.mpr rfl), scan]

theorem scan_unknown {c c' : CChar} (hf : c ≠ letterF) (hc : c ≠ letterC) :
    scan .main (hash :: c :: c' :: rest) st = .error .unreachable := by
  have hlong : ¬ (c :: c' :: rest).length < 2 := by simp
  rw [scan, if_pos (toInt_eq_hash.mpr rfl), if_neg hlong, scan,
    if_neg (fun h => hf (toInt_eq_letterF.mp h)), if_neg (fun h => hc (toInt_eq_letterC.mp h))]

theorem scan_number {d : CChar} (hd : isDigit d = true) (hds : letterF ∉ ds) :
    scan .main (hash :: letterF :: d :: (ds ++ letterF :: rest)) st =
      if 20 < ds.length + 1 then .error .assertion
      else if ds.length + 1 = 20 then .error .bufferOverflow
      else if atoi (d :: ds) < 0 then .error .assertion
      else scan .main rest { st with fnNo := atoi (d :: ds) } := by
  have hlength : [d].length + ds.length = ds.length + 1 := by
    rw [List.length_singleton, Nat.add_comm]
  rw [scan_letterF, if_pos hd, scan_fnDigits_letterF hds (by simp), hlength,
    List.singleton_append]

theorem scan_cutOff {d : CChar} (hd : isDigit d = true) (hds : letterF ∉ ds) :
    scan .main (hash :: letterF :: d :: ds) st =
      if 20 ≤ ds.length + 1 then .error .assertion else .error .outOfBounds := by
  have hlength : [d].length + ds.length = ds.length + 1 := by
    rw [List.length_singleton, Nat.add_comm]
  rw [scan_letterF, if_pos hd, scan_fnDigits_cutOff hds (by simp), hlength]

/-! ### Pieces that pass -/

/-- The headers a scan has seen. -/
structure Headers.Describe (hs : Headers) (st : ScanState) : Prop where
  named : hs.named = true ↔ 0 ≤ st.fnNo
  chosen : hs.chosen = true ↔ st.curOCKind.IsChoice

theorem describe_initial (maps : ChoiceMaps) :
    Headers.Describe ⟨false, false⟩ (.initial maps) :=
  ⟨by simp [ScanState.initial], by simp [ScanState.initial, OptimisticChoiceKind.IsChoice]⟩

variable {hs hs' : Headers} {front : List CChar}

theorem scan_accepts (h : Accepts hs front hs') (hst : hs.Describe st) :
    ∃ st', hs'.Describe st' ∧
      ∀ back, scan .main (front ++ back) st = scan .main back st' := by
  induction h generalizing st with
  | nil hs => exact ⟨st, hst, fun _ => rfl⟩
  | value hc hrest ih =>
      rename_i c rest hs
      have hpush : Headers.Describe ⟨true, true⟩ (st.push c) := ⟨hst.named, hst.chosen⟩
      obtain ⟨st', hst', hscan⟩ := ih hpush
      refine ⟨st', hst', ?_⟩
      intro back
      rw [List.cons_append, scan_value hc (hst.named.mp rfl) (hst.chosen.mp rfl)]
      exact hscan back
  | kind hc hrest ih =>
      rename_i c rest hs hs'
      have hkind : Headers.Describe
          ⟨hs.named, decide (getOptimisticChoiceKindForControlChar c).IsChoice⟩
          { st with curOCKind := getOptimisticChoiceKindForControlChar c } :=
        ⟨hst.named, decide_eq_true_iff⟩
      obtain ⟨st', hst', hscan⟩ := ih hkind
      refine ⟨st', hst', ?_⟩
      intro back
      rw [List.cons_append, List.cons_append, List.cons_append, scan_letterC, if_pos hc]
      exact hscan back
  | number hd hds hlength hnumber hrest ih =>
      rename_i d ds rest hs hs'
      have hnamed : Headers.Describe ⟨true, hs.chosen⟩ { st with fnNo := atoi (d :: ds) } :=
        ⟨by simpa using hnumber, hst.chosen⟩
      obtain ⟨st', hst', hscan⟩ := ih hnamed
      refine ⟨st', hst', ?_⟩
      intro back
      rw [List.cons_append, List.cons_append, List.cons_append, List.append_assoc,
        List.cons_append, scan_number hd hds, if_neg (by omega), if_neg (by omega),
        if_neg (by omega)]
      exact hscan back

/-! ### Where the scan is unsafe -/

theorem not_stopsSafely_number {d : CChar} (hd : isDigit d = true) (h : ¬ NumberFits ds) :
    ¬ StopsSafely (scan .main (hash :: letterF :: d :: ds) st) := by
  rcases terminated_or_cutOff ds with ⟨ds, rest, rfl, hds⟩ | hds
  · have hfull : ds.length + 1 = 20 := not_not.mp (mt (numberFits_terminated hds).mpr h)
    rw [scan_number hd hds, if_neg (by omega), if_pos hfull]
    simp
  · have hshort : ¬ 20 ≤ ds.length + 1 := mt (numberFits_cutOff hds).mpr h
    rw [scan_cutOff hd hds, if_neg hshort]
    simp

/-- The scan gets to a function number that does not fit. -/
def ReachesMisfit (hs : Headers) (s : List CChar) : Prop :=
  ∃ front d ds hs', s = front ++ hash :: letterF :: d :: ds ∧ Accepts hs front hs' ∧
    isDigit d = true ∧ ¬ NumberFits ds

theorem ReachesMisfit.value {c : CChar} (hc : c ≠ hash)
    (h : ReachesMisfit ⟨true, true⟩ rest) : ReachesMisfit ⟨true, true⟩ (c :: rest) := by
  obtain ⟨front, d, ds, hs', rfl, hfront, hd, hfits⟩ := h
  exact ⟨c :: front, d, ds, hs', rfl, .value hc hfront, hd, hfits⟩

theorem ReachesMisfit.kind {c : CChar}
    (hc : isValidControlChar OptimisticChoiceKind.count c = true)
    (h : ReachesMisfit
      ⟨hs.named, decide (getOptimisticChoiceKindForControlChar c).IsChoice⟩ rest) :
    ReachesMisfit hs (hash :: letterC :: c :: rest) := by
  obtain ⟨front, d, ds, hs', rfl, hfront, hd, hfits⟩ := h
  exact ⟨hash :: letterC :: c :: front, d, ds, hs', rfl, .kind hc hfront, hd, hfits⟩

theorem ReachesMisfit.number {d : CChar} (hd : isDigit d = true) (hds : letterF ∉ ds)
    (hlength : ds.length + 1 < 20) (hnumber : 0 ≤ atoi (d :: ds))
    (h : ReachesMisfit ⟨true, hs.chosen⟩ rest) :
    ReachesMisfit hs (hash :: letterF :: d :: (ds ++ letterF :: rest)) := by
  obtain ⟨front, d', ds', hs', rfl, hfront, hd', hfits⟩ := h
  refine ⟨hash :: letterF :: d :: (ds ++ letterF :: front), d', ds', hs', ?_,
    .number hd hds hlength hnumber hfront, hd', hfits⟩
  simp only [List.cons_append, List.append_assoc]

/-- From a number on, an unsafe scan reaches a misfit if the scan of what follows
the number does. -/
theorem reachesMisfit_number {d : CChar} {s : List CChar} (hst : hs.Describe st)
    (h : ¬ StopsSafely (scan .main (hash :: letterF :: d :: s) st))
    (ih : ∀ (rest : List CChar) (hs : Headers) (st : ScanState), rest.length < s.length →
      hs.Describe st → ¬ StopsSafely (scan .main rest st) → ReachesMisfit hs rest) :
    ReachesMisfit hs (hash :: letterF :: d :: s) := by
  have hd : isDigit d = true := by
    by_contra hd
    rw [scan_letterF, if_neg hd] at h
    simp at h
  by_cases hfits : NumberFits s
  · rcases terminated_or_cutOff s with ⟨ds, rest, rfl, hds⟩ | hds
    · have hfull : ds.length + 1 ≠ 20 := (numberFits_terminated hds).mp hfits
      rw [scan_number hd hds, if_neg hfull] at h
      split at h
      · simp at h
      · split at h
        · simp at h
        · rename_i hlength hnumber
          have hnumber : 0 ≤ atoi (d :: ds) := Int.not_lt.mp hnumber
          refine .number hd hds (by omega) hnumber (ih rest _ _ ?_ ?_ h)
          · simp only [List.length_append, List.length_cons]
            omega
          · exact ⟨by simpa using hnumber, hst.chosen⟩
    · rw [scan_cutOff hd hds, if_pos ((numberFits_cutOff hds).mp hfits)] at h
      simp at h
  · exact ⟨[], d, s, hs, rfl, .nil hs, hd, hfits⟩

/-- An unsafe scan gets safely up to a function number that does not fit. -/
theorem reachesMisfit_of_not_stopsSafely {s : List CChar} (hst : hs.Describe st)
    (h : ¬ StopsSafely (scan .main s st)) : ReachesMisfit hs s := by
  induction hlength : s.length using Nat.strong_induction_on generalizing s st hs with
  | _ n ih =>
    have ih : ∀ (rest : List CChar) (hs : Headers) (st : ScanState), rest.length < s.length →
        hs.Describe st → ¬ StopsSafely (scan .main rest st) → ReachesMisfit hs rest := by
      intro rest hs st hshorter hst h
      exact ih rest.length (hlength ▸ hshorter) hst h rfl
    cases s with
    | nil =>
        rw [scan] at h
        exact absurd (stopsSafely_ok st) h
    | cons c rest =>
        by_cases hc : c = hash
        · subst hc
          obtain _ | ⟨c', _ | ⟨c'', rest⟩⟩ := rest
          · simp [scan, toInt_eq_hash] at h
          · simp [scan, toInt_eq_hash] at h
          by_cases hf : c' = letterF
          · subst hf
            refine reachesMisfit_number hst h ?_
            intro back hs st hshorter
            exact ih back hs st (by simp only [List.length_cons]; omega)
          by_cases hc : c' = letterC
          · subst hc
            rw [scan_letterC] at h
            split at h
            · rename_i hvalid
              refine .kind hvalid (ih rest _ _ ?_ ?_ h)
              · simp only [List.length_cons]
                omega
              · exact ⟨hst.named, decide_eq_true_iff⟩
            · simp at h
          · rw [scan_unknown hf hc] at h
            simp at h
        · rw [scan, if_neg (fun h => hc (toInt_eq_hash.mp h))] at h
          split at h
          · simp at h
          · split at h
            · simp at h
            · rename_i hfnNo hkind
              obtain ⟨named, chosen⟩ := hs
              obtain rfl : named = true := hst.named.mpr (Int.not_lt.mp hfnNo)
              obtain rfl : chosen = true := hst.chosen.mpr (not_not.mp hkind)
              exact .value hc (ih rest _ (st.push c) (by simp) ⟨hst.named, hst.chosen⟩ h)

/-- Every function number that the scan gets to fits. -/
def NumbersFit (s : List CChar) : Prop :=
  ∀ front d ds hs, s = front ++ hash :: letterF :: d :: ds →
    Accepts ⟨false, false⟩ front hs → isDigit d = true → NumberFits ds

theorem scan_stopsSafely_iff (maps : ChoiceMaps) (s : List CChar) :
    StopsSafely (scan .main s (.initial maps)) ↔ NumbersFit s := by
  constructor
  · rintro hsafe front d ds hs rfl hfront hd
    obtain ⟨st, -, hscan⟩ := scan_accepts hfront (describe_initial maps)
    rw [hscan] at hsafe
    by_contra h
    exact not_stopsSafely_number hd h hsafe
  · intro h
    by_contra hunsafe
    obtain ⟨front, d, ds, hs, hs', hfront, hd, hfits⟩ :=
      reachesMisfit_of_not_stopsSafely (describe_initial maps) hunsafe
    exact hfits (h front d ds hs hs' hfront hd)

example :
    scan .main (hash :: letterF :: (List.replicate 20 (Int8.ofNat (ord '1')) ++ [letterF]))
      (.initial .empty) = .error .bufferOverflow := rfl

end Petospa
