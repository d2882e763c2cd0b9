import Petospa.Annotator.ControlString
import Petospa.Tuner.Explorer

/-!
# Embedded annotation strings

An embedded string is a list of groups: a kind header and the characters of the
values of that kind. The embedded loop of the annotator reads the groups of a
string one after the other, up to the NUL of the literal.
-/

namespace Petospa

open Text

/-- A group of seven-bit values, of a kind that the annotator reads. -/
structure ValidGroup (g : Int × Str) : Prop where
  one_le_kind : 1 ≤ g.1
  kind_le : g.1 ≤ 22
  chars : ∀ c ∈ g.2, 48 ≤ c ∧ c < 128

def encodeGroups (gs : List (Int × Str)) : Str :=
  gs.flatMap fun g => [ord '#', ord 'c', optionChar g.1.toNat] ++ g.2

/-- The entries that the characters of a kind leave. -/
def charEntries (cs : Str) : List Nat := cs.map (· - 47)

/-- The entries of all groups of a kind. -/
def groupEntries (kind : OptimisticChoiceKind) (gs : List (Int × Str)) : List Nat :=
  (gs.filter fun g => g.1 = (kind.number : Int)).flatMap fun g => charEntries g.2

/-- What the annotator reads for a function, given its string if it has one; the
literal ends with a NUL. -/
def decodeEmbedded (fnNo : Nat) : Option Str → Except Fault ChoiceMaps
  | none => .ok .empty
  | some cs =>
      match fsencode cs with
      | none => .error .encoding
      | some bytes => scanEmbedded fnNo .main (bytes ++ [0]) .first .empty

variable {fnNo : Nat} {curOCKind : OptimisticChoiceKind} {maps : ChoiceMaps} {rest : List CChar}

/-- Bytes other than `#` are pushed one after the other. -/
theorem scanEmbedded_bytes {bytes : List Nat}
    (hbytes : ∀ byte ∈ bytes, (Int8.ofNat byte).toInt ≠ (ord '#' : Nat)) (hrest : rest ≠ []) :
    scanEmbedded fnNo .main (bytes.map Int8.ofNat ++ rest) curOCKind maps =
      scanEmbedded fnNo .main rest curOCKind (maps.append curOCKind fnNo
        (bytes.map fun byte => getControlCharChoice (Int8.ofNat byte))) := by
  induction bytes generalizing maps with
  | nil => simp
  | cons byte bytes ih =>
      rw [List.map_cons, List.cons_append, scanEmbedded, if_neg (by simp [hrest]),
        if_neg (hbytes byte List.mem_cons_self),
        ih fun b hb => hbytes b (List.mem_cons_of_mem _ hb), ChoiceMaps.append_append]
      rfl

theorem scanEmbedded_kindHeader {kind : Nat} (hkind : kind ≤ 22) :
    scanEmbedded fnNo .main
      ([ord '#', ord 'c', optionChar kind].map Int8.ofNat ++ rest) curOCKind maps =
      scanEmbedded fnNo .main rest (.ofNumber kind) maps := by
  have hlen : ¬ (Int8.ofNat (ord 'c') :: Int8.ofNat (48 + kind) :: rest).length < 2 := by simp
  change scanEmbedded fnNo .main (Int8.ofNat (ord '#') :: Int8.ofNat (ord 'c') ::
    Int8.ofNat (48 + kind) :: rest) curOCKind maps = _
  rw [scanEmbedded, if_neg (List.cons_ne_nil _ _), if_pos (by decide), if_neg hlen, scanEmbedded,
    if_pos (by decide), scanEmbedded, if_pos (isValidControlChar_kind hkind),
    getOptimisticChoiceKindForControlChar_kind hkind]

theorem scanEmbedded_values {cs : Str} (hcs : ∀ c ∈ cs, 48 ≤ c ∧ c < 128) (hrest : rest ≠ []) :
    scanEmbedded fnNo .main (cs.map Int8.ofNat ++ rest) curOCKind maps =
      scanEmbedded fnNo .main rest curOCKind (maps.append curOCKind fnNo (charEntries cs)) := by
  have hentries : (cs.map fun c => getControlCharChoice (Int8.ofNat c)) = charEntries cs := by
    refine List.map_congr_left fun c hc => ?_
    obtain ⟨v, rfl⟩ := Nat.exists_eq_add_of_le (hcs c hc).1
    have hlt := (hcs _ hc).2
    rw [getControlCharChoice_value (by omega)]
    omega
  rw [← hentries]
  refine scanEmbedded_bytes (fun c hc => ?_) hrest
  have hrange := hcs c hc
  rw [toInt_ofNat (by omega)]
  change (c : Int) ≠ 35
  omega

theorem scanEmbedded_group {g : Int × Str} (hg : ValidGroup g) (hrest : rest ≠ []) :
    scanEmbedded fnNo .main
      (([ord '#', ord 'c', optionChar g.1.toNat] ++ g.2).map Int8.ofNat ++ rest) curOCKind maps =
      scanEmbedded fnNo .main rest (.ofNumber g.1.toNat)
        (maps.append (.ofNumber g.1.toNat) fnNo (charEntries g.2)) := by
  have hkind : g.1.toNat ≤ 22 := by have := hg.kind_le; omega
  rw [List.map_append, List.append_assoc, scanEmbedded_kindHeader hkind,
    scanEmbedded_values hg.chars hrest]

/-- Reading the groups of a string leaves the entries of each kind. -/
theorem scanEmbedded_encodeGroups {gs : List (Int × Str)} (hgs : ∀ g ∈ gs, ValidGroup g) :
    scanEmbedded fnNo .main ((encodeGroups gs).map Int8.ofNat ++ [0]) curOCKind maps =
      .ok fun kind n => maps kind n ++ if n = fnNo then groupEntries kind gs else [] := by
  induction gs generalizing curOCKind maps with
  | nil =>
      rw [encodeGroups, List.flatMap_nil, List.map_nil, List.nil_append, scanEmbedded, if_pos rfl]
      simp [groupEntries]
  | cons g gs ih =>
      have hg := hgs g List.mem_cons_self
      rw [encodeGroups, List.flatMap_cons, List.map_append, List.append_assoc,
        scanEmbedded_group hg (by simp)]
      refine (ih fun g' hg' => hgs g' (List.mem_cons_of_mem _ hg')).trans (congrArg Except.ok ?_)
      funext kind n
      have hkind : kind = .ofNumber g.1.toNat ↔ g.1 = kind.number := by
        have hlow := hg.one_le_kind
        have hhigh := hg.kind_le
        constructor
        · rintro rfl
          rw [OptimisticChoiceKind.number_ofNumber (by omega)]
          omega
        · intro h
          rw [h, Int.toNat_natCast, OptimisticChoiceKind.ofNumber_number]
      by_cases hn : n = fnNo
      · by_cases hk : g.1 = kind.number
        · simp [ChoiceMaps.append, groupEntries, hn, hk]
        · simp [ChoiceMaps.append, groupEntries, hn, hk, hkind]
      · simp [ChoiceMaps.append, hn]

theorem mem_encodeGroups {gs : List (Int × Str)} (hgs : ∀ g ∈ gs, ValidGroup g) {c : Nat}
    (hc : c ∈ encodeGroups gs) :
    c = 35 ∨ c = 99 ∨ 48 ≤ c ∧ c ≤ 70 ∨ ∃ g ∈ gs, c ∈ g.2 := by
  obtain ⟨g, hg, hc⟩ := List.mem_flatMap.mp hc
  have hkind := (hgs g hg).kind_le
  rcases List.mem_append.mp hc with hc | hc
  · simp only [List.mem_cons, List.not_mem_nil, or_false] at hc
    have h35 : ord '#' = 35 := rfl
    have h99 : ord 'c' = 99 := rfl
    have hchar : optionChar g.1.toNat = 48 + g.1.toNat := rfl
    omega
  · exact .inr (.inr (.inr ⟨g, hg, hc⟩))

theorem lt_of_mem_encodeGroups {gs : List (Int × Str)} (hgs : ∀ g ∈ gs, ValidGroup g) {c : Nat}
    (hc : c ∈ encodeGroups gs) : c < 128 := by
  obtain rfl | rfl | hkind | ⟨g, hg, hvalue⟩ := mem_encodeGroups hgs hc
  · decide
  · decide
  · omega
  · exact ((hgs g hg).chars c hvalue).2

/-- The embedded codec. -/
theorem decodeEmbedded_encodeGroups {gs : List (Int × Str)} (hgs : ∀ g ∈ gs, ValidGroup g) :
    decodeEmbedded fnNo (some (encodeGroups gs)) =
      .ok fun kind n => if n = fnNo then groupEntries kind gs else [] := by
  have hascii : ∀ c ∈ encodeGroups gs, c < 128 := fun c hc => lt_of_mem_encodeGroups hgs hc
  simp only [decodeEmbedded, fsencode_ascii hascii]
  rw [scanEmbedded_encodeGroups hgs]
  simp [ChoiceMaps.empty]

theorem groupEntries_append (kind : OptimisticChoiceKind) (gs gs' : List (Int × Str)) :
    groupEntries kind (gs ++ gs') = groupEntries kind gs ++ groupEntries kind gs' := by
  simp [groupEntries]

end Petospa
