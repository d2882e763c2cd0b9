import Mathlib.Data.List.Basic
import Mathlib.Tactic.Ring

/-!
# Text, bytes and decimal numbers

A Python `str` is the list of its code points, a C string the list of its
`char`s. Both sides of a process boundary are kept apart: `fsencode` is the
UTF-8 conversion of an argument (with `surrogateescape`, as `os.fsencode` uses
it), and only its result is read as C++ `char`, which is signed here.
-/

namespace Text

/-- The code points of a Python `str`. -/
abbrev Str := List Nat

/-- A C++ `char`. -/
abbrev CChar := Int8

/-- `ord` of a literal character of the source. -/
abbrev ord (c : Char) : Nat := c.toNat

/-- A string literal of the source. -/
def lit (s : String) : Str := s.toList.map Char.toNat

/-- `str(n)` of a Python integer. -/
def str : Int → Str
  | .ofNat n => (Nat.toDigits 10 n).map Char.toNat
  | .negSucc n => ord '-' :: (Nat.toDigits 10 (n + 1)).map Char.toNat

@[simp] theorem str_natCast (n : Nat) : str (n : Int) = (Nat.toDigits 10 n).map Char.toNat := rfl

/-- The bytes of one code point in a process argument. Escaped bytes travel as
themselves; any other surrogate, like a number past the last code point, makes
the call raise. -/
def fsencodeChar (c : Nat) : Option (List Nat) :=
  if c < 0x80 then some [c]
  else if c < 0x800 then some [0xC0 + c / 64, 0x80 + c % 64]
  else if 0xDC80 ≤ c ∧ c ≤ 0xDCFF then some [c - 0xDC00]
  else if 0xD800 ≤ c ∧ c ≤ 0xDFFF then none
  else if c < 0x10000 then some [0xE0 + c / 4096, 0x80 + c / 64 % 64, 0x80 + c % 64]
  else if c < 0x110000 then
    some [0xF0 + c / 262144, 0x80 + c / 4096 % 64, 0x80 + c / 64 % 64, 0x80 + c % 64]
  else none

/-- A process argument as the C++ program reads it. -/
def fsencode : Str → Option (List CChar)
  | [] => some []
  | c :: t => do
      let bytes ← fsencodeChar c
      let rest ← fsencode t
      some (bytes.map Int8.ofNat ++ rest)

theorem fsencode_append {s t : Str} {a b : List CChar}
    (hs : fsencode s = some a) (ht : fsencode t = some b) :
    fsencode (s ++ t) = some (a ++ b) := by
  induction s generalizing a with
  | nil =>
      obtain rfl : [] = a := Option.some.inj hs
      simpa using ht
  | cons c s ih =>
      simp only [fsencode, Option.bind_eq_bind, Option.bind_eq_some_iff] at hs
      obtain ⟨bytes, hc, rest, hrest, hab⟩ := hs
      obtain rfl := Option.some.inj hab
      simp [fsencode, hc, ih hrest]

/-- Seven-bit text travels unchanged. -/
theorem fsencode_ascii {t : Str} (ht : ∀ c ∈ t, c < 128) :
    fsencode t = some (t.map Int8.ofNat) := by
  induction t with
  | nil => rfl
  | cons c t ih =>
      have hc : c < 0x80 := ht c (by simp)
      simp [fsencode, fsencodeChar, hc, ih (fun d hd => ht d (by simp [hd]))]

/-- A seven-bit character is its own byte; all bytes of any other have their top bit set. -/
theorem fsencodeChar_cases {c : Nat} {bytes : List Nat} (h : fsencodeChar c = some bytes) :
    c < 128 ∧ bytes = [c] ∨ 128 ≤ c ∧ bytes ≠ [] ∧ ∀ byte ∈ bytes, 128 ≤ byte ∧ byte < 256 := by
  unfold fsencodeChar at h
  split at h
  · rename_i hlow
    exact .inl ⟨hlow, (Option.some.inj h).symm⟩
  · rename_i hhigh
    refine .inr ⟨Nat.le_of_not_lt hhigh, ?_⟩
    split at h
    · obtain rfl := Option.some.inj h
      simp only [List.forall_mem_cons, List.not_mem_nil, false_imp_iff, implies_true, and_true]
      refine ⟨List.cons_ne_nil _ _, ?_⟩
      omega
    · split at h
      · obtain rfl := Option.some.inj h
        refine ⟨List.cons_ne_nil _ _, List.forall_mem_singleton.mpr ?_⟩
        omega
      · split at h
        · cases h
        · split at h
          · obtain rfl := Option.some.inj h
            simp only [List.forall_mem_cons, List.not_mem_nil, false_imp_iff, implies_true,
              and_true]
            refine ⟨List.cons_ne_nil _ _, ?_⟩
            omega
          · split at h
            · obtain rfl := Option.some.inj h
              simp only [List.forall_mem_cons, List.not_mem_nil, false_imp_iff, implies_true,
                and_true]
              refine ⟨List.cons_ne_nil _ _, ?_⟩
              omega
            · cases h

/-- The bytes of a code point in a text file, where surrogates are an error. -/
def utf8Char (c : Nat) : Option (List Nat) :=
  if 0xD800 ≤ c ∧ c ≤ 0xDFFF then none else fsencodeChar c

/-- The bytes of a text in a file. -/
def utf8 : Str → Option (List Nat)
  | [] => some []
  | c :: t => do
      let bytes ← utf8Char c
      let rest ← utf8 t
      some (bytes ++ rest)

/-- A seven-bit character is its own byte; all bytes of any other have their top bit set. -/
theorem utf8Char_cases {c : Nat} {bytes : List Nat} (h : utf8Char c = some bytes) :
    fsencodeChar c = some bytes ∧ (bytes = [c] ∨ ∀ byte ∈ bytes, 128 ≤ byte) := by
  by_cases hsurrogate : 0xD800 ≤ c ∧ c ≤ 0xDFFF
  · rw [utf8Char, if_pos hsurrogate] at h
    cases h
  · rw [utf8Char, if_neg hsurrogate] at h
    refine ⟨h, ?_⟩
    cases fsencodeChar_cases h with
    | inl hlow => exact .inl hlow.2
    | inr hhigh => exact .inr fun byte hbyte => (hhigh.2.2 byte hbyte).1

/-- A text with a character that has no bytes has none. -/
theorem utf8_eq_none {t : Str} {c : Nat} (hc : c ∈ t) (h : utf8Char c = none) : utf8 t = none := by
  induction t with
  | nil => cases hc
  | cons d t ih =>
      cases hc with
      | head => simp [utf8, h]
      | tail _ hrest => simp [utf8, ih hrest]

theorem utf8_append {s t : Str} {a b : List Nat} (hs : utf8 s = some a) (ht : utf8 t = some b) :
    utf8 (s ++ t) = some (a ++ b) := by
  induction s generalizing a with
  | nil =>
      obtain rfl : [] = a := Option.some.inj hs
      simpa using ht
  | cons c s ih =>
      simp only [utf8, Option.bind_eq_bind, Option.bind_eq_some_iff] at hs
      obtain ⟨bytes, hc, rest, hrest, hab⟩ := hs
      obtain rfl := Option.some.inj hab
      simp [utf8, hc, ih hrest]

theorem utf8_ascii {t : Str} (ht : ∀ c ∈ t, c < 128) : utf8 t = some t := by
  induction t with
  | nil => rfl
  | cons c t ih =>
      have hc : c < 0x80 := ht c (by simp)
      have hplain : ¬ (0xD800 ≤ c ∧ c ≤ 0xDFFF) := by omega
      simp [utf8, utf8Char, fsencodeChar, hc, hplain, ih (fun d hd => ht d (by simp [hd]))]

theorem toInt_ofNat {c : Nat} (hc : c < 128) : (Int8.ofNat c).toInt = c :=
  Int8.toInt_ofNat_of_lt hc

/-- An ASCII digit. -/
def isDigit (c : CChar) : Bool := 48 ≤ c.toInt && c.toInt ≤ 57

theorem digit_code {n : Nat} {c : Char} (hc : c ∈ Nat.toDigits 10 n) :
    48 ≤ c.toNat ∧ c.toNat ≤ 57 := by
  have h := Nat.isDigit_of_mem_toDigits (by decide) (by decide) hc
  simp only [Char.isDigit, Bool.and_eq_true, decide_eq_true_eq, ge_iff_le] at h
  exact ⟨UInt32.le_iff_toNat_le.mp h.1, UInt32.le_iff_toNat_le.mp h.2⟩

/-- The number a run of decimal digits denotes. -/
def decimal (buffer : List CChar) : Nat :=
  buffer.foldl (fun sofar c => 10 * sofar + (c.toInt - 48).toNat) 0

theorem decimal_map (cs : List Char) (hcs : ∀ c ∈ cs, 48 ≤ c.toNat ∧ c.toNat ≤ 57) :
    decimal (cs.map (fun c => Int8.ofNat c.toNat)) = Nat.ofDigitChars 10 cs 0 := by
  rw [decimal, Nat.ofDigitChars_eq_foldl, List.foldl_map]
  generalize 0 = acc
  induction cs generalizing acc with
  | nil => rfl
  | cons c cs ih =>
      have hc := hcs c (by simp)
      have hdigit : ((Int8.ofNat c.toNat).toInt - 48).toNat = c.toNat - '0'.toNat := by
        rw [toInt_ofNat (by omega)]
        change ((c.toNat : Int) - 48).toNat = c.toNat - 48
        omega
      rw [List.foldl_cons, List.foldl_cons, hdigit]
      exact ih (fun d hd => hcs d (by simp [hd])) _

/-- Reading back the digits of `str(n)`. -/
theorem decimal_str (n : Nat) :
    decimal (((Nat.toDigits 10 n).map Char.toNat).map Int8.ofNat) = n := by
  rw [List.map_map]
  exact (decimal_map _ (fun _ => digit_code)).trans Nat.ofDigitChars_ten_toDigits

end Text
