import Petospa.Lib.Text

/-!
# Unicode classes and decoding

The classes of characters that `\d` and `\s` stand for in a Python pattern, the
number that a text of decimal digits denotes, and the decoding of UTF-8, which
raises on everything that is not the encoding of a text.
-/

namespace Text

/-- `str.isspace` of a character. -/
def isSpace (c : Nat) : Bool :=
  9 ≤ c && c ≤ 13 || 0x1C ≤ c && c ≤ 0x20 || c = 0x85 || c = 0xA0 || c = 0x1680 ||
    0x2000 ≤ c && c ≤ 0x200A || c = 0x2028 || c = 0x2029 || c = 0x202F || c = 0x205F || c = 0x3000

/-- The characters for zero but the first one. The decimal digits of a script follow
each other. -/
def laterZeros : List Nat :=
  [0x660, 0x6F0, 0x7C0, 0x966, 0x9E6, 0xA66, 0xAE6, 0xB66, 0xBE6, 0xC66, 0xCE6, 0xD66, 0xDE6,
    0xE50, 0xED0, 0xF20, 0x1040, 0x1090, 0x17E0, 0x1810, 0x1946, 0x19D0, 0x1A80, 0x1A90, 0x1B50,
    0x1BB0, 0x1C40, 0x1C50, 0xA620, 0xA8D0, 0xA900, 0xA9D0, 0xA9F0, 0xAA50, 0xABF0, 0xFF10,
    0x104A0, 0x10D30, 0x11066, 0x110F0, 0x11136, 0x111D0, 0x112F0, 0x11450, 0x114D0, 0x11650,
    0x116C0, 0x11730, 0x118E0, 0x11950, 0x11C50, 0x11D50, 0x11DA0, 0x16A60, 0x16AC0, 0x16B50,
    0x1D7CE, 0x1D7D8, 0x1D7E2, 0x1D7EC, 0x1D7F6, 0x1E140, 0x1E2F0, 0x1E950, 0x1FBF0]

/-- The value of a decimal digit of any script. -/
def decimalDigit (c : Nat) : Option Nat :=
  ((ord '0' :: laterZeros).find? fun first => first ≤ c && c < first + 10).map (c - ·)

def isDecimal (c : Nat) : Bool := (decimalDigit c).isSome

/-- `int(s)` of a text of decimal digits. -/
def int (s : Str) : Option Nat :=
  if s = [] then none
  else s.foldlM (fun sofar c => (decimalDigit c).map (10 * sofar + ·)) 0

theorem decimalDigit_ascii {c : Nat} (hlow : ord '0' ≤ c) (hhigh : c ≤ ord '9') :
    decimalDigit c = some (c - ord '0') := by
  have hc : (decide (ord '0' ≤ c) && decide (c < ord '0' + 10)) = true := by
    simp only [Bool.and_eq_true, decide_eq_true_eq]
    exact ⟨hlow, Nat.lt_succ_of_le hhigh⟩
  have hfind : (ord '0' :: laterZeros).find? (fun first => first ≤ c && c < first + 10) =
      some (ord '0') := List.find?_cons_of_pos hc
  rw [decimalDigit, hfind]
  rfl

theorem isDecimal_str {n c : Nat} (hc : c ∈ str n) : isDecimal c = true := by
  rw [str_natCast, List.mem_map] at hc
  obtain ⟨d, hd, rfl⟩ := hc
  obtain ⟨hlow, hhigh⟩ := digit_code hd
  rw [isDecimal, decimalDigit_ascii hlow hhigh]
  rfl

/-- Reading back a number. -/
theorem int_str (n : Nat) : int (str n) = some n := by
  have hfold (cs : List Char) (hcs : ∀ c ∈ cs, 48 ≤ c.toNat ∧ c.toNat ≤ 57) (sofar : Nat) :
      (cs.map Char.toNat).foldlM (fun sofar c => (decimalDigit c).map (10 * sofar + ·)) sofar =
        some (cs.foldl (fun sofar c => 10 * sofar + (c.toNat - '0'.toNat)) sofar) := by
    induction cs generalizing sofar with
    | nil => rfl
    | cons c cs ih =>
        obtain ⟨hlow, hhigh⟩ := hcs c (List.mem_cons_self ..)
        rw [List.map_cons, List.foldlM_cons, decimalDigit_ascii hlow hhigh]
        exact ih (fun d hd => hcs d (List.mem_cons_of_mem _ hd)) _
  have hne : str n ≠ [] := by simp [Nat.toDigits_ne_nil]
  rw [int, if_neg hne, str_natCast, hfold _ (fun _ => digit_code), ← Nat.ofDigitChars_eq_foldl,
    Nat.ofDigitChars_ten_toDigits]

/-! ### Encoded text -/

theorem utf8_append_eq_some {s t : Str} {bytes : List Nat} (h : utf8 (s ++ t) = some bytes) :
    ∃ a b, utf8 s = some a ∧ utf8 t = some b ∧ bytes = a ++ b := by
  induction s generalizing bytes with
  | nil => exact ⟨[], bytes, rfl, h, rfl⟩
  | cons c s ih =>
      simp only [List.cons_append, utf8, Option.bind_eq_bind, Option.bind_eq_some_iff] at h
      obtain ⟨first, hfirst, rest, hrest, hbytes⟩ := h
      obtain rfl := Option.some.inj hbytes
      obtain ⟨a, b, ha, hb, rfl⟩ := ih hrest
      exact ⟨first ++ a, b, by simp [utf8, hfirst, ha], hb, (List.append_assoc ..).symm⟩

/-- A text that starts with seven-bit text is encoded to bytes that start with it. -/
theorem prefix_utf8 {s t : Str} {bytes : List Nat} (h : utf8 t = some bytes)
    (hs : ∀ c ∈ s, c < 128) (hstarts : s <+: t) : s <+: bytes := by
  obtain ⟨rest, rfl⟩ := hstarts
  obtain ⟨a, b, ha, -, rfl⟩ := utf8_append_eq_some h
  obtain rfl : s = a := Option.some.inj ((utf8_ascii hs).symm.trans ha)
  exact List.prefix_append s b

theorem mem_utf8 {t : Str} {c : Nat} {bytes : List Nat} (h : utf8 t = some bytes) (hc : c < 128)
    (hmem : c ∈ t) : c ∈ bytes := by
  obtain ⟨front, back, rfl⟩ := List.append_of_mem hmem
  obtain ⟨a, b, -, hb, rfl⟩ := utf8_append_eq_some h
  have hstarts : [c] <+: b := prefix_utf8 hb (by simpa using hc) ⟨back, rfl⟩
  exact List.mem_append_right a (hstarts.subset (List.mem_singleton_self c))

/-! ### Decoding -/

/-- The code point whose first bits are `code`, with `n` bytes for the others. -/
def continuations : Nat → Nat → List Nat → Option (Nat × List Nat)
  | 0, code, rest => some (code, rest)
  | _ + 1, _, [] => none
  | n + 1, code, byte :: rest =>
      if 0x80 ≤ byte ∧ byte < 0xC0 then continuations n (64 * code + (byte - 0x80)) rest else none

/-- The first character, which is neither in an overlong form nor a surrogate. -/
def decodeFirst (byte : Nat) (rest : List Nat) : Option (Nat × List Nat) :=
  if byte < 0x80 then some (byte, rest)
  else if 0xC2 ≤ byte ∧ byte < 0xE0 then continuations 1 (byte - 0xC0) rest
  else if 0xE0 ≤ byte ∧ byte < 0xF0 then
    (continuations 2 (byte - 0xE0) rest).filter fun first =>
      0x800 ≤ first.1 ∧ ¬ (0xD800 ≤ first.1 ∧ first.1 ≤ 0xDFFF)
  else if 0xF0 ≤ byte ∧ byte < 0xF8 then
    (continuations 3 (byte - 0xF0) rest).filter fun first =>
      0x10000 ≤ first.1 ∧ first.1 < 0x110000
  else none

theorem continuations_cons {n code bits : Nat} {rest : List Nat} (hbits : bits < 64) :
    continuations (n + 1) code ((0x80 + bits) :: rest) =
      continuations n (64 * code + bits) rest := by
  rw [continuations, if_pos (by omega), Nat.add_sub_cancel_left]

theorem length_continuations {n code : Nat} {bytes : List Nat} {first : Nat × List Nat}
    (h : continuations n code bytes = some first) : first.2.length ≤ bytes.length := by
  induction n generalizing code bytes with
  | zero =>
      obtain rfl := Option.some.inj h
      exact le_rfl
  | succ n ih =>
      cases bytes with
      | nil => cases h
      | cons byte rest =>
          rw [continuations] at h
          split at h
          · exact (ih h).trans (Nat.le_succ _)
          · cases h

theorem length_decodeFirst {byte : Nat} {rest : List Nat} {first : Nat × List Nat}
    (h : decodeFirst byte rest = some first) : first.2.length ≤ rest.length := by
  rw [decodeFirst] at h
  split at h
  · obtain rfl := Option.some.inj h
    exact le_rfl
  split at h
  · exact length_continuations h
  split at h
  · exact length_continuations (Option.filter_eq_some_iff.mp h).1
  split at h
  · exact length_continuations (Option.filter_eq_some_iff.mp h).1
  · cases h

/-- `bytes.decode('utf8')`. -/
def decodeUtf8 : List Nat → Option Str
  | [] => some []
  | byte :: bytes =>
      match _h : decodeFirst byte bytes with
      | none => none
      | some (code, rest) => (decodeUtf8 rest).map (code :: ·)
termination_by bytes => bytes.length
decreasing_by exact Nat.lt_succ_of_le (length_decodeFirst _h)

theorem decodeUtf8_cons {byte code : Nat} {bytes rest : List Nat}
    (h : decodeFirst byte bytes = some (code, rest)) :
    decodeUtf8 (byte :: bytes) = (decodeUtf8 rest).map (code :: ·) := by
  rw [decodeUtf8]
  split <;> simp_all

theorem decodeUtf8_eq_none {byte : Nat} {bytes : List Nat} (h : decodeFirst byte bytes = none) :
    decodeUtf8 (byte :: bytes) = none := by
  rw [decodeUtf8]
  split <;> simp_all

theorem decodeUtf8_utf8Char {code : Nat} {bytes : List Nat} (h : utf8Char code = some bytes)
    (rest : List Nat) : decodeUtf8 (bytes ++ rest) = (decodeUtf8 rest).map (code :: ·) := by
  obtain ⟨hplain, h⟩ : ¬ (0xD800 ≤ code ∧ code ≤ 0xDFFF) ∧ fsencodeChar code = some bytes := by
    rw [utf8Char] at h
    split at h
    · cases h
    · exact ⟨‹_›, h⟩
  have hescape : ¬ (0xDC80 ≤ code ∧ code ≤ 0xDCFF) := by omega
  simp only [fsencodeChar, if_neg hescape, if_neg hplain] at h
  split at h
  · rename_i hone
    obtain rfl := Option.some.inj h
    exact decodeUtf8_cons (if_pos hone)
  split at h
  · rename_i hone htwo
    obtain rfl := Option.some.inj h
    refine decodeUtf8_cons ?_
    rw [decodeFirst, if_neg (by omega), if_pos (by omega), List.append_eq, List.singleton_append,
      continuations_cons (by omega), continuations]
    congr 2
    omega
  split at h
  · rename_i hone htwo hthree
    obtain rfl := Option.some.inj h
    refine decodeUtf8_cons ?_
    rw [decodeFirst, if_neg (by omega), if_neg (by omega), if_pos (by omega)]
    have hcode : 64 * (64 * (0xE0 + code / 4096 - 0xE0) + code / 64 % 64) + code % 64 = code := by
      omega
    have hall : continuations 2 (0xE0 + code / 4096 - 0xE0)
        ((0x80 + code / 64 % 64) :: (0x80 + code % 64) :: rest) = some (code, rest) := by
      rw [continuations_cons (by omega), continuations_cons (by omega), hcode, continuations]
    rw [List.append_eq, List.cons_append, List.singleton_append, hall]
    exact Option.filter_some_pos (by simp; omega)
  split at h
  · rename_i hone htwo hthree hfour
    obtain rfl := Option.some.inj h
    refine decodeUtf8_cons ?_
    rw [decodeFirst, if_neg (by omega), if_neg (by omega), if_neg (by omega), if_pos (by omega)]
    have hcode : 64 * (64 * (64 * (0xF0 + code / 262144 - 0xF0) + code / 4096 % 64) +
        code / 64 % 64) + code % 64 = code := by
      omega
    have hall : continuations 3 (0xF0 + code / 262144 - 0xF0) ((0x80 + code / 4096 % 64) ::
        (0x80 + code / 64 % 64) :: (0x80 + code % 64) :: rest) = some (code, rest) := by
      rw [continuations_cons (by omega), continuations_cons (by omega),
        continuations_cons (by omega), hcode, continuations]
    rw [List.append_eq, List.cons_append, List.cons_append, List.singleton_append, hall]
    exact Option.filter_some_pos (by simp; omega)
  · cases h

/-- What was encoded is decoded. -/
theorem decodeUtf8_utf8 {t : Str} {bytes : List Nat} (h : utf8 t = some bytes) :
    decodeUtf8 bytes = some t := by
  induction t generalizing bytes with
  | nil =>
      obtain rfl : [] = bytes := Option.some.inj h
      rw [decodeUtf8]
  | cons c t ih =>
      simp only [utf8, Option.bind_eq_bind, Option.bind_eq_some_iff] at h
      obtain ⟨first, hfirst, rest, hrest, hbytes⟩ := h
      obtain rfl := Option.some.inj hbytes
      rw [decodeUtf8_utf8Char hfirst, ih hrest]
      rfl

end Text
