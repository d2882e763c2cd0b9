import Mathlib.Data.List.Chain
import Petospa.Lib.Text

/-!
# JSON documents and their text

A document is written as `json.dumps` writes it with an indent of four, and a
text is read as `json.loads` reads it. Every character outside printable ASCII is
written as one or two escaped UTF-16 units. How finite floating-point numbers are
written and read is a parameter.
-/

open Text

/-- A floating-point number. -/
inductive PyFloat (F : Type) where
  | nan
  | infinity (negative : Bool)
  | finite (x : F)

/-- A document. An object lists its members as they were written. -/
inductive Json (F : Type) where
  | null
  | bool (b : Bool)
  | int (i : Int)
  | float (x : PyFloat F)
  | str (s : Str)
  | arr (items : List (Json F))
  | obj (members : List (Str × Json F))

namespace Json

/-! ### Numbers -/

def isDigit (c : Nat) : Bool := ord '0' ≤ c && c ≤ ord '9'

/-- `0|[1-9]\d*` -/
def IsWhole (text : Str) : Prop :=
  text = [ord '0'] ∨ text ≠ [] ∧ text.head? ≠ some (ord '0') ∧ ∀ c ∈ text, isDigit c = true

/-- `(\.\d+)?` -/
def IsFraction (text : Str) : Prop :=
  text = [] ∨ ∃ digits, text = ord '.' :: digits ∧ digits ≠ [] ∧ ∀ c ∈ digits, isDigit c = true

/-- `(e[-+]\d+)?` -/
def IsExponent (text : Str) : Prop :=
  text = [] ∨ ∃ sign digits, text = ord 'e' :: sign :: digits ∧ (sign = ord '-' ∨ sign = ord '+') ∧
    digits ≠ [] ∧ ∀ c ∈ digits, isDigit c = true

def signText (negative : Bool) : Str := if negative then [ord '-'] else []

/-- The text of a number with a fraction or an exponent. -/
structure FloatText where
  negative : Bool
  whole : Str
  fraction : Str
  exponent : Str
  isWhole : IsWhole whole
  isFraction : IsFraction fraction
  isExponent : IsExponent exponent
  isFloat : ¬ (fraction = [] ∧ exponent = [])

def FloatText.text (t : FloatText) : Str :=
  signText t.negative ++ (t.whole ++ (t.fraction ++ t.exponent))

end Json

/-- Finite floating-point numbers: `repr` writes them, and `float` reads what it wrote. -/
class FloatFormat (F : Type) where
  isZero : F → Bool
  repr : F → Json.FloatText
  float : Str → PyFloat F
  float_repr : ∀ x, float (repr x).text = .finite x

namespace Json

variable {F : Type}

/-! ### Strings -/

/-- The first unit of a surrogate pair. -/
def IsHigh (c : Nat) : Prop := 0xD800 ≤ c ∧ c ≤ 0xDBFF

/-- The second unit of a surrogate pair. -/
def IsLow (c : Nat) : Prop := 0xDC00 ≤ c ∧ c ≤ 0xDFFF

instance (c : Nat) : Decidable (IsHigh c) := inferInstanceAs (Decidable (_ ∧ _))
instance (c : Nat) : Decidable (IsLow c) := inferInstanceAs (Decidable (_ ∧ _))

/-- The code point of a surrogate pair. -/
def combine (high low : Nat) : Nat := 0x10000 + ((high - 0xD800) * 1024 + (low - 0xDC00))

def hexDigit (d : Nat) : Nat := if d < 10 then ord '0' + d else ord 'a' + (d - 10)

def hexValue (c : Nat) : Option Nat :=
  if ord '0' ≤ c ∧ c ≤ ord '9' then some (c - ord '0')
  else if ord 'a' ≤ c ∧ c ≤ ord 'f' then some (c - ord 'a' + 10)
  else if ord 'A' ≤ c ∧ c ≤ ord 'F' then some (c - ord 'A' + 10)
  else none

/-- An escaped unit. -/
def escapeUnit (n : Nat) : Str :=
  [ord '\\', ord 'u', hexDigit (n / 4096 % 16), hexDigit (n / 256 % 16), hexDigit (n / 16 % 16),
    hexDigit (n % 16)]

/-- The unit that four digits denote. -/
def unitValue (a b c d : Nat) : Option Nat := do
  let a ← hexValue a
  let b ← hexValue b
  let c ← hexValue c
  let d ← hexValue d
  some (((a * 16 + b) * 16 + c) * 16 + d)

/-- The characters with an escape of two characters. -/
def shortEscapes : List (Nat × Nat) :=
  [(ord '"', ord '"'), (ord '\\', ord '\\'), (ord '\n', ord 'n'), (ord '\r', ord 'r'),
    (ord '\t', ord 't'), (12, ord 'f'), (8, ord 'b')]

def escapeChar (c : Nat) : Str :=
  match shortEscapes.find? (·.1 = c) with
  | some e => [ord '\\', e.2]
  | none =>
      if ord ' ' ≤ c ∧ c ≤ ord '~' then [c]
      else if c < 0x10000 then escapeUnit c
      else escapeUnit (0xD800 + (c - 0x10000) / 1024) ++ escapeUnit (0xDC00 + (c - 0x10000) % 1024)

/-- A string in quotes. -/
def quote (s : Str) : Str := ord '"' :: (s.flatMap escapeChar ++ [ord '"'])

/-- The character of an escape of two characters. -/
def shortUnescape (e : Nat) : Option Nat :=
  if e = ord '/' then some (ord '/') else (shortEscapes.find? (·.2 = e)).map Prod.fst

/-- Put a character in front of what is read. -/
def consChar (c : Nat) (read : Option (Str × Str)) : Option (Str × Str) :=
  read.map fun r => (c :: r.1, r.2)

/-- Put an escaped unit in front of what is read behind it. With an escaped low
surrogate behind it a high one makes one character. -/
def consUnit (unit : Nat) (rest : Str) (read : Option (Str × Str)) : Option (Str × Str) :=
  match read with
  | some (low :: s, after) =>
      if IsHigh unit ∧ IsLow low ∧ rest.take 2 = [ord '\\', ord 'u'] then
        some (combine unit low :: s, after)
      else some (unit :: low :: s, after)
  | read => consChar unit read

/-- Read a string behind its opening quote. -/
def scanString : Str → Option (Str × Str)
  | [] => none
  | c :: rest =>
      if c = ord '"' then some ([], rest)
      else if c = ord '\\' then
        match rest with
        | [] => none
        | e :: rest =>
            if e = ord 'u' then
              match rest with
              | a :: b :: c :: d :: rest =>
                  match unitValue a b c d with
                  | none => none
                  | some unit => consUnit unit rest (scanString rest)
              | _ => none
            else
              match shortUnescape e with
              | none => none
              | some c => consChar c (scanString rest)
      else if c < ord ' ' then none
      else consChar c (scanString rest)

/-- A character in front of a string that comes back. -/
def join (c : Nat) : Str → Str
  | [] => [c]
  | low :: s => if IsHigh c ∧ IsLow low then combine c low :: s else c :: low :: s

/-- A string as it comes back: two characters that make a surrogate pair become one. -/
def joined (s : Str) : Str := s.foldr join []

theorem length_joined_le (s : Str) : (joined s).length ≤ s.length := by
  induction s with
  | nil => exact Nat.le_refl 0
  | cons c s ih =>
      rw [joined, List.foldr_cons, ← joined]
      cases hs : joined s with
      | nil => simp [join]
      | cons low t =>
          rw [hs] at ih
          rw [join]
          simp only [List.length_cons] at ih ⊢
          split
          · rw [List.length_cons]
            omega
          · simp only [List.length_cons]
            omega

/-- A string without surrogate pairs comes back as it is. -/
theorem joined_eq_self_iff {s : Str} :
    joined s = s ↔ s.IsChain fun high low => ¬ (IsHigh high ∧ IsLow low) := by
  induction s with
  | nil => exact iff_of_true rfl List.isChain_nil
  | cons c s ih =>
      have hunfold : joined (c :: s) = join c (joined s) := rfl
      have hlength := length_joined_le s
      rw [hunfold, List.isChain_cons]
      constructor
      · intro h
        have hs : joined s = s := by
          cases hjoined : joined s with
          | nil =>
              rw [hjoined, join] at h
              exact (List.cons.inj h).2
          | cons low t =>
              rw [hjoined, join] at h
              split at h
              · have hlen := congrArg List.length h
                rw [hjoined] at hlength
                simp only [List.length_cons] at hlen hlength
                omega
              · exact (List.cons.inj h).2
        refine ⟨fun low hlow hpair => ?_, ih.mp hs⟩
        rw [hs] at h
        cases s with
        | nil => cases hlow
        | cons next t =>
            obtain rfl := Option.some.inj hlow
            rw [join, if_pos hpair] at h
            exact absurd (congrArg List.length h) (by simp)
      · rintro ⟨hhead, hchain⟩
        rw [ih.mpr hchain]
        cases s with
        | nil => rfl
        | cons next t => rw [join, if_neg (hhead next rfl)]

theorem hexValue_hexDigit : ∀ d < 16, hexValue (hexDigit d) = some d := by
  decide

theorem unitValue_digits {n : Nat} (h : n < 0x10000) :
    unitValue (hexDigit (n / 4096 % 16)) (hexDigit (n / 256 % 16)) (hexDigit (n / 16 % 16))
      (hexDigit (n % 16)) = some n := by
  have hdigit : ∀ m, hexValue (hexDigit (m % 16)) = some (m % 16) := fun m =>
    hexValue_hexDigit _ (Nat.mod_lt _ (by decide))
  rw [unitValue, hdigit, hdigit, hdigit, hdigit]
  simp only [Option.bind_eq_bind, Option.bind_some, Option.some.injEq]
  omega

/-- The equations of `scanString`, by the first characters. -/
theorem scanString_plain {c : Nat} (hquote : c ≠ ord '"') (hslash : c ≠ ord '\\')
    (hprintable : ord ' ' ≤ c) (rest : Str) :
    scanString (c :: rest) = consChar c (scanString rest) := by
  rw [scanString.eq_def]
  simp only [if_neg hquote, if_neg hslash, if_neg (Nat.not_lt.mpr hprintable)]

theorem scanString_escape {e c : Nat} (hu : e ≠ ord 'u') (hvalue : shortUnescape e = some c)
    (rest : Str) : scanString (ord '\\' :: e :: rest) = consChar c (scanString rest) := by
  have hquote : ord '\\' ≠ ord '"' := by decide
  rw [scanString.eq_def]
  simp only [if_neg hquote, if_pos, if_neg hu, hvalue]

theorem scanString_escapeUnit {n : Nat} (h : n < 0x10000) (rest : Str) :
    scanString (escapeUnit n ++ rest) = consUnit n rest (scanString rest) := by
  have hquote : ord '\\' ≠ ord '"' := by decide
  rw [scanString.eq_def]
  simp only [escapeUnit, List.cons_append, List.nil_append, if_neg hquote, if_pos,
    unitValue_digits h]

theorem find?_shortEscapes {c : Nat} (h : 128 ≤ c) :
    shortEscapes.find? (·.1 = c) = none := by
  rw [List.find?_eq_none]
  intro e he
  have hsmall : ∀ e ∈ shortEscapes, e.1 < 128 := by decide
  have := hsmall e he
  rw [decide_eq_true_eq]
  omega

/-- A short escape is read as the character that it stands for. -/
theorem shortUnescape_find? {c : Nat} {e : Nat × Nat}
    (h : shortEscapes.find? (·.1 = c) = some e) :
    shortUnescape e.2 = some c ∧ e.2 ≠ ord 'u' ∧ c < 128 := by
  have hall : ∀ e ∈ shortEscapes, shortUnescape e.2 = some e.1 ∧ e.2 ≠ ord 'u' ∧ e.1 < 128 := by
    decide
  have hkey : e.1 = c := by simpa using List.find?_some h
  have := hall e (List.mem_of_find?_eq_some h)
  rwa [hkey] at this

theorem escapeChar_of_isLow {c : Nat} (h : IsLow c) : escapeChar c = escapeUnit c := by
  have hlow : 0xDC00 ≤ c ∧ c ≤ 0xDFFF := h
  have hprintable : ¬ (ord ' ' ≤ c ∧ c ≤ ord '~') := by
    change ¬ (32 ≤ c ∧ c ≤ 126)
    omega
  rw [escapeChar, find?_shortEscapes (by omega)]
  simp only [if_neg hprintable]
  rw [if_pos (by omega)]

theorem not_isHigh_of_isLow {c : Nat} (h : IsLow c) : ¬ IsHigh c := by
  rintro ⟨-, hle⟩
  have := h.1
  omega

theorem not_isLow_combine (high low : Nat) : ¬ IsLow (combine high low) := by
  unfold IsLow combine
  omega

/-- Two escaped units of a pair are read as one character. -/
theorem consUnit_pair {high low : Nat} (hhigh : IsHigh high) (hlow : IsLow low)
    (rest s after : Str) :
    consUnit high (escapeUnit low ++ rest) (consUnit low rest (some (s, after))) =
      some (combine high low :: s, after) := by
  have hinner : consUnit low rest (some (s, after)) = some (low :: s, after) := by
    cases s with
    | nil => rfl
    | cons c s => rw [consUnit, if_neg fun hpair => not_isHigh_of_isLow hlow hpair.1]
  have htake : (escapeUnit low ++ rest).take 2 = [ord '\\', ord 'u'] := rfl
  rw [hinner, consUnit, if_pos ⟨hhigh, hlow, htake⟩]

/-- The units of a character beyond the first plane. -/
theorem pair_of_supplementary {c : Nat} (hlow : 0x10000 ≤ c) (hhigh : c < 0x110000) :
    IsHigh (0xD800 + (c - 0x10000) / 1024) ∧ IsLow (0xDC00 + (c - 0x10000) % 1024) ∧
      combine (0xD800 + (c - 0x10000) / 1024) (0xDC00 + (c - 0x10000) % 1024) = c := by
  unfold IsHigh IsLow combine
  omega

/-- A character is read back in front of what is read behind it. -/
theorem scanString_escapeChar {c : Nat} {rest s after : Str} (hc : c < 0x110000)
    (hread : scanString rest = some (s, after))
    (hrest : ∀ low t, s = low :: t → IsLow low → rest.take 2 = [ord '\\', ord 'u']) :
    scanString (escapeChar c ++ rest) = some (join c s, after) := by
  have hplain : ¬ IsHigh c → join c s = c :: s := by
    intro hnot
    cases s with
    | nil => rfl
    | cons low t => rw [join, if_neg fun hpair => hnot hpair.1]
  rw [escapeChar]
  cases hshort : shortEscapes.find? (·.1 = c) with
  | some e =>
      obtain ⟨hvalue, hne, hsmall⟩ := shortUnescape_find? hshort
      have hnot : ¬ IsHigh c := by
        change ¬ (0xD800 ≤ c ∧ c ≤ 0xDBFF)
        omega
      simp only [List.cons_append, List.nil_append]
      rw [scanString_escape hne hvalue, hread, hplain hnot]
      rfl
  | none =>
      simp only
      split
      · rename_i hprintable
        have hquote : c ≠ ord '"' := by
          rintro rfl
          cases hshort
        have hslash : c ≠ ord '\\' := by
          rintro rfl
          cases hshort
        have hnot : ¬ IsHigh c := by
          change ¬ (0xD800 ≤ c ∧ c ≤ 0xDBFF)
          have : c ≤ 126 := hprintable.2
          omega
        rw [List.singleton_append, scanString_plain hquote hslash hprintable.1, hread, hplain hnot]
        rfl
      · split
        · rename_i hunit
          rw [scanString_escapeUnit hunit, hread]
          cases s with
          | nil => rfl
          | cons low t =>
              rw [consUnit, join]
              by_cases hpair : IsHigh c ∧ IsLow low
              · rw [if_pos ⟨hpair.1, hpair.2, hrest low t rfl hpair.2⟩, if_pos hpair]
              · rw [if_neg fun hthree => hpair ⟨hthree.1, hthree.2.1⟩, if_neg hpair]
        · rename_i hunit
          have hnot : ¬ IsHigh c := by
            change ¬ (0xD800 ≤ c ∧ c ≤ 0xDBFF)
            omega
          obtain ⟨hhigh, hlow, hvalue⟩ := pair_of_supplementary (Nat.not_lt.mp hunit) hc
          rw [List.append_assoc, scanString_escapeUnit (by omega), scanString_escapeUnit (by omega),
            hread, consUnit_pair hhigh hlow, hvalue, hplain hnot]

/-- A character that is read back as a low surrogate was escaped. -/
theorem take_escaped {s rest : Str} {low : Nat} {t : Str} (h : joined s = low :: t)
    (hlow : IsLow low) : (s.flatMap escapeChar ++ rest).take 2 = [ord '\\', ord 'u'] := by
  cases s with
  | nil => cases h
  | cons c s =>
      have hhead : c = low := by
        rw [joined, List.foldr_cons] at h
        cases hjoined : s.foldr join [] with
        | nil =>
            rw [hjoined, join] at h
            exact (List.cons.inj h).1
        | cons next t' =>
            rw [hjoined, join] at h
            split at h
            · rw [List.cons.injEq] at h
              exact absurd (h.1 ▸ hlow) (not_isLow_combine c next)
            · exact (List.cons.inj h).1
      rw [List.flatMap_cons, hhead, escapeChar_of_isLow hlow]
      rfl

/-- Reading back the inside of a quoted string. -/
theorem scanString_escaped {s : Str} (hs : ∀ c ∈ s, c < 0x110000) (after : Str) :
    scanString (s.flatMap escapeChar ++ ord '"' :: after) = some (joined s, after) := by
  induction s with
  | nil =>
      rw [List.flatMap_nil, List.nil_append, scanString.eq_def]
      simp [joined]
  | cons c s ih =>
      rw [List.flatMap_cons, List.append_assoc]
      exact scanString_escapeChar (hs c List.mem_cons_self)
        (ih fun d hd => hs d (List.mem_cons_of_mem _ hd)) fun low t => take_escaped

/-! ### Writing -/

section Writing

variable [FloatFormat F]

/-- A new line at a depth. -/
def newLine (level : Nat) : Str := ord '\n' :: List.replicate (4 * level) (ord ' ')

mutual

/-- The text of a document at a depth. -/
def dumpsAt (level : Nat) : Json F → Str
  | .null => lit "null"
  | .bool true => lit "true"
  | .bool false => lit "false"
  | .int i => Text.str i
  | .float .nan => lit "NaN"
  | .float (.infinity false) => lit "Infinity"
  | .float (.infinity true) => lit "-Infinity"
  | .float (.finite x) => (FloatFormat.repr x).text
  | .str s => quote s
  | .arr [] => lit "[]"
  | .arr (item :: items) => ord '[' :: (newLine (level + 1) ++ dumpsAt (level + 1) item ++
      dumpsItems (level + 1) items ++ newLine level ++ [ord ']'])
  | .obj [] => lit "\x7b\x7d"
  | .obj ((key, value) :: members) => ord '\x7b' :: (newLine (level + 1) ++ quote key ++ lit ": " ++
      dumpsAt (level + 1) value ++ dumpsMembers (level + 1) members ++ newLine level ++
      [ord '\x7d'])

/-- The further items of a list. -/
def dumpsItems (level : Nat) : List (Json F) → Str
  | [] => []
  | item :: items => ord ',' :: (newLine level ++ dumpsAt level item ++ dumpsItems level items)

/-- The further members of an object. -/
def dumpsMembers (level : Nat) : List (Str × Json F) → Str
  | [] => []
  | (key, value) :: members => ord ',' :: (newLine level ++ quote key ++ lit ": " ++
      dumpsAt level value ++ dumpsMembers level members)

end

/-- `json.dumps(document, indent=4)`. -/
def dumps (document : Json F) : Str := dumpsAt 0 document

end Writing

/-! ### Reading -/

def isSpace (c : Nat) : Bool := c = ord ' ' || c = ord '\n' || c = ord '\r' || c = ord '\t'

def skipSpace (text : Str) : Str := text.dropWhile isSpace

/-- The number that a run of digits denotes. -/
def number (digits : Str) : Nat := digits.foldl (fun sofar c => 10 * sofar + (c - ord '0')) 0

/-- A zero at the front stands alone. -/
def wholePart (text : Str) : Str :=
  if text.head? = some (ord '0') then [ord '0'] else text.takeWhile isDigit

def fractionPart : Str → Str
  | [] => []
  | c :: rest =>
      let digits := rest.takeWhile isDigit
      if c = ord '.' ∧ digits ≠ [] then c :: digits else []

def exponentPart : Str → Str
  | [] => []
  | c :: rest =>
      let sign := (rest.take 1).filter fun d => d = ord '-' || d = ord '+'
      let digits := (rest.drop sign.length).takeWhile isDigit
      if (c = ord 'e' ∨ c = ord 'E') ∧ digits ≠ [] then c :: (sign ++ digits) else []

section Reading

variable [FloatFormat F]

/-- Read a number. -/
def scanNumber (text : Str) : Option (Json F × Str) :=
  let negative : Bool := text.head? = some (ord '-')
  let rest := text.drop (signText negative).length
  let whole := wholePart rest
  let rest := rest.drop whole.length
  let fraction := fractionPart rest
  let rest := rest.drop fraction.length
  let exponent := exponentPart rest
  let rest := rest.drop exponent.length
  if whole = [] then none
  else if fraction = [] ∧ exponent = [] then
    some (.int (if negative then -(number whole : Int) else number whole), rest)
  else
    some (.float (FloatFormat.float (signText negative ++ (whole ++ (fraction ++ exponent)))), rest)

/-- Read one of the constants. -/
def scanConstant (text : Str) : Option (Json F × Str) :=
  if lit "null" <+: text then some (.null, text.drop 4)
  else if lit "true" <+: text then some (.bool true, text.drop 4)
  else if lit "false" <+: text then some (.bool false, text.drop 5)
  else if lit "NaN" <+: text then some (.float .nan, text.drop 3)
  else if lit "Infinity" <+: text then some (.float (.infinity false), text.drop 8)
  else if lit "-Infinity" <+: text then some (.float (.infinity true), text.drop 9)
  else none

/-- Go on behind a character. -/
def expect (c : Nat) (text : Str) : Option Str :=
  if text.head? = some c then some text.tail else none

mutual

/-- `scan_once`: read a document at the front of a text. -/
def scanOnce : Nat → Str → Option (Json F × Str)
  | 0, _ => none
  | _ + 1, [] => none
  | fuel + 1, c :: rest =>
      if c = ord '"' then (scanString rest).map fun r => (.str r.1, r.2)
      else if c = ord '\x7b' then
        match expect (ord '\x7d') (skipSpace rest) with
        | some rest => some (.obj [], rest)
        | none => (scanMembers fuel (skipSpace rest)).map fun r => (.obj r.1, r.2)
      else if c = ord '[' then
        match expect (ord ']') (skipSpace rest) with
        | some rest => some (.arr [], rest)
        | none => (scanItems fuel (skipSpace rest)).map fun r => (.arr r.1, r.2)
      else (scanNumber (c :: rest)).or (scanConstant (c :: rest))

/-- Read items up to the closing bracket. -/
def scanItems : Nat → Str → Option (List (Json F) × Str)
  | 0, _ => none
  | fuel + 1, text => do
      let (item, rest) ← scanOnce fuel text
      match expect (ord ']') (skipSpace rest) with
      | some rest => some ([item], rest)
      | none =>
          let rest ← expect (ord ',') (skipSpace rest)
          let (items, rest) ← scanItems fuel (skipSpace rest)
          some (item :: items, rest)

/-- Read members up to the closing brace. -/
def scanMembers : Nat → Str → Option (List (Str × Json F) × Str)
  | 0, _ => none
  | fuel + 1, text => do
      let (key, rest) ← scanString (← expect (ord '"') text)
      let rest ← expect (ord ':') (skipSpace rest)
      let (value, rest) ← scanOnce fuel (skipSpace rest)
      match expect (ord '\x7d') (skipSpace rest) with
      | some rest => some ([(key, value)], rest)
      | none =>
          let rest ← expect (ord ',') (skipSpace rest)
          let (members, rest) ← scanMembers fuel (skipSpace rest)
          some ((key, value) :: members, rest)

end

/-- `json.loads(text)`. Every step of the reader but the last takes a character or
goes from a list to an item, so this much fuel is enough. -/
def loads (text : Str) : Option (Json F) := do
  let (document, rest) ← scanOnce (2 * text.length + 1) (skipSpace text)
  if skipSpace rest = [] then some document else none

end Reading

/-! ### Reading numbers -/

theorem skipSpace_of_not {c : Nat} (h : isSpace c = false) (text : Str) :
    skipSpace (c :: text) = c :: text :=
  List.dropWhile_cons_of_neg (by simp [h])

@[simp] theorem skipSpace_newLine (level : Nat) (text : Str) :
    skipSpace (newLine level ++ text) = skipSpace text := by
  refine List.dropWhile_append_of_pos fun c hc => ?_
  cases hc with
  | head => rfl
  | tail _ hblank =>
      obtain rfl := List.eq_of_mem_replicate hblank
      rfl

/-- The digits of a positive number do not start with a zero. -/
theorem head?_toDigits_ne {n : Nat} (h : n ≠ 0) : (Nat.toDigits 10 n).head? ≠ some '0' := by
  induction n using Nat.strongRecOn with
  | ind n ih =>
      by_cases hlt : n < 10
      · rw [Nat.toDigits_of_lt_base hlt]
        have hdigits : ∀ d < 10, d ≠ 0 → [d.digitChar].head? ≠ some '0' := by decide
        exact hdigits n hlt h
      · have hdiv := ih (n / 10) (by omega) (by omega)
        rw [Nat.toDigits_of_base_le (by decide) (Nat.not_lt.mp hlt)]
        cases hdigits : Nat.toDigits 10 (n / 10) with
        | nil => exact absurd hdigits Nat.toDigits_ne_nil
        | cons d ds =>
            rw [hdigits] at hdiv
            exact hdiv

/-- What may stand behind a number. -/
def Delimited (rest : Str) : Prop := ∀ c, rest.head? = some c → isDigit c = false ∧
  (c ≠ ord '.' ∧ c ≠ ord 'e' ∧ c ≠ ord 'E')

theorem delimited_newLine (level : Nat) (rest : Str) : Delimited (newLine level ++ rest) := by
  intro c hc
  obtain rfl := Option.some.inj hc
  decide

theorem delimited_cons {c : Nat} (h : isDigit c = false ∧ (c ≠ ord '.' ∧ c ≠ ord 'e' ∧ c ≠ ord 'E'))
    (rest : Str) : Delimited (c :: rest) := by
  intro d hd
  obtain rfl := Option.some.inj hd
  exact h

/-- The digits of a number, as code points. -/
def digits (n : Nat) : Str := (Nat.toDigits 10 n).map Char.toNat

theorem isDigit_digits (n : Nat) : ∀ c ∈ digits n, isDigit c = true := by
  intro c hc
  obtain ⟨d, hd, rfl⟩ := List.mem_map.mp hc
  have hcode := digit_code hd
  simp only [isDigit, Bool.and_eq_true, decide_eq_true_eq]
  exact hcode

theorem number_digits (n : Nat) : number (digits n) = n := by
  have hfold := Nat.ofDigitChars_ten_toDigits (n := n)
  rw [Nat.ofDigitChars_eq_foldl] at hfold
  rw [number, digits, List.foldl_map]
  exact hfold

theorem isWhole_digits (n : Nat) : IsWhole (digits n) := by
  by_cases hn : n = 0
  · subst hn
    exact .inl rfl
  · refine .inr ⟨?_, ?_, isDigit_digits n⟩
    · rw [digits, ne_eq, List.map_eq_nil_iff]
      exact Nat.toDigits_ne_nil
    · have hne := head?_toDigits_ne hn
      rw [digits, List.head?_map, ne_eq, Option.map_eq_some_iff]
      rintro ⟨d, hd, hcode⟩
      rw [hd] at hne
      exact hne (congrArg some (Char.toNat_inj.mp hcode))

/-- No digit comes next. -/
def NoDigit (rest : Str) : Prop := ∀ c, rest.head? = some c → isDigit c = false

theorem Delimited.noDigit {rest : Str} (h : Delimited rest) : NoDigit rest := fun c hc => (h c hc).1

theorem takeWhile_isDigit {ds rest : Str} (h : ∀ c ∈ ds, isDigit c = true) (hrest : NoDigit rest) :
    (ds ++ rest).takeWhile isDigit = ds := by
  rw [List.takeWhile_append_of_pos h]
  cases rest with
  | nil => simp
  | cons c rest => rw [List.takeWhile_cons_of_neg (by simp [hrest c rfl]), List.append_nil]

theorem IsWhole.isDigit_head {whole : Str} (h : IsWhole whole) :
    ∃ c rest, whole = c :: rest ∧ isDigit c = true := by
  obtain rfl | ⟨hne, -, hdigits⟩ := h
  · exact ⟨_, [], rfl, by decide⟩
  · obtain ⟨c, rest, rfl⟩ := List.exists_cons_of_ne_nil hne
    exact ⟨c, rest, rfl, hdigits c List.mem_cons_self⟩

theorem wholePart_append {whole rest : Str} (h : IsWhole whole) (hrest : NoDigit rest) :
    wholePart (whole ++ rest) = whole := by
  unfold wholePart
  obtain rfl | ⟨hne, hzero, hdigits⟩ := h
  · rfl
  · obtain ⟨c, ds, rfl⟩ := List.exists_cons_of_ne_nil hne
    rw [if_neg (by simpa using hzero)]
    exact takeWhile_isDigit hdigits hrest

theorem fractionPart_append {fraction rest : Str} (h : IsFraction fraction) (hrest : NoDigit rest)
    (hdot : rest.head? ≠ some (ord '.')) : fractionPart (fraction ++ rest) = fraction := by
  obtain rfl | ⟨ds, rfl, hne, hdigits⟩ := h
  · cases rest with
    | nil => rfl
    | cons c rest =>
        have hc : c ≠ ord '.' := fun heq => hdot (congrArg some heq)
        simp [fractionPart, hc]
  · simp [fractionPart, takeWhile_isDigit hdigits hrest, hne]

theorem exponentPart_append {exponent rest : Str} (h : IsExponent exponent)
    (hrest : Delimited rest) : exponentPart (exponent ++ rest) = exponent := by
  obtain rfl | ⟨sign, ds, rfl, hsign, hne, hdigits⟩ := h
  · cases rest with
    | nil => rfl
    | cons c rest =>
        obtain ⟨-, -, he, hE⟩ := hrest c rfl
        simp [exponentPart, he, hE]
  · have hsigned : sign = ord '-' ∨ sign = ord '+' := hsign
    simp [exponentPart, hsigned, takeWhile_isDigit hdigits hrest.noDigit, hne]

theorem IsExponent.delimited {exponent rest : Str} (h : IsExponent exponent)
    (hrest : Delimited rest) :
    NoDigit (exponent ++ rest) ∧ (exponent ++ rest).head? ≠ some (ord '.') := by
  obtain rfl | ⟨sign, ds, rfl, -⟩ := h
  · exact ⟨hrest.noDigit, fun hdot => (hrest _ hdot).2.1 rfl⟩
  · refine ⟨fun c hc => ?_, fun hdot => absurd (Option.some.inj hdot) (by decide)⟩
    obtain rfl := Option.some.inj hc
    decide

theorem IsFraction.noDigit {fraction rest : Str} (h : IsFraction fraction) (hrest : NoDigit rest) :
    NoDigit (fraction ++ rest) := by
  obtain rfl | ⟨ds, rfl, -⟩ := h
  · exact hrest
  · intro c hc
    obtain rfl := Option.some.inj hc
    decide

section ReadBack

variable [FloatFormat F]

/-- Reading back a number. -/
theorem scanNumber_append (negative : Bool) {whole fraction exponent rest : Str}
    (hwhole : IsWhole whole) (hfraction : IsFraction fraction) (hexponent : IsExponent exponent)
    (hrest : Delimited rest) :
    scanNumber (F := F) (signText negative ++ (whole ++ (fraction ++ (exponent ++ rest)))) =
      some (if fraction = [] ∧ exponent = [] then
          .int (if negative then -(number whole : Int) else number whole)
        else .float
          (FloatFormat.float (signText negative ++ (whole ++ (fraction ++ exponent)))), rest) := by
  obtain ⟨hdigit, hdot⟩ := hexponent.delimited hrest
  have hnegative :
      decide ((signText negative ++ (whole ++ (fraction ++ (exponent ++ rest)))).head? =
        some (ord '-')) = negative := by
    cases negative with
    | true => rfl
    | false =>
        obtain ⟨c, ds, rfl, hc⟩ := hwhole.isDigit_head
        have hne : c ≠ ord '-' := by
          rintro rfl
          cases hc
        simpa [signText] using hne
  have hne : whole ≠ [] := by
    obtain ⟨c, ds, rfl, -⟩ := hwhole.isDigit_head
    exact List.cons_ne_nil c ds
  rw [scanNumber]
  simp only [hnegative, List.drop_left, wholePart_append hwhole (hfraction.noDigit hdigit),
    fractionPart_append hfraction hdigit hdot, exponentPart_append hexponent hrest, if_neg hne]
  split <;> rfl

/-- Reading back an integer. -/
theorem scanNumber_str (i : Int) {rest : Str} (h : Delimited rest) :
    scanNumber (F := F) (Text.str i ++ rest) = some (.int i, rest) := by
  have hread (negative : Bool) (n : Nat) :=
    scanNumber_append (F := F) negative (isWhole_digits n) (.inl rfl) (.inl rfl) h
  cases i with
  | ofNat n =>
      refine (hread false n).trans ?_
      rw [number_digits]
      rfl
  | negSucc n =>
      refine (hread true (n + 1)).trans ?_
      rw [number_digits]
      rfl

/-- Reading back a number that is no integer. -/
theorem scanNumber_text (x : F) {rest : Str} (h : Delimited rest) :
    scanNumber (F := F) ((FloatFormat.repr x).text ++ rest) = some (.float (.finite x), rest) := by
  have hread := scanNumber_append (F := F) (FloatFormat.repr x).negative
    (FloatFormat.repr x).isWhole (FloatFormat.repr x).isFraction (FloatFormat.repr x).isExponent h
  rw [if_neg (FloatFormat.repr x).isFloat] at hread
  rw [FloatText.text, List.append_assoc, List.append_assoc, List.append_assoc, hread]
  exact congrArg (fun y => some (Json.float y, rest)) (FloatFormat.float_repr x)

/-! ### Documents -/

mutual

/-- A document as it comes back. -/
def readBack : Json F → Json F
  | .str s => .str (joined s)
  | .arr items => .arr (readBackItems items)
  | .obj members => .obj (readBackMembers members)
  | document => document

def readBackItems : List (Json F) → List (Json F)
  | [] => []
  | item :: items => readBack item :: readBackItems items

def readBackMembers : List (Str × Json F) → List (Str × Json F)
  | [] => []
  | (key, value) :: members => (joined key, readBack value) :: readBackMembers members

end

mutual

/-- All characters are code points. -/
def IsText : Json F → Prop
  | .str s => ∀ c ∈ s, c < 0x110000
  | .arr items => IsTextItems items
  | .obj members => IsTextMembers members
  | _ => True

def IsTextItems : List (Json F) → Prop
  | [] => True
  | item :: items => IsText item ∧ IsTextItems items

def IsTextMembers : List (Str × Json F) → Prop
  | [] => True
  | (key, value) :: members => (∀ c ∈ key, c < 0x110000) ∧ IsText value ∧ IsTextMembers members

end

mutual

/-- The fuel that reading takes. -/
def fuel : Json F → Nat
  | .arr items => fuelItems items + 1
  | .obj members => fuelMembers members + 1
  | _ => 1

def fuelItems : List (Json F) → Nat
  | [] => 0
  | item :: items => fuel item + fuelItems items + 1

def fuelMembers : List (Str × Json F) → Nat
  | [] => 0
  | (_, value) :: members => fuel value + fuelMembers members + 1

end

/-- A character that neither is a space nor ends a list or an object. -/
def Opens (c : Nat) : Prop := isSpace c = false ∧ c ≠ ord ']' ∧ c ≠ ord '\x7d'

instance (c : Nat) : Decidable (Opens c) := inferInstanceAs (Decidable (_ ∧ _))

/-- The first character of a number. -/
theorem number_cons (negative : Bool) {whole : Str} (h : IsWhole whole) (rest : Str) :
    ∃ c text, signText negative ++ (whole ++ rest) = c :: text ∧ Opens c ∧
      (c ≠ ord '"' ∧ c ≠ ord '\x7b' ∧ c ≠ ord '[') := by
  cases negative with
  | true => exact ⟨_, _, rfl, by decide⟩
  | false =>
      obtain ⟨c, digits, rfl, hdigit⟩ := h.isDigit_head
      refine ⟨c, digits ++ rest, rfl, ?_⟩
      simp only [isDigit, Opens, isSpace, Bool.and_eq_true, decide_eq_true_eq,
        Bool.or_eq_false_iff, decide_eq_false_iff_not] at hdigit ⊢
      have : 48 ≤ c ∧ c ≤ 57 := hdigit
      change ((((c ≠ 32 ∧ c ≠ 10) ∧ c ≠ 13) ∧ c ≠ 9) ∧ c ≠ 93 ∧ c ≠ 125) ∧
        (c ≠ 34 ∧ c ≠ 123 ∧ c ≠ 91)
      omega

theorem str_eq_number (i : Int) :
    ∃ negative n, Text.str i = signText negative ++ (digits n ++ []) := by
  cases i with
  | ofNat n => exact ⟨false, n, (List.append_nil _).symm⟩
  | negSucc n => exact ⟨true, n + 1, congrArg (ord '-' :: ·) (List.append_nil _).symm⟩

/-- The text of a document starts with a character that starts no document's end. -/
theorem dumpsAt_cons (level : Nat) (document : Json F) :
    ∃ c text, dumpsAt level document = c :: text ∧ Opens c := by
  cases document with
  | null => exact ⟨_, _, rfl, by decide⟩
  | bool b => cases b <;> exact ⟨_, _, by rw [dumpsAt]; rfl, by decide⟩
  | int i =>
      obtain ⟨negative, n, hi⟩ := str_eq_number i
      obtain ⟨c, text, ht, hc, -⟩ := number_cons negative (isWhole_digits n) []
      exact ⟨c, text, by rw [dumpsAt, hi, ht], hc⟩
  | float x =>
      match x with
      | .nan => exact ⟨_, _, rfl, by decide⟩
      | .infinity true => exact ⟨_, _, rfl, by decide⟩
      | .infinity false => exact ⟨_, _, rfl, by decide⟩
      | .finite x =>
          obtain ⟨c, text, ht, hc, -⟩ := number_cons (FloatFormat.repr x).negative
            (FloatFormat.repr x).isWhole _
          exact ⟨c, text, ht, hc⟩
  | str s => exact ⟨_, _, rfl, by decide⟩
  | arr items =>
      cases items with
      | nil => exact ⟨_, _, rfl, by decide⟩
      | cons item items => exact ⟨_, _, rfl, by decide⟩
  | obj members =>
      cases members with
      | nil => exact ⟨_, _, rfl, by decide⟩
      | cons member members => exact ⟨_, _, rfl, by decide⟩

/-- A number is what `scanOnce` reads at the front of one. -/
theorem scanOnce_of_scanNumber {text rest : Str} {document : Json F}
    (hcons : ∃ c t, text = c :: t ∧ Opens c ∧ (c ≠ ord '"' ∧ c ≠ ord '\x7b' ∧ c ≠ ord '['))
    (hread : scanNumber text = some (document, rest)) (n : Nat) :
    scanOnce (n + 1) text = some (document, rest) := by
  obtain ⟨c, t, rfl, -, hquote, hbrace, hbracket⟩ := hcons
  rw [scanOnce, if_neg hquote, if_neg hbrace, if_neg hbracket, hread, Option.some_or]

theorem scanOnce_int (i : Int) (n : Nat) {rest : Str} (h : Delimited rest) :
    scanOnce (F := F) (n + 1) (Text.str i ++ rest) = some (.int i, rest) := by
  refine scanOnce_of_scanNumber ?_ (scanNumber_str i h) n
  obtain ⟨negative, m, hi⟩ := str_eq_number i
  rw [hi, List.append_nil, List.append_assoc]
  exact number_cons negative (isWhole_digits m) rest

/-- A floating-point number is read back. -/
theorem scanOnce_float (x : PyFloat F) (level n : Nat) {rest : Str} (h : Delimited rest) :
    scanOnce (n + 1) (dumpsAt level (.float x) ++ rest) = some (.float x, rest) := by
  match x with
  | .nan => rfl
  | .infinity true => rfl
  | .infinity false => rfl
  | .finite x =>
      refine scanOnce_of_scanNumber ?_ (scanNumber_text x h) n
      rw [FloatText.text, List.append_assoc, List.append_assoc]
      exact number_cons _ (FloatFormat.repr x).isWhole _

@[simp] theorem expect_self (c : Nat) (text : Str) : expect c (c :: text) = some text := by
  simp [expect]

theorem expect_ne {c d : Nat} (h : d ≠ c) (text : Str) : expect c (d :: text) = none := by
  simp [expect, h]

theorem skipSpace_dumpsAt (level : Nat) (document : Json F) (text : Str) :
    skipSpace (dumpsAt level document ++ text) = dumpsAt level document ++ text := by
  obtain ⟨c, t, ht, hc⟩ := dumpsAt_cons level document
  rw [ht, List.cons_append, skipSpace_of_not hc.1]

/-- A string is read back at any depth. -/
theorem scanOnce_quote {s : Str} (hs : ∀ c ∈ s, c < 0x110000) (n : Nat) (rest : Str) :
    scanOnce (F := F) (n + 1) (quote s ++ rest) = some (.str (joined s), rest) := by
  rw [quote, List.cons_append, List.append_assoc, scanOnce, if_pos rfl]
  rw [List.singleton_append, scanString_escaped hs]
  rfl

theorem skipSpace_quote (s text : Str) : skipSpace (quote s ++ text) = quote s ++ text :=
  skipSpace_of_not rfl _

theorem expect_quote (s text : Str) :
    expect (ord '"') (quote s ++ text) = some (s.flatMap escapeChar ++ ord '"' :: text) := by
  rw [quote, List.cons_append, expect_self, List.append_assoc, List.singleton_append]

theorem skipSpace_colon (text : Str) :
    skipSpace (lit ": " ++ text) = ord ':' :: ord ' ' :: text := rfl

theorem skipSpace_blank (text : Str) : skipSpace (ord ' ' :: text) = skipSpace text := rfl

mutual

/-- Reading back a document in front of any text. -/
theorem scanOnce_dumpsAt : ∀ (document : Json F) (level n : Nat) (rest : Str), IsText document →
    fuel document ≤ n → Delimited rest →
    scanOnce n (dumpsAt level document ++ rest) = some (readBack document, rest)
  | document, _, 0, _, _, hfuel, _ => by
      cases document <;> simp [fuel] at hfuel
  | .null, _, _ + 1, _, _, _, _ => rfl
  | .bool true, _, _ + 1, _, _, _, _ => rfl
  | .bool false, _, _ + 1, _, _, _, _ => rfl
  | .int i, _, n + 1, rest, _, _, hrest => by
      rw [dumpsAt, readBack]
      · exact scanOnce_int i n hrest
      all_goals simp
  | .float x, level, n + 1, rest, _, _, hrest => by
      rw [readBack]
      · exact scanOnce_float x level n hrest
      all_goals simp
  | .str s, _, n + 1, rest, htext, _, _ => by
      rw [dumpsAt, readBack]
      exact scanOnce_quote htext n rest
  | .arr [], _, n + 1, rest, _, _, _ => rfl
  | .arr (item :: items), level, n + 1, rest, htext, hfuel, _ => by
      have hitems := scanItems_dumpsItems (item :: items) item items rfl (level + 1) level n rest
        htext (Nat.le_of_succ_le_succ hfuel)
      obtain ⟨c, t, ht, -, hclose, -⟩ := dumpsAt_cons (level + 1) item
      have hnone : ∀ text, expect (ord ']') (dumpsAt (level + 1) item ++ text) = none := by
        intro text
        rw [ht, List.cons_append, expect_ne hclose]
      simp only [dumpsAt, List.cons_append, List.append_assoc, List.nil_append]
      rw [scanOnce, if_neg (by decide), if_neg (by decide), if_pos rfl, skipSpace_newLine,
        skipSpace_dumpsAt, hnone, hitems]
      rfl
  | .obj [], _, n + 1, rest, _, _, _ => rfl
  | .obj ((key, value) :: members), level, n + 1, rest, htext, hfuel, _ => by
      have hmembers := scanMembers_dumpsMembers ((key, value) :: members) key value members rfl
        (level + 1) level n rest htext (Nat.le_of_succ_le_succ hfuel)
      have hnone : ∀ text, expect (ord '\x7d') (quote key ++ text) = none := fun text =>
        expect_ne (by decide) _
      simp only [dumpsAt, List.cons_append, List.append_assoc, List.nil_append]
      rw [scanOnce, if_neg (by decide), if_pos rfl, skipSpace_newLine,
        skipSpace_quote, hnone, hmembers]
      rfl

/-- Reading back the items of a list that is not empty. -/
theorem scanItems_dumpsItems : ∀ (items : List (Json F)) (first : Json F) (others : List (Json F)),
    items = first :: others → ∀ (level outer n : Nat) (rest : Str), IsTextItems items →
    fuelItems items ≤ n →
    scanItems n (dumpsAt level first ++ (dumpsItems level others ++
      (newLine outer ++ ord ']' :: rest))) = some (readBackItems items, rest)
  | [], _, _, hitems, _, _, _, _, _, _ => by cases hitems
  | first :: others, _, _, rfl, level, outer, n, rest, htext, hfuel => by
      obtain ⟨hfirst, hothers⟩ := htext
      cases n with
      | zero => simp [fuelItems] at hfuel
      | succ n =>
          rw [fuelItems] at hfuel
          cases others with
          | nil =>
              have hread := scanOnce_dumpsAt first level n (newLine outer ++ ord ']' :: rest) hfirst
                (by omega) (delimited_newLine _ _)
              rw [scanItems, dumpsItems, List.nil_append, hread]
              simp only [Option.bind_eq_bind, Option.bind_some, skipSpace_newLine]
              rw [skipSpace_of_not (by decide), expect_self]
              rfl
          | cons second others =>
              have hread := scanOnce_dumpsAt first level n (dumpsItems level (second :: others) ++
                (newLine outer ++ ord ']' :: rest)) hfirst (by omega)
                (delimited_cons (by decide) _)
              have hrest := scanItems_dumpsItems (second :: others) second others rfl level outer n
                rest hothers (by omega)
              rw [scanItems, hread]
              simp only [Option.bind_eq_bind, Option.bind_some, dumpsItems, List.cons_append,
                List.append_assoc]
              rw [skipSpace_of_not (by decide), expect_ne (by decide)]
              simp only [expect_self, Option.bind_some, skipSpace_newLine, skipSpace_dumpsAt, hrest]
              rfl

/-- Reading back the members of an object that is not empty. -/
theorem scanMembers_dumpsMembers : ∀ (members : List (Str × Json F)) (key : Str) (value : Json F)
    (others : List (Str × Json F)), members = (key, value) :: others →
    ∀ (level outer n : Nat) (rest : Str), IsTextMembers members → fuelMembers members ≤ n →
    scanMembers n (quote key ++ (lit ": " ++ (dumpsAt level value ++ (dumpsMembers level others ++
      (newLine outer ++ ord '\x7d' :: rest))))) = some (readBackMembers members, rest)
  | [], _, _, _, hmembers, _, _, _, _, _, _ => by cases hmembers
  | (key, value) :: others, _, _, _, rfl, level, outer, n, rest, htext, hfuel => by
      obtain ⟨hkey, hvalue, hothers⟩ := htext
      cases n with
      | zero => simp [fuelMembers] at hfuel
      | succ n =>
          rw [fuelMembers] at hfuel
          cases others with
          | nil =>
              have hread := scanOnce_dumpsAt value level n (newLine outer ++ ord '\x7d' :: rest)
                hvalue (by omega) (delimited_newLine _ _)
              rw [scanMembers, expect_quote, dumpsMembers, List.nil_append]
              simp only [Option.bind_eq_bind, Option.bind_some, scanString_escaped hkey,
                skipSpace_colon, expect_self, skipSpace_blank, skipSpace_dumpsAt, hread,
                skipSpace_newLine]
              rw [skipSpace_of_not (by decide), expect_self]
              rfl
          | cons second others =>
              obtain ⟨secondKey, secondValue⟩ := second
              have hread := scanOnce_dumpsAt value level n
                (dumpsMembers level ((secondKey, secondValue) :: others) ++
                  (newLine outer ++ ord '\x7d' :: rest)) hvalue (by omega)
                (delimited_cons (by decide) _)
              have hrest := scanMembers_dumpsMembers ((secondKey, secondValue) :: others) secondKey
                secondValue others rfl level outer n rest hothers (by omega)
              rw [scanMembers, expect_quote]
              simp only [Option.bind_eq_bind, Option.bind_some, scanString_escaped hkey,
                skipSpace_colon, expect_self, skipSpace_blank, skipSpace_dumpsAt, hread]
              simp only [dumpsMembers, List.cons_append, List.append_assoc]
              rw [skipSpace_of_not (by decide), expect_ne (by decide)]
              simp only [expect_self, Option.bind_some, skipSpace_newLine, skipSpace_quote, hrest]
              rfl

end

theorem two_le_length (level : Nat) (document : Json F) :
    2 ≤ 2 * (dumpsAt level document).length := by
  obtain ⟨c, text, h, -⟩ := dumpsAt_cons level document
  rw [h, List.length_cons]
  omega

mutual

/-- The fuel of `loads` is enough for what `dumps` writes. -/
theorem fuel_le : ∀ (document : Json F) (level : Nat),
    fuel document + 1 ≤ 2 * (dumpsAt level document).length
  | .null, level => two_le_length level .null
  | .bool b, level => two_le_length level (.bool b)
  | .int i, level => two_le_length level (.int i)
  | .float x, level => two_le_length level (.float x)
  | .str s, level => two_le_length level (.str s)
  | .arr [], level => two_le_length level (.arr [])
  | .arr (item :: items), level => by
      have hitem := fuel_le item (level + 1)
      have hitems := fuelItems_le items (level + 1)
      simp only [fuel, fuelItems, dumpsAt, List.length_cons, List.length_append]
      omega
  | .obj [], level => two_le_length level (.obj [])
  | .obj ((_, value) :: members), level => by
      have hvalue := fuel_le value (level + 1)
      have hmembers := fuelMembers_le members (level + 1)
      simp only [fuel, fuelMembers, dumpsAt, List.length_cons, List.length_append]
      omega

theorem fuelItems_le : ∀ (items : List (Json F)) (level : Nat),
    fuelItems items ≤ 2 * (dumpsItems level items).length
  | [], _ => Nat.zero_le _
  | item :: items, level => by
      have hitem := fuel_le item level
      have hitems := fuelItems_le items level
      simp only [fuelItems, dumpsItems, List.length_cons, List.length_append]
      omega

theorem fuelMembers_le : ∀ (members : List (Str × Json F)) (level : Nat),
    fuelMembers members ≤ 2 * (dumpsMembers level members).length
  | [], _ => Nat.zero_le _
  | (_, value) :: members, level => by
      have hvalue := fuel_le value level
      have hmembers := fuelMembers_le members level
      simp only [fuelMembers, dumpsMembers, List.length_cons, List.length_append]
      omega

end

/-- `json.loads` reads back what `json.dumps` writes. -/
theorem loads_dumps {document : Json F} (h : IsText document) :
    loads (dumps document) = some (readBack document) := by
  have hspace := skipSpace_dumpsAt 0 document []
  have hread := scanOnce_dumpsAt document 0 (2 * (dumpsAt 0 document).length + 1) [] h
    (by have := fuel_le document 0; omega) (fun c hc => nomatch hc)
  rw [List.append_nil] at hspace hread
  rw [loads, dumps, hspace, hread]
  rfl

end ReadBack

end Json
