import Petospa.Lib.Text

/-!
# String literals of C

A compiler first looks for the end of a literal and then replaces its escape
sequences. Lines are taken to be spliced already, and trigraphs to be off.
-/

namespace CLiteral

open Text

/-- The spelling of a literal, from behind its opening quote up to the closing
one. A backslash hides the character behind it; the literal ends in its line. -/
def spelling : Bool → Str → Option Str
  | _, [] => none
  | escaped, c :: rest =>
      if c = ord '\n' ∨ c = ord '\r' then none
      else if escaped then (spelling false rest).map (c :: ·)
      else if c = ord '"' then some []
      else (spelling (c = ord '\\') rest).map (c :: ·)

/-- Where the replacement of escape sequences stands. -/
inductive EscapeMode where
  | plain
  /-- Behind a backslash. -/
  | escaped
  | octal (value digits : Nat)
  | hex (value : Option Nat)
  /-- In a universal character name. -/
  | universal (missing value : Nat)

/-- The escapes of one character; an unknown one stands for itself. -/
def simpleEscape (c : Nat) : Nat :=
  if c = ord 'a' then 7
  else if c = ord 'b' then 8
  else if c = ord 'e' ∨ c = ord 'E' then 27
  else if c = ord 'f' then 12
  else if c = ord 'n' then 10
  else if c = ord 'r' then 13
  else if c = ord 't' then 9
  else if c = ord 'v' then 11
  else c

def octalDigit (c : Nat) : Option Nat :=
  if ord '0' ≤ c ∧ c ≤ ord '7' then some (c - ord '0') else none

def hexDigit (c : Nat) : Option Nat :=
  if ord '0' ≤ c ∧ c ≤ ord '9' then some (c - ord '0')
  else if ord 'A' ≤ c ∧ c ≤ ord 'F' then some (c - ord 'A' + 10)
  else if ord 'a' ≤ c ∧ c ≤ ord 'f' then some (c - ord 'a' + 10)
  else none

/-- The byte of a numeric escape. -/
def charByte (value : Nat) : Option (List Nat) := if value < 256 then some [value] else none

/-- The bytes of a universal character name. -/
def universalBytes (value : Nat) : Option (List Nat) :=
  if value < 0xA0 ∧ value ≠ ord '$' ∧ value ≠ ord '@' ∧ value ≠ 0x60 then none
  else utf8Char value

/-- The bytes that a byte of the spelling completes, and the mode behind it. -/
def plainStep (c : Nat) : List Nat × EscapeMode :=
  if c = ord '\\' then ([], .escaped) else ([c], .plain)

def step : EscapeMode → Nat → Option (List Nat × EscapeMode)
  | .plain, c => some (plainStep c)
  | .escaped, c =>
      match octalDigit c with
      | some d => some ([], .octal d 1)
      | none =>
          if c = ord 'x' then some ([], .hex none)
          else if c = ord 'u' then some ([], .universal 4 0)
          else if c = ord 'U' then some ([], .universal 8 0)
          else some ([simpleEscape c], .plain)
  | .octal value digits, c =>
      match octalDigit c, decide (digits < 3) with
      | some d, true => some ([], .octal (8 * value + d) (digits + 1))
      | _, _ => (charByte value).map fun bytes => (bytes ++ (plainStep c).1, (plainStep c).2)
  | .hex value, c =>
      match hexDigit c, value with
      | some d, _ => some ([], .hex (some (16 * value.getD 0 + d)))
      | none, some value =>
          (charByte value).map fun bytes => (bytes ++ (plainStep c).1, (plainStep c).2)
      | none, none => none
  | .universal missing value, c =>
      match hexDigit c with
      | none => none
      | some d =>
          if missing = 1 then (universalBytes (16 * value + d)).map (·, .plain)
          else some ([], .universal (missing - 1) (16 * value + d))

def finish : EscapeMode → Option (List Nat)
  | .plain => some []
  | .octal value _ => charByte value
  | .hex (some value) => charByte value
  | _ => none

/-- The bytes that a spelling stands for. -/
def expand : EscapeMode → List Nat → Option (List Nat)
  | mode, [] => finish mode
  | mode, c :: rest => do
      let (bytes, mode) ← step mode c
      let rest ← expand mode rest
      return bytes ++ rest

/-- The bytes of the literal behind an opening quote, without the NUL. -/
def content (text : Str) : Option (List Nat) := do
  expand .plain (← utf8 (← spelling false text))

/-- A character that stands for itself in a literal. -/
def Plain (c : Nat) : Prop := c ≠ ord '\n' ∧ c ≠ ord '\r' ∧ c ≠ ord '"' ∧ c ≠ ord '\\'

instance (c : Nat) : Decidable (Plain c) := inferInstanceAs (Decidable (_ ∧ _ ∧ _ ∧ _))

theorem spelling_append {cs : Str} (hcs : ∀ c ∈ cs, Plain c) (rest : Str) :
    spelling false (cs ++ rest) = (spelling false rest).map (cs ++ ·) := by
  induction cs with
  | nil => simp
  | cons c cs ih =>
      obtain ⟨hn, hr, hquote, hback⟩ := hcs c List.mem_cons_self
      have htail := ih fun d hd => hcs d (List.mem_cons_of_mem _ hd)
      rw [List.cons_append, spelling, if_neg (by simp [hn, hr]), if_neg Bool.false_ne_true,
        if_neg hquote, decide_eq_false hback, htail, Option.map_map]
      rfl

theorem expand_of_no_backslash {bytes : List Nat} (h : ∀ c ∈ bytes, c ≠ ord '\\') :
    expand .plain bytes = some bytes := by
  induction bytes with
  | nil => rfl
  | cons c bytes ih =>
      have htail := ih fun d hd => h d (List.mem_cons_of_mem _ hd)
      simp [expand, step, plainStep, h c List.mem_cons_self, htail]

/-- A literal of characters that stand for themselves. -/
theorem content_of_plain {cs : Str} (hcs : ∀ c ∈ cs, Plain c) {bytes : List Nat}
    (hbytes : utf8 cs = some bytes) (h : ∀ c ∈ bytes, c ≠ ord '\\') (rest : Str) :
    content (cs ++ ord '"' :: rest) = some bytes := by
  have hend : spelling false (ord '"' :: rest) = some [] := rfl
  simp only [content, spelling_append hcs, hend, Option.map_some, List.append_nil,
    Option.bind_eq_bind, Option.bind_some, hbytes, expand_of_no_backslash h]

end CLiteral
