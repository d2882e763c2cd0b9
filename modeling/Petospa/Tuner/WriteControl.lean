import Petospa.Lib.Dict
import Petospa.Lib.Infix
import Petospa.Tuner.Explorer

/-!
# Writing settled choices into a source file

`writeControl` regroups choices by function and kind, takes the strings of an
earlier call out of the source file and appends new declarations that continue
them. A file is the text that Python's text layer decodes and encodes, with `\n` as
`os.linesep`; its stem is what `getFileName` returns.
-/

namespace Petospa

open Text

/-! ### Lines of a text file -/

def newline : Nat := ord '\n'

def carriageReturn : Nat := ord '\r'

/-- A text as it is read behind a character, which may be the first one of `\r\n`. -/
def translateNewlines : Bool → Str → Str
  | _, [] => []
  | afterReturn, c :: text =>
      if c = carriageReturn then newline :: translateNewlines true text
      else if c = newline ∧ afterReturn then translateNewlines false text
      else c :: translateNewlines false text

/-- The text layer reads `\r\n` and `\r` as newlines. -/
def universalNewlines (text : Str) : Str := translateNewlines false text

theorem carriageReturn_notMem_translateNewlines (afterReturn : Bool) (text : Str) :
    carriageReturn ∉ translateNewlines afterReturn text := by
  induction text generalizing afterReturn with
  | nil => exact List.not_mem_nil
  | cons c text ih =>
      rw [translateNewlines]
      split
      · exact List.not_mem_cons_of_ne_of_not_mem (by decide) (ih true)
      · rename_i hc
        split
        · exact ih false
        · exact List.not_mem_cons_of_ne_of_not_mem (fun heq => hc heq.symm) (ih false)

theorem carriageReturn_notMem_universalNewlines (text : Str) :
    carriageReturn ∉ universalNewlines text :=
  carriageReturn_notMem_translateNewlines false text

theorem universalNewlines_of_notMem {text : Str} (h : carriageReturn ∉ text) :
    universalNewlines text = text := by
  induction text with
  | nil => rfl
  | cons c text ih =>
      rw [List.mem_cons, not_or] at h
      have hc : ¬ c = carriageReturn := fun heq => h.1 heq.symm
      rw [universalNewlines, translateNewlines, if_neg hc, if_neg (by simp)]
      exact congrArg (List.cons c) (ih h.2)

theorem universalNewlines_universalNewlines (text : Str) :
    universalNewlines (universalNewlines text) = universalNewlines text :=
  universalNewlines_of_notMem (carriageReturn_notMem_universalNewlines text)

/-- A newline at the end is read, if it is not the second character of `\r\n`. -/
theorem getLast?_translateNewlines {text : Str} (h : text.getLast? = some newline)
    (afterReturn : Bool) : (translateNewlines afterReturn text).getLast? = some newline ∨
      afterReturn = true ∧ translateNewlines afterReturn text = [] := by
  induction text generalizing afterReturn with
  | nil => cases h
  | cons c text ih =>
      have hrest (hne : text ≠ []) : text.getLast? = some newline := by
        rwa [List.getLast?_cons_of_ne_nil hne] at h
      have hgrow {b : Bool} (d : Nat) (hlast : (translateNewlines b text).getLast? = some newline) :
          (d :: translateNewlines b text).getLast? = some newline := by
        rw [List.getLast?_cons, hlast]
        rfl
      rw [translateNewlines]
      by_cases hne : text = []
      · subst hne
        obtain rfl : c = newline := Option.some.inj h
        cases afterReturn with
        | false => exact .inl rfl
        | true => exact .inr ⟨rfl, rfl⟩
      · have hlast := (ih (hrest hne) false).resolve_right (by simp)
        split
        · obtain hend | ⟨-, hnil⟩ := ih (hrest hne) true
          · exact .inl (hgrow newline hend)
          · exact .inl (by rw [hnil]; rfl)
        · split
          · exact .inl hlast
          · exact .inl (hgrow c hlast)

theorem getLast?_universalNewlines {text : Str} (h : text.getLast? = some newline) :
    (universalNewlines text).getLast? = some newline :=
  (getLast?_translateNewlines h false).resolve_right (by simp)

/-- The lines of a text, with their newlines. -/
def splitLines : Str → List Str
  | [] => []
  | c :: text =>
      if c = newline then [c] :: splitLines text
      else
        match splitLines text with
        | [] => [[c]]
        | line :: lines => (c :: line) :: lines

/-- A line that is ended by its newline. -/
def IsLine (line : Str) : Prop := ∃ body, newline ∉ body ∧ line = body ++ [newline]

theorem splitLines_line_append {line : Str} (h : IsLine line) (text : Str) :
    splitLines (line ++ text) = line :: splitLines text := by
  obtain ⟨body, hbody, rfl⟩ := h
  induction body with
  | nil => simp [splitLines]
  | cons c body ih =>
      rw [List.mem_cons, not_or] at hbody
      have hc : ¬ c = newline := fun heq => hbody.1 heq.symm
      have htail := ih hbody.2
      simp only [List.append_assoc, List.cons_append] at htail ⊢
      rw [splitLines, if_neg hc, htail]

/-- Lines that were written are the lines that are read. -/
theorem splitLines_flatten {lines : List Str} (h : ∀ line ∈ lines, IsLine line) :
    splitLines lines.flatten = lines := by
  induction lines with
  | nil => rfl
  | cons line lines ih =>
      rw [List.flatten_cons, splitLines_line_append (h line List.mem_cons_self),
        ih fun l hl => h l (List.mem_cons_of_mem _ hl)]

theorem flatten_splitLines (text : Str) : (splitLines text).flatten = text := by
  induction text with
  | nil => rfl
  | cons c text ih =>
      rw [splitLines]
      split
      · rw [List.flatten_cons, ih]
        rfl
      · split
        · rename_i hempty
          rw [hempty] at ih
          rw [← ih]
          rfl
        · rename_i line lines hlines
          rw [hlines] at ih
          rw [← ih]
          rfl

/-- A text that ends in a newline consists of ended lines. -/
theorem isLine_of_mem_splitLines {text : Str} (h : text.getLast? = some newline) {line : Str}
    (hline : line ∈ splitLines text) : IsLine line := by
  induction text generalizing line with
  | nil => cases hline
  | cons c text ih =>
      have hrest : text ≠ [] → text.getLast? = some newline := by
        intro hne
        rwa [List.getLast?_cons_of_ne_nil hne] at h
      rw [splitLines] at hline
      split at hline
      · rename_i hc
        rcases List.mem_cons.mp hline with rfl | hline
        · exact ⟨[], List.not_mem_nil, by rw [hc, List.nil_append]⟩
        · cases text with
          | nil => cases hline
          | cons d text => exact ih (hrest (List.cons_ne_nil d text)) hline
      · rename_i hc
        have hne : text ≠ [] := by
          rintro rfl
          exact hc (Option.some.inj h)
        split at hline
        · rename_i hempty
          have hflat := flatten_splitLines text
          rw [hempty] at hflat
          exact absurd hflat.symm hne
        · rename_i first lines hlines
          rcases List.mem_cons.mp hline with rfl | hline
          · have hfirst : first ∈ splitLines text := by simp [hlines]
            obtain ⟨body, hbody, rfl⟩ := ih (hrest hne) hfirst
            refine ⟨c :: body, ?_, rfl⟩
            rw [List.mem_cons, not_or]
            exact ⟨fun heq => hc heq.symm, hbody⟩
          · exact ih (hrest hne) (by simp [hlines, hline])

/-- `fd.readlines()` of a file that is opened with `'r'`. -/
def readlines (text : Str) : List Str := splitLines (universalNewlines text)

theorem readlines_of_notMem {text : Str} (h : carriageReturn ∉ text) :
    readlines text = splitLines text := by
  rw [readlines, universalNewlines_of_notMem h]

/-- What was translated once is read as it is. -/
theorem readlines_universalNewlines (text : Str) :
    readlines (universalNewlines text) = readlines text := by
  rw [readlines, readlines, universalNewlines_universalNewlines]

theorem carriageReturn_notMem_of_mem_readlines {text line : Str} (h : line ∈ readlines text) :
    carriageReturn ∉ line := by
  intro hmem
  apply carriageReturn_notMem_universalNewlines text
  rw [← flatten_splitLines (universalNewlines text)]
  exact List.mem_flatten.mpr ⟨line, h, hmem⟩

/-! ### The function -/

/-- `oc.function.replace('.', '_')`. -/
def OptimisticChoice.cName (oc : OptimisticChoice) : Str :=
  oc.function.map fun c => if c = ord '.' then ord '_' else c

/-- `c2cs`: the characters of the values of one function, by kind; an old string
of the function is kept under -1. -/
abbrev KindStrings := Dict Int Str

/-- `f2_c2cs`. -/
abbrev FunctionStrings := Dict Str KindStrings

/-- The loop over the choices. -/
def collect : List OptimisticChoice → FunctionStrings → Except Fault FunctionStrings
  | [], f2c2cs => .ok f2c2cs
  | oc :: ocs, f2c2cs =>
      if oc.opportunityNo < 0 then collect ocs f2c2cs
      else if oc.fixed then
        collect ocs (f2c2cs.modify oc.cName .empty fun c2cs =>
          c2cs.modify oc.opportunityNo [] (· ++ [optionChar oc.value]))
      else .error .assertion

/-- What becomes of a line of the file. -/
inductive LineUse where
  | included
  | excluded
  | old (f cs : Str)

def keepAlive (f : Str) : Str := lit "KeepAlive_" ++ f

def declarator (f : Str) : Str := f ++ lit "_OptimisticChoices"

/-- `f'{f}_OptimisticChoices = "'`. -/
def declaration (f : Str) : Str := declarator f ++ lit " = \""

/-- The text between the first two quotes of a line. -/
def quoted (line : Str) : Str :=
  ((line.dropWhile (· ≠ ord '"')).drop 1).takeWhile (· ≠ ord '"')

/-- The loop over the functions for a line: `in` is a substring test. -/
def useLine (line : Str) : List Str → Except Fault LineUse
  | [] => .ok .included
  | f :: fs =>
      if keepAlive f <:+: line then .ok .excluded
      else if declaration f <:+: line then
        if line.count (ord '"') = 2 then .ok (.old f (quoted line)) else .error .assertion
      else useLine line fs

/-- The loop over the lines of the file. -/
def readOld : List Str → FunctionStrings → List Str → Except Fault (FunctionStrings × List Str)
  | [], f2c2cs, lines => .ok (f2c2cs, lines)
  | line :: rest, f2c2cs, lines => do
      match ← useLine line f2c2cs.keys with
      | .included => readOld rest f2c2cs (lines ++ [line])
      | .excluded => readOld rest f2c2cs lines
      | .old f cs => readOld rest (f2c2cs.modify f .empty (·.set (-1) cs)) lines

/-- The loop over `c2cs.items()`, with `pre_cs` and `cs` so far. -/
def glue : List (Int × Str) → Str → Str → Except Fault Str
  | [], preCs, cs => .ok (preCs ++ cs)
  | (k, v) :: items, preCs, cs =>
      if 0 ≤ k then glue items preCs (cs ++ [ord '#', ord 'c', optionChar k.toNat] ++ v)
      else if preCs = [] then glue items v cs
      else .error .assertion

/-- The two lines that are generated for a function. -/
def declarationLine (f cs : Str) : Str :=
  lit "static const char *" ++ declaration f ++ cs ++ lit "\";" ++ [newline]

def keepAliveLine (stem f : Str) : Str :=
  lit "const char **" ++ keepAlive f ++ lit "_" ++ stem ++ lit " = " ++
    (lit "&" ++ declarator f ++ lit ";" ++ [newline])

/-- The lines that are appended for a function. -/
def annotationText (stem : Str) (e : Str × KindStrings) : Except Fault Str := do
  let cs ← glue e.2.entries [] []
  return declarationLine e.1 cs ++ keepAliveLine stem e.1

def writeControl (stem text : Str) (optimisticChoices : List OptimisticChoice) :
    Except Fault Str := do
  let f2c2cs ← collect optimisticChoices .empty
  let (f2c2cs, lines) ← readOld (readlines text) f2c2cs []
  let generated ← f2c2cs.entries.mapM (annotationText stem)
  return (lines ++ [[], []] ++ generated).flatten

end Petospa
