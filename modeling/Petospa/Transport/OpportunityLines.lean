import Petospa.Lib.Regex
import Petospa.Lib.Unicode
import Petospa.Transport.Replay

/-!
# Opportunity lines

The annotator prints a line for each query that it answers by default.
`determineOptimisticChoices` decodes what the compiler wrote to its standard
error and reads the choices off the matches of a regular expression.
-/

namespace Petospa

open Text Regex

/-! ### Printing -/

/-- `operator<<` of a kind. -/
def OptimisticChoiceKind.text (kind : OptimisticChoiceKind) : Str :=
  lit "[" ++ kind.label.1 ++ lit "][" ++ kind.label.2 ++ lit "]"

/-- The line that `getOptimisticChoice` prints, without its end. -/
def Opportunity.line (o : Opportunity) : Str :=
  lit "[OC][" ++ str o.numChoices ++ lit "][" ++ str o.choice ++ lit "][" ++ str o.kind.number ++
    lit "][" ++ str o.functionNo ++ lit "]" ++ o.kind.text ++ lit " @ " ++ o.name ++ lit " in " ++
    o.functionName

/-- A complete line on the standard error of the compiler. -/
inductive StderrLine where
  | opportunity (o : Opportunity)
  | other (bytes : List Nat)

namespace StderrLine

def bytes : StderrLine → List Nat
  | opportunity o => (utf8 o.line).getD []
  | other bytes => bytes

def opportunity? : StderrLine → Option Opportunity
  | opportunity o => some o
  | other _ => none

end StderrLine

def stderr (lines : List StderrLine) : List Nat :=
  lines.flatMap fun line => line.bytes ++ [ord '\n']

/-! ### Reading -/

def literal (s : String) : Pattern Nat := (lit s).map .char

/-- `oc_re` behind its anchor. -/
def ocLine : Pattern Nat :=
  List.flatten
    [literal "[OC][", [.group isDecimal 1],
      literal "][", [.many isDecimal 1],
      literal "][", [.group isDecimal 1],
      literal "][", [.group isDecimal 1],
      literal "][", [.group (· ≠ ord ']') 1],
      literal "][", [.group (· ≠ ord ']') 1],
      literal "]", [.many isSpace 0], literal "@ ", [.group (fun c => !isSpace c) 0],
      literal " in ", [.group (· ≠ ord '\n') 0]]

/-- `oc_re.findall`. -/
def findOpportunities (runOutput : Str) : List (List Str) :=
  findAll (ord '\n') (.lineStart :: ocLine) 0 none runOutput

/-- `OptimisticChoice(*match, position)`. An opportunity has at least one option. -/
def OptimisticChoice.ofMatch (groups : List Str) (position : Nat) : Option OptimisticChoice :=
  match groups with
  | [maxOptions, opportunityNo, functionNo, category, kind, name, function] => do
      let opportunityNo ← int opportunityNo
      let functionNo ← int functionNo
      let maxOptions ← int maxOptions
      if h : 0 < maxOptions then
        some (.new maxOptions opportunityNo functionNo category kind name function position h)
      else none
  | _ => none

/-- The lists of an experiment. -/
structure ChoiceLists where
  ocWhitelist : Option (List Str)
  ocBlacklist : List Str

/-- A choice that the experiment leaves at 0. -/
def ChoiceLists.skips (lists : ChoiceLists) (oc : OptimisticChoice) : Bool :=
  let label := lit "[" ++ oc.category ++ lit "][" ++ oc.kind ++ lit "]"
  (match lists.ocWhitelist with
    | none => false
    | some whitelist => !whitelist.contains label) || lists.ocBlacklist.contains label

/-- The loop over the matches, from a position on. -/
def readMatches (lists : ChoiceLists) : Nat → List (List Str) → Option (List OptimisticChoice)
  | _, [] => some []
  | position, groups :: found => do
      let oc ← OptimisticChoice.ofMatch groups position
      -- a skipped choice is fixed to 0 and not used any more
      if lists.skips oc then readMatches lists position found
      else return oc :: (← readMatches lists (position + 1) found)

/-- `determineOptimisticChoices` from the output of the compiler on; none where it raises. -/
def determineOptimisticChoices (lists : ChoiceLists) (output : List Nat) :
    Option (Nat × List OptimisticChoice) := do
  let runOutput ← decodeUtf8 output
  let found := findOpportunities runOutput
  if found = [] then return (0, [])
  let optimisticChoices ← readMatches lists 0 found
  return if optimisticChoices = [] then (0, []) else (found.length, optimisticChoices)

/-! ### Round trip -/

/-- The texts that a match reports. -/
def Opportunity.groups (o : Opportunity) : List Str :=
  [str o.numChoices, str o.kind.number, str o.functionNo, o.kind.label.1, o.kind.label.2, o.name,
    o.functionName]

theorem label_mem (kind : OptimisticChoiceKind) :
    (kind.label.1 ≠ [] ∧ ∀ c ∈ kind.label.1, c ≠ ord ']' ∧ c ≠ ord '\n' ∧ c < 128) ∧
      kind.label.2 ≠ [] ∧ ∀ c ∈ kind.label.2, c ≠ ord ']' ∧ c ≠ ord '\n' ∧ c < 128 := by
  cases kind <;> decide +kernel

theorem str_length_pos (n : Nat) : 1 ≤ (str n).length := by
  rw [str_natCast, List.length_map]
  exact List.length_pos_iff.mpr Nat.toDigits_ne_nil

/-- Names that are text, without white space and without the end of the line. -/
structure Opportunity.WellNamed (o : Opportunity) : Prop where
  nameText : (utf8 o.name).isSome = true
  name : ∀ c ∈ o.name, isSpace c = false
  functionText : (utf8 o.functionName).isSome = true
  function : ord '\n' ∉ o.functionName

variable {o : Opportunity}

theorem Opportunity.line_eq (o : Opportunity) :
    o.line = lit "[OC][" ++ (str o.numChoices ++ (lit "][" ++ (str o.choice ++ (lit "][" ++
      (str o.kind.number ++ (lit "][" ++ (str o.functionNo ++ (lit "][" ++ (o.kind.label.1 ++
      (lit "][" ++ (o.kind.label.2 ++ (lit "]" ++ (lit " " ++ (lit "@ " ++ (o.name ++ (lit " in " ++
      (o.functionName ++ []))))))))))))))))) := by
  have hbrackets : lit "][" = lit "]" ++ lit "[" := rfl
  have hat : lit " @ " = lit " " ++ lit "@ " := rfl
  simp only [line, OptimisticChoiceKind.text, List.append_assoc, List.append_nil, hbrackets, hat]

theorem Opportunity.WellNamed.covers (h : o.WellNamed) :
    Covers (ord '\n') ocLine o.line o.groups := by
  obtain ⟨⟨hcategory, hcategories⟩, hkind, hkinds⟩ := label_mem o.kind
  have hdigits (n : Nat) : ∀ c ∈ str n, isDecimal c = true := fun c hc => isDecimal_str hc
  have hfunction : ∀ c ∈ o.functionName, decide (c ≠ ord '\n') = true := by
    intro c hc
    exact decide_eq_true fun hnewline => h.function (hnewline ▸ hc)
  rw [line_eq, ocLine]
  simp only [List.flatten_cons, List.flatten_nil, List.singleton_append, literal]
  have hbracket {cls : Nat → Bool} {line : Str} (hcls : cls (ord ']') = false) :
      EndsAt (ord '\n') cls (lit "][" ++ line) := endsAt_append rfl hcls
  refine .chars _ (.group (hdigits _) (hbracket rfl) (str_length_pos _) ?_)
  refine .chars _ (.many (hdigits _) (hbracket rfl) (str_length_pos _) ?_)
  refine .chars _ (.group (hdigits _) (hbracket rfl) (str_length_pos _) ?_)
  refine .chars _ (.group (hdigits _) (hbracket rfl) (str_length_pos _) ?_)
  refine .chars _ (.group (fun c hc => decide_eq_true (hcategories c hc).1) (hbracket rfl)
    (List.length_pos_iff.mpr hcategory) ?_)
  refine .chars _ (.group (fun c hc => decide_eq_true (hkinds c hc).1) (endsAt_append rfl rfl)
    (List.length_pos_iff.mpr hkind) ?_)
  refine .chars _ (.many (by decide) (endsAt_append rfl rfl) (Nat.zero_le _) ?_)
  refine .chars _ (.group (fun c hc => by simp [h.name c hc]) (endsAt_append rfl rfl)
    (Nat.zero_le _) ?_)
  exact .chars _ (.group hfunction (endsAt_nil rfl) (Nat.zero_le _) .nil)

theorem str_ascii {n c : Nat} (hc : c ∈ str n) : c ≠ ord '\n' ∧ c < 128 := by
  rw [str_natCast, List.mem_map] at hc
  obtain ⟨d, hd, rfl⟩ := hc
  obtain ⟨hlow, hhigh⟩ := digit_code hd
  exact ⟨Nat.ne_of_gt (Nat.lt_of_lt_of_le (by decide) hlow), by omega⟩

/-- What stands in front of the value name. -/
def Opportunity.front (o : Opportunity) : Str :=
  lit "[OC][" ++ str o.numChoices ++ lit "][" ++ str o.choice ++ lit "][" ++ str o.kind.number ++
    lit "][" ++ str o.functionNo ++ lit "]" ++ o.kind.text ++ lit " @ "

theorem Opportunity.line_eq_front (o : Opportunity) :
    o.line = o.front ++ (o.name ++ (lit " in " ++ o.functionName)) := by
  simp only [line, front, List.append_assoc]

theorem Opportunity.front_ascii (o : Opportunity) : ∀ c ∈ o.front, c ≠ ord '\n' ∧ c < 128 := by
  obtain ⟨⟨-, hcategories⟩, -, hkinds⟩ := label_mem o.kind
  have hnumber (n : Nat) : ∀ c ∈ str n, c ≠ ord '\n' ∧ c < 128 := fun c hc => str_ascii hc
  have hkind : ∀ c ∈ o.kind.text, c ≠ ord '\n' ∧ c < 128 := by
    simp only [OptimisticChoiceKind.text, List.forall_mem_append]
    exact ⟨⟨⟨⟨by decide, fun c hc => (hcategories c hc).2⟩, by decide⟩,
      fun c hc => (hkinds c hc).2⟩, by decide⟩
  simp only [front, List.forall_mem_append]
  exact ⟨⟨⟨⟨⟨⟨⟨⟨⟨⟨by decide, hnumber _⟩, by decide⟩, hnumber _⟩, by decide⟩, hnumber _⟩, by decide⟩,
    hnumber _⟩, by decide⟩, hkind⟩, by decide⟩

theorem Opportunity.WellNamed.newline_notMem (h : o.WellNamed) : ord '\n' ∉ o.line := by
  rw [o.line_eq_front]
  simp only [List.mem_append, not_or]
  refine ⟨fun hc => (o.front_ascii _ hc).1 rfl, fun hc => ?_, by decide, h.function⟩
  exact absurd (h.name _ hc) (by decide)

theorem Opportunity.WellNamed.exists_utf8 (h : o.WellNamed) :
    ∃ bytes, utf8 o.line = some bytes := by
  obtain ⟨nameBytes, hname⟩ := Option.isSome_iff_exists.mp h.nameText
  obtain ⟨functionBytes, hfunction⟩ := Option.isSome_iff_exists.mp h.functionText
  have hfront := utf8_ascii fun c hc => (o.front_ascii c hc).2
  have hin : utf8 (lit " in ") = some (lit " in ") := utf8_ascii (by decide)
  rw [o.line_eq_front]
  exact ⟨_, utf8_append hfront (utf8_append hname (utf8_append hin hfunction))⟩

theorem Opportunity.WellNamed.foundIn (h : o.WellNamed) :
    FoundIn (ord '\n') ocLine o.line (some o.groups) := by
  refine h.covers.foundIn h.newline_notMem ?_
  rw [line_eq]
  exact List.cons_ne_nil _ _

/-! ### Lines -/

namespace StderrLine

/-- An opportunity with proper names, or a line that is none. -/
def Proper : StderrLine → Prop
  | opportunity o => o.WellNamed
  | other bytes => ord '\n' ∉ bytes ∧ ¬ lit "[OC][" <+: bytes

def IsText (line : StderrLine) : Prop := ∃ text, utf8 text = some line.bytes

def text : StderrLine → Str
  | opportunity o => o.line
  | other bytes => (decodeUtf8 bytes).getD []

theorem utf8_text {line : StderrLine} (hproper : line.Proper) (htext : line.IsText) :
    utf8 line.text = some line.bytes := by
  cases line with
  | opportunity o =>
      obtain ⟨encoded, hencoded⟩ := Opportunity.WellNamed.exists_utf8 hproper
      simp only [StderrLine.text, bytes, hencoded, Option.getD_some]
  | other bytes =>
      obtain ⟨text, htext⟩ := htext
      change utf8 text = some bytes at htext
      rw [StderrLine.text, decodeUtf8_utf8 htext]
      exact htext

/-- What the tuner finds in a line. -/
theorem foundIn {line : StderrLine} (hproper : line.Proper) (htext : line.IsText) :
    FoundIn (ord '\n') ocLine line.text (line.opportunity?.map Opportunity.groups) := by
  have hencoded := utf8_text hproper htext
  cases line with
  | opportunity o => exact Opportunity.WellNamed.foundIn hproper
  | other bytes =>
      obtain ⟨hnewline, hstarts⟩ := hproper
      exact foundIn_none (by decide) (mt (mem_utf8 hencoded (by decide)) hnewline)
        (mt (prefix_utf8 hencoded (by decide)) hstarts)

end StderrLine

/-! ### The whole output -/

def opportunities (lines : List StderrLine) : List Opportunity :=
  lines.filterMap StderrLine.opportunity?

variable {lines : List StderrLine}

theorem utf8_stderr (hproper : ∀ line ∈ lines, line.Proper) (htext : ∀ line ∈ lines, line.IsText) :
    utf8 (lines.flatMap fun line => line.text ++ [ord '\n']) = some (stderr lines) := by
  induction lines with
  | nil => rfl
  | cons line lines ih =>
      obtain ⟨hline, hlines⟩ := List.forall_mem_cons.mp hproper
      obtain ⟨htextLine, htextLines⟩ := List.forall_mem_cons.mp htext
      have hend : utf8 [ord '\n'] = some [ord '\n'] := utf8_ascii (by decide)
      rw [stderr, List.flatMap_cons, List.flatMap_cons]
      exact utf8_append (utf8_append (StderrLine.utf8_text hline htextLine) hend)
        (ih hlines htextLines)

/-- The matches are the opportunities, in their order. -/
theorem findOpportunities_stderr (hproper : ∀ line ∈ lines, line.Proper)
    (htext : ∀ line ∈ lines, line.IsText) :
    ∃ runOutput, decodeUtf8 (stderr lines) = some runOutput ∧
      findOpportunities runOutput = (opportunities lines).map Opportunity.groups := by
  refine ⟨_, decodeUtf8_utf8 (utf8_stderr hproper htext), ?_⟩
  have hfoundIn : ∀ line ∈ lines, FoundIn (ord '\n') ocLine line.text
      (line.opportunity?.map Opportunity.groups) :=
    fun line hline => StderrLine.foundIn (hproper line hline) (htext line hline)
  rw [findOpportunities, findAll_lines _ _ hfoundIn (.inl rfl), opportunities, List.map_filterMap]

/-- The choice that is built from a match has the data that was printed. -/
theorem ofMatch_groups (o : Opportunity) (position : Nat) :
    OptimisticChoice.ofMatch o.groups position =
      some { o.toChoice with position := position } := by
  simp only [OptimisticChoice.ofMatch, Opportunity.groups, int_str, Option.bind_eq_bind,
    Option.bind_some, dif_pos o.numChoices_pos]
  rfl

/-- Without lists all of them are read, and numbered in their order. -/
theorem readMatches_groups (position : Nat) (os : List Opportunity) :
    readMatches ⟨none, []⟩ position (os.map Opportunity.groups) = some
      ((os.zipIdx position).map fun oi => { oi.1.toChoice with position := oi.2 }) := by
  induction os generalizing position with
  | nil => rfl
  | cons o os ih =>
      rw [List.map_cons, readMatches, ofMatch_groups, Option.bind_eq_bind, Option.bind_some,
        if_neg (by simp [ChoiceLists.skips]), ih]
      rfl

theorem determineOptimisticChoices_stderr (hproper : ∀ line ∈ lines, line.Proper)
    (htext : ∀ line ∈ lines, line.IsText) :
    determineOptimisticChoices ⟨none, []⟩ (stderr lines) = some ((opportunities lines).length,
      (opportunities lines).zipIdx.map fun oi => { oi.1.toChoice with position := oi.2 }) := by
  obtain ⟨runOutput, hdecoded, hfound⟩ := findOpportunities_stderr hproper htext
  rw [determineOptimisticChoices, hdecoded, Option.bind_eq_bind, Option.bind_some]
  simp only [hfound, readMatches_groups]
  cases opportunities lines with
  | nil => rfl
  | cons o os => simp

end Petospa
