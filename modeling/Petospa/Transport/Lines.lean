import Mathlib.Data.List.TakeWhile
import Petospa.Transport.AnnotatedSource

/-!
# What a call makes of the lines of a file

Whatever a source file holds, `writeControl` drops the lines that contain one of
the texts it looks for, keeps the others and appends two lines for each function.
-/

namespace Petospa

open Text

/-! ### The lines of a text -/

/-- A line without its end. -/
def lineBody (line : Str) : Str := line.takeWhile (· ≠ newline)

/-- The lines of a text, without their ends. -/
def lineBodies (text : Str) : List Str := (splitLines text).map lineBody

theorem ne_newline {body : Str} (h : newline ∉ body) : ∀ c ∈ body, decide (c ≠ newline) = true := by
  intro c hc
  rw [decide_eq_true_eq]
  rintro rfl
  exact h hc

@[simp] theorem lineBody_of_notMem {body : Str} (h : newline ∉ body) : lineBody body = body :=
  List.takeWhile_eq_self_iff.mpr (ne_newline h)

@[simp] theorem lineBody_append_newline {body : Str} (h : newline ∉ body) :
    lineBody (body ++ [newline]) = body := by
  rw [lineBody, List.takeWhile_append_of_pos (ne_newline h)]
  simp

/-- Only the last line of a text may lack its newline. -/
theorem splitLines_cases (text : Str) : (∀ line ∈ splitLines text, IsLine line) ∨
    ∃ lines last, splitLines text = lines ++ [last] ∧ (∀ line ∈ lines, IsLine line) ∧
      last ≠ [] ∧ newline ∉ last := by
  induction text with
  | nil => exact .inl (by simp [splitLines])
  | cons c text ih =>
      rw [splitLines]
      split
      · rename_i hc
        have hline : IsLine [c] := ⟨[], List.not_mem_nil, by rw [hc]; rfl⟩
        cases ih with
        | inl hall =>
            left
            intro line hmem
            cases hmem with
            | head => exact hline
            | tail _ hrest => exact hall line hrest
        | inr hlast =>
            obtain ⟨lines, last, hlines, hall, hne, hnew⟩ := hlast
            refine .inr ⟨[c] :: lines, last, by rw [hlines]; rfl, ?_, hne, hnew⟩
            intro line hmem
            cases hmem with
            | head => exact hline
            | tail _ hrest => exact hall line hrest
      · rename_i hc
        have hc' : newline ≠ c := fun heq => hc heq.symm
        have hgrow : ∀ {line}, IsLine line → IsLine (c :: line) := by
          rintro line ⟨body, hbody, rfl⟩
          exact ⟨c :: body, List.not_mem_cons_of_ne_of_not_mem hc' hbody, rfl⟩
        cases hread : splitLines text with
        | nil => exact .inr ⟨[], [c], rfl, by simp, List.cons_ne_nil _ _, by simpa using hc'⟩
        | cons first rest =>
            rw [hread] at ih
            cases ih with
            | inl hall =>
                left
                intro line hmem
                cases hmem with
                | head => exact hgrow (hall first List.mem_cons_self)
                | tail _ hrest => exact hall line (List.mem_cons_of_mem _ hrest)
            | inr hlast =>
                obtain ⟨lines, last, hlines, hall, hne, hnew⟩ := hlast
                cases lines with
                | nil =>
                    obtain ⟨rfl, rfl⟩ := List.cons.inj hlines
                    exact .inr ⟨[], c :: first, rfl, by simp, List.cons_ne_nil _ _,
                      List.not_mem_cons_of_ne_of_not_mem hc' hnew⟩
                | cons second lines =>
                    obtain ⟨rfl, rfl⟩ := List.cons.inj hlines
                    refine .inr ⟨(c :: first) :: lines, last, rfl, ?_, hne, hnew⟩
                    intro line hmem
                    cases hmem with
                    | head => exact hgrow (hall first List.mem_cons_self)
                    | tail _ hrest => exact hall line (List.mem_cons_of_mem _ hrest)

theorem splitLines_append {lines : List Str} (h : ∀ line ∈ lines, IsLine line) (text : Str) :
    splitLines (lines.flatten ++ text) = lines ++ splitLines text := by
  induction lines with
  | nil => rfl
  | cons line lines ih =>
      rw [List.flatten_cons, List.append_assoc,
        splitLines_line_append (h line List.mem_cons_self),
        ih fun l hl => h l (List.mem_cons_of_mem _ hl)]
      rfl

theorem IsLine.append {body line : Str} (hbody : newline ∉ body) (h : IsLine line) :
    IsLine (body ++ line) := by
  obtain ⟨rest, hrest, rfl⟩ := h
  exact ⟨body ++ rest, by simp [hbody, hrest], by rw [List.append_assoc]⟩

section Behind

variable {kept rest : List Str} {last body : Str}

/-- Lines that are written behind lines. -/
theorem lineBodies_flatten_append (hkept : ∀ line ∈ kept, IsLine line)
    (hrest : ∀ line ∈ rest, IsLine line) :
    lineBodies (kept.flatten ++ rest.flatten) = kept.map lineBody ++ rest.map lineBody := by
  rw [lineBodies, splitLines_append hkept, splitLines_flatten hrest, List.map_append]

/-- The first of the lines continues an unfinished one. -/
theorem lineBodies_glued (hkept : ∀ line ∈ kept, IsLine line) (hlast : newline ∉ last)
    (hbody : newline ∉ body) (hrest : ∀ line ∈ rest, IsLine line) :
    lineBodies ((kept ++ [last]).flatten ++ ((body ++ [newline]) :: rest).flatten) =
      kept.map lineBody ++ (last ++ body) :: rest.map lineBody := by
  have htext : (kept ++ [last]).flatten ++ ((body ++ [newline]) :: rest).flatten =
      kept.flatten ++ ((last ++ (body ++ [newline])) :: rest).flatten := by
    simp
  have hline : IsLine (last ++ (body ++ [newline])) := IsLine.append hlast ⟨body, hbody, rfl⟩
  have hopen : newline ∉ last ++ body := by simp [hlast, hbody]
  rw [htext, lineBodies_flatten_append hkept (List.forall_mem_cons.mpr ⟨hline, hrest⟩),
    List.map_cons, ← List.append_assoc, lineBody_append_newline hopen]

end Behind

/-- A line of a text is its body, with or without a newline. -/
theorem eq_of_mem_splitLines {text line : Str} (h : line ∈ splitLines text) :
    newline ∉ lineBody line ∧ (line = lineBody line ++ [newline] ∨ line = lineBody line) := by
  have hline : ∀ {l}, IsLine l →
      newline ∉ lineBody l ∧ (l = lineBody l ++ [newline] ∨ l = lineBody l) := by
    rintro l ⟨body, hbody, rfl⟩
    rw [lineBody_append_newline hbody]
    exact ⟨hbody, .inl rfl⟩
  cases splitLines_cases text with
  | inl hall => exact hline (hall line h)
  | inr hlast =>
      obtain ⟨lines, last, hlines, hall, -, hnew⟩ := hlast
      rw [hlines, List.mem_append, List.mem_singleton] at h
      cases h with
      | inl hmem => exact hline (hall line hmem)
      | inr heq =>
          rw [heq, lineBody_of_notMem hnew]
          exact ⟨hnew, .inr rfl⟩

/-! ### Which lines are kept -/

/-- A line that contains nothing of what the call looks for. -/
def Unmatched (fs : List Str) (line : Str) : Prop :=
  ∀ f ∈ fs, ¬ keepAlive f <:+: line ∧ ¬ declaration f <:+: line

instance (fs : List Str) (line : Str) : Decidable (Unmatched fs line) :=
  inferInstanceAs (Decidable (∀ f ∈ fs, _ ∧ _))

/-- The text that stands between two quotes of a line. -/
structure Inner (cs : Str) : Prop where
  newline : newline ∉ cs
  carriageReturn : carriageReturn ∉ cs
  quote : ord '"' ∉ cs

theorem inner_nil : Inner [] := ⟨List.not_mem_nil, List.not_mem_nil, List.not_mem_nil⟩

theorem Inner.append {s t : Str} (hs : Inner s) (ht : Inner t) : Inner (s ++ t) where
  newline := List.mem_append.not.mpr (not_or_intro hs.newline ht.newline)
  carriageReturn := List.mem_append.not.mpr (not_or_intro hs.carriageReturn ht.carriageReturn)
  quote := List.mem_append.not.mpr (not_or_intro hs.quote ht.quote)

theorem inner_optionChar (v : Nat) : Inner [optionChar v] := by
  constructor <;> rw [List.mem_singleton]
  · change 10 ≠ 48 + v
    omega
  · change 13 ≠ 48 + v
    omega
  · change 34 ≠ 48 + v
    omega

/-- What a line is used for. -/
theorem useLine_cases {line : Str} {fs : List Str} {use : LineUse}
    (h : useLine line fs = .ok use) : (use = .included ∧ Unmatched fs line) ∨
      ¬ Unmatched fs line ∧ (use = .excluded ∨
        ∃ f, f ∈ fs ∧ use = .old f (quoted line) ∧ line.count (ord '"') = 2) := by
  induction fs with
  | nil =>
      obtain rfl := Except.ok.inj h
      exact .inl ⟨rfl, by simp [Unmatched]⟩
  | cons f fs ih =>
      rw [useLine] at h
      split at h
      · rename_i halive
        obtain rfl := Except.ok.inj h
        exact .inr ⟨fun hnone => (hnone f List.mem_cons_self).1 halive, .inl rfl⟩
      · rename_i halive
        split at h
        · rename_i hdecl
          split at h
          · rename_i hcount
            obtain rfl := Except.ok.inj h
            exact .inr ⟨fun hnone => (hnone f List.mem_cons_self).2 hdecl,
              .inr ⟨f, List.mem_cons_self, rfl, hcount⟩⟩
          · cases h
        · rename_i hdecl
          cases ih h with
          | inl hin =>
              refine .inl ⟨hin.1, ?_⟩
              intro g hg
              cases hg with
              | head => exact ⟨halive, hdecl⟩
              | tail _ hrest => exact hin.2 g hrest
          | inr hout =>
              refine .inr ⟨fun hnone => hout.1 fun g hg => hnone g (List.mem_cons_of_mem _ hg), ?_⟩
              cases hout.2 with
              | inl hexcluded => exact .inl hexcluded
              | inr hold =>
                  obtain ⟨g, hg, huse, hcount⟩ := hold
                  exact .inr ⟨g, List.mem_cons_of_mem _ hg, huse, hcount⟩

/-- A text with two quotes, cut at them. -/
theorem exists_quotes {body : Str} (h : body.count (ord '"') = 2) : ∃ front cs back,
    body = front ++ ord '"' :: (cs ++ ord '"' :: back) ∧ ord '"' ∉ front ∧ ord '"' ∉ cs := by
  have hmem : ord '"' ∈ body := List.count_pos_iff.mp (by omega)
  obtain ⟨front, rest, rfl, hfront⟩ := List.eq_append_cons_of_mem hmem
  rw [List.count_append, List.count_eq_zero.mpr hfront, List.count_cons_self] at h
  have hmem' : ord '"' ∈ rest := List.count_pos_iff.mp (by omega)
  obtain ⟨cs, back, rfl, hcs⟩ := List.eq_append_cons_of_mem hmem'
  exact ⟨front, cs, back, rfl, hfront, hcs⟩

/-- What stands between the two quotes of a line. -/
theorem inner_quoted {text line : Str} (hline : line ∈ readlines text)
    (hcount : line.count (ord '"') = 2) : Inner (quoted line) := by
  have hreturn := carriageReturn_notMem_of_mem_readlines hline
  obtain ⟨hbody, hcases⟩ := eq_of_mem_splitLines hline
  -- the newline is not one of the characters up to the second quote
  have hcountBody : (lineBody line).count (ord '"') = 2 := by
    cases hcases with
    | inl hended =>
        rw [hended, List.count_append] at hcount
        have hnone : [newline].count (ord '"') = 0 := rfl
        omega
    | inr hopen => rwa [hopen] at hcount
  obtain ⟨front, cs, back, hsplit, hfront, hcs⟩ := exists_quotes hcountBody
  have hquoted : quoted line = cs := by
    cases hcases with
    | inl hended =>
        rw [hended, hsplit, List.append_assoc, List.cons_append, List.append_assoc,
          List.cons_append]
        exact quoted_eq hfront hcs _
    | inr hopen =>
        rw [hopen, hsplit]
        exact quoted_eq hfront hcs _
  have hsub : cs ⊆ lineBody line := by
    rw [hsplit]
    intro c hc
    simp [hc]
  have hline : lineBody line ⊆ line := (List.takeWhile_prefix _).subset
  rw [hquoted]
  exact ⟨fun hmem => hbody (hsub hmem), fun hmem => hreturn (hline (hsub hmem)), hcs⟩

/-! ### The strings that are collected -/

/-- All strings of a dictionary can stand between two quotes. -/
def KindStrings.Inner (c2cs : KindStrings) : Prop := ∀ e ∈ c2cs.entries, Petospa.Inner e.2

def FunctionStrings.Inner (f2c2cs : FunctionStrings) : Prop :=
  ∀ e ∈ f2c2cs.entries, KindStrings.Inner e.2

theorem FunctionStrings.Inner.modify {f2c2cs : FunctionStrings} (h : f2c2cs.Inner) (f : Str)
    {change : KindStrings → KindStrings}
    (hchange : ∀ c2cs, KindStrings.Inner c2cs → KindStrings.Inner (change c2cs)) :
    FunctionStrings.Inner (Dict.modify f2c2cs f .empty change) := by
  have hempty : KindStrings.Inner .empty := by
    intro e he
    cases he
  exact Dict.forall_modify h (hchange _ hempty) hchange

/-- Adding a value to the string of a kind. -/
theorem KindStrings.Inner.addValue {c2cs : KindStrings} (h : c2cs.Inner) (kind : Int)
    (value : Nat) :
    KindStrings.Inner (Dict.modify c2cs kind [] (· ++ [optionChar value])) := by
  exact Dict.forall_modify (P := fun e => Petospa.Inner e.2) h
    (inner_nil.append (inner_optionChar value)) fun _ hv => hv.append (inner_optionChar value)

/-- Noting the old string of a function. -/
theorem KindStrings.Inner.setOld {c2cs : KindStrings} (h : c2cs.Inner) {cs : Str}
    (hcs : Petospa.Inner cs) : KindStrings.Inner (Dict.set c2cs (-1) cs) :=
  Dict.forall_modify (P := fun e => Petospa.Inner e.2) h hcs fun _ _ => hcs

/-- The functions that a call annotates, by their names in C. -/
def annotatedNames (ocs : List OptimisticChoice) : List Str :=
  (ocs.filter fun oc => 0 ≤ oc.opportunityNo).map OptimisticChoice.cName

theorem collect_names {ocs : List OptimisticChoice} {f2c2cs f2c2cs' : FunctionStrings}
    (h : collect ocs f2c2cs = .ok f2c2cs') (hinner : f2c2cs.Inner) :
    FunctionStrings.Inner f2c2cs' ∧
      ∀ f, f ∈ f2c2cs'.keys ↔ f ∈ f2c2cs.keys ∨ f ∈ annotatedNames ocs := by
  induction ocs generalizing f2c2cs with
  | nil =>
      obtain rfl := Except.ok.inj h
      exact ⟨hinner, by simp [annotatedNames]⟩
  | cons oc ocs ih =>
      rw [collect] at h
      split at h
      · rename_i hskip
        obtain ⟨hinner', hkeys⟩ := ih h hinner
        refine ⟨hinner', fun f => ?_⟩
        rw [hkeys, annotatedNames, annotatedNames, List.filter_cons_of_neg (by simpa using hskip)]
      · rename_i hskip
        split at h
        · obtain ⟨hinner', hkeys⟩ := ih h (hinner.modify oc.cName fun _ hc =>
            hc.addValue oc.opportunityNo oc.value)
          refine ⟨hinner', fun f => ?_⟩
          rw [hkeys, Dict.keys_modify, Dict.mem_insertKey, annotatedNames, annotatedNames,
            List.filter_cons_of_pos (by simpa using hskip), List.map_cons, List.mem_cons, or_assoc]
        · cases h

/-- Reading the old file keeps the unmatched lines. -/
theorem readOld_lines {text : Str} {input lines lines' : List Str}
    {f2c2cs f2c2cs' : FunctionStrings}
    (h : readOld input f2c2cs lines = .ok (f2c2cs', lines')) (hinner : f2c2cs.Inner)
    (htext : ∀ line ∈ input, line ∈ readlines text) :
    FunctionStrings.Inner f2c2cs' ∧ f2c2cs'.keys = f2c2cs.keys ∧
      lines' = lines ++ input.filter fun line => Unmatched f2c2cs.keys line := by
  induction input generalizing f2c2cs lines with
  | nil =>
      obtain ⟨rfl, rfl⟩ := Prod.mk.inj (Except.ok.inj h)
      exact ⟨hinner, rfl, by simp⟩
  | cons line input ih =>
      have hrest : ∀ l ∈ input, l ∈ readlines text := fun l hl =>
        htext l (List.mem_cons_of_mem _ hl)
      rw [readOld, Except.bind_eq_ok_iff] at h
      obtain ⟨use, huse, h⟩ := h
      cases useLine_cases huse with
      | inl hin =>
          obtain ⟨rfl, hunmatched⟩ := hin
          obtain ⟨hinner', hkeys, hlines⟩ := ih h hinner hrest
          refine ⟨hinner', hkeys, ?_⟩
          rw [hlines, List.filter_cons_of_pos (by simpa using hunmatched), List.append_assoc]
          rfl
      | inr hout =>
          obtain ⟨hmatched, hcases⟩ := hout
          rw [List.filter_cons_of_neg (by simpa using hmatched)]
          cases hcases with
          | inl hexcluded =>
              subst hexcluded
              exact ih h hinner hrest
          | inr hold =>
              obtain ⟨f, hf, rfl, hcount⟩ := hold
              have hquoted := inner_quoted (htext line List.mem_cons_self) hcount
              obtain ⟨hinner', hkeys, hlines⟩ :=
                ih h (hinner.modify f fun _ hc => hc.setOld hquoted) hrest
              have hsame : (Dict.modify f2c2cs f .empty (·.set (-1) (quoted line))).keys =
                  f2c2cs.keys := by
                rw [Dict.keys_modify, Dict.insertKey, if_pos hf]
              rw [hsame] at hkeys hlines
              exact ⟨hinner', hkeys, hlines⟩

/-! ### The lines that are appended -/

/-- A line that a call generates for a function. -/
def GeneratedFor (stem f line : Str) : Prop :=
  (∃ cs, Inner cs ∧ line = declarationLine f cs) ∨ line = keepAliveLine stem f

theorem glue_inner {items : List (Int × Str)} {preCs cs result : Str}
    (h : glue items preCs cs = .ok result) (hitems : ∀ e ∈ items, Inner e.2)
    (hpre : Inner preCs) (hcs : Inner cs) : Inner result := by
  induction items generalizing preCs cs with
  | nil =>
      obtain rfl := Except.ok.inj h
      exact hpre.append hcs
  | cons e items ih =>
      have hrest : ∀ e' ∈ items, Inner e'.2 := fun e' he' => hitems e' (List.mem_cons_of_mem _ he')
      have hvalue : Inner e.2 := hitems e List.mem_cons_self
      rw [glue] at h
      split at h
      · have hheader : Inner [ord '#', ord 'c'] := ⟨by decide, by decide, by decide⟩
        have hkind : Inner [ord '#', ord 'c', optionChar e.1.toNat] :=
          hheader.append (inner_optionChar e.1.toNat)
        exact ih h hrest hpre ((hcs.append hkind).append hvalue)
      · split at h
        · exact ih h hrest hvalue hcs
        · cases h

theorem annotationText_lines {stem text : Str} {e : Str × KindStrings}
    (h : annotationText stem e = .ok text) (hinner : e.2.Inner) :
    ∃ cs, Inner cs ∧ text = declarationLine e.1 cs ++ keepAliveLine stem e.1 := by
  simp only [annotationText, Except.bind_eq_ok_iff, Except.pure_eq_ok_iff] at h
  obtain ⟨cs, hglue, rfl⟩ := h
  exact ⟨cs, glue_inner hglue hinner inner_nil inner_nil, rfl⟩

theorem generated_lines {stem : Str} {entries : List (Str × KindStrings)} {texts : List Str}
    (h : entries.mapM (annotationText stem) = .ok texts) (hinner : ∀ e ∈ entries, e.2.Inner) :
    ∃ new : List Str, texts.flatten = new.flatten ∧ (entries ≠ [] → new ≠ []) ∧
      ∀ line ∈ new, ∃ f ∈ entries.map Prod.fst, GeneratedFor stem f line := by
  induction entries generalizing texts with
  | nil =>
      obtain rfl : [] = texts := Except.ok.inj h
      exact ⟨[], rfl, fun hne => absurd rfl hne, by simp⟩
  | cons e entries ih =>
      simp only [List.mapM_cons, Except.bind_eq_ok_iff, Except.pure_eq_ok_iff] at h
      obtain ⟨text, htext, rest, hrest, rfl⟩ := h
      obtain ⟨cs, hcs, rfl⟩ := annotationText_lines htext (hinner e List.mem_cons_self)
      obtain ⟨new, hflat, -, hnew⟩ :=
        ih hrest fun e' he' => hinner e' (List.mem_cons_of_mem _ he')
      refine ⟨declarationLine e.1 cs :: keepAliveLine stem e.1 :: new, ?_,
        fun _ => List.cons_ne_nil _ _, ?_⟩
      · simp [hflat]
      · intro line hline
        rcases List.mem_cons.mp hline with rfl | hline
        · exact ⟨e.1, List.mem_cons_self, .inl ⟨cs, hcs, rfl⟩⟩
        · rcases List.mem_cons.mp hline with rfl | hline
          · exact ⟨e.1, List.mem_cons_self, .inr rfl⟩
          · obtain ⟨f, hf, hgenerated⟩ := hnew line hline
            exact ⟨f, List.mem_cons_of_mem _ hf, hgenerated⟩

theorem unmatched_congr {fs gs : List Str} (h : ∀ f, f ∈ fs ↔ f ∈ gs) (line : Str) :
    Unmatched fs line ↔ Unmatched gs line := by
  simp only [Unmatched, h]

/-- What a call writes: the unmatched lines, and the lines generated for its functions. -/
theorem writeControl_lines {stem text text' : Str} {ocs : List OptimisticChoice}
    (h : writeControl stem text ocs = .ok text') :
    ∃ new : List Str,
      text' = ((readlines text).filter fun line => Unmatched (annotatedNames ocs) line).flatten ++
        new.flatten ∧
      (annotatedNames ocs ≠ [] → new ≠ []) ∧
      ∀ line ∈ new, ∃ f ∈ annotatedNames ocs, GeneratedFor stem f line := by
  have hempty : FunctionStrings.Inner .empty := by
    intro e he
    cases he
  simp only [writeControl, Except.bind_eq_ok_iff, Except.pure_eq_ok_iff] at h
  obtain ⟨f2c2cs, hcollect, ⟨f2c2cs', lines⟩, hread, texts, hgenerated, rfl⟩ := h
  obtain ⟨hinner, hkeys⟩ := collect_names hcollect hempty
  obtain ⟨hinner', hkeys', hlines⟩ := readOld_lines hread hinner fun _ hline => hline
  obtain ⟨new, hflat, hne, hnew⟩ := generated_lines hgenerated hinner'
  have hnames : ∀ f, f ∈ f2c2cs.keys ↔ f ∈ annotatedNames ocs := by
    intro f
    rw [hkeys]
    simp [Dict.keys, Dict.empty]
  have hmem : ∀ f, f ∈ f2c2cs'.entries.map Prod.fst ↔ f ∈ annotatedNames ocs := by
    intro f
    rw [← hnames, ← hkeys']
    rfl
  refine ⟨new, ?_, ?_, ?_⟩
  · have hkept : lines = (readlines text).filter
        fun line => Unmatched (annotatedNames ocs) line := by
      rw [hlines, List.nil_append]
      exact List.filter_congr fun line _ => by
        rw [decide_eq_decide]
        exact unmatched_congr hnames line
    rw [← hkept, ← hflat]
    simp
  · intro hsome
    apply hne
    intro hnone
    obtain ⟨f, hf⟩ := List.exists_mem_of_ne_nil _ hsome
    rw [← hmem, hnone] at hf
    cases hf
  · intro line hline
    obtain ⟨f, hf, hfor⟩ := hnew line hline
    exact ⟨f, (hmem f).mp hf, hfor⟩

end Petospa
