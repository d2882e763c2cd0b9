import Petospa.Transport.Lines

/-!
# What a call leaves alone

A call should drop the annotations of its own functions and nothing else. It
does if every other line is unmatched and the text that is appended starts on a
line of its own.
-/

namespace Petospa

open Text

/-! ### Annotations -/

/-- A line, without its end, that is a generated annotation of a function. -/
def Annotates (stem f line : Str) : Prop :=
  (line ++ [newline] = declarationLine f (quoted line) ∧ carriageReturn ∉ line) ∨
    line ++ [newline] = keepAliveLine stem f

instance (stem f line : Str) : Decidable (Annotates stem f line) :=
  inferInstanceAs (Decidable ((_ ∧ _) ∨ _))

/-- An annotation of one of the functions. -/
def AnnotatesAny (stem : Str) (fs : List Str) (line : Str) : Prop := ∃ f ∈ fs, Annotates stem f line

instance (stem : Str) (fs : List Str) (line : Str) : Decidable (AnnotatesAny stem fs line) :=
  inferInstanceAs (Decidable (∃ f ∈ fs, _))

/-- The rest of the file is left alone when the functions `fs` are annotated and
the functions `gs` are not. -/
structure Frame (stem : Str) (fs gs : List Str) (text text' : Str) : Prop where
  /-- Every other line is still there, in order. -/
  kept : ((lineBodies text).filter fun line => ¬ AnnotatesAny stem fs line).Sublist
    (lineBodies text')
  /-- Every other function has the annotations that it had. -/
  others : ∀ g ∈ gs, ((lineBodies text').filter fun line => Annotates stem g line) =
    (lineBodies text).filter fun line => Annotates stem g line

/-- Nothing in the text is taken for what it is not. -/
structure Untouched (stem : Str) (fs : List Str) (text : Str) : Prop where
  /-- No line end is translated. -/
  untranslated : carriageReturn ∉ text
  /-- A line that is no annotation of one of the functions contains neither of
  the texts that are looked for. -/
  unmatched : ∀ line ∈ lineBodies text, ¬ AnnotatesAny stem fs line → Unmatched fs line
  /-- A last line without a newline is such an annotation. -/
  ended : fs ≠ [] → ∀ line ∈ splitLines text, newline ∉ line → AnnotatesAny stem fs line

section Names

variable {stem f g line : Str} {fs : List Str}

theorem newline_notMem_keepAlive (hf : Identifier f) : newline ∉ keepAlive f :=
  (identifier_keepAlive hf).notMem (by decide)

theorem newline_notMem_declaration (hf : Identifier f) : newline ∉ declaration f := by
  have hdeclarator := (identifier_declarator hf).notMem (c := newline) (by decide)
  have htail : newline ∉ lit " = \"" := by decide
  simp [declaration, hdeclarator, htail]

theorem carriageReturn_notMem_declarationLine (hf : Identifier f) {cs : Str} (hcs : Inner cs) :
    carriageReturn ∉ declarationLine f cs := by
  have hdeclarator := (identifier_declarator hf).notMem (c := carriageReturn) (by decide)
  simp only [declarationLine, declaration, List.mem_append, not_or]
  exact ⟨⟨⟨⟨by decide, hdeclarator, by decide⟩, hcs.carriageReturn⟩, by decide⟩, by decide⟩

theorem GeneratedFor.carriageReturn_notMem (hstem : Identifier stem) (hf : Identifier f)
    (h : GeneratedFor stem f line) : carriageReturn ∉ line := by
  cases h with
  | inl hdecl =>
      obtain ⟨cs, hcs, rfl⟩ := hdecl
      exact carriageReturn_notMem_declarationLine hf hcs
  | inr hkeep =>
      rw [hkeep]
      exact carriageReturn_notMem_keepAliveLine hstem hf

/-- A generated line is an annotation, with a newline behind it. -/
theorem GeneratedFor.annotates (hstem : Identifier stem) (hf : Identifier f)
    (h : GeneratedFor stem f line) :
    ∃ body, newline ∉ body ∧ line = body ++ [newline] ∧ Annotates stem f body := by
  cases h with
  | inl hdecl =>
      obtain ⟨cs, hcs, rfl⟩ := hdecl
      have hhead : ord '"' ∉ lit "static const char *" ++ declarator f ++ lit " = " :=
        notMem_declarationHead hf (by decide) (by decide) (by decide)
      have hnewline := newline_notMem_declaration hf
      have hfront : newline ∉ lit "static const char *" := by decide
      have hback : newline ∉ lit "\";" := by decide
      have hreturn := carriageReturn_notMem_declarationLine hf hcs
      refine ⟨lit "static const char *" ++ declaration f ++ cs ++ lit "\";",
        by simp [hfront, hnewline, hcs.newline, hback], rfl,
        .inl ⟨?_, fun hmem => hreturn (List.mem_append_left _ hmem)⟩⟩
      have hquoted :
          quoted (lit "static const char *" ++ declaration f ++ cs ++ lit "\";") = cs := by
        have hsplit : lit "static const char *" ++ declaration f ++ cs ++ lit "\";" =
            (lit "static const char *" ++ declarator f ++ lit " = ") ++
              ord '"' :: (cs ++ ord '"' :: [ord ';']) := by
          simp [declaration, lit, ord]
        rw [hsplit]
        exact quoted_eq hhead hcs.quote _
      rw [hquoted]
      rfl
  | inr hkeep =>
      have halive := newline_notMem_keepAlive hf
      have hdeclarator := (identifier_declarator hf).notMem (c := newline) (by decide)
      have hstem' := hstem.notMem (c := newline) (by decide)
      have hwords : newline ∉ lit "const char **" ∧ newline ∉ lit "_" ∧ newline ∉ lit " = " ∧
          newline ∉ lit "&" ∧ newline ∉ lit ";" := by decide
      refine ⟨lit "const char **" ++ keepAlive f ++ lit "_" ++ stem ++ lit " = " ++
        (lit "&" ++ declarator f ++ lit ";"), ?_, ?_, .inr ?_⟩
      · simp [halive, hdeclarator, hstem', hwords]
      · simp [hkeep, keepAliveLine]
      · simp [keepAliveLine]

/-- An annotation contains one of the texts that are looked for. -/
theorem Annotates.matched (h : Annotates stem f line) :
    keepAlive f <:+: line ∨ declaration f <:+: line := by
  cases h with
  | inl hdecl =>
      obtain ⟨hdecl, -⟩ := hdecl
      right
      have hline := List.append_cancel_right (hdecl.trans (by rw [declarationLine]))
      rw [hline, List.append_assoc _ (quoted line)]
      exact List.infix_append _ _ _
  | inr hkeep =>
      left
      have hsplit : keepAliveLine stem f = (lit "const char **" ++ keepAlive f ++
          (lit "_" ++ stem ++ lit " = " ++ (lit "&" ++ declarator f ++ lit ";"))) ++ [newline] := by
        simp [keepAliveLine]
      rw [List.append_cancel_right (hkeep.trans hsplit)]
      exact List.infix_append _ _ _

theorem Unmatched.not_annotatesAny (h : Unmatched fs line) : ¬ AnnotatesAny stem fs line := by
  rintro ⟨f, hf, hannotates⟩
  obtain ⟨halive, hdecl⟩ := h f hf
  cases hannotates.matched with
  | inl hmatch => exact halive hmatch
  | inr hmatch => exact hdecl hmatch

/-- The name in front of the first blank behind a declaration's head. -/
theorem declarationLine_injective {cs cs' : Str} (hf : Identifier f) (hg : Identifier g)
    (h : declarationLine f cs = declarationLine g cs') : f = g := by
  have hline : ∀ (f cs : Str), declarationLine f cs = lit "static const char *" ++
      (declarator f ++ ord ' ' :: (lit "= \"" ++ cs ++ lit "\";" ++ [newline])) := by
    intro f cs
    simp [declarationLine, declaration, lit, ord]
  rw [hline, hline] at h
  have hblank : ∀ {f}, Identifier f → ord ' ' ∉ declarator f := fun hf =>
    (identifier_declarator hf).notMem (by decide)
  have hrest := List.append_cancel_left h
  cases List.append_cons_cases hrest (hblank hg) with
  | inl hsame => exact List.append_cancel_right hsame.1
  | inr hlonger =>
      obtain ⟨t, ht, -⟩ := hlonger
      exact absurd (by rw [ht]; simp) (hblank hf)

/-- The name behind the last ampersand of a `KeepAlive` line. -/
theorem keepAliveLine_injective (hstem : Identifier stem) (hf : Identifier f) (hg : Identifier g)
    (h : keepAliveLine stem f = keepAliveLine stem g) : f = g := by
  have hline : ∀ f : Str, keepAliveLine stem f = (lit "const char **" ++ keepAlive f ++ lit "_" ++
      stem ++ lit " = ") ++ ord '&' :: (declarator f ++ lit ";" ++ [newline]) := by
    intro f
    simp [keepAliveLine, lit, ord]
  have hfront : ∀ {f}, Identifier f → ord '&' ∉ lit "const char **" ++ keepAlive f ++ lit "_" ++
      stem ++ lit " = " := by
    intro f hf
    have halive := (identifier_keepAlive hf).notMem (c := ord '&') (by decide)
    have hstem' := hstem.notMem (c := ord '&') (by decide)
    have hwords : ord '&' ∉ lit "const char **" ∧ ord '&' ∉ lit "_" ∧ ord '&' ∉ lit " = " := by
      decide
    simp only [List.mem_append, not_or]
    exact ⟨⟨⟨⟨hwords.1, halive⟩, hwords.2.1⟩, hstem'⟩, hwords.2.2⟩
  rw [hline, hline] at h
  cases List.append_cons_cases h (hfront hg) with
  | inl hsame =>
      have hname := List.append_cancel_right (List.append_cancel_right hsame.2)
      exact List.append_cancel_right hname
  | inr hlonger =>
      obtain ⟨t, ht, -⟩ := hlonger
      exact absurd (by rw [ht]; simp) (hfront hf)

/-- A line is an annotation of one function only. -/
theorem Annotates.unique (hstem : Identifier stem) (hf : Identifier f) (hg : Identifier g)
    (h : Annotates stem f line) (h' : Annotates stem g line) : f = g := by
  have hapart : ∀ {f g cs : Str}, declarationLine f cs ≠ keepAliveLine stem g := by
    intro f g cs heq
    have hs : (declarationLine f cs).head? = some (ord 's') := rfl
    have hc : (keepAliveLine stem g).head? = some (ord 'c') := rfl
    rw [heq, hc] at hs
    cases hs
  cases h with
  | inl hdecl =>
      cases h' with
      | inl hdecl' => exact declarationLine_injective hf hg (hdecl.1.symm.trans hdecl'.1)
      | inr hkeep' => exact absurd (hdecl.1.symm.trans hkeep') hapart
  | inr hkeep =>
      cases h' with
      | inl hdecl' => exact absurd (hdecl'.1.symm.trans hkeep) hapart
      | inr hkeep' => exact keepAliveLine_injective hstem hf hg (hkeep.symm.trans hkeep')

/-- A text without newlines lies in a line if it lies in its body. -/
theorem infix_lineBody_iff {text pattern : Str} (hline : line ∈ splitLines text)
    (hpattern : newline ∉ pattern) : pattern <:+: line ↔ pattern <:+: lineBody line := by
  obtain ⟨-, hcases⟩ := eq_of_mem_splitLines hline
  cases hcases with
  | inl hended =>
      constructor
      · intro h
        rw [hended] at h
        cases List.infix_append_cons h hpattern with
        | inl hin => exact hin
        | inr hnil =>
            obtain rfl := List.infix_nil.mp hnil
            exact List.nil_infix
      · intro h
        rw [hended]
        exact h.trans (List.prefix_append _ _).isInfix
  | inr hopen => rw [← hopen]

theorem unmatched_lineBody_iff {text : Str} (hline : line ∈ splitLines text)
    (hfs : ∀ f ∈ fs, Identifier f) : Unmatched fs line ↔ Unmatched fs (lineBody line) := by
  refine forall₂_congr fun f hf => ?_
  rw [infix_lineBody_iff hline (newline_notMem_keepAlive (hfs f hf)),
    infix_lineBody_iff hline (newline_notMem_declaration (hfs f hf))]

/-- The kept lines, without their ends. -/
theorem map_lineBody_filter (text : Str) (hfs : ∀ f ∈ fs, Identifier f) :
    ((splitLines text).filter fun line => Unmatched fs line).map lineBody =
      (lineBodies text).filter fun line => Unmatched fs line := by
  rw [lineBodies, List.filter_map]
  congr 1
  refine List.filter_congr fun line hline => ?_
  rw [Function.comp_apply, decide_eq_decide]
  exact unmatched_lineBody_iff hline hfs

end Names

/-! ### The lines after a call -/

/-- The lines behind a call: the kept ones and new annotations, the first of
which may continue an unfinished last line. -/
inductive Written (stem : Str) (fs : List Str) (text : Str) : List Str → Prop where
  | apart {new : List Str}
      (closed : fs = [] ∨ ∀ line ∈ splitLines text, newline ∉ line → ¬ Unmatched fs line)
      (generated : ∀ line ∈ new, AnnotatesAny stem fs line) :
      Written stem fs text (((lineBodies text).filter fun line => Unmatched fs line) ++ new)
  | glued {front rest : List Str} {last first : Str} (nonempty : fs ≠ [])
      (mem : last ∈ splitLines text) (unfinished : newline ∉ last)
      (kept : ((lineBodies text).filter fun line => Unmatched fs line) = front ++ [last])
      (more : first ≠ []) (generated : ∀ line ∈ rest, AnnotatesAny stem fs line) :
      Written stem fs text (front ++ (last ++ first) :: rest)

theorem splitLines_of_newline_notMem {text : Str} (hne : text ≠ []) (h : newline ∉ text) :
    splitLines text = [text] := by
  cases splitLines_cases text with
  | inl hall =>
      have hflat := flatten_splitLines text
      cases hread : splitLines text with
      | nil =>
          rw [hread] at hflat
          exact absurd hflat.symm hne
      | cons line lines =>
          obtain ⟨body, -, hline⟩ := hall line (by rw [hread]; exact List.mem_cons_self)
          rw [hread, List.flatten_cons, hline] at hflat
          exact absurd (by rw [← hflat]; simp) h
  | inr hlast =>
      obtain ⟨lines, last, hlines, hall, -, -⟩ := hlast
      have hflat := flatten_splitLines text
      rw [hlines] at hflat ⊢
      cases lines with
      | nil => simpa using hflat
      | cons line lines =>
          obtain ⟨body, -, hline⟩ := hall line List.mem_cons_self
          rw [List.cons_append, List.flatten_cons, hline] at hflat
          exact absurd (by rw [← hflat]; simp) h

section Calls

variable {stem text text' : Str} {fs : List Str} {ocs : List OptimisticChoice}

/-- A whole line that is an annotation of one of the functions. -/
def IsAnnotation (stem : Str) (fs : List Str) (line : Str) : Prop :=
  ∃ body, newline ∉ body ∧ line = body ++ [newline] ∧ AnnotatesAny stem fs body

theorem IsAnnotation.isLine {line : Str} (h : IsAnnotation stem fs line) : IsLine line := by
  obtain ⟨body, hbody, heq, -⟩ := h
  exact ⟨body, hbody, heq⟩

theorem IsAnnotation.annotatesAny {line : Str} (h : IsAnnotation stem fs line) :
    AnnotatesAny stem fs (lineBody line) := by
  obtain ⟨body, hbody, rfl, hannotates⟩ := h
  rwa [lineBody_append_newline hbody]

theorem annotatesAny_of_mem_map {new : List Str} (h : ∀ line ∈ new, IsAnnotation stem fs line) :
    ∀ line ∈ new.map lineBody, AnnotatesAny stem fs line := by
  intro line hline
  obtain ⟨line, hmem, rfl⟩ := List.mem_map.mp hline
  exact (h line hmem).annotatesAny

theorem Annotates.ne_nil {f line : Str} (h : Annotates stem f line) : line ≠ [] := by
  rintro rfl
  cases h with
  | inl hdecl => cases hdecl.1
  | inr hkeep => cases hkeep

/-- If all kept lines are whole, the new ones stand behind them. -/
theorem written_apart {new : List Str} (hnames : ∀ f ∈ fs, Identifier f)
    (hkept : ∀ line ∈ (splitLines text).filter fun line => Unmatched fs line, IsLine line)
    (hnew : ∀ line ∈ new, IsAnnotation stem fs line) :
    Written stem fs text (lineBodies (((splitLines text).filter fun line =>
      Unmatched fs line).flatten ++ new.flatten)) := by
  rw [lineBodies_flatten_append hkept fun line hline => (hnew line hline).isLine,
    map_lineBody_filter text hnames]
  refine .apart (.inr fun line hline hopen hmatch => ?_) (annotatesAny_of_mem_map hnew)
  obtain ⟨body, -, rfl⟩ := hkept line (List.mem_filter.mpr ⟨hline, by simpa using hmatch⟩)
  exact hopen (by simp)

/-- If the last line is kept and unfinished, the first new one continues it. -/
theorem written_glued {new lines : List Str} {last : Str} (hnames : ∀ f ∈ fs, Identifier f)
    (hlines : splitLines text = lines ++ [last]) (hall : ∀ line ∈ lines, IsLine line)
    (hlastNe : last ≠ []) (hlastOpen : newline ∉ last) (hmatch : Unmatched fs last)
    (hne : fs ≠ [] → new ≠ []) (hnew : ∀ line ∈ new, IsAnnotation stem fs line) :
    Written stem fs text (lineBodies (((splitLines text).filter fun line =>
      Unmatched fs line).flatten ++ new.flatten)) := by
  have hfront : ∀ line ∈ lines.filter fun line => Unmatched fs line, IsLine line :=
    fun line hline => hall line (List.mem_filter.mp hline).1
  have hfilter : (splitLines text).filter (fun line => Unmatched fs line) =
      (lines.filter fun line => Unmatched fs line) ++ [last] := by
    rw [hlines, List.filter_append, List.filter_cons_of_pos (by simpa using hmatch),
      List.filter_nil]
  have hkept := map_lineBody_filter text hnames
  rw [hfilter, List.map_append, List.map_singleton, lineBody_of_notMem hlastOpen] at hkept
  cases new with
  | nil =>
      have hnone : fs = [] := by
        by_contra hsome
        exact hne hsome rfl
      rw [lineBodies, hfilter, List.flatten_append, List.flatten_singleton, List.flatten_nil,
        List.append_nil, splitLines_append hfront, splitLines_of_newline_notMem hlastNe hlastOpen,
        List.map_append, List.map_singleton, lineBody_of_notMem hlastOpen, hkept]
      have hwritten : Written stem fs text
          (((lineBodies text).filter fun line => Unmatched fs line) ++ []) :=
        .apart (.inl hnone) (by simp)
      rwa [List.append_nil] at hwritten
  | cons first rest =>
      obtain ⟨body, hbody, rfl, f, hf, hannotates⟩ := hnew first List.mem_cons_self
      have hrest : ∀ line ∈ rest, IsAnnotation stem fs line := fun line hline =>
        hnew line (List.mem_cons_of_mem _ hline)
      have hmem : last ∈ splitLines text := by
        rw [hlines]
        exact List.mem_append_right _ List.mem_cons_self
      rw [hfilter, lineBodies_glued hfront hlastOpen hbody fun line hline =>
        (hrest line hline).isLine]
      exact .glued (List.ne_nil_of_mem hf) hmem hlastOpen hkept.symm hannotates.ne_nil
        (annotatesAny_of_mem_map hrest)

theorem writeControl_written (hstem : Identifier stem)
    (hnames : ∀ f ∈ annotatedNames ocs, Identifier f) (h : writeControl stem text ocs = .ok text') :
    Written stem (annotatedNames ocs) (universalNewlines text) (lineBodies text') := by
  obtain ⟨new, rfl, hne, hgenerated⟩ := writeControl_lines h
  rw [readlines]
  generalize annotatedNames ocs = fs at *
  generalize universalNewlines text = text at *
  have hnew : ∀ line ∈ new, IsAnnotation stem fs line := by
    intro line hline
    obtain ⟨f, hf, hfor⟩ := hgenerated line hline
    obtain ⟨body, hbody, heq, hannotates⟩ := hfor.annotates hstem (hnames f hf)
    exact ⟨body, hbody, heq, f, hf, hannotates⟩
  cases splitLines_cases text with
  | inl hall =>
      exact written_apart hnames (fun line hline => hall line (List.mem_filter.mp hline).1) hnew
  | inr hlast =>
      obtain ⟨lines, last, hlines, hall, hlastNe, hlastOpen⟩ := hlast
      by_cases hmatch : Unmatched fs last
      · exact written_glued hnames hlines hall hlastNe hlastOpen hmatch hne hnew
      · refine written_apart hnames (fun line hline => ?_) hnew
        obtain ⟨hmem, hkept⟩ := List.mem_filter.mp hline
        rw [hlines, List.mem_append, List.mem_singleton] at hmem
        cases hmem with
        | inl hfront => exact hall line hfront
        | inr heq => exact absurd (heq ▸ of_decide_eq_true hkept) hmatch

/-- No carriage return comes through a call. -/
theorem carriageReturn_notMem_writeControl (hstem : Identifier stem)
    (hnames : ∀ f ∈ annotatedNames ocs, Identifier f)
    (h : writeControl stem text ocs = .ok text') : carriageReturn ∉ text' := by
  obtain ⟨new, rfl, -, hgenerated⟩ := writeControl_lines h
  rw [List.mem_append, List.mem_flatten, List.mem_flatten]
  rintro (⟨line, hline, hmem⟩ | ⟨line, hline, hmem⟩)
  · exact carriageReturn_notMem_of_mem_readlines (List.mem_filter.mp hline).1 hmem
  · obtain ⟨f, hf, hfor⟩ := hgenerated line hline
    exact hfor.carriageReturn_notMem hstem (hnames f hf) hmem

end Calls

section Iff

variable {stem text text' : Str} {fs : List Str}

/-- The kept lines are the unmatched ones among the other lines. -/
theorem filter_unmatched (stem : Str) (fs : List Str) (text : Str) :
    ((lineBodies text).filter fun line => Unmatched fs line) =
      ((lineBodies text).filter fun line => ¬ AnnotatesAny stem fs line).filter
        fun line => Unmatched fs line := by
  rw [List.filter_filter]
  refine List.filter_congr fun line _ => ?_
  by_cases hmatch : Unmatched fs line
  · have hother : ¬ AnnotatesAny stem fs line := hmatch.not_annotatesAny
    simp [hmatch, hother]
  · simp [hmatch]

/-- A list that survives with annotations mixed in survives without them. -/
theorem sublist_filter_of_sublist {lines lines' : List Str}
    (h : ((lineBodies text).filter fun line => ¬ AnnotatesAny stem fs line).Sublist lines')
    (hlines : (lines'.filter fun line => ¬ AnnotatesAny stem fs line) = lines) :
    ((lineBodies text).filter fun line => ¬ AnnotatesAny stem fs line).Sublist lines := by
  have hfiltered := h.filter fun line => decide (¬ AnnotatesAny stem fs line)
  rwa [List.filter_filter, hlines, List.filter_congr (fun line _ => Bool.and_self _)] at hfiltered

theorem filter_annotatesAny_eq_nil {lines : List Str}
    (h : ∀ line ∈ lines, AnnotatesAny stem fs line) :
    (lines.filter fun line => ¬ AnnotatesAny stem fs line) = [] := by
  rw [List.filter_eq_nil_iff]
  intro line hline
  simpa using h line hline

theorem filter_kept {lines : List Str} (h : ∀ line ∈ lines, Unmatched fs line) :
    (lines.filter fun line => ¬ AnnotatesAny stem fs line) = lines := by
  rw [List.filter_eq_self]
  intro line hline
  simpa using (h line hline).not_annotatesAny

/-- If the other lines survive in front of annotations, they are all unmatched. -/
theorem unmatched_of_sublist {new : List Str} (generated : ∀ line ∈ new, AnnotatesAny stem fs line)
    (hkept : ((lineBodies text).filter fun line => ¬ AnnotatesAny stem fs line).Sublist
      (((lineBodies text).filter fun line => Unmatched fs line) ++ new)) :
    ∀ line ∈ lineBodies text, ¬ AnnotatesAny stem fs line → Unmatched fs line := by
  have hfilter := filter_unmatched stem fs text
  have hfilterKept : (((lineBodies text).filter fun line => Unmatched fs line).filter
      fun line => ¬ AnnotatesAny stem fs line) =
      (lineBodies text).filter fun line => Unmatched fs line :=
    filter_kept fun line hline => by simpa using (List.mem_filter.mp hline).2
  have hsub := sublist_filter_of_sublist hkept (by
    rw [List.filter_append, filter_annotatesAny_eq_nil generated, List.append_nil, hfilterKept])
  have hall : ∀ line ∈ (lineBodies text).filter fun line => ¬ AnnotatesAny stem fs line,
      decide (Unmatched fs line) = true := by
    rw [← List.filter_eq_self, ← hfilter]
    refine (List.Sublist.eq_of_length_le ?_ hsub.length_le)
    rw [hfilter]
    exact List.filter_sublist
  intro line hline hother
  exact of_decide_eq_true (hall line (List.mem_filter.mpr ⟨hline, by simpa using hother⟩))

/-- An unfinished line that an annotation continues does not survive. -/
theorem not_sublist_glued {front rest : List Str} {last first : Str}
    (kept : ((lineBodies text).filter fun line => Unmatched fs line) = front ++ [last])
    (more : first ≠ []) (generated : ∀ line ∈ rest, AnnotatesAny stem fs line) :
    ¬ ((lineBodies text).filter fun line => ¬ AnnotatesAny stem fs line).Sublist
      (front ++ (last ++ first) :: rest) := by
  intro hkept
  have hfilter := filter_unmatched stem fs text
  have hlen : (front ++ [last]).length ≤
      ((lineBodies text).filter fun line => ¬ AnnotatesAny stem fs line).length := by
    rw [← kept, hfilter]
    exact List.length_filter_le _ _
  have hfront : ∀ line ∈ front, Unmatched fs line := by
    intro line hline
    have hmem : line ∈ (lineBodies text).filter fun line => Unmatched fs line := by
      rw [kept]
      exact List.mem_append_left _ hline
    simpa using (List.mem_filter.mp hmem).2
  by_cases hglued : AnnotatesAny stem fs (last ++ first)
  · have hsub := sublist_filter_of_sublist hkept (by
      rw [List.filter_append, List.filter_cons_of_neg (by simpa using hglued),
        filter_annotatesAny_eq_nil generated, List.append_nil, filter_kept hfront])
    have hle := hsub.length_le
    rw [List.length_append, List.length_singleton] at hlen
    omega
  · have hsub := sublist_filter_of_sublist hkept (by
      rw [List.filter_append, List.filter_cons_of_pos (by simpa using hglued),
        filter_annotatesAny_eq_nil generated, filter_kept hfront])
    have heq := hsub.eq_of_length_le (by simpa using hlen)
    have hkeptSub : (front ++ [last]).Sublist
        ((lineBodies text).filter fun line => ¬ AnnotatesAny stem fs line) := by
      rw [← kept, hfilter]
      exact List.filter_sublist
    rw [heq] at hkeptSub
    have hsame := List.append_cancel_left (hkeptSub.eq_of_length (by simp))
    have hlast : last = last ++ first := (List.cons.inj hsame).1
    exact more (List.self_eq_append_right.mp hlast)

/-- An annotation has no carriage return. -/
theorem Annotates.carriageReturn_notMem {f line : Str} (hstem : Identifier stem)
    (hf : Identifier f) (h : Annotates stem f line) : carriageReturn ∉ line := by
  cases h with
  | inl hdecl => exact hdecl.2
  | inr hkeep =>
      intro hmem
      apply carriageReturn_notMem_keepAliveLine hstem hf
      rw [← hkeep]
      exact List.mem_append_left _ hmem

theorem mem_of_mem_lineBodies {line : Str} {c : Nat} (hline : line ∈ lineBodies text)
    (hc : c ∈ line) : c ∈ text := by
  obtain ⟨line, hmem, rfl⟩ := List.mem_map.mp hline
  rw [← flatten_splitLines text]
  exact List.mem_flatten.mpr ⟨line, hmem, (List.takeWhile_prefix _).subset hc⟩

theorem exists_mem_lineBodies {c : Nat} (hc : c ∈ text) (hne : c ≠ newline) :
    ∃ line ∈ lineBodies text, c ∈ line := by
  rw [← flatten_splitLines text, List.mem_flatten] at hc
  obtain ⟨line, hline, hc⟩ := hc
  refine ⟨lineBody line, List.mem_map_of_mem hline, ?_⟩
  cases (eq_of_mem_splitLines hline).2 with
  | inl hended =>
      rw [hended, List.mem_append, List.mem_singleton] at hc
      exact hc.resolve_right hne
  | inr hopen => rwa [hopen] at hc

/-- A line with a carriage return does not survive. -/
theorem Frame.untranslated {gs : List Str} (hstem : Identifier stem)
    (hnames : ∀ f ∈ fs, Identifier f) (h : Frame stem fs gs text text')
    (hreturn : carriageReturn ∉ text') : carriageReturn ∉ text := by
  intro hmem
  obtain ⟨line, hline, hc⟩ := exists_mem_lineBodies hmem (by decide)
  have hother : ¬ AnnotatesAny stem fs line := by
    rintro ⟨f, hf, hannotates⟩
    exact hannotates.carriageReturn_notMem hstem (hnames f hf) hc
  have hkept := h.kept.subset (List.mem_filter.mpr ⟨hline, by simpa using hother⟩)
  exact hreturn (mem_of_mem_lineBodies hkept hc)

/-- If the other lines survive, nothing was taken for what it is not. -/
theorem Frame.untouched {gs : List Str} (h : Frame stem fs gs text text')
    (hreturn : carriageReturn ∉ text)
    (hwritten : Written stem fs (universalNewlines text) (lineBodies text')) :
    Untouched stem fs text := by
  rw [universalNewlines_of_notMem hreturn] at hwritten
  have hkept := h.kept
  generalize hbodies : lineBodies text' = bodies at hwritten hkept
  cases hwritten with
  | apart closed generated =>
      have hunmatched := unmatched_of_sublist generated hkept
      refine ⟨hreturn, hunmatched, fun hsome line hline hopen => ?_⟩
      by_contra hother
      have hmem : line ∈ lineBodies text :=
        List.mem_map.mpr ⟨line, hline, lineBody_of_notMem hopen⟩
      cases closed with
      | inl hnone => exact hsome hnone
      | inr hclosed => exact hclosed line hline hopen (hunmatched line hmem hother)
  | glued nonempty mem unfinished kept more generated =>
      exact absurd hkept (not_sublist_glued kept more generated)

/-- If nothing is taken for what it is not, the rest of the file is left alone. -/
theorem Untouched.frame {gs : List Str} (hstem : Identifier stem)
    (hnames : ∀ f ∈ fs ++ gs, Identifier f) (hdisjoint : fs.Disjoint gs)
    (h : Untouched stem fs text)
    (hwritten : Written stem fs (universalNewlines text) (lineBodies text')) :
    Frame stem fs gs text text' := by
  rw [universalNewlines_of_notMem h.untranslated] at hwritten
  have hkept : ((lineBodies text).filter fun line => ¬ AnnotatesAny stem fs line) =
      (lineBodies text).filter fun line => Unmatched fs line := by
    refine List.filter_congr fun line hline => ?_
    rw [decide_eq_decide]
    exact ⟨h.unmatched line hline, fun hmatch => hmatch.not_annotatesAny⟩
  generalize hbodies : lineBodies text' = bodies at hwritten
  cases hwritten with
  | @apart new closed generated =>
      refine ⟨by rw [hbodies, hkept]; exact List.sublist_append_left _ _, fun g hg => ?_⟩
      have hother : ∀ {line}, Annotates stem g line → ¬ AnnotatesAny stem fs line := by
        rintro line hline ⟨f, hf, hannotates⟩
        have hsame := hannotates.unique hstem (hnames f (List.mem_append_left _ hf))
          (hnames g (List.mem_append_right _ hg)) hline
        exact hdisjoint hf (hsame ▸ hg)
      have hnew : (new.filter fun line => Annotates stem g line) = [] := by
        rw [List.filter_eq_nil_iff]
        intro line hline
        have := generated line hline
        simpa using fun hannotates => hother hannotates this
      rw [hbodies, List.filter_append, hnew, List.append_nil, List.filter_filter]
      refine List.filter_congr fun line hline => ?_
      by_cases hannotates : Annotates stem g line
      · simp [hannotates, h.unmatched line hline (hother hannotates)]
      · simp [hannotates]
  | @glued front rest last first nonempty mem unfinished kept more generated =>
      have hmem : last ∈ (lineBodies text).filter fun line => Unmatched fs line := by
        rw [kept]
        exact List.mem_append_right _ List.mem_cons_self
      have hmatch : Unmatched fs last := by simpa using (List.mem_filter.mp hmem).2
      exact absurd (h.ended nonempty last mem unfinished) hmatch.not_annotatesAny

end Iff

end Petospa
