import Petospa.Transport.Embedded
import Petospa.Tuner.WriteControl

/-!
# Annotated source files

A source file is a list of items: lines of its own and declarations of annotation
strings. `writeControl` is followed on the items: a declaration is taken over,
kept, or lost to the `KeepAlive` test of another function.
-/

namespace Petospa

open Text

/-! ### Names in lines -/

/-- The characters of C identifiers. -/
def IsIdentifierChar (c : Nat) : Prop :=
  48 ≤ c ∧ c ≤ 57 ∨ 65 ≤ c ∧ c ≤ 90 ∨ 97 ≤ c ∧ c ≤ 122 ∨ c = ord '_' ∨ c = ord '$' ∨ 128 ≤ c

instance (c : Nat) : Decidable (IsIdentifierChar c) := inferInstanceAs (Decidable (_ ∨ _))

def Identifier (f : Str) : Prop := ∀ c ∈ f, IsIdentifierChar c

theorem Identifier.notMem {f : Str} (h : Identifier f) {c : Nat} (hc : ¬ IsIdentifierChar c) :
    c ∉ f := fun hmem => hc (h c hmem)

theorem Identifier.append {f g : Str} (hf : Identifier f) (hg : Identifier g) :
    Identifier (f ++ g) := by
  intro c hc
  rcases List.mem_append.mp hc with hc | hc
  · exact hf c hc
  · exact hg c hc

theorem identifier_keepAlive {f : Str} (h : Identifier f) : Identifier (keepAlive f) :=
  Identifier.append (by unfold Identifier; decide) h

theorem identifier_declarator {f : Str} (h : Identifier f) : Identifier (declarator f) :=
  Identifier.append h (by unfold Identifier; decide)

/-- A group of values below 44, none of which is written as a lower-case letter. -/
structure SmallGroup (g : Int × Str) : Prop extends ValidGroup g where
  chars_le : ∀ c ∈ g.2, c ≤ 91

theorem notMem_encodeGroups {gs : List (Int × Str)} (hgs : ∀ g ∈ gs, SmallGroup g) {c : Nat}
    (hc : ¬ (c = 35 ∨ c = 99 ∨ 48 ≤ c ∧ c ≤ 91)) : c ∉ encodeGroups gs := by
  intro hmem
  obtain h35 | h99 | hkind | ⟨g, hg, hvalue⟩ :=
    mem_encodeGroups (fun g hg => (hgs g hg).toValidGroup) hmem
  · exact hc (.inl h35)
  · exact hc (.inr (.inl h99))
  · omega
  · have hlow := ((hgs g hg).chars c hvalue).1
    have hhigh := (hgs g hg).chars_le c hvalue
    omega

/-! ### Declaration lines -/

theorem ne_quote {cs : Str} (h : ord '"' ∉ cs) : ∀ c ∈ cs, decide (c ≠ ord '"') = true := by
  intro c hc
  rw [decide_eq_true_eq]
  rintro rfl
  exact h hc

/-- The text between the first two quotes. -/
theorem quoted_eq {front cs : Str} (hfront : ord '"' ∉ front) (hcs : ord '"' ∉ cs) (rest : Str) :
    quoted (front ++ ord '"' :: (cs ++ ord '"' :: rest)) = cs := by
  rw [quoted, List.dropWhile_append_of_pos (ne_quote hfront),
    List.dropWhile_cons_of_neg (by simp), List.drop_one, List.tail_cons,
    List.takeWhile_append_of_pos (ne_quote hcs), List.takeWhile_cons_of_neg (by simp),
    List.append_nil]

section Lines

variable {f g : Str} {gs : List (Int × Str)}

/-- A declaration line, cut at its first quote. -/
theorem declarationLine_eq (f cs : Str) : declarationLine f cs =
    (lit "static const char *" ++ declarator f ++ lit " = ") ++
      ord '"' :: (cs ++ ord '"' :: [ord ';', newline]) := by
  simp [declarationLine, declaration, lit, ord]

theorem notMem_declarationHead (hf : Identifier f) {c : Nat} (hc : ¬ IsIdentifierChar c)
    (hhead : c ∉ lit "static const char *") (htail : c ∉ lit " = ") :
    c ∉ lit "static const char *" ++ declarator f ++ lit " = " := by
  simp only [List.mem_append, not_or]
  exact ⟨⟨hhead, (identifier_declarator hf).notMem hc⟩, htail⟩

theorem quoted_declarationLine (hf : Identifier f) (hgs : ∀ g ∈ gs, SmallGroup g) :
    quoted (declarationLine f (encodeGroups gs)) = encodeGroups gs := by
  have hhead := notMem_declarationHead hf (c := ord '"') (by decide) (by decide) (by decide)
  have hquote : ord '"' ∉ encodeGroups gs := notMem_encodeGroups hgs (by decide)
  rw [declarationLine_eq]
  exact quoted_eq hhead hquote _

theorem count_declarationLine (hf : Identifier f) (hgs : ∀ g ∈ gs, SmallGroup g) :
    (declarationLine f (encodeGroups gs)).count (ord '"') = 2 := by
  have hhead := notMem_declarationHead hf (c := ord '"') (by decide) (by decide) (by decide)
  have hquote : ord '"' ∉ encodeGroups gs := notMem_encodeGroups hgs (by decide)
  rw [declarationLine_eq, List.count_append, List.count_eq_zero.mpr hhead, List.count_cons_self,
    List.count_append, List.count_eq_zero.mpr hquote, List.count_cons_self]
  rfl

/-- The `KeepAlive` test looks at the declarator only. -/
theorem keepAlive_infix_iff (hf : Identifier f) (hgs : ∀ g ∈ gs, SmallGroup g) :
    keepAlive f <:+: declarationLine g (encodeGroups gs) ↔ keepAlive f <:+: declarator g := by
  have hident := identifier_keepAlive hf
  have hline : declarationLine g (encodeGroups gs) = lit "static const char " ++
      ord '*' :: (declarator g ++ ord ' ' :: (lit "= \"" ++ encodeGroups gs ++ lit "\";" ++
        [newline])) := by
    simp [declarationLine, declaration, lit, ord]
  constructor
  · intro h
    rw [hline] at h
    rcases List.infix_append_cons h (hident.notMem (by decide)) with h | h
    · have hK : ord 'K' ∈ lit "static const char " := h.subset (List.mem_append_left _ (by decide))
      exact absurd hK (by decide)
    · rcases List.infix_append_cons h (hident.notMem (by decide)) with h | h
      · exact h
      · have hunder : ord '_' ∈ lit "= \"" ++ encodeGroups gs ++ lit "\";" ++ [newline] :=
          h.subset (List.mem_append_left _ (by decide))
        simp only [List.mem_append] at hunder
        rcases hunder with ((h | h) | h) | h
        · exact absurd h (by decide)
        · exact absurd h (notMem_encodeGroups hgs (by decide))
        · exact absurd h (by decide)
        · exact absurd h (by decide)
  · rintro ⟨u, w, h⟩
    rw [hline, ← h]
    exact ⟨lit "static const char " ++ ord '*' :: u,
      w ++ ord ' ' :: (lit "= \"" ++ encodeGroups gs ++ lit "\";" ++ [newline]), by simp⟩

/-- A function is not lost to its own `KeepAlive` test: its declarator has as many
`K` as its name. -/
theorem not_keepAlive_infix_self (f : Str) : ¬ keepAlive f <:+: declarator f := by
  intro h
  have hcount := h.sublist.count_le (ord 'K')
  rw [keepAlive, declarator, List.count_append, List.count_append] at hcount
  have hone : (lit "KeepAlive_").count (ord 'K') = 1 := by decide
  have hnone : (lit "_OptimisticChoices").count (ord 'K') = 0 := by decide
  omega

/-- The declaration test finds the function itself. -/
theorem declaration_infix_iff (hf : Identifier f) (hg : Identifier g)
    (hapart : f <:+: g → f = g) (hgs : ∀ g ∈ gs, SmallGroup g) :
    declaration f <:+: declarationLine g (encodeGroups gs) ↔ f = g := by
  constructor
  · rintro ⟨u, w, h⟩
    have hhead := notMem_declarationHead hg (c := ord '"') (by decide) (by decide) (by decide)
    have hquote : ord '"' ∉ encodeGroups gs := notMem_encodeGroups hgs (by decide)
    have hcut : (u ++ declarator f ++ lit " = ") ++ ord '"' :: w =
        (lit "static const char *" ++ declarator g ++ lit " = ") ++
          ord '"' :: (encodeGroups gs ++ ord '"' :: [ord ';', newline]) := by
      rw [← declarationLine_eq, ← h]
      simp [declaration, lit, ord]
    rcases List.append_cons_cases hcut hhead with ⟨hname, -⟩ | ⟨t, hfront, hback⟩
    · -- The pattern ends at the first quote, so the names end at one place.
      apply hapart
      have hnames : u ++ f = lit "static const char *" ++ g := by
        simp only [declarator, ← List.append_assoc, List.append_left_inj] at hname
        exact hname
      have hstar : lit "static const char *" ++ g = lit "static const char " ++ ord '*' :: g := by
        simp [lit, ord]
      have hsuffix : f <:+ lit "static const char " ++ ord '*' :: g := ⟨u, hnames.trans hstar⟩
      exact (List.suffix_of_suffix_append_cons hsuffix (hf.notMem (by decide))).isInfix
    · -- It cannot end at the second one, in front of which there is no blank.
      exfalso
      have hlast : (u ++ declarator f ++ lit " = ").getLast? = some (ord ' ') := by
        rw [List.getLast?_append]
        rfl
      rw [hfront] at hlast
      have ht : t = encodeGroups gs := by
        rcases List.append_cons_cases hback.symm hquote with ⟨ht, -⟩ | ⟨t', -, ht'⟩
        · exact ht
        · have hmem : ord '"' ∈ [ord ';', newline] := by simp [ht']
          exact absurd hmem (by decide)
      have hblank : ord ' ' ∈ ord '"' :: t := by
        rw [List.getLast?_append_of_ne_nil _ (List.cons_ne_nil _ _)] at hlast
        exact List.mem_of_getLast? hlast
      rw [ht] at hblank
      rcases List.mem_cons.mp hblank with h | h
      · exact absurd h (by decide)
      · exact absurd h (notMem_encodeGroups hgs (by decide))
  · rintro rfl
    rw [declarationLine]
    exact ⟨lit "static const char *", encodeGroups gs ++ (lit "\";" ++ [newline]), by simp⟩

end Lines

/-! ### Items of a source file -/

inductive Item where
  | line (text : Str)
  | declares (f : Str) (groups : List (Int × Str))

def Item.render : Item → Str
  | .line text => text
  | .declares f gs => declarationLine f (encodeGroups gs)

def render (items : List Item) : Str := (items.map Item.render).flatten

/-- The names that are annotated: identifiers, none a part of another. -/
structure Names (named : Str → Prop) : Prop where
  identifier : ∀ f, named f → Identifier f
  apart : ∀ f g, named f → named g → f <:+: g → f = g

/-- An item as `writeControl` finds or makes it. -/
def Item.WellFormed (named : Str → Prop) : Item → Prop
  | .line text => (IsLine text ∧ carriageReturn ∉ text) ∧
      ¬ lit "_OptimisticChoices = \"" <:+: text
  | .declares f gs => named f ∧ ∀ g ∈ gs, SmallGroup g

/-- The groups that are declared for a function. -/
def declared (f : Str) : List Item → Option (List (Int × Str))
  | [] => none
  | .line _ :: items => declared f items
  | .declares g gs :: items => if g = f then some gs else declared f items

def Item.name? : Item → Option Str
  | .line _ => none
  | .declares f _ => some f

def declaredNames (items : List Item) : List Str := items.filterMap Item.name?

/-- The declaration of a function is lost to the `KeepAlive` test of a function
that the call names before it. -/
def Hidden (fs : List Str) (g : Str) : Prop :=
  ∃ f ∈ fs.takeWhile (· ≠ g), keepAlive f <:+: declarator g

instance (fs : List Str) (g : Str) : Decidable (Hidden fs g) :=
  inferInstanceAs (Decidable (∃ f ∈ _, _))

/-- The items that a call leaves where they are. -/
def Item.stays (fs : List Str) : Item → Bool
  | .line text => ¬ ∃ f ∈ fs, keepAlive f <:+: text
  | .declares g _ => g ∉ fs ∧ ¬ Hidden fs g

section Items

variable {named : Str → Prop} {fs : List Str} {f g : Str} {gs : List (Int × Str)}
  {items : List Item}

theorem isLine_declarationLine (hnames : Names named) {it : Item} (h : it.WellFormed named) :
    IsLine it.render := by
  cases it with
  | line text => exact h.1.1
  | declares g gs =>
      have hg := hnames.identifier g h.1
      refine ⟨lit "static const char *" ++ declaration g ++ encodeGroups gs ++ lit "\";", ?_,
        by rw [Item.render, declarationLine]⟩
      simp only [declaration, List.mem_append, not_or]
      exact ⟨⟨⟨by decide, (identifier_declarator hg).notMem (by decide), by decide⟩,
        notMem_encodeGroups h.2 (by decide)⟩, by decide⟩

theorem carriageReturn_notMem_keepAliveLine {stem : Str} (hstem : Identifier stem)
    (hf : Identifier f) :
    carriageReturn ∉ keepAliveLine stem f := by
  have halive := (identifier_keepAlive hf).notMem (c := carriageReturn) (by decide)
  have hdeclarator := (identifier_declarator hf).notMem (c := carriageReturn) (by decide)
  have hstem := hstem.notMem (c := carriageReturn) (by decide)
  simp only [keepAliveLine, List.mem_append, not_or]
  exact ⟨⟨⟨⟨⟨by decide, halive⟩, by decide⟩, hstem⟩, by decide⟩, ⟨⟨by decide, hdeclarator⟩,
    by decide⟩, by decide⟩

theorem carriageReturn_notMem_render (hnames : Names named) {it : Item}
    (h : it.WellFormed named) : carriageReturn ∉ it.render := by
  cases it with
  | line text => exact h.1.2
  | declares g gs =>
      have hg := hnames.identifier g h.1
      simp only [Item.render, declarationLine, declaration, List.mem_append, not_or]
      exact ⟨⟨⟨⟨by decide, (identifier_declarator hg).notMem (by decide), by decide⟩,
        notMem_encodeGroups h.2 (by decide)⟩, by decide⟩, by decide⟩

theorem readlines_render (hnames : Names named) (h : ∀ it ∈ items, it.WellFormed named) :
    readlines (render items) = items.map Item.render := by
  have hreturn : carriageReturn ∉ render items := by
    rw [render, List.mem_flatten]
    rintro ⟨line, hline, hmem⟩
    obtain ⟨it, hit, rfl⟩ := List.mem_map.mp hline
    exact carriageReturn_notMem_render hnames (h it hit) hmem
  rw [readlines_of_notMem hreturn]
  apply splitLines_flatten
  intro line hline
  obtain ⟨it, hit, rfl⟩ := List.mem_map.mp hline
  exact isLine_declarationLine hnames (h it hit)

theorem useLine_line {text : Str} (h : ¬ lit "_OptimisticChoices = \"" <:+: text) (fs : List Str) :
    useLine text fs = .ok (if (Item.line text).stays fs then .included else .excluded) := by
  induction fs with
  | nil => rfl
  | cons f fs ih =>
      have hnone : ¬ declaration f <:+: text := by
        intro hinfix
        have hsub : lit "_OptimisticChoices = \"" <:+: declaration f := by
          refine ⟨f, [], ?_⟩
          simp [declaration, declarator, lit]
        exact h (hsub.trans hinfix)
      rw [useLine]
      by_cases hkeep : keepAlive f <:+: text
      · simp [hkeep, Item.stays]
      · rw [if_neg hkeep, if_neg hnone, ih]
        simp [hkeep, Item.stays]

theorem hidden_cons (hne : f ≠ g) :
    Hidden (f :: fs) g ↔ keepAlive f <:+: declarator g ∨ Hidden fs g := by
  rw [Hidden, List.takeWhile_cons_of_pos (by simpa using hne)]
  simp [Hidden]

/-- What the loop over the functions does with a declaration. -/
theorem useLine_declares (hnames : Names named) (hg : named g) (hgs : ∀ g ∈ gs, SmallGroup g)
    (hfs : ∀ f ∈ fs, named f) :
    useLine (declarationLine g (encodeGroups gs)) fs = .ok
      (if Hidden fs g then .excluded
      else if g ∈ fs then .old g (encodeGroups gs) else .included) := by
  have hident := hnames.identifier g hg
  induction fs with
  | nil => simp [useLine, Hidden]
  | cons f fs ih =>
      have hf := hfs f List.mem_cons_self
      have htail := ih fun h hh => hfs h (List.mem_cons_of_mem _ hh)
      have hfident := hnames.identifier f hf
      have hkeep := keepAlive_infix_iff (g := g) hfident hgs
      have hdeclares := declaration_infix_iff hfident hident (hnames.apart f g hf hg) hgs
      rw [useLine]
      by_cases hself : f = g
      · subst hself
        have hseen : ¬ Hidden (f :: fs) f := by simp [Hidden]
        rw [if_neg (mt hkeep.mp (not_keepAlive_infix_self f)), if_pos (hdeclares.mpr rfl),
          if_pos (count_declarationLine hident hgs), quoted_declarationLine hident hgs,
          if_neg hseen, if_pos List.mem_cons_self]
      · have hmem : g ∈ f :: fs ↔ g ∈ fs := by simp [Ne.symm hself]
        by_cases hlost : keepAlive f <:+: declarator g
        · rw [if_pos (hkeep.mpr hlost), if_pos ((hidden_cons hself).mpr (.inl hlost))]
        · rw [if_neg (mt hkeep.mp hlost), if_neg (mt hdeclares.mp hself), htail]
          simp only [hidden_cons hself, hlost, false_or, hmem]

/-! ### The loop over the lines -/

/-- The strings of a function, with those that its declarations had. -/
def recovered (fs : List Str) (f : Str) : List Item → KindStrings → KindStrings
  | [], c2cs => c2cs
  | .line _ :: items, c2cs => recovered fs f items c2cs
  | .declares g gs :: items, c2cs =>
      recovered fs f items
        (if g = f ∧ ¬ Hidden fs g then c2cs.set (-1) (encodeGroups gs) else c2cs)

theorem readOld_render (hnames : Names named) (h : ∀ it ∈ items, it.WellFormed named)
    {f2c2cs : FunctionStrings} (hfs : ∀ f ∈ f2c2cs.keys, named f) (lines : List Str) :
    ∃ f2c2cs' : FunctionStrings, readOld (items.map Item.render) f2c2cs lines =
        .ok (f2c2cs', lines ++ (items.filter (·.stays f2c2cs.keys)).map Item.render) ∧
      f2c2cs'.entries = f2c2cs.entries.map fun e => (e.1, recovered f2c2cs.keys e.1 items e.2) := by
  induction items generalizing f2c2cs lines with
  | nil => exact ⟨f2c2cs, by simp [readOld], by simp [recovered]⟩
  | cons it items ih =>
      have hrest : ∀ it ∈ items, it.WellFormed named :=
        fun it' hit => h it' (List.mem_cons_of_mem _ hit)
      have hit := h it List.mem_cons_self
      cases it with
      | line text =>
          have huse := useLine_line hit.2 f2c2cs.keys
          simp only [List.map_cons, Item.render, readOld, huse]
          cases hstays : (Item.line text).stays f2c2cs.keys with
          | true =>
              obtain ⟨f2c2cs', hread, hentries⟩ := ih hrest hfs (lines ++ [text])
              refine ⟨f2c2cs', hread.trans ?_, hentries⟩
              simp [hstays, Item.render]
          | false =>
              obtain ⟨f2c2cs', hread, hentries⟩ := ih hrest hfs lines
              refine ⟨f2c2cs', hread.trans ?_, hentries⟩
              simp [hstays]
      | declares g gs =>
          have huse := useLine_declares hnames hit.1 hit.2 hfs
          simp only [List.map_cons, Item.render, readOld, huse]
          by_cases hhidden : Hidden f2c2cs.keys g
          · obtain ⟨f2c2cs', hread, hentries⟩ := ih hrest hfs lines
            simp only [if_pos hhidden]
            refine ⟨f2c2cs', hread.trans ?_, ?_⟩
            · simp [Item.stays, hhidden]
            · simp [hentries, recovered, hhidden]
          · by_cases hmem : g ∈ f2c2cs.keys
            · simp only [if_neg hhidden, if_pos hmem]
              have hkeys : (f2c2cs.modify g .empty (·.set (-1) (encodeGroups gs))).keys =
                  f2c2cs.keys := by
                rw [Dict.keys_modify, Dict.insertKey, if_pos hmem]
              obtain ⟨f2c2cs', hread, hentries⟩ := ih hrest (hkeys.symm ▸ hfs) lines
              refine ⟨f2c2cs', hread.trans ?_, ?_⟩
              · simp [hkeys, Item.stays, hmem]
              · rw [hentries, hkeys, Dict.entries_modify_of_mem hmem, List.map_map]
                apply List.map_congr_left
                intro e _
                by_cases he : e.1 = g
                · simp [he, recovered, hhidden]
                · have hne : ¬ g = e.1 := fun heq => he heq.symm
                  simp [he, hne, recovered]
            · simp only [if_neg hhidden, if_neg hmem]
              obtain ⟨f2c2cs', hread, hentries⟩ :=
                ih hrest hfs (lines ++ [declarationLine g (encodeGroups gs)])
              refine ⟨f2c2cs', hread.trans ?_, ?_⟩
              · simp [Item.stays, hmem, hhidden, Item.render]
              · rw [hentries]
                apply List.map_congr_left
                intro e he
                have hne : ¬ g = e.1 := by
                  rintro rfl
                  exact hmem (List.mem_map_of_mem he)
                simp [hne, recovered]

end Items

end Petospa
