import Petospa.Transport.Rewriting

/-!
# The two transports agree

After every call of `writeControl` the string of a function decodes to what its
old string decoded to, followed by what the command-line string holds for the
function, as long as no declaration is lost to the `KeepAlive` test of another
function.
-/

namespace Petospa

open Text

/-! ### What the compiler finds -/

/-- The literal of the variable that annotates a function. -/
def literalOf (text f : Str) : Option Str :=
  ((readlines text).find? fun line => (lit "static const char *" ++ declaration f) <+: line).map
    fun line =>
      (line.drop (lit "static const char *" ++ declaration f).length).takeWhile (· ≠ ord '"')

/-- The values of a function and kind in the maps of a command-line string. -/
def commandLineEntries (maps : ChoiceMaps) (ocs : List OptimisticChoice) (f : Str)
    (kind : OptimisticChoiceKind) : List Nat :=
  match ocs.find? (·.cName = f) with
  | some oc => maps kind oc.functionNo.toNat
  | none => []

/-- A call carries a function: its string decodes to what it decoded to before,
followed by what the command line has. -/
def Carries (text text' : Str) (ocs : List OptimisticChoice) (f : Str) : Prop :=
  ∀ fnNo, ∃ old new maps, decodeEmbedded fnNo (literalOf text f) = .ok old ∧
    decodeEmbedded fnNo (literalOf text' f) = .ok new ∧
    decode .empty (layout [] ocs) = .ok maps ∧
    ∀ kind, new kind fnNo = old kind fnNo ++ commandLineEntries maps ocs f kind

/-- Successive calls carry every function that was annotated by then. -/
def CarriesAll (stem : Str) : List OptimisticChoice → Str → List (List OptimisticChoice) → Prop
  | _, _, [] => True
  | seen, text, ocs :: calls => ∃ text', writeControl stem text ocs = .ok text' ∧
      (∀ oc ∈ seen ++ ocs, Carries text text' ocs oc.cName) ∧
      CarriesAll stem (seen ++ ocs) text' calls

/-- No call loses a function that was annotated before. -/
def NoneHidden : List OptimisticChoice → List (List OptimisticChoice) → Prop
  | _, [] => True
  | seen, ocs :: calls => (∀ oc ∈ seen, ¬ Hidden (calledNames ocs) oc.cName) ∧
      NoneHidden (seen ++ ocs) calls

/-- A source file without annotations. -/
structure SourceText (text : Str) : Prop where
  ended : text.getLast? = some newline
  plain : ∀ line ∈ readlines text,
    ¬ lit "KeepAlive_" <:+: line ∧ ¬ lit "_OptimisticChoices" <:+: line

/-- Lists of settled choices, one for each call. Within a call functions and
numbers correspond; over all calls the sanitised names are distinct, and none is
a part of another. -/
structure Annotatable (calls : List (List OptimisticChoice)) : Prop where
  writable : ∀ oc ∈ calls.flatten, oc.Writable
  numbered : ∀ ocs ∈ calls, ∀ a ∈ ocs, ∀ b ∈ ocs,
    a.function = b.function ↔ a.functionNo = b.functionNo
  distinct : ∀ a ∈ calls.flatten, ∀ b ∈ calls.flatten, a.cName = b.cName → a.function = b.function
  identifier : ∀ oc ∈ calls.flatten, Identifier oc.cName
  apart : ∀ a ∈ calls.flatten, ∀ b ∈ calls.flatten, a.cName <:+: b.cName → a.cName = b.cName

/-- The names of some choices. -/
def namedBy (ocs : List OptimisticChoice) (f : Str) : Prop := ∃ oc ∈ ocs, oc.cName = f

theorem Annotatable.names {calls : List (List OptimisticChoice)} (h : Annotatable calls) :
    Names (namedBy calls.flatten) where
  identifier := by
    rintro f ⟨oc, hoc, rfl⟩
    exact h.identifier oc hoc
  apart := by
    rintro f g ⟨a, ha, rfl⟩ ⟨b, hb, rfl⟩ hinfix
    exact h.apart a ha b hb hinfix

section Items

variable {named : Str → Prop} {items : List Item} {f : Str}

theorem prefix_declarationLine_iff (hnames : Names named) (hf : named f) {g : Str} (hg : named g)
    {gs : List (Int × Str)} (hgs : ∀ g ∈ gs, SmallGroup g) :
    (lit "static const char *" ++ declaration f) <+: declarationLine g (encodeGroups gs) ↔
      f = g := by
  constructor
  · intro h
    have hinfix : declaration f <:+: declarationLine g (encodeGroups gs) :=
      List.IsInfix.trans ⟨lit "static const char *", [], by simp⟩ h.isInfix
    exact (declaration_infix_iff (hnames.identifier f hf) (hnames.identifier g hg)
      (hnames.apart f g hf hg) hgs).mp hinfix
  · rintro rfl
    exact ⟨encodeGroups gs ++ lit "\";" ++ [newline], by simp [declarationLine]⟩

/-- The compiler finds the declared string. -/
theorem literalOf_render (hnames : Names named) (hitems : ∀ it ∈ items, it.WellFormed named)
    (hf : named f) : literalOf (render items) f = (declared f items).map encodeGroups := by
  rw [literalOf, readlines_render hnames hitems]
  induction items with
  | nil => rfl
  | cons it items ih =>
      have hrest := ih fun it' hit => hitems it' (List.mem_cons_of_mem _ hit)
      have hit := hitems it List.mem_cons_self
      rw [List.map_cons, List.find?_cons]
      cases it with
      | line text =>
          have hnot : ¬ (lit "static const char *" ++ declaration f) <+: text := by
            intro h
            apply hit.2
            refine List.IsInfix.trans ⟨lit "static const char *" ++ f, [], ?_⟩ h.isInfix
            simp [declaration, declarator, lit]
          simp only [Item.render, hnot, decide_false]
          exact hrest
      | declares g gs =>
          have hiff := prefix_declarationLine_iff hnames hf hit.1 hit.2
          by_cases hg : f = g
          · have hpre := hiff.mpr hg
            subst hg
            have hquote : ord '"' ∉ encodeGroups gs := notMem_encodeGroups hit.2 (by decide)
            have hdrop : (declarationLine f (encodeGroups gs)).drop
                (lit "static const char *" ++ declaration f).length =
                encodeGroups gs ++ ord '"' :: [ord ';', newline] := by
              rw [declarationLine, List.append_assoc, List.append_assoc _ (encodeGroups gs),
                List.drop_left]
              rfl
            simp only [Item.render, hpre, decide_true, Option.map_some, declared, if_true, hdrop]
            rw [List.takeWhile_append_of_pos, List.takeWhile_cons_of_neg (by simp), List.append_nil]
            intro c hc
            rw [decide_eq_true_eq]
            rintro rfl
            exact hquote hc
          · have hne : ¬ g = f := fun h => hg h.symm
            have hpre := mt hiff.mp hg
            simp only [Item.render, hpre, decide_false, declared, if_neg hne]
            exact hrest

/-- What the annotator reads for a function. -/
theorem decodeEmbedded_render (hnames : Names named) (hitems : ∀ it ∈ items, it.WellFormed named)
    (hf : named f) (fnNo : Nat) : ∃ maps : ChoiceMaps,
      decodeEmbedded fnNo (literalOf (render items) f) = .ok maps ∧
      ∀ kind, maps kind fnNo = groupEntries kind ((declared f items).getD []) := by
  rw [literalOf_render hnames hitems hf]
  cases hdeclared : declared f items with
  | none => exact ⟨.empty, rfl, fun kind => rfl⟩
  | some gs =>
      refine ⟨_, decodeEmbedded_encodeGroups fun g hg =>
        (smallGroup_of_declared hitems hdeclared g hg).toValidGroup, ?_⟩
      intro kind
      exact if_pos rfl

end Items

/-! ### The command-line string -/

theorem commandLineEntries_eq {ocs : List OptimisticChoice} (hocs : ∀ oc ∈ ocs, oc.Writable)
    (hnumbered : ∀ a ∈ ocs, ∀ b ∈ ocs, a.function = b.function ↔ a.functionNo = b.functionNo)
    (hdistinct : ∀ a ∈ ocs, ∀ b ∈ ocs, a.cName = b.cName → a.function = b.function) (f : Str) :
    ∃ maps, decode .empty (layout [] ocs) = .ok maps ∧
      ∀ kind, commandLineEntries maps ocs f kind = chosenEntries ocs f kind := by
  have hsmall : ∀ oc ∈ ocs, oc.value < 80 := by
    intro oc hoc
    have := (hocs oc hoc).value_le
    omega
  refine ⟨_, decode_layout (s := []) rfl (fun oc hoc => (hocs oc hoc).codable)
    fun oc hoc => OptimisticChoice.encodable_of_lt (hsmall oc hoc), ?_⟩
  intro kind
  rw [commandLineEntries, chosenEntries]
  cases hfind : ocs.find? (·.cName = f) with
  | none =>
      have hnone : ocs.filter (fun oc => oc.cName = f ∧ oc.opportunityNo = (kind.number : Int)) =
          [] := by
        rw [List.filter_eq_nil_iff]
        intro oc hoc hboth
        rw [List.find?_eq_none] at hfind
        exact hfind oc hoc (by simpa using (of_decide_eq_true hboth).1)
      rw [hnone]
      rfl
  | some oc =>
      have hoc := List.mem_of_find?_eq_some hfind
      have hname : oc.cName = f := by simpa using List.find?_some hfind
      have hsame : ∀ o ∈ ocs, o.belongsTo kind oc.functionNo.toNat =
          decide (o.cName = f ∧ o.opportunityNo = (kind.number : Int)) := by
        intro o ho
        have hno := (hocs oc hoc).codable.functionNo_nonneg
        have hfunction : o.functionNo = oc.functionNo ↔ o.cName = f := by
          rw [← hnumbered o ho oc hoc, ← hname]
          constructor
          · intro h
            rw [OptimisticChoice.cName, OptimisticChoice.cName, h]
          · exact hdistinct o ho oc hoc
        rw [OptimisticChoice.belongsTo, decide_eq_decide, Int.toNat_of_nonneg hno, hfunction]
        exact and_comm
      show [] ++ (ocs.filter _).flatMap _ = _
      rw [List.nil_append, List.filter_congr hsame, List.map_eq_flatMap]
      apply List.flatMap_congr
      intro o ho
      exact entries_of_lt (hsmall o (List.mem_of_mem_filter ho))

/-! ### One call -/

/-- A source file that holds the annotations of some choices. -/
structure Represents (named : Str → Prop) (seen : List OptimisticChoice) (items : List Item) :
    Prop where
  wellFormed : ∀ it ∈ items, it.WellFormed named
  nodup : (declaredNames items).Nodup
  declared_iff : ∀ f, (declared f items).isSome ↔ namedBy seen f
  entries : ∀ f gs, declared f items = some gs → ∃ kind, groupEntries kind gs ≠ []

section Call

variable {named : Str → Prop} {stem : Str} {seen ocs : List OptimisticChoice} {items : List Item}
  {f2c2cs : FunctionStrings}

/-- The entries of a function change by what is lost and what is chosen. -/
theorem carries_iff_takenOver (hnames : Names named)
    (hitems : ∀ it ∈ items, it.WellFormed named) (hstem : Identifier stem)
    (hcollected : Collected f2c2cs ocs) (hkeys : ∀ f ∈ f2c2cs.keys, named f)
    (hocs : ∀ oc ∈ ocs, oc.Writable)
    (hnumbered : ∀ a ∈ ocs, ∀ b ∈ ocs, a.function = b.function ↔ a.functionNo = b.functionNo)
    (hdistinct : ∀ a ∈ ocs, ∀ b ∈ ocs, a.cName = b.cName → a.function = b.function) {f : Str}
    (hf : named f) :
    Carries (render items) (render (rewritten stem f2c2cs items)) ocs f ↔
      ∀ kind, groupEntries kind ((takenOver f2c2cs.keys items f).getD []) =
        groupEntries kind ((declared f items).getD []) := by
  obtain ⟨maps, hmaps, hentries⟩ := commandLineEntries_eq hocs hnumbered hdistinct f
  have hitems' := wellFormed_rewritten hnames hitems hstem hcollected hocs hkeys
  constructor
  · intro h kind
    obtain ⟨old, new, maps', hold, hnew, hmaps', hcarried⟩ := h 0
    obtain ⟨old', hold', holdEntries⟩ := decodeEmbedded_render hnames hitems hf 0
    obtain ⟨new', hnew', hnewEntries⟩ := decodeEmbedded_render hnames hitems' hf 0
    obtain rfl := Except.ok.inj (hold'.symm.trans hold)
    obtain rfl := Except.ok.inj (hnew'.symm.trans hnew)
    obtain rfl := Except.ok.inj (hmaps.symm.trans hmaps')
    have := hcarried kind
    rw [holdEntries, hnewEntries, hentries, groupEntries_rewritten stem items hcollected] at this
    exact List.append_cancel_right this
  · intro h fnNo
    obtain ⟨old, hold, holdEntries⟩ := decodeEmbedded_render hnames hitems hf fnNo
    obtain ⟨new, hnew, hnewEntries⟩ := decodeEmbedded_render hnames hitems' hf fnNo
    refine ⟨old, new, maps, hold, hnew, hmaps, ?_⟩
    intro kind
    rw [holdEntries, hnewEntries, hentries, groupEntries_rewritten stem items hcollected, h]

/-- A function is carried unless its declaration is lost. -/
theorem takenOver_entries_iff (h : Represents named seen items) {fs : List Str} {f : Str} :
    (∀ kind, groupEntries kind ((takenOver fs items f).getD []) =
      groupEntries kind ((declared f items).getD [])) ↔ (namedBy seen f → ¬ Hidden fs f) := by
  rw [← h.declared_iff f, takenOver]
  constructor
  · intro hsame hsome hhidden
    obtain ⟨gs, hgs⟩ := Option.isSome_iff_exists.mp hsome
    obtain ⟨kind, hkind⟩ := h.entries f gs hgs
    have hnone := hsame kind
    rw [if_pos hhidden, hgs] at hnone
    exact hkind hnone.symm
  · intro hkept kind
    split
    · rename_i hhidden
      cases hdeclared : declared f items with
      | none => rfl
      | some gs => exact absurd hhidden (hkept (by rw [hdeclared]; rfl))
    · rfl

/-- What is chosen leaves an entry. -/
theorem chosenEntries_ne_nil {oc : OptimisticChoice} (hoc : oc ∈ ocs) (hwritable : oc.Writable) :
    ∃ kind, chosenEntries ocs oc.cName kind ≠ [] := by
  have hlow := hwritable.codable.one_le_kind
  have hhigh := hwritable.codable.kind_le
  refine ⟨.ofNumber oc.opportunityNo.toNat, ?_⟩
  rw [chosenEntries]
  apply List.ne_nil_of_mem (a := oc.value + 1)
  refine List.mem_map.mpr ⟨oc, List.mem_filter.mpr ⟨hoc, ?_⟩, rfl⟩
  rw [decide_eq_true_eq, OptimisticChoiceKind.number_ofNumber (by omega)]
  exact ⟨rfl, by omega⟩

/-- A call that loses nothing. -/
theorem Represents.rewritten (hnames : Names named) (h : Represents named seen items)
    (hstem : Identifier stem) (hcollected : Collected f2c2cs ocs)
    (hkeys : ∀ f ∈ f2c2cs.keys, named f) (hocs : ∀ oc ∈ ocs, oc.Writable)
    (hkept : ∀ f, namedBy seen f → ¬ Hidden f2c2cs.keys f) :
    Represents named (seen ++ ocs) (rewritten stem f2c2cs items) where
  wellFormed := wellFormed_rewritten hnames h.wellFormed hstem hcollected hocs hkeys
  nodup := nodup_declaredNames_rewritten h.nodup
  declared_iff := by
    intro f
    have hboth : namedBy (seen ++ ocs) f ↔ namedBy seen f ∨ namedBy ocs f := by
      simp [namedBy, or_and_right, exists_or]
    have htaken : (takenOver f2c2cs.keys items f).isSome ↔ namedBy seen f := by
      rw [← h.declared_iff f, takenOver]
      split
      · rename_i hhidden
        rw [h.declared_iff f]
        simpa using fun hseen => hkept f hseen hhidden
      · rfl
    rw [isSome_declared_rewritten, htaken, hcollected.keys, mem_calledNames, hboth]
    exact or_comm
  entries := by
    intro f gs hgs
    have hsum := groupEntries_rewritten stem items hcollected f
    rw [hgs, Option.getD_some] at hsum
    have hsome : (declared f (Petospa.rewritten stem f2c2cs items)).isSome := by rw [hgs]; rfl
    rcases (isSome_declared_rewritten f).mp hsome with hmem | htaken
    · rw [hcollected.keys, mem_calledNames] at hmem
      obtain ⟨oc, hoc, rfl⟩ := hmem
      obtain ⟨kind, hkind⟩ := chosenEntries_ne_nil hoc (hocs oc hoc)
      refine ⟨kind, ?_⟩
      rw [hsum]
      exact List.append_ne_nil_of_right_ne_nil _ hkind
    · obtain ⟨old, hold⟩ := Option.isSome_iff_exists.mp htaken
      have hdeclared : declared f items = some old := by
        rw [takenOver] at hold
        split at hold
        · cases hold
        · exact hold
      obtain ⟨kind, hkind⟩ := h.entries f old hdeclared
      refine ⟨kind, ?_⟩
      rw [hsum, hold]
      exact List.append_ne_nil_of_left_ne_nil hkind _

end Call

/-! ### Successive calls -/

theorem declaredNames_lines (lines : List Str) : declaredNames (lines.map Item.line) = [] := by
  induction lines with
  | nil => rfl
  | cons line lines ih => exact ih

/-- A plain source file is read as a list of lines. -/
theorem SourceText.represents {text : Str} (h : SourceText text) (named : Str → Prop) :
    ∃ items, universalNewlines text = render items ∧ Represents named [] items := by
  refine ⟨(readlines text).map Item.line, ?_, ?_, ?_, ?_, ?_⟩
  · rw [render, List.map_map, show Item.render ∘ Item.line = id from rfl, List.map_id]
    exact (flatten_splitLines _).symm
  · intro it hit
    obtain ⟨line, hline, rfl⟩ := List.mem_map.mp hit
    have hended := isLine_of_mem_splitLines (getLast?_universalNewlines h.ended) hline
    refine ⟨⟨hended, carriageReturn_notMem_of_mem_readlines hline⟩, ?_⟩
    intro hinfix
    apply (h.plain line hline).2
    exact List.IsInfix.trans ⟨[], lit " = \"", by simp [lit]⟩ hinfix
  · rw [declaredNames_lines]
    exact List.nodup_nil
  · intro f
    rw [declared_eq_none (by rw [declaredNames_lines]; exact List.not_mem_nil)]
    simp [namedBy]
  · intro f gs hgs
    rw [declared_eq_none (by rw [declaredNames_lines]; exact List.not_mem_nil)] at hgs
    cases hgs

/-- The step lemma: a call carries what was annotated before unless it is lost,
and then the rewritten file holds all annotations. -/
theorem writeControl_step {stem : Str} (hstem : Identifier stem) {named : Str → Prop}
    (hnames : Names named) {seen ocs : List OptimisticChoice} {items : List Item}
    (h : Represents named seen items) (hnamed : ∀ oc ∈ seen ++ ocs, named oc.cName)
    (hocs : ∀ oc ∈ ocs, oc.Writable)
    (hnumbered : ∀ a ∈ ocs, ∀ b ∈ ocs, a.function = b.function ↔ a.functionNo = b.functionNo)
    (hdistinct : ∀ a ∈ ocs, ∀ b ∈ ocs, a.cName = b.cName → a.function = b.function) :
    ∃ items', writeControl stem (render items) ocs = .ok (render items') ∧
      ((∀ oc ∈ seen ++ ocs, Carries (render items) (render items') ocs oc.cName) ↔
        ∀ oc ∈ seen, ¬ Hidden (calledNames ocs) oc.cName) ∧
      ((∀ oc ∈ seen, ¬ Hidden (calledNames ocs) oc.cName) →
        Represents named (seen ++ ocs) items') := by
  have hocsNamed : ∀ oc ∈ ocs, named oc.cName := fun oc hoc =>
    hnamed oc (List.mem_append_right _ hoc)
  obtain ⟨f2c2cs, hcollected, hcall⟩ :=
    writeControl_render stem hnames h.wellFormed h.nodup hocs hocsNamed
  have hkeys : ∀ f ∈ f2c2cs.keys, named f := by
    intro f hf
    rw [hcollected.keys, mem_calledNames] at hf
    obtain ⟨oc, hoc, rfl⟩ := hf
    exact hocsNamed oc hoc
  have hcarries : ∀ oc ∈ seen ++ ocs, (Carries (render items)
      (render (rewritten stem f2c2cs items)) ocs oc.cName ↔
        (namedBy seen oc.cName → ¬ Hidden (calledNames ocs) oc.cName)) := by
    intro oc hoc
    rw [carries_iff_takenOver hnames h.wellFormed hstem hcollected hkeys hocs hnumbered hdistinct
      (hnamed oc hoc), takenOver_entries_iff h, hcollected.keys]
  refine ⟨rewritten stem f2c2cs items, hcall, ⟨?_, ?_⟩, ?_⟩
  · intro hall oc hoc
    have hin := List.mem_append_left ocs hoc
    exact (hcarries oc hin).mp (hall oc hin) ⟨oc, hoc, rfl⟩
  · intro hnone oc hoc
    rw [hcarries oc hoc]
    rintro ⟨oc', hoc', hname⟩
    exact hname ▸ hnone oc' hoc'
  · intro hnone
    refine h.rewritten hnames hstem hcollected hkeys hocs ?_
    rintro f ⟨oc, hoc, rfl⟩
    rw [hcollected.keys]
    exact hnone oc hoc

/-- The run lemma. -/
theorem carriesAll_iff {stem : Str} (hstem : Identifier stem) {named : Str → Prop}
    (hnames : Names named) {calls : List (List OptimisticChoice)} {seen : List OptimisticChoice}
    {items : List Item} (h : Represents named seen items)
    (hnamed : ∀ oc ∈ seen ++ calls.flatten, named oc.cName)
    (hwritable : ∀ oc ∈ calls.flatten, oc.Writable)
    (hnumbered : ∀ ocs ∈ calls, ∀ a ∈ ocs, ∀ b ∈ ocs,
      a.function = b.function ↔ a.functionNo = b.functionNo)
    (hdistinct : ∀ a ∈ calls.flatten, ∀ b ∈ calls.flatten, a.cName = b.cName →
      a.function = b.function) :
    CarriesAll stem seen (render items) calls ↔ NoneHidden seen calls := by
  induction calls generalizing seen items with
  | nil => exact Iff.rfl
  | cons ocs calls ih =>
      rw [List.flatten_cons, ← List.append_assoc] at hnamed
      rw [List.flatten_cons] at hwritable hdistinct
      obtain ⟨items', hcall, hcarries, hnext⟩ := writeControl_step hstem hnames h
        (fun oc hoc => hnamed oc (List.mem_append_left _ hoc))
        (fun oc hoc => hwritable oc (List.mem_append_left _ hoc)) (hnumbered ocs List.mem_cons_self)
        (fun a ha b hb =>
          hdistinct a (List.mem_append_left _ ha) b (List.mem_append_left _ hb))
      have hrest : (∀ oc ∈ seen, ¬ Hidden (calledNames ocs) oc.cName) →
          (CarriesAll stem (seen ++ ocs) (render items') calls ↔
            NoneHidden (seen ++ ocs) calls) := by
        intro hnone
        apply ih (hnext hnone) hnamed
        · exact fun oc hoc => hwritable oc (List.mem_append_right _ hoc)
        · exact fun ocs' hmem' => hnumbered ocs' (List.mem_cons_of_mem _ hmem')
        · exact fun a ha b hb =>
            hdistinct a (List.mem_append_right _ ha) b (List.mem_append_right _ hb)
      constructor
      · rintro ⟨text', htext, hall, hcarried⟩
        obtain rfl := Except.ok.inj (hcall.symm.trans htext)
        have hnone := hcarries.mp hall
        exact ⟨hnone, (hrest hnone).mp hcarried⟩
      · rintro ⟨hnone, hlater⟩
        exact ⟨_, hcall, hcarries.mpr hnone, (hrest hnone).mpr hlater⟩

/-- Line ends are translated before anything is looked at. -/
theorem carriesAll_universalNewlines {stem : Str} {seen : List OptimisticChoice} {text : Str}
    {calls : List (List OptimisticChoice)} :
    CarriesAll stem seen (universalNewlines text) calls ↔ CarriesAll stem seen text calls := by
  cases calls with
  | nil => exact Iff.rfl
  | cons ocs calls =>
      have hcall : writeControl stem (universalNewlines text) ocs = writeControl stem text ocs := by
        rw [writeControl, writeControl, readlines_universalNewlines]
      have hliteral (f : Str) : literalOf (universalNewlines text) f = literalOf text f := by
        rw [literalOf, literalOf, readlines_universalNewlines]
      simp only [CarriesAll, Carries, hcall, hliteral]

/-- Successive calls on a source file carry every annotated function if and only
if no declaration is lost to the `KeepAlive` test of another function. -/
theorem writeControl_carries_iff {stem text : Str} (hstem : Identifier stem)
    (htext : SourceText text) {calls : List (List OptimisticChoice)} (hcalls : Annotatable calls) :
    CarriesAll stem [] text calls ↔ NoneHidden [] calls := by
  obtain ⟨items, hread, hitems⟩ := htext.represents (namedBy calls.flatten)
  rw [← carriesAll_universalNewlines, hread]
  apply carriesAll_iff hstem hcalls.names hitems
  · intro oc hoc
    exact ⟨oc, hoc, rfl⟩
  · exact hcalls.writable
  · exact hcalls.numbered
  · exact hcalls.distinct

/-! ### A function that is called `KeepAlive` -/

/-- First the function `KeepAlive` is annotated, then the function `O`. -/
def keepAliveThenO : List (List OptimisticChoice) :=
  [[settledNsw 0 (lit "KeepAlive")], [settledNsw 1 (lit "O")]]

def plainText : Str := lit "int x;\n"

def annotatedOnce : Str :=
  plainText ++ declarationLine (lit "KeepAlive") (lit "#c41") ++
    keepAliveLine (lit "main") (lit "KeepAlive")

def annotatedTwice : Str :=
  plainText ++ declarationLine (lit "O") (lit "#c41") ++ keepAliveLine (lit "main") (lit "O")

theorem annotatable_keepAliveThenO : Annotatable keepAliveThenO where
  writable := by
    intro oc hoc
    simp only [keepAliveThenO, List.flatten_cons, List.flatten_nil, List.append_nil,
      List.cons_append, List.nil_append, List.mem_cons, List.not_mem_nil, or_false] at hoc
    rcases hoc with rfl | rfl
    · exact writable_settledNsw _ (by decide) (by decide)
    · exact writable_settledNsw _ (by decide) (by decide)
  numbered := by simp [keepAliveThenO]
  distinct := by
    simp only [keepAliveThenO, List.flatten_cons, List.flatten_nil, List.append_nil,
      List.cons_append, List.nil_append, List.forall_mem_cons]
    refine ⟨⟨fun _ => trivial, ?_, by simp⟩, ⟨?_, fun _ => trivial, by simp⟩, by simp⟩
    · decide
    · decide
  identifier := by
    simp only [keepAliveThenO, List.flatten_cons, List.flatten_nil, List.append_nil,
      List.cons_append, List.nil_append, List.forall_mem_cons]
    refine ⟨?_, ?_, by simp⟩
    · unfold Identifier
      decide
    · unfold Identifier
      decide
  apart := by
    simp only [keepAliveThenO, List.flatten_cons, List.flatten_nil, List.append_nil,
      List.cons_append, List.nil_append, List.forall_mem_cons]
    refine ⟨⟨fun _ => trivial, ?_, by simp⟩, ⟨?_, fun _ => trivial, by simp⟩, by simp⟩
    · decide
    · decide

theorem sourceText_plainText : SourceText plainText where
  ended := by decide
  plain := by
    have hlines : readlines plainText = [plainText] := by decide
    rw [hlines]
    simp only [List.forall_mem_singleton]
    decide

theorem writeControl_carries_iff_keepAliveThenO :
    CarriesAll (lit "main") [] plainText keepAliveThenO ↔ NoneHidden [] keepAliveThenO :=
  writeControl_carries_iff (by unfold Identifier; decide) sourceText_plainText
    annotatable_keepAliveThenO

/-- The second call takes the declaration of `KeepAlive` for a line that keeps
`O` alive. -/
theorem not_writeControl_carries :
    ¬ ∀ (stem text : Str) (calls : List (List OptimisticChoice)), Identifier stem →
      SourceText text → Annotatable calls → CarriesAll stem [] text calls := by
  intro h
  have hcarries := h (lit "main") plainText keepAliveThenO (by unfold Identifier; decide)
    sourceText_plainText annotatable_keepAliveThenO
  obtain ⟨text, htext, -, text', htext', hall, -⟩ := hcarries
  have hfirst : writeControl (lit "main") plainText [settledNsw 0 (lit "KeepAlive")] =
      .ok annotatedOnce := rfl
  have hsecond : writeControl (lit "main") annotatedOnce [settledNsw 1 (lit "O")] =
      .ok annotatedTwice := rfl
  obtain rfl := Except.ok.inj (hfirst.symm.trans htext)
  obtain rfl := Except.ok.inj (hsecond.symm.trans htext')
  obtain ⟨old, new, maps, hold, hnew, -, hentries⟩ :=
    hall (settledNsw 0 (lit "KeepAlive")) (by simp) 0
  have hlost : decodeEmbedded 0 (literalOf annotatedTwice (lit "KeepAlive")) = .ok .empty := rfl
  have hgiven : ∃ maps : ChoiceMaps,
      decodeEmbedded 0 (literalOf annotatedOnce (lit "KeepAlive")) = .ok maps ∧
        maps .overflowNsw 0 = [2] := ⟨_, rfl, rfl⟩
  obtain ⟨given, hdecoded, htwo⟩ := hgiven
  obtain rfl := Except.ok.inj (hdecoded.symm.trans hold)
  obtain rfl := Except.ok.inj (hlost.symm.trans hnew)
  have := hentries .overflowNsw
  rw [htwo] at this
  cases this

end Petospa
