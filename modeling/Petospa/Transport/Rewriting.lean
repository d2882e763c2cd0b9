import Petospa.Transport.AnnotatedSource
import Petospa.Transport.Codec

/-!
# What a call of `writeControl` makes of the items

The choices are collected into the groups of their functions; every function that
the call names gets a new declaration, which continues the one it had unless that
one was lost.
-/

namespace Petospa

open Text

/-! ### Collecting the choices -/

/-- The functions of some choices, in the order of their first choices. -/
def calledNames (ocs : List OptimisticChoice) : List Str :=
  ocs.foldl (fun fs oc => Dict.insertKey fs oc.cName) []

theorem mem_calledNames {ocs : List OptimisticChoice} {f : Str} :
    f ∈ calledNames ocs ↔ ∃ oc ∈ ocs, oc.cName = f := by
  have hfold : ∀ fs : List Str, f ∈ ocs.foldl (fun fs oc => Dict.insertKey fs oc.cName) fs ↔
      f ∈ fs ∨ ∃ oc ∈ ocs, oc.cName = f := by
    induction ocs with
    | nil => simp
    | cons oc ocs ih =>
        intro fs
        rw [List.foldl_cons, ih, Dict.mem_insertKey]
        simp only [List.mem_cons, exists_eq_or_imp, or_assoc, eq_comm (a := f)]
  rw [calledNames, hfold]
  simp

/-- The entries that the choices of a function and kind ask for. -/
def chosenEntries (ocs : List OptimisticChoice) (f : Str) (kind : OptimisticChoiceKind) :
    List Nat :=
  (ocs.filter fun oc => oc.cName = f ∧ oc.opportunityNo = (kind.number : Int)).map (·.value + 1)

/-- A settled choice of a real kind, whose value is one character of a C literal: it has
seven bits and is not the backslash. -/
structure OptimisticChoice.Embeddable (oc : OptimisticChoice) : Prop where
  fixed : oc.fixed = true
  codable : oc.Codable
  value_lt : oc.value < 80
  value_ne : oc.value ≠ 44

/-- A settled choice of a real kind, whose value is written as one character of a
C string. -/
structure OptimisticChoice.Writable (oc : OptimisticChoice) : Prop where
  fixed : oc.fixed = true
  codable : oc.Codable
  value_le : oc.value ≤ 43

theorem OptimisticChoice.Writable.embeddable {oc : OptimisticChoice} (h : oc.Writable) :
    oc.Embeddable where
  fixed := h.fixed
  codable := h.codable
  value_lt := by
    have := h.value_le
    omega
  value_ne := by
    have := h.value_le
    omega

/-- A settled no-signed-wrap flag of a function. -/
def settledNsw (functionNo : Int) (f : Str) : OptimisticChoice where
  category := lit "o"
  kind := lit "nsw"
  opportunityNo := 4
  functionNo := functionNo
  maxOptions := 2
  name := lit "add"
  function := f
  position := 0
  fixed := true
  value := 1
  maxOptions_pos := Nat.two_pos

theorem writable_settledNsw {functionNo : Int} (f : Str) (hlow : 0 ≤ functionNo)
    (hhigh : functionNo < 2 ^ 31) : (settledNsw functionNo f).Writable where
  fixed := rfl
  codable := ⟨hlow, hhigh, show (1 : Int) ≤ 4 by decide, show (4 : Int) ≤ 22 by decide⟩
  value_le := show 1 ≤ 43 by decide

/-- `f2_c2cs` holds the choices so far, and nothing else. -/
structure Collected (f2c2cs : FunctionStrings) (ocs : List OptimisticChoice) : Prop where
  keys : f2c2cs.keys = calledNames ocs
  kinds : ∀ f c2cs k v, f2c2cs.get? f = some c2cs → c2cs.get? k = some v →
    ∃ oc ∈ ocs, k = oc.opportunityNo
  chars : ∀ f c2cs k v, f2c2cs.get? f = some c2cs → c2cs.get? k = some v →
    ∀ c ∈ v, ∃ oc ∈ ocs, c = optionChar oc.value
  entries : ∀ f kind, ((f2c2cs.get? f).map fun c2cs => groupEntries kind c2cs.entries).getD [] =
    chosenEntries ocs f kind

theorem collected_empty : Collected .empty [] where
  keys := rfl
  kinds := by
    intro f c2cs k v h
    cases h
  chars := by
    intro f c2cs k v h
    cases h
  entries := fun f kind => rfl

theorem groupEntries_entries (c2cs : KindStrings) (kind : OptimisticChoiceKind) :
    groupEntries kind c2cs.entries = ((c2cs.get? kind.number).map charEntries).getD [] :=
  Dict.flatMap_entries _ _

theorem charEntries_append (cs : Str) (value : Nat) :
    charEntries (cs ++ [optionChar value]) = charEntries cs ++ [value + 1] := by
  rw [charEntries, charEntries, List.map_append, List.map_singleton]
  show _ ++ [48 + value - 47] = _
  congr 2
  omega

theorem chosenEntries_append (ocs : List OptimisticChoice) (oc : OptimisticChoice) (f : Str)
    (kind : OptimisticChoiceKind) : chosenEntries (ocs ++ [oc]) f kind = chosenEntries ocs f kind ++
      if oc.cName = f ∧ oc.opportunityNo = (kind.number : Int) then [oc.value + 1] else [] := by
  rw [chosenEntries, List.filter_append, List.map_append]
  congr 1
  by_cases h : oc.cName = f ∧ oc.opportunityNo = (kind.number : Int) <;> simp [h]

/-- What a choice adds to a function's strings. -/
theorem get?_modify_empty {f2c2cs : FunctionStrings} {c2cs : KindStrings} {f g : Str}
    {change : KindStrings → KindStrings}
    (h : (f2c2cs.modify g .empty change).get? f = some c2cs) :
    (f = g ∧ ∃ old : KindStrings, c2cs = change old ∧
      ∀ k v, old.get? k = some v → f2c2cs.get? f = some old) ∨ f2c2cs.get? f = some c2cs := by
  rw [Dict.get?_modify] at h
  split at h
  · rename_i hname
    subst hname
    refine .inl ⟨rfl, _, (Option.some.inj h).symm, fun k v hk => ?_⟩
    cases hget : f2c2cs.get? f with
    | none =>
        rw [hget] at hk
        cases hk
    | some old => rfl
  · exact .inr h

/-- One choice. -/
theorem Collected.step {f2c2cs : FunctionStrings} {ocs : List OptimisticChoice}
    (h : Collected f2c2cs ocs) (oc : OptimisticChoice) :
    Collected (f2c2cs.modify oc.cName .empty fun c2cs =>
      c2cs.modify oc.opportunityNo [] (· ++ [optionChar oc.value])) (ocs ++ [oc]) where
  keys := by
    rw [Dict.keys_modify, h.keys, calledNames, calledNames, List.foldl_append]
    rfl
  kinds := by
    intro f c2cs k v hf hk
    have hlift : (∃ o ∈ ocs, k = o.opportunityNo) → ∃ o ∈ ocs ++ [oc], k = o.opportunityNo := by
      rintro ⟨o, ho, hkind⟩
      exact ⟨o, List.mem_append_left _ ho, hkind⟩
    obtain ⟨-, old, rfl, hold⟩ | hf := get?_modify_empty hf
    · rw [Dict.get?_modify] at hk
      split at hk
      · rename_i hkind
        exact ⟨oc, List.mem_append_right _ List.mem_cons_self, hkind⟩
      · exact hlift (h.kinds f old k v (hold k v hk) hk)
    · exact hlift (h.kinds f c2cs k v hf hk)
  chars := by
    intro f c2cs k v hf hk c hc
    have hlift : (∃ o ∈ ocs, c = optionChar o.value) →
        ∃ o ∈ ocs ++ [oc], c = optionChar o.value := by
      rintro ⟨o, ho, hchar⟩
      exact ⟨o, List.mem_append_left _ ho, hchar⟩
    obtain ⟨-, old, rfl, hold⟩ | hf := get?_modify_empty hf
    · rw [Dict.get?_modify] at hk
      split at hk
      · obtain rfl := Option.some.inj hk
        rcases List.mem_append.mp hc with hc | hc
        · cases hget : old.get? oc.opportunityNo with
          | none =>
              rw [hget] at hc
              cases hc
          | some v =>
              rw [hget] at hc
              exact hlift (h.chars f old _ v (hold _ v hget) hget c hc)
        · exact ⟨oc, List.mem_append_right _ List.mem_cons_self, List.mem_singleton.mp hc⟩
      · exact hlift (h.chars f old k v (hold k v hk) hk c hc)
    · exact hlift (h.chars f c2cs k v hf hk c hc)
  entries := by
    intro f kind
    rw [chosenEntries_append, ← h.entries f kind, Dict.get?_modify]
    by_cases hf : f = oc.cName
    · subst hf
      rw [if_pos rfl, Option.map_some, Option.getD_some, groupEntries_entries, Dict.get?_modify]
      have hold :
          ((((f2c2cs.get? oc.cName).getD .empty).get? kind.number).map charEntries).getD [] =
          ((f2c2cs.get? oc.cName).map fun c2cs => groupEntries kind c2cs.entries).getD [] := by
        cases f2c2cs.get? oc.cName with
        | none => rfl
        | some c2cs => exact (groupEntries_entries c2cs kind).symm
      rw [← hold]
      by_cases hk : (kind.number : Int) = oc.opportunityNo
      · rw [if_pos hk, if_pos ⟨rfl, hk.symm⟩, Option.map_some, Option.getD_some, charEntries_append,
          hk]
        cases ((f2c2cs.get? oc.cName).getD .empty).get? oc.opportunityNo <;> rfl
      · rw [if_neg hk, if_neg (fun hboth => hk hboth.2.symm), List.append_nil]
    · rw [if_neg hf, if_neg (fun hboth => hf hboth.1.symm), List.append_nil]

theorem collect_eq {f2c2cs : FunctionStrings} {front ocs : List OptimisticChoice}
    (h : Collected f2c2cs front) (hocs : ∀ oc ∈ ocs, oc.Embeddable) :
    ∃ f2c2cs', collect ocs f2c2cs = .ok f2c2cs' ∧ Collected f2c2cs' (front ++ ocs) := by
  induction ocs generalizing f2c2cs front with
  | nil => exact ⟨f2c2cs, rfl, by rwa [List.append_nil]⟩
  | cons oc ocs ih =>
      have hoc := hocs oc List.mem_cons_self
      have hkind := hoc.codable.one_le_kind
      obtain ⟨f2c2cs', hcollect, hcollected⟩ :=
        ih (h.step oc) fun oc' hmem => hocs oc' (List.mem_cons_of_mem _ hmem)
      refine ⟨f2c2cs', ?_, by simpa using hcollected⟩
      rw [collect, if_neg (by omega), if_pos hoc.fixed, hcollect]

section Groups

variable {f2c2cs : FunctionStrings} {ocs : List OptimisticChoice} {e : Str × KindStrings}
  {g : Int × Str}

/-- The groups of embeddable choices are read back. -/
theorem Collected.validGroup (h : Collected f2c2cs ocs) (hocs : ∀ oc ∈ ocs, oc.Embeddable)
    (he : e ∈ f2c2cs.entries) (hg : g ∈ e.2.entries) : ValidGroup g := by
  have hf := Dict.get?_of_mem he
  have hk := Dict.get?_of_mem hg
  obtain ⟨oc, hoc, hkind⟩ := h.kinds e.1 e.2 g.1 g.2 hf hk
  refine ⟨?_, ?_, fun c hc => ?_⟩
  · rw [hkind]
    exact (hocs oc hoc).codable.one_le_kind
  · rw [hkind]
    exact (hocs oc hoc).codable.kind_le
  · obtain ⟨o, ho, rfl⟩ := h.chars e.1 e.2 g.1 g.2 hf hk c hc
    have hvalue := (hocs o ho).value_lt
    have hchar : optionChar o.value = 48 + o.value := rfl
    omega

theorem Collected.smallGroup (h : Collected f2c2cs ocs) (hocs : ∀ oc ∈ ocs, oc.Writable)
    (he : e ∈ f2c2cs.entries) (hg : g ∈ e.2.entries) : SmallGroup g where
  toValidGroup := h.validGroup (fun oc hoc => (hocs oc hoc).embeddable) he hg
  chars_le := by
    intro c hc
    obtain ⟨o, ho, rfl⟩ :=
      h.chars e.1 e.2 g.1 g.2 (Dict.get?_of_mem he) (Dict.get?_of_mem hg) c hc
    have hvalue := (hocs o ho).value_le
    have hchar : optionChar o.value = 48 + o.value := rfl
    omega

end Groups

/-! ### Gluing strings -/

theorem glue_groups {gs rest : List (Int × Str)} (hgs : ∀ g ∈ gs, 0 ≤ g.1) (preCs cs : Str) :
    glue (gs ++ rest) preCs cs = glue rest preCs (cs ++ encodeGroups gs) := by
  induction gs generalizing cs with
  | nil => simp [encodeGroups]
  | cons g gs ih =>
      rw [List.cons_append, glue, if_pos (hgs g List.mem_cons_self),
        ih (fun g' hg' => hgs g' (List.mem_cons_of_mem _ hg'))]
      simp [encodeGroups]

/-- The old string comes first. -/
theorem glue_old {gs : List (Int × Str)} (hgs : ∀ g ∈ gs, 0 ≤ g.1) (old : Str) :
    glue (gs ++ [(-1, old)]) [] [] = .ok (old ++ encodeGroups gs) := by
  rw [glue_groups hgs, glue, if_neg (by decide), if_pos rfl, glue, List.nil_append]

theorem glue_new {gs : List (Int × Str)} (hgs : ∀ g ∈ gs, 0 ≤ g.1) :
    glue gs [] [] = .ok (encodeGroups gs) := by
  have h : glue (gs ++ []) [] [] = glue [] [] ([] ++ encodeGroups gs) := glue_groups hgs [] []
  rwa [List.append_nil, glue, List.nil_append, List.nil_append] at h

/-! ### The rewritten items -/

/-- The declaration of a function that a call takes over. -/
def takenOver (fs : List Str) (items : List Item) (f : Str) : Option (List (Int × Str)) :=
  if Hidden fs f then none else declared f items

def generated (stem : Str) (fs : List Str) (items : List Item) (e : Str × KindStrings) :
    List Item :=
  [.declares e.1 ((takenOver fs items e.1).getD [] ++ e.2.entries), .line (keepAliveLine stem e.1)]

def rewritten (stem : Str) (f2c2cs : FunctionStrings) (items : List Item) : List Item :=
  items.filter (·.stays f2c2cs.keys) ++
    f2c2cs.entries.flatMap (generated stem f2c2cs.keys items)

section Rewritten

variable {named : Str → Prop} {stem : Str} {f2c2cs : FunctionStrings} {ocs : List OptimisticChoice}
  {items : List Item} {f : Str} {fs : List Str}

theorem declared_eq_none (h : f ∉ declaredNames items) : declared f items = none := by
  induction items with
  | nil => rfl
  | cons it items ih =>
      cases it with
      | line text => exact ih h
      | declares g gs =>
          have hnot : f ∉ g :: declaredNames items := h
          rw [List.mem_cons, not_or] at hnot
          rw [declared, if_neg (Ne.symm hnot.1), ih hnot.2]

/-- A function has one declaration, so at most one string is recovered for it. -/
theorem recovered_eq (hnodup : (declaredNames items).Nodup) (c2cs : KindStrings) :
    recovered fs f items c2cs = match takenOver fs items f with
      | some gs => c2cs.set (-1) (encodeGroups gs)
      | none => c2cs := by
  induction items generalizing c2cs with
  | nil => simp [recovered, takenOver, declared]
  | cons it items ih =>
      cases it with
      | line text => exact ih hnodup c2cs
      | declares g gs =>
          obtain ⟨hfresh, htail⟩ := List.nodup_cons.mp hnodup
          rw [recovered, ih htail]
          by_cases hg : g = f
          · subst hg
            have hnone := declared_eq_none hfresh
            by_cases hhidden : Hidden fs g
            · simp [takenOver, hhidden]
            · simp [takenOver, declared, hhidden, hnone]
          · simp [takenOver, declared, hg]

theorem encodeGroups_append (gs gs' : List (Int × Str)) :
    encodeGroups (gs ++ gs') = encodeGroups gs ++ encodeGroups gs' := List.flatMap_append

/-- The string of a function that the call names. -/
theorem glue_recovered (h : Collected f2c2cs ocs) (hocs : ∀ oc ∈ ocs, oc.Writable)
    (hnodup : (declaredNames items).Nodup) {e : Str × KindStrings} (he : e ∈ f2c2cs.entries) :
    glue (recovered fs e.1 items e.2).entries [] [] =
      .ok (encodeGroups ((takenOver fs items e.1).getD [] ++ e.2.entries)) := by
  have hkinds : ∀ g ∈ e.2.entries, 0 ≤ g.1 := by
    intro g hg
    have := (h.smallGroup hocs he hg).one_le_kind
    omega
  rw [recovered_eq hnodup, encodeGroups_append]
  cases takenOver fs items e.1 with
  | none => exact glue_new hkinds
  | some gs =>
      have hnew : (-1 : Int) ∉ e.2.keys := by
        intro hmem
        obtain ⟨g, hg, hkey⟩ := List.mem_map.mp hmem
        have := hkinds g hg
        omega
      show glue (e.2.set (-1) (encodeGroups gs)).entries [] [] = _
      rw [Dict.set, Dict.entries_modify_of_notMem hnew, glue_old hkinds]
      rfl

theorem mapM_ok {α β ε : Type*} {l : List α} {f : α → Except ε β} {g : α → β}
    (h : ∀ x ∈ l, f x = .ok (g x)) : l.mapM f = .ok (l.map g) := by
  induction l with
  | nil => rfl
  | cons x l ih =>
      rw [List.mapM_cons, h x List.mem_cons_self, ih fun y hy => h y (List.mem_cons_of_mem _ hy)]
      rfl

theorem flatten_rewritten :
    ((items.filter fun it : Item => it.stays f2c2cs.keys).map Item.render ++ [[], []] ++
      f2c2cs.entries.map fun e => render (generated stem f2c2cs.keys items e)).flatten =
      render (rewritten stem f2c2cs items) := by
  have hgenerated : ∀ entries : List (Str × KindStrings),
      (entries.map fun e => render (generated stem f2c2cs.keys items e)).flatten =
        ((entries.flatMap (generated stem f2c2cs.keys items)).map Item.render).flatten := by
    intro entries
    induction entries with
    | nil => rfl
    | cons e entries ih =>
        rw [List.map_cons, List.flatten_cons, ih, List.flatMap_cons, List.map_append,
          List.flatten_append, render]
  rw [render, rewritten, List.map_append, List.flatten_append, List.flatten_append,
    List.flatten_append, hgenerated]
  simp

/-- The call follows the items. -/
theorem writeControl_render (stem : Str) (hnames : Names named)
    (hitems : ∀ it ∈ items, it.WellFormed named)
    (hnodup : (declaredNames items).Nodup) (hocs : ∀ oc ∈ ocs, oc.Writable)
    (hnamed : ∀ oc ∈ ocs, named oc.cName) :
    ∃ f2c2cs, Collected f2c2cs ocs ∧ writeControl stem (render items) ocs =
      .ok (render (rewritten stem f2c2cs items)) := by
  obtain ⟨f2c2cs, hcollect, hcollected⟩ :=
    collect_eq collected_empty fun oc hoc => (hocs oc hoc).embeddable
  rw [List.nil_append] at hcollected
  have hkeys : ∀ f ∈ f2c2cs.keys, named f := by
    intro f hf
    rw [hcollected.keys, mem_calledNames] at hf
    obtain ⟨oc, hoc, rfl⟩ := hf
    exact hnamed oc hoc
  obtain ⟨f2c2cs', hread, hentries⟩ := readOld_render hnames hitems hkeys []
  refine ⟨f2c2cs, hcollected, ?_⟩
  have hgenerated : f2c2cs'.entries.mapM (annotationText stem) = .ok (f2c2cs.entries.map fun e =>
      ((generated stem f2c2cs.keys items e).map Item.render).flatten) := by
    rw [hentries, List.mapM_map]
    apply mapM_ok
    intro e he
    show annotationText stem (e.1, recovered f2c2cs.keys e.1 items e.2) = _
    rw [annotationText, glue_recovered hcollected hocs hnodup he]
    simp [generated, Item.render, bind, Except.bind, pure, Except.pure]
  rw [writeControl, readlines_render hnames hitems, ← flatten_rewritten]
  simp only [hcollect, hread, hgenerated, bind, Except.bind]
  rfl

/-! ### What is declared after a call -/

theorem isLine_keepAliveLine (hstem : Identifier stem) (hf : Identifier f) :
    IsLine (keepAliveLine stem f) := by
  refine ⟨lit "const char **" ++ keepAlive f ++ lit "_" ++ stem ++ lit " = " ++
    (lit "&" ++ declarator f ++ lit ";"), ?_, by simp [keepAliveLine]⟩
  have hkeep := (identifier_keepAlive hf).notMem (c := newline) (by decide)
  have hdeclarator := (identifier_declarator hf).notMem (c := newline) (by decide)
  have hstem := hstem.notMem (c := newline) (by decide)
  simp only [List.mem_append, not_or]
  exact ⟨⟨⟨⟨⟨by decide, hkeep⟩, by decide⟩, hstem⟩, by decide⟩, ⟨by decide, hdeclarator⟩, by decide⟩

/-- A `KeepAlive` line has no quote. -/
theorem not_infix_keepAliveLine (hstem : Identifier stem) (hf : Identifier f) :
    ¬ lit "_OptimisticChoices = \"" <:+: keepAliveLine stem f := by
  intro h
  have hquote : ord '"' ∈ keepAliveLine stem f := h.subset (by decide)
  have hkeep := (identifier_keepAlive hf).notMem (c := ord '"') (by decide)
  have hdeclarator := (identifier_declarator hf).notMem (c := ord '"') (by decide)
  have hstem := hstem.notMem (c := ord '"') (by decide)
  simp only [keepAliveLine, List.mem_append] at hquote
  rcases hquote with ((((h | h) | h) | h) | h) | ((h | h) | h) | h
  · exact absurd h (by decide)
  · exact hkeep h
  · exact absurd h (by decide)
  · exact hstem h
  · exact absurd h (by decide)
  · exact absurd h (by decide)
  · exact hdeclarator h
  · exact absurd h (by decide)
  · exact absurd h (by decide)

theorem smallGroup_of_declared (hitems : ∀ it ∈ items, it.WellFormed named)
    {gs : List (Int × Str)} (h : declared f items = some gs) : ∀ g ∈ gs, SmallGroup g := by
  induction items with
  | nil => cases h
  | cons it items ih =>
      have hrest := ih fun it' hit => hitems it' (List.mem_cons_of_mem _ hit)
      cases it with
      | line text => exact hrest h
      | declares g gs' =>
          rw [declared] at h
          split at h
          · obtain rfl := Option.some.inj h
            exact (hitems _ List.mem_cons_self).2
          · exact hrest h

theorem smallGroup_of_takenOver (hitems : ∀ it ∈ items, it.WellFormed named) :
    ∀ g ∈ (takenOver fs items f).getD [], SmallGroup g := by
  rw [takenOver]
  split
  · simp
  · cases hdeclared : declared f items with
    | none => simp
    | some gs => exact smallGroup_of_declared hitems hdeclared

theorem wellFormed_rewritten (hnames : Names named) (hitems : ∀ it ∈ items, it.WellFormed named)
    (hstem : Identifier stem) (h : Collected f2c2cs ocs) (hocs : ∀ oc ∈ ocs, oc.Writable)
    (hkeys : ∀ f ∈ f2c2cs.keys, named f) :
    ∀ it ∈ rewritten stem f2c2cs items, it.WellFormed named := by
  intro it hit
  rcases List.mem_append.mp hit with hit | hit
  · exact hitems it (List.mem_of_mem_filter hit)
  · obtain ⟨e, he, hit⟩ := List.mem_flatMap.mp hit
    have hnamed := hkeys e.1 (List.mem_map_of_mem he)
    have hident := hnames.identifier e.1 hnamed
    simp only [generated, List.mem_cons, List.not_mem_nil, or_false] at hit
    rcases hit with rfl | rfl
    · refine ⟨hnamed, ?_⟩
      intro g hg
      rcases List.mem_append.mp hg with hg | hg
      · exact smallGroup_of_takenOver hitems g hg
      · exact h.smallGroup hocs he hg
    · exact ⟨⟨isLine_keepAliveLine hstem hident, carriageReturn_notMem_keepAliveLine hstem hident⟩,
        not_infix_keepAliveLine hstem hident⟩

theorem declaredNames_generated (entries : List (Str × KindStrings)) :
    declaredNames (entries.flatMap (generated stem fs items)) = entries.map Prod.fst := by
  induction entries with
  | nil => rfl
  | cons e entries ih =>
      rw [List.flatMap_cons, declaredNames, List.filterMap_append]
      exact congrArg (e.1 :: ·) ih

theorem nodup_declaredNames_rewritten (hnodup : (declaredNames items).Nodup) :
    (declaredNames (rewritten stem f2c2cs items)).Nodup := by
  rw [rewritten, declaredNames, List.filterMap_append, List.nodup_append]
  refine ⟨hnodup.sublist (List.filter_sublist.filterMap _), ?_, ?_⟩
  · show (declaredNames _).Nodup
    rw [declaredNames_generated]
    exact f2c2cs.nodup
  · -- What stays is not named by the call.
    intro g hg g' hg' heq
    subst heq
    obtain ⟨it, hit, hname⟩ := List.mem_filterMap.mp hg
    have hmem : g ∈ declaredNames (f2c2cs.entries.flatMap (generated stem f2c2cs.keys items)) := hg'
    rw [declaredNames_generated] at hmem
    have hstays := (List.mem_filter.mp hit).2
    cases it with
    | line text => cases hname
    | declares f gs =>
        obtain rfl := Option.some.inj hname
        simp only [Item.stays, decide_eq_true_eq] at hstays
        exact hstays.1 hmem

theorem declared_append (items items' : List Item) :
    declared f (items ++ items') = (declared f items).or (declared f items') := by
  induction items with
  | nil => rfl
  | cons it items ih =>
      cases it with
      | line text => exact ih
      | declares g gs =>
          rw [List.cons_append, declared, declared, ih]
          split <;> rfl

theorem declared_stays : declared f (items.filter fun it : Item => it.stays fs) =
    if f ∈ fs then none else takenOver fs items f := by
  induction items with
  | nil => simp [declared, takenOver]
  | cons it items ih =>
      rw [List.filter_cons]
      cases it with
      | line text =>
          split
          · exact ih
          · exact ih
      | declares g gs =>
          by_cases hg : g = f
          · subst hg
            by_cases hmem : g ∈ fs
            · simpa [Item.stays, hmem] using ih
            · by_cases hhidden : Hidden fs g
              · simpa [Item.stays, hmem, hhidden, takenOver] using ih
              · simp [Item.stays, hmem, hhidden, takenOver, declared]
          · split
            · rw [declared, if_neg hg, ih]
              simp [takenOver, declared, hg]
            · rw [ih]
              simp [takenOver, declared, hg]

theorem declared_generated (entries : List (Str × KindStrings)) :
    declared f (entries.flatMap (generated stem fs items)) =
      (entries.find? (·.1 = f)).map fun e => (takenOver fs items f).getD [] ++ e.2.entries := by
  induction entries with
  | nil => rfl
  | cons e entries ih =>
      rw [List.flatMap_cons, List.find?_cons]
      show declared f (.declares e.1 _ :: .line _ :: _) = _
      by_cases he : e.1 = f
      · simp [declared, he]
      · simpa [declared, he] using ih

/-- After a call, a function that was chosen has what was taken over and its new
entries, and any other function has what was taken over. -/
theorem declared_rewritten : declared f (rewritten stem f2c2cs items) =
    match f2c2cs.get? f with
    | some c2cs => some ((takenOver f2c2cs.keys items f).getD [] ++ c2cs.entries)
    | none => takenOver f2c2cs.keys items f := by
  have hgenerated : declared f (f2c2cs.entries.flatMap (generated stem f2c2cs.keys items)) =
      (f2c2cs.get? f).map fun c2cs =>
        (takenOver f2c2cs.keys items f).getD [] ++ c2cs.entries := by
    rw [declared_generated, Dict.get?, Option.map_map]
    rfl
  have hkeys : (f2c2cs.get? f).isSome ↔ f ∈ f2c2cs.keys := Dict.isSome_get?
  rw [rewritten, declared_append, declared_stays, hgenerated]
  cases hget : f2c2cs.get? f with
  | none =>
      rw [hget] at hkeys
      rw [if_neg (mt hkeys.mpr Bool.false_ne_true)]
      exact Option.or_none
  | some c2cs =>
      rw [hget] at hkeys
      rw [if_pos (hkeys.mp rfl)]
      rfl

theorem groupEntries_rewritten (stem : Str) (items : List Item) (h : Collected f2c2cs ocs) (f : Str)
    (kind : OptimisticChoiceKind) :
    groupEntries kind ((declared f (rewritten stem f2c2cs items)).getD []) =
      groupEntries kind ((takenOver f2c2cs.keys items f).getD []) ++ chosenEntries ocs f kind := by
  rw [declared_rewritten, ← h.entries f kind]
  cases f2c2cs.get? f with
  | none => exact (List.append_nil _).symm
  | some c2cs => exact groupEntries_append ..

theorem isSome_declared_rewritten (f : Str) : (declared f (rewritten stem f2c2cs items)).isSome ↔
    f ∈ f2c2cs.keys ∨ (takenOver f2c2cs.keys items f).isSome := by
  rw [declared_rewritten, ← Dict.isSome_get?]
  cases f2c2cs.get? f with
  | none => simp
  | some c2cs => simp

end Rewritten

end Petospa
