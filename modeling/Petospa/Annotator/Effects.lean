import Mathlib.Tactic.IntervalCases
import Petospa.Annotator.AnnotateAttributes
import Petospa.Annotator.Verification

/-!
# Effects of functions

`annotateFunction` makes a speculatable function one that does not access memory,
whatever else it is said to do. It never makes one of two attributes for effects
clash with the other, but neither does it resolve a clash.
-/

namespace Petospa

variable {answers : Answers} {kind : OptimisticChoiceKind}

/-- A function without effects, or that may run speculatively, has an effect. -/
def Clashes (has : AttrKind → Bool) : Prop :=
  (has .readNone = true ∨ has .speculatable = true) ∧
    (has .readOnly = true ∨ has .writeOnly = true ∨ has .inaccessibleMemOnly = true ∨
      has .inaccessibleMemOrArgMemOnly = true)

theorem memoryOk_of_not_clashes {has : AttrKind → Bool} (hclash : ¬ Clashes has)
    (hrw : has .readOnly = true → has .writeOnly = false) : MemoryOk has := by
  refine ⟨fun hnone => ?_, hrw⟩
  simpa [Clashes, hnone, not_or] using hclash

theorem MemoryOk.not_clashes {has : AttrKind → Bool} (h : MemoryOk has)
    (hspec : has .speculatable = true → has .readNone = true) : ¬ Clashes has := by
  rintro ⟨hnone, heffect⟩
  have hnone : has .readNone = true := hnone.elim id hspec
  obtain ⟨hro, hwo, hmem, hargMem⟩ := h.readNone hnone
  simp [hro, hwo, hmem, hargMem] at heffect

theorem MemoryOk.not_clashes_iff {has : AttrKind → Bool} (h : MemoryOk has) :
    ¬ Clashes has ↔ (has .speculatable = true → has .readOnly = false ∧ has .writeOnly = false ∧
      has .inaccessibleMemOnly = false ∧ has .inaccessibleMemOrArgMemOnly = false) := by
  constructor
  · intro hclash hspec
    simpa [Clashes, hspec, not_or] using hclash
  · rintro hspec ⟨hbefore, heffect⟩
    obtain ⟨hro, hwo, hmem, hargMem⟩ := hbefore.elim h.readNone hspec
    simp [hro, hwo, hmem, hargMem] at heffect

/-- What the choices add: one may exclude effects or stand for some, and those that
exclude them are not offered for `llvm.assume`. -/
theorem memEffects_spec {choice : Nat} (h : choice < 14) :
    ∃ kinds, memEffects choice = .ok kinds ∧ (∀ k ∈ kinds, isEffect k = true) ∧
      (.readOnly ∈ kinds → .writeOnly ∉ kinds) ∧ (.speculatable ∈ kinds → .readNone ∈ kinds) ∧
      (.readNone ∈ kinds ∨ .speculatable ∈ kinds →
        8 ≤ choice ∧ ∀ k ∈ kinds, k = .readNone ∨ k = .speculatable) := by
  interval_cases choice <;> exact ⟨_, rfl, by decide, by decide, by decide, by decide⟩

theorem hasAttribute_foldl (kinds : List AttrKind) (attrs : AttributeSet) (k : AttrKind) :
    (kinds.foldl (fun attrs j => attrs.addAttribute j 0) attrs).hasAttribute k =
      (attrs.hasAttribute k || decide (k ∈ kinds)) := by
  induction kinds generalizing attrs with
  | nil => simp
  | cons j kinds ih => simp [ih, Bool.or_assoc]

theorem getAllocSizeArgs_foldl {kinds : List AttrKind} (hkinds : ∀ k ∈ kinds, isEffect k = true)
    (attrs : AttributeSet) :
    (kinds.foldl (fun attrs j => attrs.addAttribute j 0) attrs).getAllocSizeArgs =
      attrs.getAllocSizeArgs := by
  induction kinds generalizing attrs with
  | nil => rfl
  | cons j kinds ih =>
      obtain ⟨hj, hkinds⟩ := List.forall_mem_cons.mp hkinds
      have hne : j ≠ .allocSize := by
        rintro rfl
        cases hj
      exact (ih hkinds _).trans (AttributeSet.getAllocSizeArgs_addAttribute _ _ _ hne)

/-- What a kind may do to the attributes of the function. -/
structure Effects (attrs attrs' : AttributeSet) : Prop where
  same : ∀ k, isEffect k = false → attrs'.hasAttribute k = attrs.hasAttribute k
  allocSize : attrs'.getAllocSizeArgs = attrs.getAllocSizeArgs
  clashes : Clashes attrs.hasAttribute → Clashes attrs'.hasAttribute
  memory : ¬ Clashes attrs.hasAttribute →
    (attrs.hasAttribute .readOnly = true → attrs.hasAttribute .writeOnly = false) →
    ¬ Clashes attrs'.hasAttribute ∧
      (attrs'.hasAttribute .readOnly = true → attrs'.hasAttribute .writeOnly = false)

namespace Effects

variable {attrs attrs' attrs'' : AttributeSet}

theorem refl (attrs : AttributeSet) : Effects attrs attrs :=
  ⟨fun _ _ => rfl, rfl, id, fun hclash hrw => ⟨hclash, hrw⟩⟩

theorem trans (h : Effects attrs attrs') (h' : Effects attrs' attrs'') :
    Effects attrs attrs'' where
  same k hk := (h'.same k hk).trans (h.same k hk)
  allocSize := h'.allocSize.trans h.allocSize
  clashes hclash := h'.clashes (h.clashes hclash)
  memory hclash hrw := by
    obtain ⟨hclash, hrw⟩ := h.memory hclash hrw
    exact h'.memory hclash hrw

theorem noUnwind (attrs : AttributeSet) : Effects attrs (attrs.addAttribute .noUnwind 0) where
  same k hk := by
    have hne : k ≠ .noUnwind := by
      rintro rfl
      cases hk
    simp [hne]
  allocSize := AttributeSet.getAllocSizeArgs_addAttribute _ _ _ (by decide)
  clashes hclash := by simpa [Clashes] using hclash
  memory hclash hrw := by simpa [Clashes] using And.intro hclash hrw

/-- A speculatable function gets no effects if it had none. -/
theorem speculate (hspec : attrs.hasAttribute .speculatable = true) :
    Effects attrs (attrs.addAttribute .readNone 0) where
  same k hk := by
    have hne : k ≠ .readNone := by
      rintro rfl
      cases hk
    simp [hne]
  allocSize := AttributeSet.getAllocSizeArgs_addAttribute _ _ _ (by decide)
  clashes hclash := by simpa [Clashes, hspec] using hclash
  memory hclash hrw := by simpa [Clashes, hspec] using And.intro hclash hrw

end Effects

/-- The attributes behind a choice that was asked for, at a function that may have effects. -/
theorem effects_foldl {attrs : AttributeSet} {kinds : List AttrKind}
    (hnone : attrs.hasAttribute .readNone = false)
    (hspec : attrs.hasAttribute .speculatable = false)
    (hkinds : ∀ k ∈ kinds, isEffect k = true) (hrw : .readOnly ∈ kinds → .writeOnly ∉ kinds)
    (hexcludes : .readNone ∈ kinds ∨ .speculatable ∈ kinds →
      (attrs.hasAttribute .inaccessibleMemOnly = false ∧
        attrs.hasAttribute .inaccessibleMemOrArgMemOnly = false) ∧
      ∀ k ∈ kinds, k = .readNone ∨ k = .speculatable) :
    Effects attrs (kinds.foldl (fun attrs k => attrs.addAttribute k 0)
      ((attrs.removeAttribute .writeOnly).removeAttribute .readOnly)) where
  same k hk := by
    have hnotMem : k ∉ kinds := fun hmem => absurd (hkinds k hmem) (by simp [hk])
    have hro : k ≠ .readOnly := by
      rintro rfl
      cases hk
    have hwo : k ≠ .writeOnly := by
      rintro rfl
      cases hk
    simp [hasAttribute_foldl, hnotMem, hro, hwo]
  allocSize := by
    rw [getAllocSizeArgs_foldl hkinds,
      AttributeSet.getAllocSizeArgs_removeAttribute _ _ (by decide),
      AttributeSet.getAllocSizeArgs_removeAttribute _ _ (by decide)]
  clashes hclash := by
    exfalso
    simp [Clashes, hnone, hspec] at hclash
  memory _ _ := by
    simp only [Clashes, hasAttribute_foldl, AttributeSet.hasAttribute_removeAttribute]
    constructor
    · rintro ⟨hbefore, hafter⟩
      have hmem : .readNone ∈ kinds ∨ .speculatable ∈ kinds := by
        simpa [hnone, hspec] using hbefore
      obtain ⟨⟨hmemOnly, hargMem⟩, hall⟩ := hexcludes hmem
      have hother (k : AttrKind) (hro : k ≠ .readNone) (hwo : k ≠ .speculatable) : k ∉ kinds :=
        fun hk => (hall k hk).elim hro hwo
      simp [hmemOnly, hargMem, hother] at hafter
    · simpa using hrw

theorem exists_annotateMemEffects (name : Text.Str) (isSpeculatable : Bool) {attrs : AttributeSet}
    (hspec : attrs.hasAttribute .speculatable = true → attrs.hasAttribute .readNone = true) :
    ∃ attrs', annotateMemEffects answers kind name isSpeculatable attrs = .ok attrs' ∧
      Effects attrs attrs' ∧
      (attrs'.hasAttribute .speculatable = true → attrs'.hasAttribute .readNone = true) := by
  have hchoice := answers.inRange (if name = Text.lit "llvm.assume" then 8 else 14) none kind
    (by split <;> omega)
  simp only [annotateMemEffects]
  generalize answers.getOptimisticChoice _ none kind = choice at hchoice ⊢
  generalize hannotated : (if name = Text.lit "llvm.assume" then _ else _) = hasAnnotatedRange
  split
  · rename_i hasked
    rw [Bool.and_eq_true, Bool.not_eq_true', Bool.not_eq_true'] at hasked
    obtain ⟨hnone, hrange⟩ := hasked
    have hnotSpec : attrs.hasAttribute .speculatable = false := by
      by_contra hspeculatable
      rw [hspec (Bool.eq_true_of_not_eq_false hspeculatable)] at hnone
      cases hnone
    have hlt : choice < 14 := by
      split at hchoice <;> omega
    obtain ⟨kinds, hkinds, heffect, hrw, hboth, hexcludes⟩ := memEffects_spec hlt
    rw [hkinds]
    by_cases hzero : choice = 0
    · subst hzero
      obtain rfl := Except.ok.inj hkinds
      exact ⟨attrs, rfl, .refl attrs, hspec⟩
    · rw [if_pos hzero]
      refine ⟨_, rfl, effects_foldl hnone hnotSpec heffect hrw fun hmem => ?_, ?_⟩
      · obtain ⟨hoffered, hall⟩ := hexcludes hmem
        refine ⟨?_, hall⟩
        have hassume : name ≠ Text.lit "llvm.assume" := by
          intro hassume
          rw [if_pos hassume] at hchoice
          omega
        rw [if_neg hassume, hrange] at hannotated
        simp only [Bool.or_eq_false_iff] at hannotated
        exact ⟨hannotated.1.2, hannotated.2⟩
      · simpa [hasAttribute_foldl, hnone, hnotSpec] using hboth
  · exact ⟨attrs, rfl, .refl attrs, hspec⟩

variable (answers kind) in
/-- A kind ends, and afterwards a speculatable function does not access memory. -/
theorem exists_annotateEffects (name : Text.Str) (attrs : AttributeSet) :
    ∃ attrs', annotateEffects answers kind name attrs = .ok attrs' ∧ Effects attrs attrs' ∧
      (attrs'.hasAttribute .speculatable = true → attrs'.hasAttribute .readNone = true) := by
  rw [annotateEffects]
  generalize hunwind : (if kind = .functionNoUnwind ∧ attrs.hasAttribute .noUnwind = false ∧
      answers.getOptimisticChoice 2 none kind ≠ 0 then attrs.addAttribute .noUnwind 0
    else attrs) = unwound
  have hunwound : Effects attrs unwound := by
    rw [← hunwind]
    split
    · exact .noUnwind attrs
    · exact .refl attrs
  generalize hspeculate : (if unwound.hasAttribute .speculatable then
    unwound.addAttribute .readNone 0 else unwound) = speculated
  have hspeculated : Effects unwound speculated ∧
      (speculated.hasAttribute .speculatable = true →
        speculated.hasAttribute .readNone = true) := by
    rw [← hspeculate]
    split
    · rename_i hspec
      exact ⟨.speculate hspec, fun _ => by simp⟩
    · rename_i hspec
      exact ⟨.refl unwound, fun h => absurd h hspec⟩
  obtain ⟨heffects, hspec⟩ := hspeculated
  split
  · obtain ⟨attrs', hok, hmem, hspec'⟩ := exists_annotateMemEffects name
      (unwound.hasAttribute .speculatable) hspec
    exact ⟨attrs', hok, hunwound.trans (heffects.trans hmem), hspec'⟩
  · exact ⟨speculated, rfl, hunwound.trans heffects, hspec⟩

end Petospa
