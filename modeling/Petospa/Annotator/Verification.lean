import Petospa.Annotator.Attributes

/-!
# What the verifier accepts

The checks of `verifyFunctionAttrs` as propositions. Apart from the numbers of
`allocsize`, they only depend on which attributes there are.
-/

namespace Petospa

variable {Ty : Type} {T : TypeInfo Ty} {attrs : AttributeSet} {has has' : AttrKind → Bool}
variable {ty : Ty} {f f' : IRFunction Ty}

theorem and_eq_false_iff_imp {a b : Bool} : (a && b) = false ↔ (a = true → b = false) := by
  cases a <;> simp

theorem eq_false_or_iff_imp {a : Bool} {p : Prop} : a = false ∨ p ↔ (a = true → p) := by
  cases a <;> simp

/-! ### Parameters and return values -/

/-- The checks of `verifyParameterAttrs`. -/
structure ParameterOk (T : TypeInfo Ty) (has : AttrKind → Bool) (ty : Ty) : Prop where
  applies : ∀ k, has k = true → isFuncOnlyAttr k = false
  compatible : ∀ k, has k = true → typeIncompatible T ty k = false
  count : (has .byVal).toNat + (has .inAlloca).toNat + (has .structRet || has .inReg).toNat +
    (has .nest).toNat ≤ 1
  inAlloca : has .inAlloca = true → has .readOnly = false
  structRet : has .structRet = true → has .returned = false
  extension : has .zExt = true → has .sExt = false
  inlining : has .noInline = true → has .alwaysInline = false
  pointee : (if T.isPointerTy ty then
      (T.isSized (T.getPointerElementType ty) || !has .byVal && !has .inAlloca) &&
      (T.isPointerTy (T.getPointerElementType ty) || !has .swiftError)
    else !has .byVal && !has .swiftError) = true

theorem parameterOk_empty : ParameterOk T (fun _ => false) ty := by
  constructor <;> simp

theorem verifyParameterAttrs_eq_true :
    verifyParameterAttrs T attrs ty = true ↔ ParameterOk T attrs.hasAttribute ty := by
  by_cases hempty : attrs = []
  · subst hempty
    exact iff_of_true rfl parameterOk_empty
  · simp only [verifyParameterAttrs, if_neg hempty, verifyAttributeTypes, Bool.and_eq_true,
      AttributeSet.allKinds_eq_true, decide_eq_true_eq, and_eq_false_iff_imp, Bool.not_eq_true',
      and_assoc]
    have happlies (k : AttrKind) : (if isFuncOnlyAttr k then false
        else !false || isFuncOrArgAttr k) = true ↔ isFuncOnlyAttr k = false := by
      cases isFuncOnlyAttr k <;> simp
    simp only [happlies]
    constructor
    · rintro ⟨happlies, hcount, halloca, hsret, hext, hinline, hcompatible, hpointee⟩
      exact ⟨happlies, hcompatible, hcount, halloca, hsret, hext, hinline, hpointee⟩
    · rintro ⟨happlies, hcompatible, hcount, halloca, hsret, hext, hinline, hpointee⟩
      exact ⟨happlies, hcount, halloca, hsret, hext, hinline, hcompatible, hpointee⟩

/-- The attributes that are added to parameters and return values. -/
def isAnnotated (kind : AttrKind) : Bool :=
  kind = .noCapture || kind = .noAlias || kind = .dereferenceable || kind = .alignment ||
    kind = .readNone || kind = .readOnly || kind = .writeOnly || kind = .returned

theorem isFuncOnlyAttr_of_isAnnotated {k : AttrKind} (h : isAnnotated k = true) :
    isFuncOnlyAttr k = false := by
  cases k <;> first | rfl | exact absurd h (by decide)

theorem typeIncompatible_of_isAnnotated {k : AttrKind} (h : isAnnotated k = true)
    (hty : T.isPointerTy ty = true) : typeIncompatible T ty k = false := by
  have hsExt : k ≠ .sExt := by
    rintro rfl
    cases h
  have hzExt : k ≠ .zExt := by
    rintro rfl
    cases h
  simp [typeIncompatible, hty, hsExt, hzExt]

/-- Such attributes, at a pointer, clash with `inalloca` and `sret` only. -/
theorem ParameterOk.annotated_iff (h : ParameterOk T has ty)
    (hsame : ∀ k, isAnnotated k = false → has' k = has k)
    (hpointer : ∀ k, has' k = true → has k = true ∨ T.isPointerTy ty = true) :
    ParameterOk T has' ty ↔ (has .inAlloca = true → has' .readOnly = false) ∧
      (has .structRet = true → has' .returned = false) := by
  have hbyVal := hsame .byVal rfl
  have hinAlloca := hsame .inAlloca rfl
  have hstructRet := hsame .structRet rfl
  have hinReg := hsame .inReg rfl
  have hnest := hsame .nest rfl
  constructor
  · intro hok
    rw [← hinAlloca, ← hstructRet]
    exact ⟨hok.inAlloca, hok.structRet⟩
  · rintro ⟨halloca, hsret⟩
    constructor
    case applies =>
      intro k hk
      cases hkind : isAnnotated k with
      | false => exact h.applies k (hsame k hkind ▸ hk)
      | true => exact isFuncOnlyAttr_of_isAnnotated hkind
    case compatible =>
      intro k hk
      cases hkind : isAnnotated k with
      | false => exact h.compatible k (hsame k hkind ▸ hk)
      | true =>
          obtain hk | hty := hpointer k hk
          · exact h.compatible k hk
          · exact typeIncompatible_of_isAnnotated hkind hty
    case count => simpa only [hbyVal, hinAlloca, hstructRet, hinReg, hnest] using h.count
    case inAlloca => rwa [hinAlloca]
    case structRet => rwa [hstructRet]
    case extension => simpa only [hsame .zExt rfl, hsame .sExt rfl] using h.extension
    case inlining => simpa only [hsame .noInline rfl, hsame .alwaysInline rfl] using h.inlining
    case pointee => simpa only [hbyVal, hinAlloca, hsame .swiftError rfl] using h.pointee

/-! ### The loop over the parameters -/

/-- At most one of the parameters from `i` on has it, and none if it was seen. -/
def OnceFrom (has : Nat → Bool) (saw : Bool) (i n : Nat) : Prop :=
  ∀ j, i ≤ j → j < n → has j = true → saw = false ∧ ∀ j', i ≤ j' → j' < j → has j' = false

theorem onceFrom_step {has : Nat → Bool} {saw : Bool} {i n : Nat} (hi : i < n) :
    OnceFrom has saw i n ↔
      (has i = true → saw = false) ∧ OnceFrom has (saw || has i) (i + 1) n := by
  constructor
  · intro h
    refine ⟨fun hhas => (h i (Nat.le_refl i) hi hhas).1, fun j hij hj hhas => ?_⟩
    obtain ⟨hsaw, hbefore⟩ := h j (by omega) hj hhas
    refine ⟨?_, fun j' hij' hj' => hbefore j' (by omega) hj'⟩
    rw [hsaw, hbefore i (Nat.le_refl i) (by omega)]
    rfl
  · rintro ⟨hfirst, hrest⟩ j hij hj hhas
    obtain rfl | hlt := Nat.eq_or_lt_of_le hij
    · exact ⟨hfirst hhas, fun j' hij' hj' => absurd hij' (by omega)⟩
    · obtain ⟨hsaw, hbefore⟩ := hrest j hlt hj hhas
      obtain ⟨hsaw, hhead⟩ := Bool.or_eq_false_iff.mp hsaw
      refine ⟨hsaw, fun j' hij' hj' => ?_⟩
      obtain rfl | hlt' := Nat.eq_or_lt_of_le hij'
      · exact hhead
      · exact hbefore j' hlt' hj'

/-- At most one parameter has the attribute. -/
def Once (attributes : AttributeList) (n : Nat) (k : AttrKind) : Prop :=
  ∀ i < n, ∀ j < n, (attributes (.param i)).hasAttribute k = true →
    (attributes (.param j)).hasAttribute k = true → i = j

theorem onceFrom_iff_once {attributes : AttributeList} {n : Nat} {k : AttrKind} :
    OnceFrom (fun i => (attributes (.param i)).hasAttribute k) false 0 n ↔
      Once attributes n k := by
  constructor
  · intro h i hi j hj hhasi hhasj
    obtain hlt | rfl | hgt := Nat.lt_trichotomy i j
    · exact absurd ((h j (Nat.zero_le j) hj hhasj).2 i (Nat.zero_le i) hlt) (by simp [hhasi])
    · rfl
    · exact absurd ((h i (Nat.zero_le i) hi hhasi).2 j (Nat.zero_le j) hgt) (by simp [hhasj])
  · intro h j _ hj hhas
    refine ⟨rfl, fun i _ hij => ?_⟩
    by_contra hhasi
    have hsame := h i (by omega) j hj (Bool.eq_true_of_not_eq_false hhasi) hhas
    omega

/-- The checks of one parameter. -/
structure ArgumentOk (T : TypeInfo Ty) (header : FunctionHeader Ty) (attributes : AttributeList)
    (i : Nat) (arg : Argument Ty) : Prop where
  parameter : ParameterOk T (attributes (.param i)).hasAttribute arg.type
  returned : (attributes (.param i)).hasAttribute .returned = true →
    T.canLosslesslyBitCastTo arg.type header.returnType = true
  structRet : (attributes (.param i)).hasAttribute .structRet = true → i = 0 ∨ i = 1
  inAlloca : (attributes (.param i)).hasAttribute .inAlloca = true → i + 1 = header.args.length

theorem verifyParams_eq_true {args : List (Argument Ty)} {i : Nat} {saw : AttrKind → Bool} :
    verifyParams T f i args saw = true ↔
      (∀ j arg, args[j]? = some arg → ArgumentOk T f.toFunctionHeader f.attributes (i + j) arg) ∧
        ∀ k ∈ seenOnce, OnceFrom (fun j => (f.attributes (.param j)).hasAttribute k) (saw k) i
          (i + args.length) := by
  induction args generalizing i saw with
  | nil =>
      refine iff_of_true rfl ⟨fun j arg h => by simp at h, fun k _ j hij hj _ => ?_⟩
      exact absurd hj (by simp; omega)
  | cons arg args ih =>
      simp only [verifyParams, Bool.and_eq_true, ih, verifyParameterAttrs_eq_true,
        List.all_eq_true, and_eq_false_iff_imp, eq_false_or_iff_imp, Bool.or_eq_true,
        Bool.not_eq_true', decide_eq_true_eq, and_assoc]
      have hlength : i + (arg :: args).length = i + 1 + args.length := by simp; omega
      constructor
      · rintro ⟨hparameter, hsaw, hreturned, hsret, halloca, hargs, honce⟩
        constructor
        · intro j a ha
          cases j with
          | zero =>
              obtain rfl := Option.some.inj ha
              exact ⟨hparameter, hreturned, hsret, halloca⟩
          | succ j =>
              have hargument := hargs j a ha
              rwa [show i + 1 + j = i + (j + 1) by omega] at hargument
        · intro k hk
          rw [hlength, onceFrom_step (by omega)]
          exact ⟨hsaw k hk, honce k hk⟩
      · rintro ⟨hargs, honce⟩
        have hhead := hargs 0 arg rfl
        refine ⟨hhead.parameter, fun k hk => ?_, hhead.returned, hhead.structRet,
          hhead.inAlloca, fun j a ha => ?_, fun k hk => ?_⟩
        · have hfirst := honce k hk
          rw [hlength, onceFrom_step (by omega)] at hfirst
          exact hfirst.1
        · have hargument := hargs (j + 1) a ha
          rwa [show i + (j + 1) = i + 1 + j by omega] at hargument
        · have hrest := honce k hk
          rw [hlength, onceFrom_step (by omega)] at hrest
          exact hrest.2

/-! ### The function -/

/-- The checks of what a function does to memory. -/
structure MemoryOk (has : AttrKind → Bool) : Prop where
  readNone : has .readNone = true → has .readOnly = false ∧ has .writeOnly = false ∧
    has .inaccessibleMemOnly = false ∧ has .inaccessibleMemOrArgMemOnly = false
  readOnly : has .readOnly = true → has .writeOnly = false

/-- The checks of `verifyFnAttrs`. -/
structure FnOk (T : TypeInfo Ty) (header : FunctionHeader Ty) (attrs : AttributeSet) : Prop where
  applies : ∀ k, attrs.hasAttribute k = true → isFuncOnlyAttr k = true ∨ isFuncOrArgAttr k = true
  memory : MemoryOk attrs.hasAttribute
  inlining : attrs.hasAttribute .noInline = true → attrs.hasAttribute .alwaysInline = false
  optimizeNone : attrs.hasAttribute .optimizeNone = true → attrs.hasAttribute .noInline = true ∧
    attrs.hasAttribute .optimizeForSize = false ∧ attrs.hasAttribute .minSize = false
  jumpTable : attrs.hasAttribute .jumpTable = true → header.hasGlobalUnnamedAddr = true
  allocSize : attrs.hasAttribute .allocSize = true →
    checkAllocSize T header.args attrs.getAllocSizeArgs = true

theorem fnOk_nil {header : FunctionHeader Ty} : FnOk T header [] := by
  constructor
  case memory => constructor <;> simp
  all_goals simp

theorem verifyFnAttrs_eq_true :
    verifyFnAttrs T f = true ↔ FnOk T f.toFunctionHeader (f.attributes .functionIndex) := by
  have happlies (k : AttrKind) : (if isFuncOnlyAttr k then true
      else !true || isFuncOrArgAttr k) = true ↔
      isFuncOnlyAttr k = true ∨ isFuncOrArgAttr k = true := by
    cases isFuncOnlyAttr k <;> simp
  simp only [verifyFnAttrs, verifyAttributeTypes, Bool.and_eq_true, AttributeSet.allKinds_eq_true,
    happlies]
  simp only [and_eq_false_iff_imp, eq_false_or_iff_imp, Bool.or_eq_true, Bool.and_eq_true,
    Bool.not_eq_true', and_assoc]
  constructor
  · rintro ⟨happlies, hro, hwo, hrw, hargMem, hmem, hinline, hopt, hjump, halloc⟩
    exact ⟨happlies, ⟨fun h => ⟨hro h, hwo h, hmem h, hargMem h⟩, hrw⟩, hinline, hopt, hjump,
      halloc⟩
  · rintro ⟨happlies, ⟨hnone, hrw⟩, hinline, hopt, hjump, halloc⟩
    exact ⟨happlies, fun h => (hnone h).1, fun h => (hnone h).2.1, hrw,
      fun h => (hnone h).2.2.2, fun h => (hnone h).2.2.1, hinline, hopt, hjump, halloc⟩

/-- The attributes that are added to functions. -/
def isEffect (kind : AttrKind) : Bool :=
  kind = .noUnwind || kind = .readNone || kind = .readOnly || kind = .writeOnly ||
    kind = .argMemOnly || kind = .inaccessibleMemOnly || kind = .inaccessibleMemOrArgMemOnly ||
    kind = .speculatable

theorem applies_of_isEffect {k : AttrKind} (h : isEffect k = true) :
    isFuncOnlyAttr k = true ∨ isFuncOrArgAttr k = true := by
  cases k <;> first | exact .inl rfl | exact .inr rfl | exact absurd h (by decide)

/-- Only the checks of what a function does to memory depend on them. -/
theorem FnOk.effects_iff {header : FunctionHeader Ty} {attrs' : AttributeSet}
    (h : FnOk T header attrs)
    (hsame : ∀ k, isEffect k = false → attrs'.hasAttribute k = attrs.hasAttribute k)
    (halloc : attrs'.getAllocSizeArgs = attrs.getAllocSizeArgs) :
    FnOk T header attrs' ↔ MemoryOk attrs'.hasAttribute := by
  refine ⟨FnOk.memory, fun hmemory => ?_⟩
  constructor
  case applies =>
    intro k hk
    cases hkind : isEffect k with
    | false => exact h.applies k (hsame k hkind ▸ hk)
    | true => exact applies_of_isEffect hkind
  case memory => exact hmemory
  case inlining => simpa only [hsame .noInline rfl, hsame .alwaysInline rfl] using h.inlining
  case optimizeNone =>
    simpa only [hsame .optimizeNone rfl, hsame .noInline rfl, hsame .optimizeForSize rfl,
      hsame .minSize rfl] using h.optimizeNone
  case jumpTable => simpa only [hsame .jumpTable rfl] using h.jumpTable
  case allocSize => simpa only [hsame .allocSize rfl, halloc] using h.allocSize

/-! ### The whole list -/

/-- The attributes that do not apply to return values. -/
def notOnReturn : List AttrKind :=
  [.byVal, .nest, .structRet, .noCapture, .returned, .inAlloca, .swiftSelf, .swiftError,
    .readOnly, .writeOnly, .readNone]

/-- The checks of `verifyFunctionAttrs`. -/
structure AttributesOk (T : TypeInfo Ty) (header : FunctionHeader Ty)
    (attributes : AttributeList) : Prop where
  onReturn : ∀ k ∈ notOnReturn, (attributes .returnIndex).hasAttribute k = false
  returnValue : ParameterOk T (attributes .returnIndex).hasAttribute header.returnType
  arguments : ∀ i arg, header.args[i]? = some arg → ArgumentOk T header attributes i arg
  once : ∀ k ∈ seenOnce, Once attributes header.args.length k
  function : FnOk T header (attributes .functionIndex)

theorem verifyFunctionAttrs_eq_true :
    verifyFunctionAttrs T f = true ↔ AttributesOk T f.toFunctionHeader f.attributes := by
  by_cases hempty : f.attributes .returnIndex = [] ∧ f.attributes .functionIndex = [] ∧
      ∀ i < f.args.length, f.attributes (.param i) = []
  · rw [verifyFunctionAttrs, if_pos hempty]
    obtain ⟨hret, hfn, hparam⟩ := hempty
    refine iff_of_true rfl ⟨fun k _ => by rw [hret]; rfl, ?_, fun i arg harg => ?_,
      fun k _ i hi j _ hhas => ?_, by rw [hfn]; exact fnOk_nil⟩
    · rw [hret]
      exact parameterOk_empty
    · obtain ⟨hi, -⟩ := List.getElem?_eq_some_iff.mp harg
      constructor
      case parameter =>
        rw [hparam i hi]
        exact parameterOk_empty
      all_goals simp [hparam i hi]
    · rw [hparam i hi] at hhas
      cases hhas
  · rw [verifyFunctionAttrs, if_neg hempty]
    have hfunction : (f.attributes .functionIndex = [] || verifyFnAttrs T f) = true ↔
        FnOk T f.toFunctionHeader (f.attributes .functionIndex) := by
      rw [Bool.or_eq_true, verifyFnAttrs_eq_true, decide_eq_true_eq]
      refine ⟨?_, .inr⟩
      rintro (hnil | hok)
      · rw [hnil]
        exact fnOk_nil
      · exact hok
    have hparams : verifyParams T f 0 f.args (fun _ => false) = true ↔ _ := verifyParams_eq_true
    simp only [Nat.zero_add, onceFrom_iff_once] at hparams
    simp only [Bool.and_eq_true, verifyParameterAttrs_eq_true, hparams, hfunction,
      Bool.not_eq_true', and_assoc]
    constructor
    · rintro ⟨h1, h2, h3, h4, h5, h6, h7, h8, h9, h10, h11, hret, hargs, honce, hfn⟩
      refine ⟨?_, hret, hargs, honce, hfn⟩
      simp only [notOnReturn, List.forall_mem_cons]
      exact ⟨h1, h2, h3, h4, h5, h6, h7, h8, h9, h10, h11, by simp⟩
    · rintro ⟨hon, hret, hargs, honce, hfn⟩
      simp only [notOnReturn, List.forall_mem_cons] at hon
      obtain ⟨h1, h2, h3, h4, h5, h6, h7, h8, h9, h10, h11, -⟩ := hon
      exact ⟨h1, h2, h3, h4, h5, h6, h7, h8, h9, h10, h11, hret, hargs, honce, hfn⟩

end Petospa
