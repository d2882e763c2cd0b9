import Petospa.Annotator.Compared

/-!
# Two runs over a module

Both runs collect the same branches, as nothing has been assumed then. The first run
assumes what the second one does, or nothing.
-/

namespace Petospa

open Text Interaction

variable {Fn Ty Const Op Loop : Type}

/-- A place in front of an instruction with a number below a bound, and a value below it. -/
structure Speculated.IsBelow (n : Nat) (s : Speculated Fn) : Prop where
  value : ∀ id, s.value = .instruction id → id < n
  point : ∀ point, s.point = some point → ∀ id, point.before = some id → id < n

/-- All places are among the instructions of the functions before the run. -/
def SpeculationMap.IsBelow {Fn Ty Const Op : Type} (states : Fn → FunctionState Fn Ty Const Op)
    (map : SpeculationMap Fn Const) : Prop :=
  ∀ e ∈ map.entries, ∀ s ∈ e.2.insertionPoints, s.IsBelow (states s.function).nextId

namespace Passes

variable {P : PassInfo Fn Ty Const Op Loop} {kind : OptimisticChoiceKind} {f : Fn}

/-! ### Branches -/

section Branches

variable {fn : FunctionState Fn Ty Const Op}

theorem exists_of_nextNode {id id' : Nat} {is : List (Instruction Fn Ty Const Op)}
    (h : nextNode id is = some id') : ∃ i ∈ is, i.id = id' := by
  induction is with
  | nil => cases h
  | cons i is ih =>
      rw [nextNode] at h
      split at h
      · obtain ⟨j, hj, rfl⟩ := Option.map_eq_some_iff.mp h
        exact ⟨j, List.mem_cons_of_mem i (List.mem_of_head? hj), rfl⟩
      · obtain ⟨j, hj, hid⟩ := ih h
        exact ⟨j, List.mem_cons_of_mem i hj, hid⟩

theorem exists_of_insertionPoint {r : LocalRef} {point : InsertionPoint} {id : Nat}
    (h : insertionPoint fn r = some point) (hid : point.before = some id) :
    ∃ i ∈ fn.code.instructions, i.id = id := by
  have hentry : fn.code.entryPoint = some point → ∃ i ∈ fn.code.instructions, i.id = id := by
    intro h
    obtain ⟨b, hb, rfl⟩ := Option.map_eq_some_iff.mp h
    obtain ⟨i, hi, rfl⟩ := Option.map_eq_some_iff.mp hid
    exact ⟨i, List.mem_flatMap.mpr ⟨b, List.mem_of_head? hb, List.mem_of_head? hi⟩, rfl⟩
  cases r with
  | argument argNo => exact hentry h
  | block no => exact hentry h
  | instruction id' =>
      obtain ⟨b, hb, rfl⟩ := Option.map_eq_some_iff.mp h
      obtain ⟨i, hi, rfl⟩ := exists_of_nextNode hid
      exact ⟨i, List.mem_flatMap.mpr ⟨b, List.mem_of_find?_eq_some hb, hi⟩, rfl⟩

theorem isBelow_of_branchSite {b : BasicBlock Fn Ty Const Op} {r : LocalRef} {c : Const} {n : Nat}
    (hids : ∀ i ∈ fn.code.instructions, i.id < n) (h : branchSite P f fn b = some (r, c)) :
    Speculated.IsBelow n (⟨f, r, insertionPoint fn r⟩ : Speculated Fn) where
  value id hr := by
    obtain rfl : r = .instruction id := hr
    have hspeculated := isSpeculated_of_branchSite h
    cases hfind : fn.code.instruction? id with
    | none =>
        rw [isSpeculated, hfind] at hspeculated
        cases hspeculated
    | some i =>
        rw [Code.instruction?] at hfind
        have hid : i.id = id := by simpa using List.find?_some hfind
        exact hid ▸ hids i (List.mem_of_find?_eq_some hfind)
  point point hpoint id hid := by
    obtain ⟨i, hi, rfl⟩ := exists_of_insertionPoint hpoint hid
    exact hids i hi

variable [DecidableEq Const]

theorem meets_annotateBranchConditions_isBelow
    {ok : (q : PassQuestion Fn Const) → PassAnswer q → Prop}
    {states : Fn → FunctionState Fn Ty Const Op}
    (hids : kind = .controlFlowTrg → ∀ i ∈ fn.code.instructions, i.id < (states f).nextId)
    {map : SpeculationMap Fn Const} (hmap : map.IsBelow states) :
    (annotateBranchConditions P kind f fn map).Meets ok (fun _ => True)
      (SpeculationMap.IsBelow states) := by
  unfold annotateBranchConditions
  split
  · exact hmap
  · rename_i hkind
    refine Program.meets_foldlM (fun _ map => SpeculationMap.IsBelow states map)
      (fun b _ map hmap => ?_) hmap
    unfold annotateBranch
    split
    · exact hmap
    · rename_i r c hsite
      have hbelow := isBelow_of_branchSite (hids (not_not.mp hkind)) hsite
      refine (Program.meets_trivial _).bind fun name _ => ?_
      have hpoints {points : List (Speculated Fn)}
          (h : ∀ s ∈ points, s.IsBelow (states s.function).nextId) :
          ∀ s ∈ points ++ [⟨f, r, insertionPoint fn r⟩], s.IsBelow (states s.function).nextId := by
        intro s hs
        obtain hs | hs := List.mem_append.mp hs
        · exact h s hs
        · obtain rfl := List.mem_singleton.mp hs
          exact hbelow
      apply Dict.forall_modify hmap
      · exact hpoints (List.forall_mem_nil _)
      · exact fun info h => hpoints h

end Branches

/-! ### The code of a function -/

section Code

variable [DecidableEq Const] [DecidableEq Loop] {inst : Nat}
variable {todo todo' : OptimisticChoiceKind → Prop} {states : Fn → FunctionState Fn Ty Const Op}
variable {fn fn' : FunctionState Fn Ty Const Op}

theorem lockstep_annotateCode_compared (hlooks : LooksThroughAnnotations P f (states f).code)
    (hregular : (states f).Regular P) (h : Compared P todo (states f) fn fn') (hkind : todo kind)
    (htodo : ∀ j, todo' j → todo j ∧ kind ≠ j) {map : SpeculationMap Fn Const}
    (hmap : map.IsBelow states) :
    Program.Lockstep AnswersAtMost
      (fun r r' => r'.2 = r.2 ∧ r.2.IsBelow states ∧ Compared P todo' (states f) r.1 r'.1 ∧
        r.1.function = fn.function ∧ r'.1.function = fn'.function)
      (annotateCode P inst kind f fn map) (annotateCode P inst kind f fn' map) := by
  rw [annotateCode, annotateCode, ← bind_assoc, ← bind_assoc]
  refine (lockstep_annotateInstructions hregular h hkind htodo).bind fun fn₁ fn₁' hresults => ?_
  obtain ⟨hcode, hanswered, hanswered'⟩ := hresults
  -- at the kind of branches no assumption has been made yet
  have hold (hbranch : kind = .controlFlowTrg) :
      (∀ i ∈ fn₁.code.instructions, i.id < (states f).nextId) ∧
        ∀ i ∈ fn₁'.code.instructions, i.id < (states f).nextId := by
    obtain ⟨hold, hold'⟩ := h.old (hbranch ▸ hkind)
    exact ⟨hanswered.code.forall_mem (fun _ _ _ hi hid => hi.strengthens.id ▸ hid) hold,
      hanswered'.code.forall_mem (fun _ _ _ hi hid => hi.strengthens.id ▸ hid) hold'⟩
  have hbranches : annotateBranchConditions P kind f fn₁' map =
      annotateBranchConditions P kind f fn₁ map := by
    by_cases hbranch : kind = .controlFlowTrg
    · obtain ⟨hids, hids'⟩ := hold hbranch
      have hplain := (h.annotated.answered hanswered).plain_eq hids
      have hplain' := (h.annotated'.answered hanswered').plain_eq hids'
      exact annotateBranchConditions_congr kind (hlooks.congr hplain)
        (hplain'.trans hplain.symm) map
    · rw [annotateBranchConditions, annotateBranchConditions, if_pos hbranch, if_pos hbranch]
  rw [hbranches]
  have hcollect : (annotateBranchConditions P kind f fn₁ map).Meets (fun _ _ => True)
      (fun _ => True) (SpeculationMap.IsBelow states) :=
    meets_annotateBranchConditions_isBelow (fun hbranch => (hold hbranch).1) hmap
  refine (((lockstep_annotateBranchConditions kind fn₁ map).of_agree
    namesAgree_of_answersAtMost).and_meets hcollect hcollect).bind fun map₁ map₁' hmaps => ?_
  obtain ⟨rfl, hbelow, -⟩ := hmaps
  have hloops := asks_annotateLoops P kind f inst
  refine (Program.lockstep_of_asks (hloops _) (hloops _)).bind fun loops loops' _ => ?_
  exact .done ⟨rfl, hbelow, h.answered htodo hcode hanswered hanswered' loops loops',
    hanswered.function, hanswered'.function⟩

end Code

/-! ### Assumptions -/

section Assumptions

variable {n : Nat} {todo : OptimisticChoiceKind → Prop}
variable {base fn fn' : FunctionState Fn Ty Const Op}

theorem le_id_of_mem_assuming {id : Nat} {r : LocalRef} {c : Const}
    {i : Instruction Fn Ty Const Op} (h : i ∈ assuming P id r c) : id ≤ i.id := by
  simp only [assuming, List.mem_cons, List.not_mem_nil, or_false] at h
  obtain rfl | rfl := h
  · exact le_rfl
  · exact Nat.le_succ id

/-- Only what was there before has a place in front of it. -/
theorem part_cases {R : Instruction Fn Ty Const Op → Instruction Fn Ty Const Op → Prop}
    (hR : ∀ i i', R i i' → i'.id = i.id) {before : Option Nat}
    (hbefore : ∀ id, before = some id → id < n) (is is' : List (Instruction Fn Ty Const Op))
    (h : Part P n R is is') : (∃ i i', is = [i] ∧ is' = [i'] ∧ i'.id = i.id) ∨
      (∀ i ∈ is, before ≠ some i.id) ∧ ∀ i ∈ is', before ≠ some i.id := by
  have hnew {id : Nat} (hid : n ≤ id) (r : LocalRef) (c : Const) :
      ∀ i ∈ assuming P id r c, before ≠ some i.id := by
    intro i hi hsome
    have hlt := hbefore _ hsome
    have hle := le_id_of_mem_assuming hi
    omega
  cases h with
  | old hid h => exact .inl ⟨_, _, rfl, rfl, hR _ _ h⟩
  | further id' r c hid' => exact .inr ⟨List.forall_mem_nil _, hnew hid' r c⟩
  | kept id id' r c hid hid' hr => exact .inr ⟨hnew hid r c, hnew hid' r c⟩

variable [DecidableEq Ty]

/-- Both runs assume the same. -/
theorem Compared.withAssumption (h : Compared P todo base fn fn') (htodo : ¬ todo .controlFlowTrg)
    (c : Const) {r : LocalRef} (hr : (ValueRef.local r : ValueRef Const).IsBelow base.nextId)
    {point : InsertionPoint} (hpoint : ∀ id, point.before = some id → id < base.nextId) :
    Compared P todo base (Passes.withAssumption P c fn r point)
      (Passes.withAssumption P c fn' r point) where
  annotated := h.annotated.withAssumption c r point
  annotated' := h.annotated'.withAssumption c r point
  header := h.header
  header' := h.header'
  code := by
    have htype : fn'.typeOf P (.local r) = fn.typeOf P (.local r) := by
      rw [h.annotated.typeOf h.header hr, h.annotated'.typeOf h.header' hr]
    refine h.code.insertAt ?_ (part_cases (fun _ _ hi => hi.atMost.id) hpoint)
    unfold assumption
    rw [htype]
    exact .kept fn.nextId fn'.nextId r _ h.annotated.nextId h.annotated'.nextId hr
  old hbranch := absurd hbranch htodo

/-- Only the second run assumes something. -/
theorem Compared.withAssumption_right (h : Compared P todo base fn fn')
    (htodo : ¬ todo .controlFlowTrg) (c : Const) (r : LocalRef) {point : InsertionPoint}
    (hpoint : ∀ id, point.before = some id → id < base.nextId) :
    Compared P todo base fn (Passes.withAssumption P c fn' r point) where
  annotated := h.annotated
  annotated' := h.annotated'.withAssumption c r point
  header := h.header
  header' := h.header'
  code := by
    rw [← Code.insertAt_nil fn.code point]
    refine h.code.insertAt ?_ (part_cases (fun _ _ hi => hi.atMost.id) hpoint)
    exact .further fn'.nextId r _ h.annotated'.nextId
  old hbranch := absurd hbranch htodo

end Assumptions

/-! ### All functions -/

section Runs

variable [DecidableEq Fn] [DecidableEq Ty] [DecidableEq Const] [DecidableEq Loop] {inst : Nat}
variable {todo todo' : Fn → OptimisticChoiceKind → Prop}
variable {states functions functions' : Fn → FunctionState Fn Ty Const Op}

/-- Two states of all functions, and what is left to be done in both. -/
def ComparedFunctions (P : PassInfo Fn Ty Const Op Loop) (todo : Fn → OptimisticChoiceKind → Prop)
    (states functions functions' : Fn → FunctionState Fn Ty Const Op) : Prop :=
  ∀ f, Compared P (todo f) (states f) (functions f) (functions' f) ∧
    ∀ j, todo f j → SameFor j (functions f).function (functions' f).function

omit [DecidableEq Fn] [DecidableEq Ty] [DecidableEq Const] [DecidableEq Loop] in
theorem ComparedFunctions.mono (h : ComparedFunctions P todo states functions functions')
    (htodo : ∀ f j, todo' f j → todo f j) :
    ComparedFunctions P todo' states functions functions' :=
  fun f => ⟨(h f).1.mono (htodo f), fun j hj => (h f).2 j (htodo f j hj)⟩

omit [DecidableEq Ty] [DecidableEq Const] [DecidableEq Loop] in
theorem ComparedFunctions.update (h : ComparedFunctions P todo states functions functions')
    {fn fn' : FunctionState Fn Ty Const Op} (hcompared : Compared P (todo f) (states f) fn fn')
    (hattributes : ∀ j, todo f j → SameFor j fn.function fn'.function) :
    ComparedFunctions P todo states (Function.update functions f fn)
      (Function.update functions' f fn') := by
  intro g
  by_cases hg : g = f
  · subst hg
    rw [Function.update_self, Function.update_self]
    exact ⟨hcompared, hattributes⟩
  · rw [Function.update_of_ne hg, Function.update_of_ne hg]
    exact h g

omit [DecidableEq Const] [DecidableEq Loop] in
theorem ComparedFunctions.assume (h : ComparedFunctions P todo states functions functions')
    (htodo : NoBranches todo) (c : Const) {s : Speculated Fn}
    (hs : s.IsBelow (states s.function).nextId) :
    ComparedFunctions P todo states (assume P c functions s) (assume P c functions' s) := by
  unfold Passes.assume
  split
  · exact h
  · rename_i point hpoint
    obtain ⟨hcompared, hattributes⟩ := h s.function
    refine h.update (hcompared.withAssumption (fun hbranch => htodo _ _ hbranch rfl) c ?_
      (hs.point point hpoint)) hattributes
    cases hvalue : s.value with
    | instruction id => exact hs.value id hvalue
    | _ => trivial

omit [DecidableEq Const] [DecidableEq Loop] in
theorem ComparedFunctions.assume_right (h : ComparedFunctions P todo states functions functions')
    (htodo : NoBranches todo) (c : Const) {s : Speculated Fn}
    (hs : s.IsBelow (states s.function).nextId) :
    ComparedFunctions P todo states functions (Passes.assume P c functions' s) := by
  unfold Passes.assume
  split
  · exact h
  · rename_i point hpoint
    obtain ⟨hcompared, hattributes⟩ := h s.function
    have hupdate := h.update (hcompared.withAssumption_right
      (fun hbranch => htodo _ _ hbranch rfl) c s.value (hs.point point hpoint)) hattributes
    rwa [Function.update_eq_self] at hupdate

omit [DecidableEq Const] [DecidableEq Loop] in
theorem ComparedFunctions.assumeAll (h : ComparedFunctions P todo states functions functions')
    (htodo : NoBranches todo) (c : Const) {points : List (Speculated Fn)}
    (hpoints : ∀ s ∈ points, s.IsBelow (states s.function).nextId) :
    ComparedFunctions P todo states (points.foldl (Passes.assume P c) functions)
      (points.foldl (Passes.assume P c) functions') := by
  induction points generalizing functions functions' with
  | nil => exact h
  | cons s points ih =>
      obtain ⟨hs, hpoints⟩ := List.forall_mem_cons.mp hpoints
      exact ih (h.assume htodo c hs) hpoints

omit [DecidableEq Const] [DecidableEq Loop] in
theorem ComparedFunctions.assumeAll_right (h : ComparedFunctions P todo states functions functions')
    (htodo : NoBranches todo) (c : Const) {points : List (Speculated Fn)}
    (hpoints : ∀ s ∈ points, s.IsBelow (states s.function).nextId) :
    ComparedFunctions P todo states functions (points.foldl (Passes.assume P c) functions') := by
  induction points generalizing functions' with
  | nil => exact h
  | cons s points ih =>
      obtain ⟨hs, hpoints⟩ := List.forall_mem_cons.mp hpoints
      exact ih (h.assume_right htodo c hs) hpoints

omit [DecidableEq Const] [DecidableEq Loop] in
/-- The second run assumes what the first one does, or the first one nothing. -/
theorem ComparedFunctions.assumeChosen (h : ComparedFunctions P todo states functions functions')
    (htodo : NoBranches todo) {info : SpeculationInfo Fn Const}
    (hpoints : ∀ s ∈ info.insertionPoints, s.IsBelow (states s.function).nextId)
    {choice choice' : Nat} (hchoice : choice = 0 ∨ choice = choice')
    {r r' : Fn → FunctionState Fn Ty Const Op}
    (hr : assumeChosen P functions info choice = .ok r)
    (hr' : assumeChosen P functions' info choice' = .ok r') :
    ComparedFunctions P todo states r r' := by
  obtain rfl | rfl := hchoice
  · obtain rfl := Except.ok.inj hr
    unfold Passes.assumeChosen at hr'
    split at hr'
    · obtain rfl := Except.ok.inj hr'
      exact h
    · split at hr'
      · cases hr'
      · obtain rfl := Except.ok.inj hr'
        exact h.assumeAll_right htodo _ hpoints
  · unfold Passes.assumeChosen at hr hr'
    by_cases hzero : choice = 0
    · rw [if_pos hzero] at hr hr'
      obtain rfl := Except.ok.inj hr
      obtain rfl := Except.ok.inj hr'
      exact h
    · rw [if_neg hzero] at hr hr'
      cases hconstant : info.constants[choice - 1]? with
      | none =>
          rw [hconstant] at hr
          cases hr
      | some c =>
          rw [hconstant] at hr hr'
          obtain rfl := Except.ok.inj hr
          obtain rfl := Except.ok.inj hr'
          exact h.assumeAll htodo c hpoints

omit [DecidableEq Const] [DecidableEq Loop] in
theorem lockstep_createSpeculativeAssumptions_compared
    (htodo : kind = .controlFlowTrg → NoBranches todo)
    (h : ComparedFunctions P todo states functions functions') {map : SpeculationMap Fn Const}
    (hmap : map.IsBelow states) :
    Program.Lockstep AnswersAtMost (ComparedFunctions P todo states)
      (createSpeculativeAssumptions P kind functions map)
      (createSpeculativeAssumptions P kind functions' map) := by
  unfold createSpeculativeAssumptions
  split
  · exact .done h
  · rename_i hkind
    have hbranch := not_not.mp hkind
    have htodo := htodo hbranch
    refine (Program.lockstep_foldlM
      (R := fun (entries : List (Str × SpeculationInfo Fn Const)) functions functions' =>
        (∀ e ∈ entries, ∀ s ∈ e.2.insertionPoints, s.IsBelow (states s.function).nextId) ∧
          ComparedFunctions P todo states functions functions')
      (fun entry entries functions functions' hst => ?_) ⟨hmap, h⟩).mono fun _ _ hst => hst.2
    obtain ⟨hentries, hcompared⟩ := hst
    obtain ⟨hpoints, hentries⟩ := List.forall_mem_cons.mp hentries
    unfold assumeGroup
    split
    · exact .failsLeft _ _
    · refine .ask fun choice choice' hchoice => Program.lockstep_ofExcept fun r r' hr hr' => ?_
      have hchoice := (if_pos hbranch).mp (hchoice (hbranch ▸ rfl))
      exact ⟨hentries, hcompared.assumeChosen htodo hpoints hchoice hr hr'⟩

/-! ### The module -/

/-- Two states of a module. -/
structure ComparedStates (P : PassInfo Fn Ty Const Op Loop)
    (todo : Fn → OptimisticChoiceKind → Prop) (states : Fn → FunctionState Fn Ty Const Op)
    (st st' : ModuleState Fn Ty Const Op) : Prop where
  functions : ComparedFunctions P todo states st.functions st'.functions
  speculation : st'.speculation = st.speculation
  isBelow : st.speculation.IsBelow states

omit [DecidableEq Fn] [DecidableEq Ty] [DecidableEq Const] [DecidableEq Loop] in
theorem Compared.withFunctions {todo : OptimisticChoiceKind → Prop}
    {base fn fn' : FunctionState Fn Ty Const Op} (h : Compared P todo base fn fn')
    {function function' : IRFunction Ty} (hkeeps : Keeps kind fn.function function)
    (hkeeps' : Keeps kind fn'.function function') :
    Compared P todo base { fn with function := function } { fn' with function := function' } where
  annotated := h.annotated.of_eq rfl rfl
  annotated' := h.annotated'.of_eq rfl rfl
  header := hkeeps.header.trans h.header
  header' := hkeeps'.header.trans h.header'
  code := h.code
  old := h.old

theorem lockstep_runFunction_compared
    (hlooks : ∀ f, LooksThroughAnnotations P f (states f).code)
    (hregular : ∀ f, (states f).Regular P) (declOnly : Fn → Bool)
    {st st' : ModuleState Fn Ty Const Op} (hf : todo f kind)
    (htodo : ∀ g j, todo' g j → todo g j ∧ (g = f → kind ≠ j))
    (h : ComparedStates P todo states st st') :
    Program.Lockstep AnswersAtMost (ComparedStates P todo' states)
      (runFunction P inst kind declOnly st f) (runFunction P inst kind declOnly st' f) := by
  have hrest := h.functions.mono fun g j hj => (htodo g j hj).1
  obtain ⟨hcompared, hsame⟩ := h.functions f
  have hattributes := @asks_annotateAttributes _ _ Const _ P.types kind f inst
    (st.functions f).function
  have hattributes' := @asks_annotateAttributes _ _ Const _ P.types kind f inst
    (st'.functions f).function
  rw [attributeQuestions_congr (hsame kind hf)] at hattributes'
  refine (Program.lockstep_of_asks hattributes hattributes').bind
    fun function function' hkeeps => ?_
  obtain ⟨hkeeps, hkeeps'⟩ := hkeeps
  have hcompared' := hcompared.withFunctions hkeeps hkeeps'
  have hsame' (j : OptimisticChoiceKind) (hj : todo' f j) : SameFor j function function' := by
    obtain ⟨hj, hne⟩ := htodo f j hj
    have hne := hne rfl
    exact (hkeeps.sameFor hne).symm.trans ((hsame j hj).trans (hkeeps'.sameFor hne))
  have hheader : function'.isDeclaration = function.isDeclaration := by
    have hheaders := hcompared'.header'.trans hcompared'.header.symm
    exact congrArg FunctionHeader.isDeclaration hheaders
  simp only [hheader]
  split
  · refine .done ⟨hrest.update (hcompared'.mono fun j hj => (htodo f j hj).1) hsame',
      h.speculation, h.isBelow⟩
  · rw [h.speculation]
    refine (lockstep_annotateCode_compared (hlooks f) (hregular f) hcompared' hf
      (fun j hj => ⟨(htodo f j hj).1, (htodo f j hj).2 rfl⟩) h.isBelow).bind fun r r' hr => ?_
    obtain ⟨hmaps, hbelow, hcode, hfunction, hfunction'⟩ := hr
    refine .done ⟨hrest.update hcode fun j hj => ?_, hmaps, hbelow⟩
    rw [hfunction, hfunction']
    exact hsame' j hj

theorem lockstep_runKind_compared
    (hlooks : ∀ f, LooksThroughAnnotations P f (states f).code)
    (hregular : ∀ f, (states f).Regular P) (declOnly : Fn → Bool) {functions : List Fn}
    (hnodup : functions.Nodup) {kinds : List OptimisticChoiceKind} (hkind : kind ∉ kinds)
    {st st' : ModuleState Fn Ty Const Op}
    (h : ComparedStates P (fun _ j => j ∈ kind :: kinds) states st st') :
    Program.Lockstep AnswersAtMost (ComparedStates P (fun _ j => j ∈ kinds) states)
      (runKind P inst declOnly functions st kind) (runKind P inst declOnly functions st' kind) := by
  have hfunctions : Program.Lockstep AnswersAtMost (fun st st' =>
      ([] : List Fn).Nodup ∧ ComparedStates P (Remaining kind kinds []) states st st')
      (functions.foldlM (runFunction P inst kind declOnly) st)
      (functions.foldlM (runFunction P inst kind declOnly) st') := by
    refine Program.lockstep_foldlM
      (R := fun fs st st' => fs.Nodup ∧ ComparedStates P (Remaining kind kinds fs) states st st')
      (fun f fs st st' hst => ?_) ⟨hnodup, ?_⟩
    · obtain ⟨hnodup, hst⟩ := hst
      obtain ⟨hf, hnodup⟩ := List.nodup_cons.mp hnodup
      refine (lockstep_runFunction_compared hlooks hregular declOnly
        (.inr ⟨rfl, List.mem_cons_self⟩)
        (fun g j (hj : Remaining kind kinds fs g j) => ?_) hst).mono fun _ _ hst => ⟨hnodup, hst⟩
      refine ⟨hj.imp id fun hj => ⟨hj.1, List.mem_cons_of_mem f hj.2⟩, ?_⟩
      rintro rfl rfl
      obtain hj | hj := hj
      · exact hkind hj
      · exact hf hj.2
    · refine ⟨h.functions.mono fun f j hj => ?_, h.speculation, h.isBelow⟩
      obtain hj | ⟨rfl, -⟩ := hj
      · exact List.mem_cons_of_mem kind hj
      · exact List.mem_cons_self
  refine hfunctions.bind fun st st' hst => ?_
  obtain ⟨-, hst⟩ := hst
  rw [hst.speculation]
  have hrest : ComparedFunctions P (fun _ j => j ∈ kinds) states st.functions st'.functions :=
    hst.functions.mono fun _ _ hj => .inl hj
  refine (lockstep_createSpeculativeAssumptions_compared (fun hbranch f j hj => ?_) hrest
    hst.isBelow).bind fun r r' hr => .done ⟨hr, rfl, hst.isBelow⟩
  rintro rfl
  rw [hbranch] at hkind
  exact hkind hj

/-- All passes of an instance. -/
theorem lockstep_runPasses_compared
    (hlooks : ∀ f, LooksThroughAnnotations P f (states f).code)
    (hregular : ∀ f, (states f).Regular P) (declOnly : Fn → Bool) {functions : List Fn}
    (hnodup : functions.Nodup) :
    Program.Lockstep AnswersAtMost (ComparedStates P (fun _ _ => False) states)
      (runPasses P inst declOnly functions states)
      (runPasses P inst declOnly functions states) := by
  have hstart : ComparedStates P (fun _ j => j ∈ choiceKinds) states ⟨states, .empty⟩
      ⟨states, .empty⟩ :=
    ⟨fun f => ⟨.refl (hregular f) _, fun _ _ => .refl _⟩, rfl, List.forall_mem_nil _⟩
  refine (Program.lockstep_foldlM (R := fun kinds st st' => kinds.Nodup ∧
    ComparedStates P (fun _ j => j ∈ kinds) states st st') (fun kind kinds st st' hst => ?_)
    ⟨by decide, hstart⟩).mono fun st st' hst => ?_
  · obtain ⟨hkinds, hst⟩ := hst
    obtain ⟨hkind, hkinds⟩ := List.nodup_cons.mp hkinds
    exact (lockstep_runKind_compared hlooks hregular declOnly hnodup hkind hst).mono
      fun _ _ h => ⟨hkinds, h⟩
  · exact ⟨hst.2.functions.mono fun _ _ hj => hj.elim, hst.2.speculation, hst.2.isBelow⟩

end Runs

end Passes

end Petospa
