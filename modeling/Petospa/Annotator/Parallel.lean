import Petospa.Annotator.Loops

/-!
# Requested loops become parallel

No step of the annotation takes a loop ID or a reference of an access away. A
loop that is chosen has an ID before the accesses of its nest are marked, and
every access in it is marked with that ID: by the loop itself, or by the
innermost loop around the access, which lists the IDs of all loops around it.
-/

namespace Petospa

open LoopState

variable {Loop Block Inst : Type} [DecidableEq Block]
variable {N : LoopInfo Loop Block Inst} {s s' s'' : LoopState Block Inst}

/-! ### Nothing is taken away -/

/-- Loop IDs stay, and accesses keep what they refer to. -/
structure Grows (N : LoopInfo Loop Block Inst) (s s' : LoopState Block Inst) : Prop where
  loopID : ∀ L n, N.getLoopID s L = some n → N.getLoopID s' L = some n
  access : ∀ i m, some m ∈ s.accessOperands i → some m ∈ s'.accessOperands i

theorem Grows.refl (N : LoopInfo Loop Block Inst) (s : LoopState Block Inst) : Grows N s s :=
  ⟨fun _ _ h => h, fun _ _ h => h⟩

theorem Grows.trans (h : Grows N s s') (h' : Grows N s' s'') : Grows N s s'' where
  loopID L n hid := h'.loopID L n (h.loopID L n hid)
  access i m hm := h'.access i m (h.access i m hm)

omit [DecidableEq Block] in
theorem mem_accessOperands {i : Inst} {m : Option Metadata} : m ∈ s.accessOperands i ↔
    ∃ md, s.accessMD i = some md ∧ m ∈ s.context.operands md := by
  rw [LoopState.accessOperands]
  cases s.accessMD i with
  | none => simp
  | some md => simp

theorem isAnnotatedParallel_iff {L : Loop} :
    N.isAnnotatedParallel s L = true ↔ ∃ n, N.getLoopID s L = some n ∧
      ∀ b ∈ N.blocks L, ∀ i ∈ N.accesses b, some (.node n) ∈ s.accessOperands i := by
  rw [LoopInfo.isAnnotatedParallel]
  cases N.getLoopID s L with
  | none => simp
  | some n => simp

/-- A loop that is parallel stays parallel. -/
theorem Grows.isAnnotatedParallel (h : Grows N s s') {L : Loop}
    (hparallel : N.isAnnotatedParallel s L = true) : N.isAnnotatedParallel s' L = true := by
  obtain ⟨n, hid, haccess⟩ := isAnnotatedParallel_iff.mp hparallel
  refine isAnnotatedParallel_iff.mpr ⟨n, h.loopID L n hid, ?_⟩
  intro b hb i hi
  exact h.access i _ (haccess b hb i hi)

/-! ### Loop IDs -/

section EnsureLoopID

variable {L : Loop}

theorem ensureLoopID_of_some {n : Nat} (h : N.getLoopID s L = some n) :
    N.ensureLoopID s L = s := by
  rw [LoopInfo.ensureLoopID, h]

/-- What a loop without a loop ID gets. -/
structure Ensured (N : LoopInfo Loop Block Inst) (s : LoopState Block Inst) (L : Loop) (n : Nat)
    (s' : LoopState Block Inst) : Prop where
  created : MDContext.Created s.context (n, s'.context)
  loopMD : ∀ b, s'.loopMD b = if b ∈ N.getLoopLatches L then some n else s.loopMD b
  accessMD : s'.accessMD = s.accessMD

theorem ensureLoopID_of_none (h : N.getLoopID s L = none) :
    ∃ n, Ensured N s L n (N.ensureLoopID s L) := by
  have hcreated := s.context.createLoopID_created
  rw [LoopInfo.ensureLoopID, h]
  refine ⟨s.context.createLoopID.1, ?_, fun b => ?_, ?_⟩
  · rw [LoopInfo.setLoopID_context]
    exact hcreated
  · rw [LoopInfo.setLoopID_loopMD]
  · rw [LoopInfo.setLoopID_accessMD]

theorem Ensured.getLoopID {n : Nat} (h : Ensured N s L n s') : N.getLoopID s' L = some n := by
  refine LoopInfo.getLoopID_eq_some.mpr ⟨fun b hb => ?_, h.created.isLoopID⟩
  rw [h.loopMD, if_pos hb]

theorem Ensured.accessOperands {n : Nat} (h : Ensured N s L n s') {i : Inst} {m : Metadata}
    (hm : some m ∈ s.accessOperands i) : some m ∈ s'.accessOperands i := by
  obtain ⟨md, hmd, hmem⟩ := mem_accessOperands.mp hm
  have hlt := MDContext.lt_length_of_mem_operands hmem
  have hne : md ≠ n := by
    rintro rfl
    rw [(h.created.isNull hlt).operands] at hmem
    simp at hmem
  refine mem_accessOperands.mpr ⟨md, by rw [h.accessMD, hmd], ?_⟩
  rwa [h.created.operands hlt hne]

theorem Ensured.grows (hapart : N.LatchesApart) (hnone : N.getLoopID s L = none) {n : Nat}
    (h : Ensured N s L n s') : Grows N s s' := by
  refine ⟨fun M m hid => ?_, fun i m hm => h.accessOperands hm⟩
  obtain ⟨hattached, hself⟩ := LoopInfo.getLoopID_eq_some.mp hid
  obtain ⟨-, hoperands⟩ := h.created.of_isLoopID hself
  refine LoopInfo.getLoopID_eq_some.mpr ⟨fun b hb => ?_, ?_⟩
  · have hother : b ∉ N.getLoopLatches L := by
      intro hL
      obtain rfl := hapart L M b hL hb
      rw [hnone] at hid
      cases hid
    rw [h.loopMD, if_neg hother]
    exact hattached b hb
  · rwa [MDContext.IsLoopID, hoperands]

theorem ensureLoopID_grows (hapart : N.LatchesApart) (s : LoopState Block Inst) (L : Loop) :
    Grows N s (N.ensureLoopID s L) := by
  cases hid : N.getLoopID s L with
  | some n =>
      rw [ensureLoopID_of_some hid]
      exact Grows.refl N s
  | none =>
      obtain ⟨n, hensured⟩ := ensureLoopID_of_none hid
      exact hensured.grows hapart hid

theorem getLoopID_ensureLoopID (s : LoopState Block Inst) (L : Loop) :
    ∃ n, N.getLoopID (N.ensureLoopID s L) L = some n := by
  cases hid : N.getLoopID s L with
  | some n =>
      rw [ensureLoopID_of_some hid]
      exact ⟨n, hid⟩
  | none =>
      obtain ⟨n, hensured⟩ := ensureLoopID_of_none hid
      exact ⟨n, hensured.getLoopID⟩

end EnsureLoopID

/-! ### Marked accesses -/

/-- What marking an access changes. -/
structure Marked (loopIDs : List (Option Metadata)) (s : LoopState Block Inst) (i : Inst)
    (s' : LoopState Block Inst) : Prop where
  loopMD : s'.loopMD = s.loopMD
  extends_ : s.context.Extends s'.context
  other : ∀ j, j ≠ i → s'.accessMD j = s.accessMD j
  allocated : ∃ n, s'.accessMD i = some n ∧ n < s'.context.nodes.length
  null : (∃ m, some m ∈ loopIDs) → ∀ n, s'.context.IsNull n → s.context.IsNull n
  mem : ∀ m, m ∈ loopIDs ∨ m ∈ s.accessOperands i → m ∈ s'.accessOperands i
  of_mem : (∀ n, s.accessMD i = some n → n < s.context.nodes.length) →
    ∀ m, m ∈ s'.accessOperands i → m ∈ loopIDs ∨ m ∈ s.accessOperands i

omit [DecidableEq Block] in
theorem markAccess_marked [DecidableEq Inst] (loopIDs : List (Option Metadata))
    (s : LoopState Block Inst) (i : Inst) : Marked loopIDs s i (markAccess loopIDs s i) := by
  have hgot := MDContext.get_got s.context loopIDs
  have hne : ∀ ops : List (Option Metadata), (∃ m, some m ∈ ops) → ops ≠ [none] := by
    rintro _ ⟨m, hm⟩ rfl
    simp at hm
  cases hmd : s.accessMD i with
  | none =>
      rw [markAccess, hmd]
      refine ⟨rfl, hgot.extends_, fun j hj => if_neg hj, ⟨_, if_pos rfl, hgot.lt_length⟩,
        fun hsome => hgot.null (hne _ hsome), ?_, ?_⟩
      · intro m hm
        simpa [accessOperands, hmd, hgot.operands] using hm
      · intro _ m hm
        simpa [accessOperands, hmd, hgot.operands] using hm
  | some md =>
      have hcat := MDContext.concatenate_got (s.context.get loopIDs).2 (s.context.get loopIDs).1 md
      rw [markAccess, hmd]
      refine ⟨rfl, hgot.extends_.trans hcat.extends_, fun j hj => if_neg hj,
        ⟨_, if_pos rfl, hcat.lt_length⟩, fun ⟨m, hm⟩ n hn => ?_, ?_, ?_⟩
      · refine hgot.null (hne _ ⟨m, hm⟩) n (hcat.null (hne _ ⟨m, ?_⟩) n hn)
        rw [mem_foldl_number, hgot.operands]
        exact .inr (List.mem_append_left _ hm)
      · intro m hm
        simp only [accessOperands, if_true, hcat.operands, hgot.operands, mem_foldl_number,
          List.mem_append, List.not_mem_nil, false_or, hmd] at hm ⊢
        refine hm.imp_right fun hm => ?_
        rwa [hgot.extends_.operands (MDContext.lt_length_of_mem_operands hm)]
      · intro hlt m hm
        simp only [accessOperands, if_true, hcat.operands, hgot.operands, mem_foldl_number,
          List.mem_append, List.not_mem_nil, false_or, hmd] at hm ⊢
        rwa [hgot.extends_.operands (hlt md hmd)] at hm

theorem Marked.grows {loopIDs : List (Option Metadata)} {i : Inst} (h : Marked loopIDs s i s') :
    Grows N s s' := by
  constructor
  · intro L n hid
    obtain ⟨hattached, hself⟩ := LoopInfo.getLoopID_eq_some.mp hid
    refine LoopInfo.getLoopID_eq_some.mpr ⟨fun b hb => ?_, ?_⟩
    · rw [h.loopMD]
      exact hattached b hb
    · rwa [MDContext.IsLoopID, h.extends_.operands hself.lt_length]
  · intro j m hm
    by_cases hj : j = i
    · subst hj
      exact h.mem _ (.inr hm)
    · obtain ⟨md, hmd, hmem⟩ := mem_accessOperands.mp hm
      refine mem_accessOperands.mpr ⟨md, (h.other j hj).trans hmd, ?_⟩
      rwa [h.extends_.operands (MDContext.lt_length_of_mem_operands hmem)]

/-! ### Runs of steps -/

section Folds

variable {α : Type} {step : LoopState Block Inst → α → LoopState Block Inst}

theorem foldl_grows (hstep : ∀ s x, Grows N s (step s x)) (xs : List α)
    (s : LoopState Block Inst) : Grows N s (xs.foldl step s) := by
  induction xs generalizing s with
  | nil => exact Grows.refl N s
  | cons x xs ih => exact (hstep s x).trans (ih (step s x))

/-- What a step for some element brings about is there at the end. -/
theorem foldl_reaches (hstep : ∀ s x, Grows N s (step s x)) {P : LoopState Block Inst → Prop}
    (hkeep : ∀ s s', Grows N s s' → P s → P s') {xs : List α} {x : α} (hx : x ∈ xs)
    (hreach : ∀ s', Grows N s s' → P (step s' x)) : P (xs.foldl step s) := by
  induction xs generalizing s with
  | nil => cases hx
  | cons y xs ih =>
      rcases List.mem_cons.mp hx with rfl | hx
      · exact hkeep _ _ (foldl_grows hstep xs _) (hreach s (Grows.refl N s))
      · exact ih hx fun s' hgrows => hreach s' ((hstep s y).trans hgrows)

end Folds

variable [DecidableEq Inst]

theorem markBlock_grows (loopIDs : List (Option Metadata)) (is : List Inst)
    (s : LoopState Block Inst) : Grows N s (is.foldl (markAccess loopIDs) s) :=
  foldl_grows (fun s i => (markAccess_marked loopIDs s i).grows) is s

variable [DecidableEq Loop]

theorem markLoop_grows (parallelLoops : List Loop) (s : LoopState Block Inst) (L : Loop) :
    Grows N s (N.markLoop parallelLoops s L) := by
  refine foldl_grows (fun s b => ?_) _ s
  split
  · exact Grows.refl N s
  · exact markBlock_grows _ _ s

/-- A loop that marks a block adds the IDs of all loops around it. -/
theorem markLoop_marks {parallelLoops : List Loop} {L A : Loop} {b : Block} {i : Inst} {n : Nat}
    (hb : b ∈ N.blocks L) (hleaves : N.leaves parallelLoops L b = false) (hi : i ∈ N.accesses b)
    (hA : A ∈ N.enclosing L) (hid : N.getLoopID s A = some n) :
    some (.node n) ∈ (N.markLoop parallelLoops s L).accessOperands i := by
  have hlisted : some (.node n) ∈
      (N.enclosing L).map fun P => (N.getLoopID s P).map Metadata.node :=
    List.mem_map.mpr ⟨A, hA, by rw [hid]; rfl⟩
  refine foldl_reaches (N := N) (fun s b => ?_) (fun s s' hgrows => hgrows.access i _) hb ?_
  · split
    · exact Grows.refl N s
    · exact markBlock_grows _ _ s
  · intro s' _
    rw [hleaves]
    refine foldl_reaches (N := N) (fun s i => (markAccess_marked _ s i).grows)
      (fun s s' hgrows => hgrows.access i _) hi ?_
    intro s'' _
    exact (markAccess_marked _ s'' i).mem _ (.inl hlisted)

/-- All accesses of a loop refer to the IDs that the loops around it had before. -/
def MarkedFor (N : LoopInfo Loop Block Inst) (s s' : LoopState Block Inst) (L : Loop) : Prop :=
  ∀ A ∈ N.enclosing L, ∀ n, N.getLoopID s A = some n →
    ∀ b ∈ N.blocks L, ∀ i ∈ N.accesses b, some (.node n) ∈ s'.accessOperands i

omit [DecidableEq Inst] [DecidableEq Loop] in
theorem MarkedFor.mono {s₁ s₁' : LoopState Block Inst} {L : Loop} (h : MarkedFor N s s' L)
    (hbefore : Grows N s₁ s) (hafter : Grows N s' s₁') : MarkedFor N s₁ s₁' L := by
  intro A hA n hid b hb i hi
  exact hafter.access i _ (h A hA n (hbefore.loopID A n hid) b hb i hi)

/-- All loops of a set are marked. -/
theorem markLoops_marks (s : LoopState Block Inst) {parallelLoops : List Loop} {L : Loop}
    (hL : L ∈ parallelLoops) :
    MarkedFor N s (parallelLoops.foldl (N.markLoop parallelLoops) s) L := by
  intro A hA n hid b hb i hi
  obtain ⟨M, hfor, hM⟩ := LoopInfo.mem_blocks_iff.mp hb
  -- The loop that marks the block: the innermost one around it, if that is in the set.
  have hmarks : ∃ K ∈ parallelLoops, b ∈ N.blocks K ∧ N.leaves parallelLoops K b = false ∧
      L ∈ N.enclosing K := by
    by_cases hmem : M ∈ parallelLoops
    · refine ⟨M, hmem, LoopInfo.mem_blocks_iff.mpr ⟨M, hfor, LoopInfo.mem_enclosing_self M⟩, ?_,
        hM⟩
      simp [LoopInfo.leaves, hfor]
    · refine ⟨L, hL, hb, ?_, LoopInfo.mem_enclosing_self L⟩
      simp [LoopInfo.leaves, hfor, hmem]
  obtain ⟨K, hK, hbK, hleaves, hLK⟩ := hmarks
  refine foldl_reaches (N := N) (markLoop_grows parallelLoops)
    (fun s s' hgrows => hgrows.access i _) hK ?_
  intro s' hgrows
  exact markLoop_marks hbK hleaves hi (LoopInfo.enclosing_trans hLK hA) (hgrows.loopID A n hid)

/-! ### Nests and functions -/

section Annotate

variable {order : PointerOrder Loop} {kind : OptimisticChoiceKind} {answer : Loop → Nat}

/-- The loops of a kind that are chosen. -/
def Requested (N : LoopInfo Loop Block Inst) (kind : OptimisticChoiceKind) (answer : Loop → Nat)
    (L : Loop) : Prop := N.kindOf L = kind ∧ answer L ≠ 0

instance (L : Loop) : Decidable (Requested N kind answer L) :=
  inferInstanceAs (Decidable (_ ∧ _))

omit [DecidableEq Inst] in
theorem requestLoop_of_requested {L : Loop} (h : Requested N kind answer L)
    (r : LoopState Block Inst × List Loop) :
    N.requestLoop 7 kind answer r L = (N.ensureLoopID r.1 L, number r.2 L) := by
  rw [LoopInfo.requestLoop, if_pos rfl, if_neg (not_not_intro h.1.symm), if_neg h.2]

omit [DecidableEq Inst] in
theorem requestLoop_of_not_requested {L : Loop} (h : ¬ Requested N kind answer L)
    (r : LoopState Block Inst × List Loop) : N.requestLoop 7 kind answer r L = r := by
  rw [LoopInfo.requestLoop, if_pos rfl]
  split
  · rfl
  · rename_i hkind
    exact if_pos (not_not.mp fun hanswer => h ⟨(not_not.mp hkind).symm, hanswer⟩)

/-- After the loop over a nest the set is that of the loops that are chosen, and
all its loops have an ID. -/
structure AfterRequests (N : LoopInfo Loop Block Inst) (kind : OptimisticChoiceKind)
    (answer : Loop → Nat) (ls : List Loop) (r r' : LoopState Block Inst × List Loop) : Prop where
  grows : Grows N r.1 r'.1
  mem_iff : ∀ L, L ∈ r'.2 ↔ L ∈ r.2 ∨ L ∈ ls ∧ Requested N kind answer L
  loopID : ∀ L ∈ r'.2, L ∈ r.2 ∨ ∃ n, N.getLoopID r'.1 L = some n

omit [DecidableEq Inst] in
theorem requestLoop_spec (hapart : N.LatchesApart) (r : LoopState Block Inst × List Loop)
    (L : Loop) : AfterRequests N kind answer [L] r (N.requestLoop 7 kind answer r L) := by
  by_cases hrequested : Requested N kind answer L
  · rw [requestLoop_of_requested hrequested]
    refine ⟨ensureLoopID_grows hapart r.1 L, fun M => ?_, fun M hM => ?_⟩
    · simp only [mem_number, List.mem_singleton]
      constructor
      · rintro (hM | rfl)
        · exact .inl hM
        · exact .inr ⟨rfl, hrequested⟩
      · rintro (hM | ⟨rfl, -⟩)
        · exact .inl hM
        · exact .inr rfl
    · rcases mem_number.mp hM with hM | rfl
      · exact .inl hM
      · exact .inr (getLoopID_ensureLoopID r.1 M)
  · rw [requestLoop_of_not_requested hrequested]
    refine ⟨Grows.refl N r.1, fun M => ?_, fun M hM => .inl hM⟩
    simp only [List.mem_singleton, iff_self_or]
    rintro ⟨rfl, hM⟩
    exact absurd hM hrequested

omit [DecidableEq Inst] [DecidableEq Loop] in
theorem AfterRequests.trans {ls ls' : List Loop} {r r' r'' : LoopState Block Inst × List Loop}
    (h : AfterRequests N kind answer ls r r') (h' : AfterRequests N kind answer ls' r' r'') :
    AfterRequests N kind answer (ls ++ ls') r r'' where
  grows := h.grows.trans h'.grows
  mem_iff L := by rw [h'.mem_iff, h.mem_iff, List.mem_append, or_and_right, or_assoc]
  loopID L hL := by
    rcases h'.loopID L hL with hL | hid
    · rcases h.loopID L hL with hL | ⟨n, hid⟩
      · exact .inl hL
      · exact .inr ⟨n, h'.grows.loopID L n hid⟩
    · exact .inr hid

omit [DecidableEq Inst] in
theorem requestLoops_spec (hapart : N.LatchesApart) (ls : List Loop)
    (r : LoopState Block Inst × List Loop) :
    AfterRequests N kind answer ls r (ls.foldl (N.requestLoop 7 kind answer) r) := by
  induction ls generalizing r with
  | nil => exact ⟨Grows.refl N r.1, fun L => by simp, fun L hL => .inl hL⟩
  | cons L ls ih => exact (requestLoop_spec hapart r L).trans (ih _)

/-- A kind and a nest, in the order in which the annotation gets to them. -/
def LoopInfo.visits (N : LoopInfo Loop Block Inst) : List (OptimisticChoiceKind × Loop) :=
  N.topLevel.map (Prod.mk .loopParallelInnermost) ++ N.topLevel.map (Prod.mk .loopParallelOuter)

/-- The loops that are chosen in a visit. -/
def LoopInfo.requestedIn (N : LoopInfo Loop Block Inst) (answer : Loop → Nat)
    (visit : OptimisticChoiceKind × Loop) : List Loop :=
  (N.depthFirst visit.2).filter fun L => Requested N visit.1 answer L

def LoopInfo.annotateVisits (N : LoopInfo Loop Block Inst) (order : PointerOrder Loop)
    (answer : Loop → Nat) (visits : List (OptimisticChoiceKind × Loop))
    (s : LoopState Block Inst) : Except Fault (LoopState Block Inst) :=
  visits.foldlM (fun s visit => N.annotateNest order 7 visit.1 answer s visit.2) s

/-- The loop is chosen in one of the visits. -/
def RequestedBy (N : LoopInfo Loop Block Inst) (answer : Loop → Nat)
    (visits : List (OptimisticChoiceKind × Loop)) (L : Loop) : Prop :=
  ∃ visit ∈ visits, L ∈ N.requestedIn answer visit

/-- The annotation for both kinds is the visits one after the other. -/
theorem annotateAllLoops_eq (s : LoopState Block Inst) :
    N.annotateAllLoops order 7 answer s = N.annotateVisits order answer N.visits s := by
  simp only [LoopInfo.annotateVisits, LoopInfo.visits, List.foldlM_append, List.foldlM_map]
  rfl

omit [DecidableEq Block] [DecidableEq Inst] [DecidableEq Loop] in
theorem requestedBy_visits {L : Loop} : RequestedBy N answer N.visits L ↔ answer L ≠ 0 := by
  constructor
  · rintro ⟨visit, -, hL⟩
    exact (of_decide_eq_true (List.mem_filter.mp hL).2).2
  · intro hchosen
    obtain ⟨O, hO, hnest⟩ := N.exists_topLevel L
    refine ⟨(N.kindOf L, O), ?_, List.mem_filter.mpr
      ⟨(N.mem_depthFirst O L).mpr hnest, decide_eq_true ⟨rfl, hchosen⟩⟩⟩
    rw [LoopInfo.visits, List.mem_append, LoopInfo.kindOf]
    split
    · exact .inl (List.mem_map_of_mem hO)
    · exact .inr (List.mem_map_of_mem hO)

variable (order) (answer)

/-- The assertion holds in each visit. -/
theorem annotateNest_eq_ok (hapart : N.LatchesApart) (s : LoopState Block Inst)
    (visit : OptimisticChoiceKind × Loop) :
    ∃ s', N.annotateNest order 7 visit.1 answer s visit.2 = .ok s' ∧ Grows N s s' ∧
      ∀ L ∈ N.requestedIn answer visit,
        N.isAnnotatedParallel s' L = true ∧ MarkedFor N s s' L := by
  obtain ⟨kind, O⟩ := visit
  have hrequests : AfterRequests N kind answer _ (s, []) _ :=
    requestLoops_spec hapart (N.depthFirst O) (s, [])
  rw [LoopInfo.annotateNest]
  generalize (N.depthFirst O).foldl (N.requestLoop 7 kind answer) (s, []) = r at hrequests
  obtain ⟨s₁, requested⟩ := r
  have hperm := order.perm kind O requested
  have hmarked := foldl_grows (N := N) (markLoop_grows (order.visit kind O requested))
    (order.visit kind O requested) s₁
  have hparallel : ∀ L ∈ order.visit kind O requested, N.isAnnotatedParallel
      ((order.visit kind O requested).foldl (N.markLoop (order.visit kind O requested)) s₁) L =
        true := by
    intro L hL
    obtain ⟨n, hid⟩ := (hrequests.loopID L (hperm.mem_iff.mp hL)).resolve_left (by simp)
    refine isAnnotatedParallel_iff.mpr ⟨n, hmarked.loopID L n hid, ?_⟩
    exact markLoops_marks s₁ hL L (LoopInfo.mem_enclosing_self L) n hid
  refine ⟨_, if_pos (List.all_eq_true.mpr hparallel), hrequests.grows.trans hmarked, ?_⟩
  intro L hrequested
  obtain ⟨hL, hrequested⟩ := List.mem_filter.mp hrequested
  have hmem := hperm.mem_iff.mpr
    ((hrequests.mem_iff L).mpr (.inr ⟨hL, of_decide_eq_true hrequested⟩))
  exact ⟨hparallel L hmem, (markLoops_marks s₁ hmem).mono hrequests.grows (Grows.refl N _)⟩

/-- No assertion fails in the visits, and all loops that are chosen in them become parallel. -/
theorem annotateVisits_eq_ok (hapart : N.LatchesApart)
    (visits : List (OptimisticChoiceKind × Loop)) (s : LoopState Block Inst) :
    ∃ s', N.annotateVisits order answer visits s = .ok s' ∧ Grows N s s' ∧
      ∀ L, RequestedBy N answer visits L →
        N.isAnnotatedParallel s' L = true ∧ MarkedFor N s s' L := by
  induction visits generalizing s with
  | nil => exact ⟨s, rfl, Grows.refl N s, by simp [RequestedBy]⟩
  | cons visit visits ih =>
      obtain ⟨s₁, hvisit, hgrows₁, hdone₁⟩ := annotateNest_eq_ok order answer hapart s visit
      obtain ⟨s', hvisits, hgrows, hdone⟩ := ih s₁
      refine ⟨s', ?_, hgrows₁.trans hgrows, ?_⟩
      · rw [LoopInfo.annotateVisits, List.foldlM_cons, hvisit]
        exact hvisits
      · rintro L ⟨visit', hvisit', hL⟩
        rcases List.mem_cons.mp hvisit' with rfl | hvisit'
        · obtain ⟨hparallel, hmarked⟩ := hdone₁ L hL
          exact ⟨hgrows.isAnnotatedParallel hparallel, hmarked.mono (Grows.refl N s) hgrows⟩
        · obtain ⟨hparallel, hmarked⟩ := hdone L ⟨visit', hvisit', hL⟩
          exact ⟨hparallel, hmarked.mono hgrows₁ (Grows.refl N s')⟩

end Annotate

/-- At the instance that annotates loops, no assertion fails for either kind, all
loops that are chosen become parallel, and those that were parallel stay so. -/
theorem annotateAllLoops_parallel (N : LoopInfo Loop Block Inst) (hapart : N.LatchesApart)
    (order : PointerOrder Loop) (answer : Loop → Nat) (start : LoopState Block Inst) :
    ∃ final, N.annotateAllLoops order 7 answer start = .ok final ∧
      ∀ L, answer L ≠ 0 ∨ N.isAnnotatedParallel start L = true →
        N.isAnnotatedParallel final L = true := by
  obtain ⟨final, hok, hgrows, hdone⟩ := annotateVisits_eq_ok order answer hapart N.visits start
  refine ⟨final, (annotateAllLoops_eq start).trans hok, fun L hL => ?_⟩
  rcases hL with hchosen | hparallel
  · exact (hdone L (requestedBy_visits.mpr hchosen)).1
  · exact hgrows.isAnnotatedParallel hparallel

/-! ### An inner loop that is chosen -/

/-- A loop around a loop of one block, which holds the only memory access. -/
def twoLoops : LoopInfo (Fin 2) (Fin 3) (Fin 1) where
  topLevel := [0]
  depthFirst L := if L = 0 then [0, 1] else [1]
  subLoops L := if L = 0 then [1] else []
  getParentLoop L := if L = 0 then none else some 0
  getLoopDepth L := if L = 0 then 1 else 2
  getHeader L := if L = 0 then 0 else 1
  blocks L := if L = 0 then [0, 1, 2] else [1]
  getLoopFor b := if b = 1 then some 1 else some 0
  successors b := if b = 0 then [1] else if b = 1 then [1, 2] else [0]
  predecessors b := if b = 0 then [2] else if b = 1 then [0, 1] else [1]
  accesses b := if b = 1 then [0] else []
  depth_topLevel := by decide
  depth_parent := by decide
  mem_subLoops := by decide
  mem_depthFirst := by decide
  exists_topLevel := by decide
  mem_blocks := by decide
  mem_predecessors := by decide
  exists_latch := by decide
  block_unique := by decide

theorem twoLoops_latchesApart : twoLoops.LatchesApart := by
  unfold LoopInfo.LatchesApart
  decide

def insertionOrder (Loop : Type) : PointerOrder Loop where
  visit _ _ ls := ls
  perm _ _ ls := List.Perm.refl ls

/-- No metadata at all. -/
def unannotated : LoopState (Fin 3) (Fin 1) := ⟨⟨[]⟩, fun _ => none, fun _ => none⟩

/-- The inner loop is chosen. -/
def chooseInner (L : Fin 2) : Nat := if L = 1 then 1 else 0

theorem annotateAllLoops_parallel_twoLoops :
    ∃ final, twoLoops.annotateAllLoops (insertionOrder (Fin 2)) 7 chooseInner unannotated =
        .ok final ∧
      ∀ L, chooseInner L ≠ 0 ∨ twoLoops.isAnnotatedParallel unannotated L = true →
        twoLoops.isAnnotatedParallel final L = true :=
  annotateAllLoops_parallel twoLoops twoLoops_latchesApart (insertionOrder (Fin 2)) chooseInner
    unannotated

end Petospa
