import Petospa.Annotator.Parallel
import Petospa.Lib.Except

/-!
# What the visits leave

A visit gives the loops that are chosen in it an ID and marks their accesses with
the IDs of the loops around them. Everything else stays: the nodes of the context,
the IDs of all other loops and what the accesses refer to. This holds of visits
that turn no node of the beginning into a loop ID, as there is no `!{null}` or as
all loops that are chosen in them have an ID.
-/

namespace Petospa

open LoopState

variable {Loop Block Inst : Type} [DecidableEq Block]
variable {N : LoopInfo Loop Block Inst} {P : Loop → Prop}
variable {start s s' : LoopState Block Inst}

/-- The nodes that are attached to latches and accesses are in the context. -/
structure Attached (N : LoopInfo Loop Block Inst) (s : LoopState Block Inst) : Prop where
  loopMD : ∀ L, ∀ b ∈ N.getLoopLatches L, ∀ n, s.loopMD b = some n → n < s.context.nodes.length
  accessMD : ∀ i n, s.accessMD i = some n → n < s.context.nodes.length

/-- A loop of a set around the block lies in a loop, or is one, with the given ID. -/
def Covered (N : LoopInfo Loop Block Inst) (P : Loop → Prop) (s : LoopState Block Inst)
    (b : Block) (n : Nat) : Prop :=
  ∃ L, P L ∧ b ∈ N.blocks L ∧ ∃ A ∈ N.enclosing L, N.getLoopID s A = some n

/-- What is left when the loops of a set have got IDs and some of their accesses
have been marked. -/
structure Traces (N : LoopInfo Loop Block Inst) (P : Loop → Prop)
    (start s : LoopState Block Inst) : Prop where
  grows : Grows N start s
  extends_ : start.context.Extends s.context
  null : ∀ n, s.context.IsNull n → start.context.IsNull n
  loopMD : ∀ L, ¬ (P L ∧ N.getLoopID start L = none) →
    ∀ b ∈ N.getLoopLatches L, s.loopMD b = start.loopMD b
  loopID : ∀ A n, n < start.context.nodes.length → N.getLoopID s A = some n →
    N.getLoopID start A = some n
  allocated : ∀ i n, s.accessMD i = some n → n < s.context.nodes.length
  access : ∀ b, ∀ i ∈ N.accesses b, ∀ n, n < start.context.nodes.length →
    some (.node n) ∈ s.accessOperands i →
    some (.node n) ∈ start.accessOperands i ∨ Covered N P start b n
  accessNull : ∀ i n, start.context.IsNull n → s.accessMD i = some n →
    start.accessMD i = some n
  unmarked : ∀ b, ∀ i ∈ N.accesses b, (∀ L, P L → b ∉ N.blocks L) →
    s.accessMD i = start.accessMD i

theorem Attached.traces (h : Attached N start) : Traces N P start start where
  grows := Grows.refl N start
  extends_ := MDContext.Extends.refl _
  null _ hn := hn
  loopMD _ _ _ _ := rfl
  loopID _ _ _ hid := hid
  allocated := h.accessMD
  access _ _ _ _ _ hn := .inl hn
  accessNull _ _ _ hmd := hmd
  unmarked _ _ _ _ := rfl

/-! ### Loop IDs and references afterwards -/

/-- After visits in which the loops of a set are chosen. -/
structure Visited (N : LoopInfo Loop Block Inst) (P : Loop → Prop)
    (start s : LoopState Block Inst) : Prop extends Traces N P start s where
  parallel : ∀ L, P L → N.isAnnotatedParallel s L = true
  marked : ∀ L, P L → MarkedFor N start s L

section Afterwards

variable {U : Loop} {b : Block} {i : Inst} {n : Nat}

/-- A loop that got no new ID has the ID that it had. -/
theorem Traces.getLoopID_iff (h : Traces N P start s) (hattached : Attached N start)
    (hU : ¬ (P U ∧ N.getLoopID start U = none)) :
    N.getLoopID s U = some n ↔ N.getLoopID start U = some n := by
  constructor
  · intro hid
    obtain ⟨b, hb⟩ := List.exists_mem_of_ne_nil _ (LoopInfo.getLoopLatches_ne_nil (N := N) U)
    have hmd := (h.loopMD U hU b hb).symm.trans ((LoopInfo.getLoopID_eq_some.mp hid).1 b hb)
    exact h.loopID U n (hattached.loopMD U b hb n hmd) hid
  · exact h.grows.loopID U n

theorem Visited.access_iff (h : Visited N P start s) (hi : i ∈ N.accesses b)
    (hn : n < start.context.nodes.length) :
    some (.node n) ∈ s.accessOperands i ↔
      some (.node n) ∈ start.accessOperands i ∨ Covered N P start b n := by
  constructor
  · exact h.access b i hi n hn
  · rintro (hold | ⟨L, hL, hb, A, hA, hid⟩)
    · exact h.grows.access i _ hold
    · exact h.marked L hL A hA n hid b hb i hi

/-- `!{null}` stays where no loop of the set marks it away. -/
theorem Visited.accessMD_null_iff (h : Visited N P start s) (hi : i ∈ N.accesses b)
    (hnull : start.context.IsNull n) :
    s.accessMD i = some n ↔ start.accessMD i = some n ∧ ∀ L, P L → b ∉ N.blocks L := by
  constructor
  · refine fun hmd => ⟨h.accessNull i n hnull hmd, fun L hL hb => ?_⟩
    obtain ⟨m, -, hrefs⟩ := isAnnotatedParallel_iff.mp (h.parallel L hL)
    obtain ⟨md, hmd', hmem⟩ := mem_accessOperands.mp (hrefs b hb i hi)
    obtain rfl := Option.some.inj (hmd'.symm.trans hmd)
    rw [(hnull.extends_ h.extends_).operands] at hmem
    simp at hmem
  · rintro ⟨hmd, hout⟩
    rw [h.unmarked b i hi hout, hmd]

end Afterwards

/-! ### Steps -/

/-- A loop of the set gets a new loop ID. -/
theorem Traces.ensured (hapart : N.LatchesApart) (hfresh : ∀ n, ¬ start.context.IsNull n)
    (h : Traces N P start s) {L : Loop} (hL : P L) (hnone : N.getLoopID s L = none) {m : Nat}
    (hensured : Ensured N s L m s') : Traces N P start s' := by
  have hcreated := hensured.created
  have hextends : s.context.Extends s'.context :=
    hcreated.extends_ fun n hn => hfresh n (h.null n hn)
  have hnew : ¬ m < s.context.nodes.length := fun hlt =>
    hfresh m (h.null m (hcreated.isNull hlt))
  have hbefore : N.getLoopID start L = none := by
    cases hid : N.getLoopID start L with
    | none => rfl
    | some n =>
        rw [h.grows.loopID L n hid] at hnone
        cases hnone
  refine ⟨h.grows.trans (hensured.grows hapart hnone), h.extends_.trans hextends,
    fun n hn => h.null n (hcreated.null n hn).1, ?_, ?_, ?_, ?_,
    fun _ n hnull => absurd hnull (hfresh n), ?_⟩
  · intro U hU b hb
    have hother : b ∉ N.getLoopLatches L := by
      intro hbL
      obtain rfl := hapart L U b hbL hb
      exact hU ⟨hL, hbefore⟩
    rw [hensured.loopMD, if_neg hother]
    exact h.loopMD U hU b hb
  · intro A n hn hA
    have hlt := Nat.lt_of_lt_of_le hn h.extends_.length_le
    by_cases hAL : A = L
    · subst hAL
      rw [hensured.getLoopID, Option.some_inj] at hA
      exact absurd (hA ▸ hlt) hnew
    · obtain ⟨hattached, hself⟩ := LoopInfo.getLoopID_eq_some.mp hA
      refine h.loopID A n hn (LoopInfo.getLoopID_eq_some.mpr ⟨fun b hb => ?_, ?_⟩)
      · have hb' := hattached b hb
        rwa [hensured.loopMD, if_neg fun hbL => hAL (hapart A L b hb hbL)] at hb'
      · rwa [MDContext.IsLoopID, hextends.operands hlt] at hself
  · intro i n hn
    rw [hensured.accessMD] at hn
    exact Nat.lt_of_lt_of_le (h.allocated i n hn) hcreated.length_le
  · intro b i hi n hn hmem
    apply h.access b i hi n hn
    obtain ⟨md, hmd, hmem⟩ := mem_accessOperands.mp hmem
    rw [hensured.accessMD] at hmd
    rw [hextends.operands (h.allocated i md hmd)] at hmem
    exact mem_accessOperands.mpr ⟨md, hmd, hmem⟩
  · intro b i hi hP
    rw [hensured.accessMD]
    exact h.unmarked b i hi hP

variable [DecidableEq Inst]

/-- An access in a loop of the set is marked with IDs that cover its block. -/
theorem Traces.marked (h : Traces N P start s) {loopIDs : List (Option Metadata)} {L : Loop}
    {b : Block} {i : Inst} (hL : P L) (hb : b ∈ N.blocks L) (hi : i ∈ N.accesses b)
    (hsome : ∃ m, some m ∈ loopIDs)
    (hcovered : ∀ n, n < start.context.nodes.length → some (.node n) ∈ loopIDs →
      Covered N P start b n)
    (hmarked : Marked loopIDs s i s') : Traces N P start s' := by
  refine ⟨h.grows.trans hmarked.grows, h.extends_.trans hmarked.extends_,
    fun n hn => h.null n (hmarked.null hsome n hn), ?_, ?_, ?_, ?_, ?_, ?_⟩
  · intro U hU b hb
    rw [hmarked.loopMD]
    exact h.loopMD U hU b hb
  · intro A n hn hA
    obtain ⟨hattached, hself⟩ := LoopInfo.getLoopID_eq_some.mp hA
    refine h.loopID A n hn (LoopInfo.getLoopID_eq_some.mpr ⟨fun b hb => ?_, ?_⟩)
    · rw [← hmarked.loopMD]
      exact hattached b hb
    · rwa [MDContext.IsLoopID,
        hmarked.extends_.operands (Nat.lt_of_lt_of_le hn h.extends_.length_le)] at hself
  · intro j n hn
    by_cases hj : j = i
    · subst hj
      obtain ⟨m, hm, hlt⟩ := hmarked.allocated
      rw [hm] at hn
      rwa [← Option.some.inj hn]
    · rw [hmarked.other j hj] at hn
      exact Nat.lt_of_lt_of_le (h.allocated j n hn) hmarked.extends_.length_le
  · intro b' j hj n hn hmem
    by_cases hji : j = i
    · subst hji
      obtain rfl := N.block_unique b b' j hi hj
      rcases hmarked.of_mem (h.allocated j) _ hmem with hlisted | hold
      · exact .inr (hcovered n hn hlisted)
      · exact h.access b j hi n hn hold
    · apply h.access b' j hj n hn
      obtain ⟨md, hmd, hmem⟩ := mem_accessOperands.mp hmem
      rw [hmarked.other j hji] at hmd
      rw [hmarked.extends_.operands (h.allocated j md hmd)] at hmem
      exact mem_accessOperands.mpr ⟨md, hmd, hmem⟩
  · intro j n hnull hn
    by_cases hj : j = i
    · -- The new node lists an ID, so it is not `!{null}`.
      subst hj
      obtain ⟨m, hm⟩ := hsome
      obtain ⟨md, hmd, hmem⟩ := mem_accessOperands.mp (hmarked.mem _ (.inl hm))
      obtain rfl := Option.some.inj (hmd.symm.trans hn)
      rw [(hnull.extends_ (h.extends_.trans hmarked.extends_)).operands] at hmem
      simp at hmem
    · rw [hmarked.other j hj] at hn
      exact h.accessNull j n hnull hn
  · intro b' j hj hP
    have hji : j ≠ i := by
      rintro rfl
      obtain rfl := N.block_unique b b' j hi hj
      exact hP L hL hb
    rw [hmarked.other j hji]
    exact h.unmarked b' j hj hP

variable [DecidableEq Loop]

theorem Traces.markLoop (h : Traces N P start s) (parallelLoops : List Loop) {L : Loop}
    (hL : P L) (hid : ∃ n, N.getLoopID s L = some n) :
    Traces N P start (N.markLoop parallelLoops s L) := by
  have hsome : ∃ m, some m ∈ (N.enclosing L).map fun Q => (N.getLoopID s Q).map Metadata.node := by
    obtain ⟨n, hn⟩ := hid
    exact ⟨.node n, List.mem_map.mpr ⟨L, LoopInfo.mem_enclosing_self L, by rw [hn]; rfl⟩⟩
  have hlisted : ∀ b ∈ N.blocks L, ∀ n, n < start.context.nodes.length →
      some (.node n) ∈ (N.enclosing L).map (fun Q => (N.getLoopID s Q).map Metadata.node) →
      Covered N P start b n := by
    intro b hb n hn hmem
    obtain ⟨A, hA, hAid⟩ := List.mem_map.mp hmem
    obtain ⟨m, hm, hnode⟩ := Option.map_eq_some_iff.mp hAid
    obtain rfl := Metadata.node.inj hnode
    exact ⟨L, hL, hb, A, hA, h.loopID A m hn hm⟩
  refine List.foldlRecOn _ _ h fun s hs b hb => ?_
  split
  · exact hs
  · exact List.foldlRecOn _ _ hs fun s hs i hi =>
      hs.marked hL hb hi hsome (hlisted b hb) (markAccess_marked _ s i)

/-! ### Visits -/

section Visits

variable {order : PointerOrder Loop} {answer : Loop → Nat}

/-- No node of the beginning becomes a loop ID. -/
def NoneReused (N : LoopInfo Loop Block Inst) (P : Loop → Prop) (s : LoopState Block Inst) :
    Prop :=
  (∀ n, ¬ s.context.IsNull n) ∨ ∀ L, P L → ∃ n, N.getLoopID s L = some n

omit [DecidableEq Inst] in
theorem Traces.requestLoop (hapart : N.LatchesApart) (hnone : NoneReused N P start)
    {kind : OptimisticChoiceKind} {r : LoopState Block Inst × List Loop}
    (h : Traces N P start r.1) {L : Loop} (hL : Requested N kind answer L → P L) :
    Traces N P start (N.requestLoop 7 kind answer r L).1 := by
  by_cases hrequested : Requested N kind answer L
  · rw [requestLoop_of_requested hrequested]
    cases hid : N.getLoopID r.1 L with
    | some n =>
        rw [ensureLoopID_of_some hid]
        exact h
    | none =>
        obtain ⟨m, hensured⟩ := ensureLoopID_of_none hid
        cases hnone with
        | inl hfresh => exact h.ensured hapart hfresh (hL hrequested) hid hensured
        | inr hids =>
            obtain ⟨n, hn⟩ := hids L (hL hrequested)
            rw [h.grows.loopID L n hn] at hid
            cases hid
  · rw [requestLoop_of_not_requested hrequested]
    exact h

theorem Traces.annotateNest (hapart : N.LatchesApart) (hnone : NoneReused N P start)
    (h : Traces N P start s) {visit : OptimisticChoiceKind × Loop}
    (hP : ∀ L ∈ N.requestedIn answer visit, P L)
    (hok : N.annotateNest order 7 visit.1 answer s visit.2 = .ok s') : Traces N P start s' := by
  obtain ⟨kind, O⟩ := visit
  have hrequests : AfterRequests N kind answer _ (s, []) _ :=
    requestLoops_spec hapart (N.depthFirst O) (s, [])
  have htraces : Traces N P start
      ((N.depthFirst O).foldl (N.requestLoop 7 kind answer) (s, [])).1 := by
    refine List.foldlRecOn
      (motive := fun r : LoopState Block Inst × List Loop => Traces N P start r.1) _ _ h
      fun r hr L hL => ?_
    exact Traces.requestLoop hapart hnone hr fun hrequested =>
      hP L (List.mem_filter.mpr ⟨hL, decide_eq_true hrequested⟩)
  rw [LoopInfo.annotateNest] at hok
  generalize (N.depthFirst O).foldl (N.requestLoop 7 kind answer) (s, []) = r
    at hok hrequests htraces
  obtain ⟨s₁, requested⟩ := r
  have hset : ∀ L ∈ requested, P L ∧ ∃ n, N.getLoopID s₁ L = some n := by
    intro L hL
    obtain ⟨hmem, hchosen⟩ := ((hrequests.mem_iff L).mp hL).resolve_left (by simp)
    exact ⟨hP L (List.mem_filter.mpr ⟨hmem, decide_eq_true hchosen⟩),
      (hrequests.loopID L hL).resolve_left (by simp)⟩
  simp only at hok
  split at hok
  · obtain rfl := Except.ok.inj hok
    refine (List.foldlRecOn (motive := fun s => Traces N P start s ∧ Grows N s₁ s) _ _
      ⟨htraces, Grows.refl N s₁⟩ fun s hs L hL => ?_).1
    obtain ⟨hPL, n, hid⟩ := hset L ((order.perm kind O requested).mem_iff.mp hL)
    exact ⟨hs.1.markLoop _ hPL ⟨n, hs.2.loopID L n hid⟩, hs.2.trans (markLoop_grows _ s L)⟩
  · cases hok

theorem Traces.annotateVisits (hapart : N.LatchesApart) (hnone : NoneReused N P start)
    (h : Traces N P start s) {visits : List (OptimisticChoiceKind × Loop)}
    (hP : ∀ L, RequestedBy N answer visits L → P L)
    (hok : N.annotateVisits order answer visits s = .ok s') : Traces N P start s' := by
  rw [LoopInfo.annotateVisits] at hok
  induction visits generalizing s with
  | nil =>
      obtain rfl := Except.ok.inj hok
      exact h
  | cons visit visits ih =>
      rw [List.foldlM_cons, Except.bind_eq_ok_iff] at hok
      obtain ⟨s₁, hvisit, hvisits⟩ := hok
      have htraces := h.annotateNest hapart hnone
        (fun L hL => hP L ⟨visit, List.mem_cons_self, hL⟩) hvisit
      refine ih htraces (fun L hL => ?_) hvisits
      obtain ⟨visit', hvisit', hL⟩ := hL
      exact hP L ⟨visit', List.mem_cons_of_mem _ hvisit', hL⟩

theorem exists_annotateVisits (hapart : N.LatchesApart) (hattached : Attached N start)
    (order : PointerOrder Loop) (answer : Loop → Nat)
    (visits : List (OptimisticChoiceKind × Loop))
    (hnone : NoneReused N (RequestedBy N answer visits) start) :
    ∃ s, N.annotateVisits order answer visits start = .ok s ∧
      Visited N (RequestedBy N answer visits) start s := by
  obtain ⟨s, hok, -, hdone⟩ := annotateVisits_eq_ok order answer hapart visits start
  exact ⟨s, hok, hattached.traces.annotateVisits hapart hnone (fun _ hL => hL) hok,
    fun L hL => (hdone L hL).1, fun L hL => (hdone L hL).2⟩

end Visits

end Petospa
