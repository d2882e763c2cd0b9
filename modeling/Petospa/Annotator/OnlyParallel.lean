import Petospa.Annotator.Visits

/-!
# Only requested loops become parallel

The accesses of a chosen loop are marked with the IDs of all loops around it,
chosen or not. A loop that is not chosen keeps its ID, so it becomes parallel
when it had one and all its accesses are marked with it. It can also get an ID: the
first new loop ID is `!{null}`, if there is such a node, and where that was attached
it is a loop ID from then on. What an access refers to afterwards is what it
referred to before and the IDs of the loops around the chosen loops around it.
-/

namespace Petospa

open LoopState

variable {Loop Block Inst : Type} [DecidableEq Block]
variable {N : LoopInfo Loop Block Inst} {answer : Loop → Nat}
variable {start s s' : LoopState Block Inst}

/-! ### The first new loop ID -/

section FirstNew

variable (N : LoopInfo Loop Block Inst) (answer : Loop → Nat) (start : LoopState Block Inst)

/-- All loops that are chosen in a visit have an ID. -/
def LoopInfo.haveIDs (visit : OptimisticChoiceKind × Loop) : Bool :=
  (N.requestedIn answer visit).all fun L => (N.getLoopID start L).isSome

/-- The visits before the first one in which a loop gets a new ID. -/
def LoopInfo.earlier : List (OptimisticChoiceKind × Loop) :=
  N.visits.takeWhile (N.haveIDs answer start)

/-- This visit and those behind it. -/
def LoopInfo.later : List (OptimisticChoiceKind × Loop) :=
  N.visits.dropWhile (N.haveIDs answer start)

/-- The first chosen loop without an ID. -/
def LoopInfo.firstNew : Option Loop :=
  (N.visits.flatMap (N.requestedIn answer)).find? fun L => (N.getLoopID start L).isNone

end FirstNew

theorem haveIDs_eq_false_iff {visit : OptimisticChoiceKind × Loop} :
    N.haveIDs answer start visit = false ↔
      ∃ F, (N.requestedIn answer visit).find? (fun L => (N.getLoopID start L).isNone) = some F := by
  rw [← Option.isSome_iff_exists, List.find?_isSome, LoopInfo.haveIDs, List.all_eq_false]
  simp

/-- The first chosen loop without an ID is in the first of the later visits. -/
theorem firstNew_cases (N : LoopInfo Loop Block Inst) (answer : Loop → Nat)
    (start : LoopState Block Inst) :
    (N.firstNew answer start = none ∧ N.later answer start = []) ∨
      ∃ F visit visits, N.firstNew answer start = some F ∧
        N.later answer start = visit :: visits ∧
        (N.requestedIn answer visit).find? (fun L => (N.getLoopID start L).isNone) = some F := by
  rw [LoopInfo.firstNew, LoopInfo.later]
  induction N.visits with
  | nil => exact .inl ⟨rfl, rfl⟩
  | cons visit visits ih =>
      rw [List.flatMap_cons, List.find?_append]
      cases hids : N.haveIDs answer start visit with
      | true =>
          have hnone : (N.requestedIn answer visit).find?
              (fun L => (N.getLoopID start L).isNone) = none := by
            rw [List.find?_eq_none]
            intro L hL
            rw [Option.isNone_iff_eq_none]
            exact Option.isSome_iff_ne_none.mp (List.all_eq_true.mp hids L hL)
          rw [hnone, List.dropWhile_cons_of_pos hids]
          exact ih
      | false =>
          obtain ⟨F, hF⟩ := haveIDs_eq_false_iff.mp hids
          rw [hF, List.dropWhile_cons_of_neg (by simp [hids])]
          exact .inr ⟨F, visit, visits, rfl, rfl, hF⟩

theorem exists_getLoopID_of_earlier {L : Loop}
    (hL : RequestedBy N answer (N.earlier answer start) L) : ∃ n, N.getLoopID start L = some n := by
  obtain ⟨visit, hvisit, hL⟩ := hL
  have hids := List.all_eq_true.mp List.all_takeWhile visit hvisit
  exact Option.isSome_iff_exists.mp (List.all_eq_true.mp hids L hL)

theorem requestedBy_earlier_or_later (N : LoopInfo Loop Block Inst)
    (start : LoopState Block Inst) {L : Loop} : answer L ≠ 0 ↔
    RequestedBy N answer (N.earlier answer start) L ∨
      RequestedBy N answer (N.later answer start) L := by
  rw [← requestedBy_visits (N := N), RequestedBy, RequestedBy, RequestedBy, ← exists_or]
  simp only [← or_and_right, ← List.mem_append]
  rw [LoopInfo.earlier, LoopInfo.later, List.takeWhile_append_dropWhile]

/-! ### The new loop ID -/

section Ensured

variable {F A : Loop} {i : Inst} {m n : Nat}

/-- The loop has the new ID, and so have the loops that the node was attached to. -/
theorem Ensured.getLoopID_self_iff (h : Ensured N s F m s') (hapart : N.LatchesApart) :
    N.getLoopID s' A = some m ↔ A = F ∨ ∀ b ∈ N.getLoopLatches A, s.loopMD b = some m := by
  constructor
  · intro hid
    by_cases hAF : A = F
    · exact .inl hAF
    · refine .inr fun b hb => ?_
      have hattached := (LoopInfo.getLoopID_eq_some.mp hid).1 b hb
      rwa [h.loopMD, if_neg fun hbF => hAF (hapart A F b hb hbF)] at hattached
  · rintro (rfl | hlatches)
    · exact h.getLoopID
    · refine LoopInfo.getLoopID_eq_some.mpr ⟨fun b hb => ?_, h.created.isLoopID⟩
      rw [h.loopMD]
      split
      · rfl
      · exact hlatches b hb

theorem Ensured.getLoopID_iff (h : Ensured N s F m s') (hapart : N.LatchesApart)
    (hnone : N.getLoopID s F = none) (hn : n < s.context.nodes.length) (hne : n ≠ m) :
    N.getLoopID s' A = some n ↔ N.getLoopID s A = some n := by
  constructor
  · intro hid
    obtain ⟨hattached, hself⟩ := LoopInfo.getLoopID_eq_some.mp hid
    have hAF : A ≠ F := by
      rintro rfl
      rw [h.getLoopID] at hid
      exact hne (Option.some.inj hid).symm
    refine LoopInfo.getLoopID_eq_some.mpr ⟨fun b hb => ?_, ?_⟩
    · have hb' := hattached b hb
      rwa [h.loopMD, if_neg fun hbF => hAF (hapart A F b hb hbF)] at hb'
    · rwa [MDContext.IsLoopID, h.created.operands hn hne] at hself
  · exact (h.grows hapart hnone).loopID A n

theorem Ensured.accessOperands_iff (h : Ensured N s F m s')
    (hallocated : ∀ md, s.accessMD i = some md → md < s.context.nodes.length) :
    some (.node n) ∈ s'.accessOperands i ↔
      some (.node n) ∈ s.accessOperands i ∨ n = m ∧ s.accessMD i = some m := by
  constructor
  · intro hmem
    obtain ⟨md, hmd, hmem⟩ := mem_accessOperands.mp hmem
    rw [h.accessMD] at hmd
    by_cases hself : md = m
    · subst hself
      rw [h.created.operands_self, List.mem_singleton, Option.some_inj,
        Metadata.node.injEq] at hmem
      exact .inr ⟨hmem, hmd⟩
    · rw [h.created.operands (hallocated md hmd) hself] at hmem
      exact .inl (mem_accessOperands.mpr ⟨md, hmd, hmem⟩)
  · rintro (hold | ⟨rfl, hmd⟩)
    · exact h.accessOperands hold
    · refine mem_accessOperands.mpr ⟨n, by rw [h.accessMD, hmd], ?_⟩
      rw [h.created.operands_self]
      exact List.mem_singleton_self _

end Ensured

/-! ### In front of the later visits -/

/-- The state behind the earlier visits, and that with the new ID of a loop. -/
structure Prepared (N : LoopInfo Loop Block Inst) (P : Loop → Prop)
    (start s : LoopState Block Inst) (F : Loop) (m : Nat) (s' : LoopState Block Inst) : Prop where
  visited : Visited N P start s
  ids : ∀ L, P L → ∃ n, N.getLoopID start L = some n
  noID : N.getLoopID s F = none
  ensured : Ensured N s F m s'

section Prepared

variable {P : Loop → Prop} {F A : Loop} {m n z : Nat}

theorem not_new (hids : ∀ L, P L → ∃ n, N.getLoopID start L = some n) (L : Loop) :
    ¬ (P L ∧ N.getLoopID start L = none) := by
  rintro ⟨hL, hnone⟩
  obtain ⟨n, hn⟩ := hids L hL
  rw [hn] at hnone
  cases hnone

theorem Prepared.loopMD (h : Prepared N P start s F m s') {b : Block}
    (hb : b ∈ N.getLoopLatches A) : s.loopMD b = start.loopMD b :=
  h.visited.loopMD A (not_new h.ids A) b hb

theorem Prepared.length_le (h : Prepared N P start s F m s') :
    start.context.nodes.length ≤ s.context.nodes.length := h.visited.extends_.length_le

theorem Prepared.attached (h : Prepared N P start s F m s') (hattached : Attached N start) :
    Attached N s' where
  loopMD L b hb n hmd := by
    rw [h.ensured.loopMD] at hmd
    split at hmd
    · exact Option.some.inj hmd ▸ h.ensured.created.lt_length
    · rw [h.loopMD hb] at hmd
      exact Nat.lt_of_lt_of_le (hattached.loopMD L b hb n hmd)
        (Nat.le_trans h.length_le h.ensured.created.length_le)
  accessMD i n hmd := by
    rw [h.ensured.accessMD] at hmd
    exact Nat.lt_of_lt_of_le (h.visited.allocated i n hmd) h.ensured.created.length_le

theorem Prepared.not_isNull (h : Prepared N P start s F m s')
    (huniqued : start.context.Uniqued) (n : Nat) : ¬ s'.context.IsNull n :=
  h.ensured.created.not_isNull (fun n k hn hk =>
    huniqued n k [none] (h.visited.null n hn) (h.visited.null k hk)) n

/-- The new ID is `!{null}`, if there was such a node. -/
theorem Prepared.eq_of_isNull (h : Prepared N P start s F m s')
    (huniqued : start.context.Uniqued) (hz : start.context.IsNull z) : z = m := by
  have hlt := h.ensured.created.reused_iff.mpr ⟨z, hz.extends_ h.visited.extends_⟩
  exact huniqued z m [none] hz (h.visited.null m (h.ensured.created.isNull hlt))

theorem Prepared.isNull_of_lt (h : Prepared N P start s F m s')
    (hm : m < start.context.nodes.length) : start.context.IsNull m :=
  h.visited.null m (h.ensured.created.isNull (Nat.lt_of_lt_of_le hm h.length_le))

theorem Prepared.getLoopID_iff (h : Prepared N P start s F m s') (hapart : N.LatchesApart)
    (hattached : Attached N start) (hn : n < start.context.nodes.length) (hne : n ≠ m) :
    N.getLoopID s' A = some n ↔ N.getLoopID start A = some n :=
  (h.ensured.getLoopID_iff hapart h.noID (Nat.lt_of_lt_of_le hn h.length_le) hne).trans
    (h.visited.getLoopID_iff hattached (not_new h.ids A))

theorem Prepared.getLoopID_self_iff (h : Prepared N P start s F m s')
    (hapart : N.LatchesApart) : N.getLoopID s' A = some m ↔
      A = F ∨ ∀ b ∈ N.getLoopLatches A, start.loopMD b = some m := by
  rw [h.ensured.getLoopID_self_iff hapart]
  exact or_congr_right (forall₂_congr fun b hb => by rw [h.loopMD hb])

end Prepared

/-! ### What the annotation leaves -/

/-- An access refers to `!{null}`, or has it attached until it becomes a loop ID. -/
def RefersToNull (N : LoopInfo Loop Block Inst) (answer : Loop → Nat)
    (start : LoopState Block Inst) (b : Block) (i : Inst) (z : Nat) : Prop :=
  some (.node z) ∈ start.accessOperands i ∨ start.accessMD i = some z ∧
    ∀ L, RequestedBy N answer (N.earlier answer start) L → b ∉ N.blocks L

/-- A loop that is chosen when `!{null}` has become the ID of `F`, or later, lies in
a loop, or is one, that has this ID then. -/
def CoveredLater (N : LoopInfo Loop Block Inst) (answer : Loop → Nat)
    (start : LoopState Block Inst) (F : Loop) (b : Block) (z : Nat) : Prop :=
  ∃ L, RequestedBy N answer (N.later answer start) L ∧ b ∈ N.blocks L ∧
    ∃ A ∈ N.enclosing L, A = F ∨ ∀ b ∈ N.getLoopLatches A, start.loopMD b = some z

/-- The IDs of the loops that are not chosen, and what accesses refer to. -/
structure LoopsAnnotated (N : LoopInfo Loop Block Inst) (answer : Loop → Nat)
    (start final : LoopState Block Inst) : Prop where
  loopID_iff : ∀ U n, answer U = 0 → (N.getLoopID final U = some n ↔
    N.getLoopID start U = some n ∨ (∃ F, N.firstNew answer start = some F) ∧
      start.context.IsNull n ∧ ∀ b ∈ N.getLoopLatches U, start.loopMD b = some n)
  access_iff : ∀ b, ∀ i ∈ N.accesses b, ∀ n, start.context.IsLoopID n →
    (some (.node n) ∈ final.accessOperands i ↔
      some (.node n) ∈ start.accessOperands i ∨ Covered N (fun L => answer L ≠ 0) start b n)
  null_iff : ∀ F z, N.firstNew answer start = some F → start.context.IsNull z →
    ∀ b, ∀ i ∈ N.accesses b, (some (.node z) ∈ final.accessOperands i ↔
      RefersToNull N answer start b i z ∨ CoveredLater N answer start F b z)

theorem covered_congr {P Q : Loop → Prop} (h : ∀ L, P L ↔ Q L) {b : Block} {n : Nat} :
    Covered N P s b n ↔ Covered N Q s b n := by
  simp only [Covered, h]

theorem covered_or {P Q : Loop → Prop} {b : Block} {n : Nat} :
    Covered N (fun L => P L ∨ Q L) s b n ↔ Covered N P s b n ∨ Covered N Q s b n := by
  simp only [Covered, or_and_right, exists_or]

/-- No loop gets a new ID. -/
theorem Visited.annotated {final : LoopState Block Inst} (hattached : Attached N start)
    (hfirst : N.firstNew answer start = none) (hlater : N.later answer start = [])
    (h : Visited N (RequestedBy N answer (N.earlier answer start)) start final) :
    LoopsAnnotated N answer start final := by
  have hchosen : ∀ L, RequestedBy N answer (N.earlier answer start) L ↔ answer L ≠ 0 := by
    intro L
    rw [requestedBy_earlier_or_later N start, hlater]
    simp [RequestedBy]
  refine ⟨fun U n _ => ?_, fun b i hi n hid => ?_, fun F z hF => ?_⟩
  · rw [h.getLoopID_iff hattached (not_new (fun _ => exists_getLoopID_of_earlier) U), hfirst]
    simp
  · rw [h.access_iff hi hid.lt_length, covered_congr hchosen]
  · rw [hfirst] at hF
    cases hF

section NewID

variable {F : Loop} {m : Nat} {final : LoopState Block Inst}

theorem Prepared.loopID_iff (hapart : N.LatchesApart) (hattached : Attached N start)
    (huniqued : start.context.Uniqued) (hchosen : answer F ≠ 0)
    (h : Prepared N (RequestedBy N answer (N.earlier answer start)) start s F m s')
    (hfinal : Visited N (RequestedBy N answer (N.later answer start)) s' final) {U : Loop}
    (hU : answer U = 0) {n : Nat} :
    N.getLoopID final U = some n ↔ N.getLoopID start U = some n ∨
      start.context.IsNull n ∧ ∀ b ∈ N.getLoopLatches U, start.loopMD b = some n := by
  have hkept : ¬ (RequestedBy N answer (N.later answer start) U ∧ N.getLoopID s' U = none) :=
    fun hnew => (requestedBy_earlier_or_later N start).mpr (.inr hnew.1) hU
  rw [hfinal.getLoopID_iff (h.attached hattached) hkept]
  have hallocated : (∀ b ∈ N.getLoopLatches U, start.loopMD b = some n) →
      n < start.context.nodes.length := by
    intro hlatches
    obtain ⟨b, hb⟩ := List.exists_mem_of_ne_nil _ (LoopInfo.getLoopLatches_ne_nil (N := N) U)
    exact hattached.loopMD U b hb n (hlatches b hb)
  have hUF : U ≠ F := fun hsame => hchosen (hsame ▸ hU)
  by_cases hnew : n = m
  · subst hnew
    rw [h.getLoopID_self_iff hapart]
    constructor
    · intro hlatches
      have hlatches := hlatches.resolve_left hUF
      exact .inr ⟨h.isNull_of_lt (hallocated hlatches), hlatches⟩
    · rintro (hid | ⟨-, hlatches⟩)
      · exact .inr (LoopInfo.getLoopID_eq_some.mp hid).1
      · exact .inr hlatches
  · constructor
    · intro hid
      have hlatches : ∀ b ∈ N.getLoopLatches U, start.loopMD b = some n := by
        intro b hb
        have hafter := (LoopInfo.getLoopID_eq_some.mp hid).1 b hb
        rw [h.ensured.loopMD, if_neg fun hbF => hUF (hapart U F b hb hbF)] at hafter
        rwa [h.loopMD hb] at hafter
      exact .inl ((h.getLoopID_iff hapart hattached (hallocated hlatches) hnew).mp hid)
    · rintro (hid | ⟨hnull, -⟩)
      · have hself := (LoopInfo.getLoopID_eq_some.mp hid).2
        exact (h.getLoopID_iff hapart hattached hself.lt_length hnew).mpr hid
      · exact absurd (h.eq_of_isNull huniqued hnull) hnew

/-- What an access refers to after the later visits, of the nodes of the beginning. -/
theorem Prepared.access_iff
    (h : Prepared N (RequestedBy N answer (N.earlier answer start)) start s F m s')
    (hfinal : Visited N (RequestedBy N answer (N.later answer start)) s' final) {b : Block}
    {i : Inst} (hi : i ∈ N.accesses b) {n : Nat} (hn : n < start.context.nodes.length) :
    some (.node n) ∈ final.accessOperands i ↔
      ((some (.node n) ∈ start.accessOperands i ∨
          Covered N (RequestedBy N answer (N.earlier answer start)) start b n) ∨
        n = m ∧ s.accessMD i = some m) ∨
      Covered N (RequestedBy N answer (N.later answer start)) s' b n := by
  have hlt := Nat.lt_of_lt_of_le hn (Nat.le_trans h.length_le h.ensured.created.length_le)
  rw [hfinal.access_iff hi hlt, h.ensured.accessOperands_iff (h.visited.allocated i),
    h.visited.access_iff hi hn]

/-- A loop gets a new ID. -/
theorem Prepared.annotated (hapart : N.LatchesApart) (hattached : Attached N start)
    (huniqued : start.context.Uniqued) (hfirst : N.firstNew answer start = some F)
    (hchosen : answer F ≠ 0)
    (h : Prepared N (RequestedBy N answer (N.earlier answer start)) start s F m s')
    (hfinal : Visited N (RequestedBy N answer (N.later answer start)) s' final) :
    LoopsAnnotated N answer start final := by
  refine ⟨fun U n hU => ?_, fun b i hi n hid => ?_, fun F' z hF hnull b i hi => ?_⟩
  · rw [h.loopID_iff hapart hattached huniqued hchosen hfinal hU, hfirst]
    simp
  · have hne : n ≠ m := by
      have hself : s.context.IsLoopID n := by
        rwa [MDContext.IsLoopID, h.visited.extends_.operands hid.lt_length]
      exact (h.ensured.created.of_isLoopID hself).1
    have hsame : Covered N (RequestedBy N answer (N.later answer start)) s' b n ↔
        Covered N (RequestedBy N answer (N.later answer start)) start b n := by
      simp only [Covered, h.getLoopID_iff hapart hattached hid.lt_length hne]
    rw [h.access_iff hfinal hi hid.lt_length, hsame,
      covered_congr fun L => requestedBy_earlier_or_later N start, covered_or]
    simp only [hne, false_and, or_false, or_assoc]
  · obtain rfl := Option.some.inj (hfirst.symm.trans hF)
    obtain rfl := h.eq_of_isNull huniqued hnull
    have hnot : ¬ Covered N (RequestedBy N answer (N.earlier answer start)) start b z := by
      rintro ⟨L, -, -, A, -, hid⟩
      have hself := (LoopInfo.getLoopID_eq_some.mp hid).2
      rw [MDContext.IsLoopID, hnull.operands] at hself
      cases hself
    have hcovered : Covered N (RequestedBy N answer (N.later answer start)) s' b z ↔
        CoveredLater N answer start F b z := by
      simp only [Covered, CoveredLater, h.getLoopID_self_iff hapart]
    rw [h.access_iff hfinal hi hnull.lt_length, h.visited.accessMD_null_iff hi hnull, hcovered,
      RefersToNull]
    simp only [hnot, or_false, true_and]

end NewID

variable [DecidableEq Loop]

/-- Whether a loop without an ID gets it now or in the visit makes no difference, if
it is the first to get one. -/
theorem foldl_requestLoop_ensureLoopID {N : LoopInfo Loop Block Inst} (hapart : N.LatchesApart)
    {kind : OptimisticChoiceKind} {F : Loop} {ls : List Loop}
    (hfirst : (ls.filter fun L => Requested N kind answer L).find?
      (fun L => (N.getLoopID s L).isNone) = some F) (requested : List Loop) :
    ls.foldl (N.requestLoop 7 kind answer) (s, requested) =
      ls.foldl (N.requestLoop 7 kind answer) (N.ensureLoopID s F, requested) := by
  induction ls generalizing requested with
  | nil => cases hfirst
  | cons L ls ih =>
      rw [List.foldl_cons, List.foldl_cons]
      by_cases hrequested : Requested N kind answer L
      · rw [List.filter_cons, if_pos (decide_eq_true hrequested), List.find?_cons] at hfirst
        rw [requestLoop_of_requested hrequested, requestLoop_of_requested hrequested]
        cases hid : N.getLoopID s L with
        | none =>
            rw [hid] at hfirst
            obtain rfl := Option.some.inj hfirst
            obtain ⟨n, hn⟩ := getLoopID_ensureLoopID (N := N) s L
            rw [ensureLoopID_of_some hn]
        | some n =>
            rw [hid] at hfirst
            rw [ensureLoopID_of_some hid,
              ensureLoopID_of_some ((ensureLoopID_grows hapart s F).loopID L n hid)]
            exact ih hfirst _
      · rw [List.filter_cons, if_neg (by simpa using hrequested)] at hfirst
        rw [requestLoop_of_not_requested hrequested, requestLoop_of_not_requested hrequested]
        exact ih hfirst requested

theorem annotateNest_ensureLoopID [DecidableEq Inst] {N : LoopInfo Loop Block Inst}
    (hapart : N.LatchesApart) (order : PointerOrder Loop) {visit : OptimisticChoiceKind × Loop}
    {F : Loop} (hfirst : (N.requestedIn answer visit).find?
      (fun L => (N.getLoopID s L).isNone) = some F) :
    N.annotateNest order 7 visit.1 answer s visit.2 =
      N.annotateNest order 7 visit.1 answer (N.ensureLoopID s F) visit.2 := by
  rw [LoopInfo.annotateNest, LoopInfo.annotateNest, foldl_requestLoop_ensureLoopID hapart hfirst]

/-- The annotation meets no assertion, and this is what it leaves. -/
theorem exists_annotateAllLoops [DecidableEq Inst] {N : LoopInfo Loop Block Inst}
    (hapart : N.LatchesApart) (order : PointerOrder Loop) (answer : Loop → Nat)
    (hattached : Attached N start) (huniqued : start.context.Uniqued) :
    ∃ final, N.annotateAllLoops order 7 answer start = .ok final ∧
      LoopsAnnotated N answer start final := by
  have hids : ∀ L, RequestedBy N answer (N.earlier answer start) L →
      ∃ n, N.getLoopID start L = some n := fun _ => exists_getLoopID_of_earlier
  obtain ⟨s, hearlier, hvisited⟩ :=
    exists_annotateVisits hapart hattached order answer (N.earlier answer start) (.inr hids)
  have hsplit : N.annotateAllLoops order 7 answer start =
      N.annotateVisits order answer (N.later answer start) s := by
    rw [annotateAllLoops_eq, LoopInfo.annotateVisits, ← List.takeWhile_append_dropWhile
      (p := N.haveIDs answer start) (l := N.visits), List.foldlM_append]
    exact congrArg (· >>= _) hearlier
  have hsame : ∀ L, N.getLoopID s L = N.getLoopID start L := fun L =>
    Option.ext fun n => hvisited.getLoopID_iff hattached (not_new hids L)
  rcases firstNew_cases N answer start with
    ⟨hfirst, hlater⟩ | ⟨F, visit, visits, hfirst, hlater, hF⟩
  · rw [hlater] at hsplit
    exact ⟨s, hsplit, hvisited.annotated hattached hfirst hlater⟩
  · have hnone : N.getLoopID s F = none := by
      rw [hsame]
      simpa using List.find?_some hF
    have hchosen : answer F ≠ 0 :=
      (of_decide_eq_true (List.mem_filter.mp (List.mem_of_find?_eq_some hF)).2).2
    obtain ⟨m, hensured⟩ := ensureLoopID_of_none hnone
    have hprepared : Prepared N (RequestedBy N answer (N.earlier answer start)) start s F m
        (N.ensureLoopID s F) := ⟨hvisited, hids, hnone, hensured⟩
    obtain ⟨final, hok, hfinal⟩ := exists_annotateVisits hapart (hprepared.attached hattached)
      order answer (N.later answer start) (.inl (hprepared.not_isNull huniqued))
    refine ⟨final, ?_, hprepared.annotated hapart hattached huniqued hfirst hchosen hfinal⟩
    rw [hsplit, ← hok, hlater, LoopInfo.annotateVisits, LoopInfo.annotateVisits, List.foldlM_cons,
      List.foldlM_cons, annotateNest_ensureLoopID hapart order (by simpa only [hsame] using hF)]

/-! ### The loops that become parallel -/

/-- A loop that is not chosen and was not parallel is not parallel afterwards. -/
def OnlyRequested [DecidableEq Inst] (N : LoopInfo Loop Block Inst) (order : PointerOrder Loop)
    (answer : Loop → Nat) (start : LoopState Block Inst) : Prop :=
  ∃ final, N.annotateAllLoops order 7 answer start = .ok final ∧
    ∀ U, answer U = 0 → N.isAnnotatedParallel start U = false →
      N.isAnnotatedParallel final U = false

/-- What a loop that is not chosen and was not parallel has to have. -/
structure AccessUncovered (N : LoopInfo Loop Block Inst) (answer : Loop → Nat)
    (start : LoopState Block Inst) : Prop where
  /-- If it has an ID: an access that does not refer to the ID and that no chosen loop covers. -/
  loopID : ∀ U n, answer U = 0 → N.isAnnotatedParallel start U = false →
    N.getLoopID start U = some n → ∃ b ∈ N.blocks U, ∃ i ∈ N.accesses b,
      some (.node n) ∉ start.accessOperands i ∧ ¬ Covered N (fun L => answer L ≠ 0) start b n
  /-- If `!{null}` is attached to its latches and becomes the first new loop ID: an access
  that does not refer to the node and that no loop covers that is chosen then or later. -/
  null : ∀ F z, N.firstNew answer start = some F → start.context.IsNull z →
    ∀ U, answer U = 0 → (∀ b ∈ N.getLoopLatches U, start.loopMD b = some z) →
      ∃ b ∈ N.blocks U, ∃ i ∈ N.accesses b,
        ¬ RefersToNull N answer start b i z ∧ ¬ CoveredLater N answer start F b z

/-- Only requested loops become parallel just when every other loop that has an ID,
or gets one with `!{null}`, has an access that nothing covers. -/
theorem onlyRequested_iff [DecidableEq Inst] (N : LoopInfo Loop Block Inst)
    (hapart : N.LatchesApart) (order : PointerOrder Loop) (answer : Loop → Nat)
    {start : LoopState Block Inst} (hattached : Attached N start)
    (huniqued : start.context.Uniqued) :
    OnlyRequested N order answer start ↔ AccessUncovered N answer start := by
  obtain ⟨final, hok, hannotated⟩ :=
    exists_annotateAllLoops hapart order answer hattached huniqued
  constructor
  · rintro ⟨final', hok', honly⟩
    obtain rfl := Except.ok.inj (hok.symm.trans hok')
    -- A loop with this ID would be parallel without such an access.
    have hexists : ∀ U n, answer U = 0 → N.isAnnotatedParallel start U = false →
        N.getLoopID final U = some n → ∃ b ∈ N.blocks U, ∃ i ∈ N.accesses b,
          some (.node n) ∉ final.accessOperands i := by
      intro U n hU hbefore hid
      by_contra hall
      push Not at hall
      have hparallel := isAnnotatedParallel_iff.mpr ⟨n, hid, hall⟩
      rw [honly U hU hbefore] at hparallel
      cases hparallel
    constructor
    · intro U n hU hbefore hid
      obtain ⟨b, hb, i, hi, href⟩ :=
        hexists U n hU hbefore ((hannotated.loopID_iff U n hU).mpr (.inl hid))
      rw [hannotated.access_iff b i hi n (LoopInfo.getLoopID_eq_some.mp hid).2, not_or] at href
      exact ⟨b, hb, i, hi, href⟩
    · intro F z hF hnull U hU hlatches
      have hbefore : N.isAnnotatedParallel start U = false := by
        rw [← Bool.not_eq_true, isAnnotatedParallel_iff]
        rintro ⟨n, hid, -⟩
        obtain ⟨hattached', hself⟩ := LoopInfo.getLoopID_eq_some.mp hid
        obtain ⟨b, hb⟩ := List.exists_mem_of_ne_nil _ (LoopInfo.getLoopLatches_ne_nil (N := N) U)
        obtain rfl := Option.some.inj ((hlatches b hb).symm.trans (hattached' b hb))
        rw [MDContext.IsLoopID, hnull.operands] at hself
        cases hself
      obtain ⟨b, hb, i, hi, href⟩ := hexists U z hU hbefore
        ((hannotated.loopID_iff U z hU).mpr (.inr ⟨⟨F, hF⟩, hnull, hlatches⟩))
      rw [hannotated.null_iff F z hF hnull b i hi, not_or] at href
      exact ⟨b, hb, i, hi, href⟩
  · intro huncovered
    refine ⟨final, hok, fun U hU hbefore => ?_⟩
    rw [← Bool.not_eq_true]
    intro hparallel
    obtain ⟨n, hid, hrefs⟩ := isAnnotatedParallel_iff.mp hparallel
    rcases (hannotated.loopID_iff U n hU).mp hid with hid | ⟨⟨F, hF⟩, hnull, hlatches⟩
    · obtain ⟨b, hb, i, hi, href, hnot⟩ := huncovered.loopID U n hU hbefore hid
      have hself := (LoopInfo.getLoopID_eq_some.mp hid).2
      exact ((hannotated.access_iff b i hi n hself).mp (hrefs b hb i hi)).elim href hnot
    · obtain ⟨b, hb, i, hi, href, hnot⟩ := huncovered.null F n hF hnull U hU hlatches
      exact ((hannotated.null_iff F n hF hnull b i hi).mp (hrefs b hb i hi)).elim href hnot

/-! ### An outer loop with an unroll pragma -/

/-- The outer loop has a loop ID with a hint. -/
def unrolledOuter : LoopState (Fin 3) (Fin 1) where
  context := ⟨[⟨[some (.node 0), some (.node 1)], false⟩, ⟨[some (.leaf 0)], true⟩]⟩
  loopMD b := if b.val = 2 then some 0 else none
  accessMD _ := none

theorem unrolledOuter_attached : Attached twoLoops unrolledOuter where
  loopMD := by decide
  accessMD := by
    intro i n hn
    cases hn

theorem unrolledOuter_uniqued : unrolledOuter.context.Uniqued := by
  intro n m ops hn hm
  match n, m with
  | 1, 1 => rfl
  | 0, _ => cases hn
  | _ + 2, _ => cases hn
  | _, 0 => cases hm
  | _, _ + 2 => cases hm

theorem onlyRequested_iff_twoLoops :
    OnlyRequested twoLoops (insertionOrder (Fin 2)) chooseInner unrolledOuter ↔
      AccessUncovered twoLoops chooseInner unrolledOuter :=
  onlyRequested_iff twoLoops twoLoops_latchesApart (insertionOrder (Fin 2)) chooseInner
    unrolledOuter_attached unrolledOuter_uniqued

/-- The only access lies in the inner loop and is marked with the ID of the outer one. -/
theorem not_onlyRequested :
    ¬ OnlyRequested twoLoops (insertionOrder (Fin 2)) chooseInner unrolledOuter := by
  rintro ⟨final, hok, honly⟩
  have hparallel : (twoLoops.annotateAllLoops (insertionOrder (Fin 2)) 7 chooseInner
      unrolledOuter).map (fun s => twoLoops.isAnnotatedParallel s 0) = .ok true := by decide
  rw [hok] at hparallel
  have hafter : twoLoops.isAnnotatedParallel final 0 = true := Except.ok.inj hparallel
  rw [honly 0 (by decide) (by decide)] at hafter
  cases hafter

/-- `!{null}` at the latch of the outer loop becomes the ID of both loops. -/
example : (twoLoops.annotateAllLoops (insertionOrder (Fin 2)) 7 chooseInner
    ⟨⟨[⟨[none], true⟩]⟩, fun b => if b.val = 2 then some 0 else none, fun _ => none⟩).map
      (fun s => twoLoops.isAnnotatedParallel s 0) = .ok true := by decide

end Petospa
