import Petospa.Annotator.History

/-!
# Metadata nodes

A context holds the nodes that were made, a reference is an index into it. A
uniqued node is found again by its operands; only a node that was made to refer
to itself ever changes, and it is distinct from then on.
-/

namespace Petospa

/-- A metadata operand other than null: a node, or a string or constant. -/
inductive Metadata where
  | node (n : Nat)
  | leaf (n : Nat)
  deriving DecidableEq

structure MDNode where
  operands : List (Option Metadata)
  uniqued : Bool
  deriving DecidableEq

structure MDContext where
  nodes : List MDNode

namespace MDContext

/-- The operands of a node. -/
def operands (ctx : MDContext) (n : Nat) : List (Option Metadata) :=
  match ctx.nodes[n]? with
  | none => []
  | some node => node.operands

/-- `MDNode::get`. -/
def get (ctx : MDContext) (ops : List (Option Metadata)) : Nat × MDContext :=
  match ctx.nodes.findIdx? fun node => node.uniqued && node.operands = ops with
  | some n => (n, ctx)
  | none => (ctx.nodes.length, ⟨ctx.nodes ++ [⟨ops, true⟩]⟩)

/-- `N->replaceOperandWith(0, N)`: a self-reference drops uniquing. -/
def replaceWithSelf (ctx : MDContext) (n : Nat) : MDContext :=
  ⟨ctx.nodes.modify n fun node => ⟨node.operands.set 0 (some (.node n)), false⟩⟩

/-- The first operand refers to the node itself. -/
def IsLoopID (ctx : MDContext) (n : Nat) : Prop := (ctx.operands n).head? = some (some (.node n))

instance (ctx : MDContext) (n : Nat) : Decidable (ctx.IsLoopID n) :=
  inferInstanceAs (Decidable (_ = _))

def getOrSelfReference (ctx : MDContext) (ops : List (Option Metadata)) : Nat × MDContext :=
  match ops with
  | some (.node n) :: _ => if ctx.operands n = ops then (n, ctx) else ctx.get ops
  | _ => ctx.get ops

/-- `MDNode::concatenate` of two nodes; the operands go through a set vector. -/
def concatenate (ctx : MDContext) (a b : Nat) : Nat × MDContext :=
  ctx.getOrSelfReference ((ctx.operands a ++ ctx.operands b).foldl number [])

/-! ### What is kept -/

/-- The nodes of a context stay as they are in another. -/
structure Extends (ctx ctx' : MDContext) : Prop where
  length_le : ctx.nodes.length ≤ ctx'.nodes.length
  nodes : ∀ n, n < ctx.nodes.length → ctx'.nodes[n]? = ctx.nodes[n]?

/-- A uniqued node of one null operand, `!{null}`. -/
def IsNull (ctx : MDContext) (n : Nat) : Prop := ctx.nodes[n]? = some ⟨[none], true⟩

instance (ctx : MDContext) (n : Nat) : Decidable (ctx.IsNull n) :=
  inferInstanceAs (Decidable (_ = _))

/-- Uniqued nodes with the same operands are one. -/
def Uniqued (ctx : MDContext) : Prop :=
  ∀ (n m : Nat) (ops : List (Option Metadata)), ctx.nodes[n]? = some ⟨ops, true⟩ →
    ctx.nodes[m]? = some ⟨ops, true⟩ → n = m

variable {ctx ctx' ctx'' : MDContext} {ops : List (Option Metadata)} {n : Nat}

theorem Extends.refl (ctx : MDContext) : ctx.Extends ctx := ⟨Nat.le_refl _, fun _ _ => rfl⟩

theorem Extends.trans (h : ctx.Extends ctx') (h' : ctx'.Extends ctx'') : ctx.Extends ctx'' where
  length_le := Nat.le_trans h.length_le h'.length_le
  nodes n hn := (h'.nodes n (Nat.lt_of_lt_of_le hn h.length_le)).trans (h.nodes n hn)

theorem operands_congr (h : ctx'.nodes[n]? = ctx.nodes[n]?) : ctx'.operands n = ctx.operands n := by
  rw [operands, operands, h]

theorem Extends.operands (h : ctx.Extends ctx') (hn : n < ctx.nodes.length) :
    ctx'.operands n = ctx.operands n :=
  operands_congr (h.nodes n hn)

theorem IsNull.operands (h : ctx.IsNull n) : ctx.operands n = [none] := by
  rw [MDContext.operands, show ctx.nodes[n]? = _ from h]

theorem IsNull.lt_length (h : ctx.IsNull n) : n < ctx.nodes.length :=
  (List.getElem?_eq_some_iff.mp h).1

theorem IsNull.extends_ (h : ctx.IsNull n) (hextends : ctx.Extends ctx') : ctx'.IsNull n :=
  (hextends.nodes n h.lt_length).trans h

theorem operands_of_length_le (hn : ctx.nodes.length ≤ n) : ctx.operands n = [] := by
  rw [operands, List.getElem?_eq_none hn]

theorem lt_length_of_mem_operands {m : Option Metadata} (h : m ∈ ctx.operands n) :
    n < ctx.nodes.length := by
  rw [← Nat.not_le]
  intro hle
  rw [operands_of_length_le hle] at h
  cases h

theorem IsLoopID.lt_length (h : ctx.IsLoopID n) : n < ctx.nodes.length :=
  lt_length_of_mem_operands (List.mem_of_head? h)

theorem append_singleton_cases {α : Type*} {l : List α} {x y : α} {n : Nat}
    (h : (l ++ [x])[n]? = some y) : l[n]? = some y ∨ n = l.length ∧ x = y := by
  by_cases hn : n < l.length
  · rw [List.getElem?_append_left hn] at h
    exact .inl h
  · rw [List.getElem?_append_right (Nat.not_lt.mp hn)] at h
    obtain ⟨hzero, hx⟩ := List.getElem?_eq_some_iff.mp h
    rw [List.length_singleton] at hzero
    refine .inr ⟨by omega, ?_⟩
    simpa using hx

/-- A node that was looked up by its operands has these, and no other node changes. -/
structure Got (ctx : MDContext) (ops : List (Option Metadata)) (r : Nat × MDContext) : Prop where
  extends_ : ctx.Extends r.2
  lt_length : r.1 < r.2.nodes.length
  operands : r.2.operands r.1 = ops
  null : ops ≠ [none] → ∀ n, r.2.IsNull n → ctx.IsNull n

theorem get_got (ctx : MDContext) (ops : List (Option Metadata)) : Got ctx ops (ctx.get ops) := by
  cases hfound : ctx.nodes.findIdx? fun node => node.uniqued && node.operands = ops with
  | some n =>
      obtain ⟨hlt, hnode, -⟩ := List.findIdx?_eq_some_iff_getElem.mp hfound
      rw [Bool.and_eq_true, decide_eq_true_eq] at hnode
      simp only [MDContext.get, hfound]
      refine ⟨Extends.refl ctx, hlt, ?_, fun _ _ hnull => hnull⟩
      rw [MDContext.operands, List.getElem?_eq_getElem hlt]
      exact hnode.2
  | none =>
      simp only [MDContext.get, hfound]
      refine ⟨⟨by simp, fun n hn => List.getElem?_append_left hn⟩, by simp, ?_, ?_⟩
      · rw [MDContext.operands, List.getElem?_append_right (Nat.le_refl _), Nat.sub_self]
        rfl
      · intro hne n hnull
        rcases append_singleton_cases hnull with hold | ⟨-, hnew⟩
        · exact hold
        · exact absurd (congrArg MDNode.operands hnew) hne

/-- The self-reference that is returned instead of a new node looks like it. -/
theorem getOrSelfReference_got (ctx : MDContext) (ops : List (Option Metadata)) :
    Got ctx ops (ctx.getOrSelfReference ops) := by
  unfold getOrSelfReference
  split
  · rename_i n rest
    by_cases hsame : ctx.operands n = some (.node n) :: rest
    · rw [if_pos hsame]
      have hid : ctx.IsLoopID n := by
        rw [IsLoopID, hsame]
        rfl
      exact ⟨Extends.refl ctx, hid.lt_length, hsame, fun _ _ hnull => hnull⟩
    · rw [if_neg hsame]
      exact get_got ctx _
  · exact get_got ctx ops

theorem concatenate_got (ctx : MDContext) (a b : Nat) :
    Got ctx ((ctx.operands a ++ ctx.operands b).foldl number []) (ctx.concatenate a b) :=
  getOrSelfReference_got ctx _

/-! ### New loop IDs -/

/-- `MDNode::get` of one null operand, which then refers to the node itself. -/
def createLoopID (ctx : MDContext) : Nat × MDContext :=
  let (n, ctx) := ctx.get [none]
  (n, ctx.replaceWithSelf n)

theorem operands_replaceWithSelf (ctx : MDContext) (n m : Nat) :
    (ctx.replaceWithSelf n).operands m =
      if n = m then (ctx.operands m).set 0 (some (.node n)) else ctx.operands m := by
  simp only [operands, replaceWithSelf, List.getElem?_modify]
  by_cases hm : n = m
  · cases ctx.nodes[m]? <;> simp [hm]
  · cases ctx.nodes[m]? <;> simp [hm]

/-- A new loop ID refers to itself. The only other node that changes is a
uniqued node of one null operand, if there was one: it becomes the loop ID. -/
structure Created (ctx : MDContext) (r : Nat × MDContext) : Prop where
  length_le : ctx.nodes.length ≤ r.2.nodes.length
  lt_length : r.1 < r.2.nodes.length
  operands_self : r.2.operands r.1 = [some (.node r.1)]
  nodes : ∀ n, n < ctx.nodes.length → n ≠ r.1 → r.2.nodes[n]? = ctx.nodes[n]?
  reused_iff : r.1 < ctx.nodes.length ↔ ∃ n, ctx.IsNull n
  isNull : r.1 < ctx.nodes.length → ctx.IsNull r.1
  null : ∀ n, r.2.IsNull n → ctx.IsNull n ∧ n ≠ r.1

theorem Created.operands {r : Nat × MDContext} (h : Created ctx r) (hn : n < ctx.nodes.length)
    (hne : n ≠ r.1) : r.2.operands n = ctx.operands n :=
  operands_congr (h.nodes n hn hne)

/-- Without such a node the loop ID is a new one. -/
theorem Created.extends_ {r : Nat × MDContext} (h : Created ctx r) (hnull : ∀ n, ¬ ctx.IsNull n) :
    ctx.Extends r.2 where
  length_le := h.length_le
  nodes n hn := h.nodes n hn fun hself => hnull n (hself ▸ h.isNull (hself ▸ hn))

/-- If there is at most one such node, none is left. -/
theorem Created.not_isNull {r : Nat × MDContext} (h : Created ctx r)
    (hone : ∀ n m, ctx.IsNull n → ctx.IsNull m → n = m) (n : Nat) : ¬ r.2.IsNull n := by
  intro hnull
  obtain ⟨hbefore, hne⟩ := h.null n hnull
  exact hne (hone n r.1 hbefore (h.isNull (h.reused_iff.mpr ⟨n, hbefore⟩)))

theorem Created.isLoopID {r : Nat × MDContext} (h : Created ctx r) : r.2.IsLoopID r.1 := by
  rw [IsLoopID, h.operands_self]
  rfl

/-- A loop ID is no node that becomes a new one. -/
theorem Created.of_isLoopID {r : Nat × MDContext} (h : Created ctx r) (hid : ctx.IsLoopID n) :
    n ≠ r.1 ∧ r.2.operands n = ctx.operands n := by
  have hlt := hid.lt_length
  have hne : n ≠ r.1 := by
    rintro rfl
    rw [IsLoopID, (h.isNull hlt).operands] at hid
    cases hid
  exact ⟨hne, h.operands hlt hne⟩

/-- `MDNode::get` of one null operand finds the node that there is. -/
theorem get_null (ctx : MDContext) :
    ((ctx.get [none]).1 < ctx.nodes.length ↔ ∃ n, ctx.IsNull n) ∧
      ((ctx.get [none]).1 < ctx.nodes.length → ctx.IsNull (ctx.get [none]).1) ∧
      ∀ n, (ctx.get [none]).2.IsNull n → n ≠ (ctx.get [none]).1 → ctx.IsNull n := by
  cases hfound : ctx.nodes.findIdx? fun node => node.uniqued && node.operands = [none] with
  | some n =>
      obtain ⟨hlt, hnode, -⟩ := List.findIdx?_eq_some_iff_getElem.mp hfound
      rw [Bool.and_eq_true, decide_eq_true_eq] at hnode
      have hnull : ctx.IsNull n := by
        rw [IsNull, List.getElem?_eq_getElem hlt, ← hnode.1, ← hnode.2]
      simp only [MDContext.get, hfound]
      exact ⟨iff_of_true hlt ⟨n, hnull⟩, fun _ => hnull, fun _ h _ => h⟩
  | none =>
      have hnone : ∀ n, ¬ ctx.IsNull n := by
        intro n hnull
        have hnot := List.findIdx?_eq_none_iff.mp hfound _ (List.mem_of_getElem? hnull)
        simp at hnot
      simp only [MDContext.get, hfound]
      refine ⟨iff_of_false (Nat.lt_irrefl _) fun ⟨n, h⟩ => hnone n h,
        fun h => absurd h (Nat.lt_irrefl _), fun n hnull hne => ?_⟩
      exact (append_singleton_cases hnull).resolve_right fun hnew => hne hnew.1

theorem createLoopID_created (ctx : MDContext) : Created ctx ctx.createLoopID := by
  have hgot := get_got ctx [none]
  obtain ⟨hreused, hnull, hothers⟩ := get_null ctx
  have hlength : (ctx.createLoopID).2.nodes.length = (ctx.get [none]).2.nodes.length :=
    List.length_modify _ _ _
  have hnodes : ∀ n, n ≠ (ctx.get [none]).1 →
      (ctx.createLoopID).2.nodes[n]? = (ctx.get [none]).2.nodes[n]? := fun n hne =>
    List.getElem?_modify_ne _ _ (Ne.symm hne)
  refine ⟨?_, ?_, ?_, ?_, hreused, hnull, ?_⟩
  · rw [hlength]
    exact hgot.extends_.length_le
  · rw [hlength]
    exact hgot.lt_length
  · change ((ctx.get [none]).2.replaceWithSelf (ctx.get [none]).1).operands (ctx.get [none]).1 = _
    rw [operands_replaceWithSelf, if_pos rfl, hgot.operands]
    rfl
  · intro n hn hne
    exact (hnodes n hne).trans (hgot.extends_.nodes n hn)
  · intro n hnew
    by_cases hne : n = (ctx.get [none]).1
    · -- The loop ID is not uniqued any more.
      exfalso
      subst hne
      have hself : (ctx.createLoopID).2.operands (ctx.get [none]).1 = [none] := hnew.operands
      change ((ctx.get [none]).2.replaceWithSelf (ctx.get [none]).1).operands _ = _ at hself
      rw [operands_replaceWithSelf, if_pos rfl, hgot.operands] at hself
      cases hself
    · exact ⟨hothers n ((hnodes n hne).symm.trans hnew) hne, hne⟩

end MDContext

end Petospa
