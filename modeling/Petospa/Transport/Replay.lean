import Petospa.Annotator.Answers
import Petospa.Tuner.Rounds

/-!
# Tuning rounds over a trace of queries

Over a trace that does not depend on the answers, a round lists the unanswered
queries of one instance and the tuner appends their values to the control string,
sorted by kind and function. `built` is the string after some rounds, given the
value that is assigned to each query of the trace.
-/

namespace Petospa

open Text Transducer

/-- The choice that `determineOptimisticChoices` reads off a printed line; its
position is set when the control string is laid out. -/
def Opportunity.toChoice (o : Opportunity) : OptimisticChoice :=
  .new o.numChoices o.kind.number o.functionNo o.kind.label.1 o.kind.label.2 o.name o.functionName 0
    o.numChoices_pos

/-- The compiler run that lists the opportunities of a round. -/
def listing (r : Nat) : Options := ⟨false, r, true⟩

/-- The compiler run that builds the object under a control string. -/
def compiling : Options := ⟨false, -1, false⟩

variable {Fn : Type*} [DecidableEq Fn]

/-- The opportunities that a round finds, with the index of their query. -/
def listed (r : Nat) (maps : ChoiceMaps) (events : List (Timed Fn)) : List (Nat × Opportunity) :=
  (annotate (listing r) maps events).zipIdx.filterMap fun ai =>
    (ai.1.bind Answer.printed).map fun o => (ai.2, o)

/-- A listed opportunity with the value that is assigned to its query. -/
def assigned (assign : Nat → Nat) (io : Nat × Opportunity) : OptimisticChoice :=
  { io.2.toChoice with value := assign io.1 }

/-- The control string after `r` rounds. A compiler that stops at the string
lists nothing. -/
def built (events : List (Timed Fn)) (assign : Nat → Nat) : Nat → Str
  | 0 => []
  | r + 1 =>
      match decode .empty (built events assign r) with
      | .ok maps =>
          layout (built events assign r)
            (sortChoices ((listed (r + 1) maps events).map (assigned assign)))
      | .error _ => built events assign r

/-- A value for each query, among those that it offers. -/
def Assignment (events : List (Timed Fn)) (assign : Nat → Nat) : Prop :=
  ∀ i q, Asked events i q → assign i < q.numChoices

/-- Round `r + 1` is replayed: its opportunities are answered with their values,
and what was answered from the string before it is answered as before. -/
def Agrees (events : List (Timed Fn)) (assign : Nat → Nat) (r : Nat) : Prop :=
  ∃ maps maps', decode .empty (built events assign r) = .ok maps ∧
    decode .empty (built events assign (r + 1)) = .ok maps' ∧
    (∀ io ∈ listed (r + 1) maps events, ∃ printed,
      (annotate compiling maps' events)[io.1]? = some (some ⟨assign io.1, printed⟩)) ∧
    ∀ i q answer, Asked events i q → 0 < explicit maps (before events i) q →
      (annotate (listing (r + 1)) maps events)[i]? = some (some answer) →
      ∃ printed, (annotate compiling maps' events)[i]? = some (some ⟨answer.value, printed⟩)

/-- What the annotator's passes and the pipeline promise about a trace: instances
run one after the other, every query is of a real kind with a real choice, and
functions are numbered within an `int`. -/
structure Regular (events : List (Timed Fn)) : Prop where
  ordered : events.Pairwise fun a b => a.inst ≤ b.inst
  instances : ∀ e ∈ events, e.inst + 1 < 2 ^ 31
  kinds : ∀ i q, Asked events i q → q.kind.IsChoice
  options : ∀ i q, Asked events i q → 2 ≤ q.numChoices
  functions : (functionsSeen events.reverse).length ≤ 2 ^ 31

/-- The event asks about a value of the given kind and name. -/
def Timed.asksName (kind : OptimisticChoiceKind) (name : Str) (e : Timed Fn) : Bool :=
  match e.event with
  | .sees _ => false
  | .asks q => q.kind = kind ∧ q.name = name

/-- No earlier instance asked about the kind and name of the query. -/
def Fresh (hist : List (Timed Fn)) (e : Timed Fn) (q : Query Fn) : Prop :=
  ∀ e' ∈ hist, e'.asksName q.kind q.name = true → e.inst ≤ e'.inst

instance (hist : List (Timed Fn)) (e : Timed Fn) (q : Query Fn) : Decidable (Fresh hist e q) :=
  inferInstanceAs (Decidable (∀ e' ∈ hist, _ → _))

/-- The queries of a kind and function start with those whose names are fresh,
and a fresh query offers no more than eighty values. -/
def FreshFirst (events : List (Timed Fn)) : Prop :=
  ∀ he ∈ histories [] events, ∀ q, he.2.event = .asks q → Fresh he.1 he.2 q →
    q.numChoices ≤ 80 ∧
    ∀ newer e' older q', he.1 = newer ++ e' :: older → e'.event = .asks q' →
      q'.kind = q.kind → q'.function = q.function → Fresh older e' q'

/-! ### Stability of the sort -/

theorem sortKeyLe_total (a b : OptimisticChoice) : sortKeyLe a b ∨ sortKeyLe b a := by
  simp only [sortKeyLe]
  omega

theorem sortKeyLe_trans {a b c : OptimisticChoice} (hab : sortKeyLe a b) (hbc : sortKeyLe b c) :
    sortKeyLe a c := by
  simp only [sortKeyLe] at hab hbc ⊢
  omega

/-- Sorting does not change the order of the choices of a kind and function. -/
theorem filter_sortChoices (kind : OptimisticChoiceKind) (fnNo : Nat)
    (ocs : List OptimisticChoice) :
    (sortChoices ocs).filter (·.belongsTo kind fnNo) = ocs.filter (·.belongsTo kind fnNo) := by
  have : Std.Total sortKeyLe := ⟨sortKeyLe_total⟩
  have : IsTrans OptimisticChoice sortKeyLe := ⟨fun _ _ _ => sortKeyLe_trans⟩
  have hsame : (ocs.filter (·.belongsTo kind fnNo)).Pairwise sortKeyLe := by
    apply List.pairwise_of_forall_mem_list
    intro a ha b hb
    have hka := (List.mem_filter.mp ha).2
    have hkb := (List.mem_filter.mp hb).2
    simp only [OptimisticChoice.belongsTo, decide_eq_true_eq] at hka hkb
    right
    omega
  have hsub := (List.sublist_insertionSort hsame List.filter_sublist).filter
    (·.belongsTo kind fnNo)
  rw [List.filter_filter] at hsub
  simp only [Bool.and_self] at hsub
  have hperm : ((sortChoices ocs).filter (·.belongsTo kind fnNo)).length =
      (ocs.filter (·.belongsTo kind fnNo)).length :=
    ((List.perm_insertionSort sortKeyLe ocs).filter _).length_eq
  exact (hsub.eq_of_length hperm.symm).symm

end Petospa
