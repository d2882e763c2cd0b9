import Petospa.Transport.Replay

/-!
# The entries of a built string

The annotator counts every query of a kind and function, the tuner only those it
was shown. `settledMaps` are the choice maps that hold the values of the fresh
queries; a fresh query finds its own value in them where all queries in front of
it, for its kind and function, are fresh too.
-/

namespace Petospa

open Text Transducer

variable {Fn : Type*} [DecidableEq Fn]

/-! ### Numbers along a trace -/

theorem idxOf_of_isPrefix {xs ys : List Fn} (h : xs <+: ys) {f : Fn} (hf : f ∈ xs) :
    ys.idxOf f = xs.idxOf f := by
  obtain ⟨zs, rfl⟩ := h
  exact List.idxOf_append_of_mem hf

section Split

variable {events front back : List (Timed Fn)} {e : Timed Fn} {q : Query Fn}

theorem functionsSeen_split (hsplit : events = front ++ e :: back) (he : e.event = .asks q) :
    number (functionsSeen front.reverse) q.function <+: functionsSeen events.reverse := by
  have hreverse : events.reverse = back.reverse ++ (e :: front.reverse) := by simp [hsplit]
  have hfirst : functionsSeen (e :: front.reverse) =
      number (functionsSeen front.reverse) q.function := by
    rw [functionsSeen, Timed.function, he]
  rw [hreverse, ← hfirst]
  exact functionsSeen_isPrefix _ _

/-- The number of a function is the same at all its queries. -/
theorem functionNoAt_eq (hsplit : events = front ++ e :: back) (he : e.event = .asks q) :
    functionNoAt front.reverse q.function = (functionsSeen events.reverse).idxOf q.function := by
  rw [functionNoAt, idxOf_of_isPrefix (functionsSeen_split hsplit he) (mem_number.mpr (.inr rfl))]

theorem functionNoAt_lt (hsplit : events = front ++ e :: back) (he : e.event = .asks q) :
    functionNoAt front.reverse q.function < (functionsSeen events.reverse).length := by
  rw [functionNoAt_eq hsplit he]
  apply List.idxOf_lt_length_of_mem
  exact (functionsSeen_split hsplit he).subset (mem_number.mpr (.inr rfl))

/-- Queries whose functions have one number are about one function. -/
theorem function_eq_of_functionNoAt {front' back' : List (Timed Fn)} {e' : Timed Fn}
    {q' : Query Fn} (hsplit : events = front ++ e :: back) (he : e.event = .asks q)
    (hsplit' : events = front' ++ e' :: back') (he' : e'.event = .asks q')
    (h : functionNoAt front'.reverse q'.function = functionNoAt front.reverse q.function) :
    q'.function = q.function := by
  rw [functionNoAt_eq hsplit' he', functionNoAt_eq hsplit he] at h
  refine idxOf_injective ?_ h
  exact (functionsSeen_split hsplit' he').subset (mem_number.mpr (.inr rfl))

end Split

/-! ### Counting -/

/-- The event asks about a value of the given kind and function. -/
def Timed.asksPair (kind : OptimisticChoiceKind) (f : Fn) (e : Timed Fn) : Bool :=
  match e.event with
  | .sees _ => false
  | .asks q => q.kind = kind ∧ q.function = f

/-- It does so for a fresh name. -/
def freshPair (kind : OptimisticChoiceKind) (f : Fn) (he : List (Timed Fn) × Timed Fn) : Bool :=
  match he.2.event with
  | .sees _ => false
  | .asks q => (q.kind = kind ∧ q.function = f) ∧ Fresh he.1 he.2 q

theorem position_eq_countP (kind : OptimisticChoiceKind) (f : Fn) (hist : List (Timed Fn)) :
    position kind f hist = hist.countP (·.asksPair kind f) := by
  induction hist with
  | nil => rfl
  | cons e hist ih =>
      rw [position, List.countP_cons, ← ih]
      cases he : e.event with
      | sees g => simp [Timed.asksPair, he]
      | asks q => simp [Timed.asksPair, he]

/-- As many as possible means all. -/
theorem forall_of_countP_eq {α : Type*} {p q : α → Bool} {l : List α}
    (hpq : ∀ x ∈ l, p x = true → q x = true) (h : l.countP p = l.countP q) :
    ∀ x ∈ l, q x = true → p x = true := by
  induction l with
  | nil => simp
  | cons y l ih =>
      have htail : l.countP p ≤ l.countP q :=
        List.countP_mono_left fun x hx => hpq x (List.mem_cons_of_mem _ hx)
      have hhead := hpq y List.mem_cons_self
      rw [List.countP_cons, List.countP_cons] at h
      intro x hx hqx
      rcases List.mem_cons.mp hx with rfl | hmem
      · by_contra hpx
        simp only [hpx, hqx, if_true] at h
        simp at h
        omega
      · refine ih (fun z hz => hpq z (List.mem_cons_of_mem _ hz)) ?_ x hmem hqx
        cases hp : p y with
        | true => simpa [hp, hhead hp] using h
        | false =>
            cases hq : q y with
            | true =>
                simp [hp, hq] at h
                omega
            | false => simpa [hp, hq] using h

/-- All earlier queries of the kind and function were fresh. -/
def Aligned (kind : OptimisticChoiceKind) (f : Fn) (front : List (Timed Fn)) : Prop :=
  (histories [] front).countP (freshPair kind f) = position kind f front.reverse

theorem position_reverse (kind : OptimisticChoiceKind) (f : Fn) (front : List (Timed Fn)) :
    position kind f front.reverse = (histories [] front).countP fun he => he.2.asksPair kind f := by
  rw [position_eq_countP, List.countP_reverse, countP_histories]

theorem asksPair_of_freshPair {kind : OptimisticChoiceKind} {f : Fn}
    {he : List (Timed Fn) × Timed Fn} (h : freshPair kind f he = true) :
    he.2.asksPair kind f = true := by
  rw [freshPair] at h
  rw [Timed.asksPair]
  cases hevent : he.2.event with
  | sees g => simp [hevent] at h
  | asks q =>
      simp only [hevent, decide_eq_true_eq] at h ⊢
      exact h.1

theorem aligned_iff {kind : OptimisticChoiceKind} {f : Fn} {front : List (Timed Fn)} :
    Aligned kind f front ↔ ∀ newer e' older q', front.reverse = newer ++ e' :: older →
      e'.event = .asks q' → q'.kind = kind → q'.function = f → Fresh older e' q' := by
  rw [Aligned, position_reverse]
  constructor
  · intro hcount newer e' older q' hsplit he' hkind hfunction
    have hmem : (older, e') ∈ histories [] front := by
      rw [mem_histories_nil]
      exact ⟨older.reverse, newer.reverse, eq_of_reverse_eq hsplit, by simp⟩
    have hfresh := forall_of_countP_eq (fun _ _ => asksPair_of_freshPair) hcount _ hmem
      (by simp [Timed.asksPair, he', hkind, hfunction])
    simp only [freshPair, he', decide_eq_true_eq] at hfresh
    exact hfresh.2
  · intro hall
    apply List.countP_congr
    rintro ⟨older, e'⟩ hmem
    refine ⟨asksPair_of_freshPair, ?_⟩
    intro hasks
    obtain ⟨front', back', rfl, rfl⟩ := mem_histories_nil.mp hmem
    cases he' : e'.event with
    | sees g => simp [Timed.asksPair, he'] at hasks
    | asks q' =>
        simp only [Timed.asksPair, he', decide_eq_true_eq] at hasks
        simp only [freshPair, he', decide_eq_true_eq]
        exact ⟨hasks, hall back'.reverse e' front'.reverse q' (by simp) he' hasks.1 hasks.2⟩

/-! ### The maps of a built string -/

section Settled

variable (events : List (Timed Fn)) (assign : Nat → Nat) (r : Nat)

/-- A query that one of the first `r` rounds settles, for a kind and function number. -/
def settles (kind : OptimisticChoiceKind) (fnNo : Nat) (he : List (Timed Fn) × Timed Fn) : Bool :=
  match he.2.event with
  | .sees _ => false
  | .asks q => (q.kind = kind ∧ functionNoAt he.1 q.function = fnNo) ∧ Fresh he.1 he.2 q ∧
      he.2.inst < r

/-- What a history adds to the map of a kind and function number. -/
def addition (kind : OptimisticChoiceKind) (fnNo : Nat) (he : List (Timed Fn) × Timed Fn) :
    List Nat :=
  if settles r kind fnNo he then entries (assign he.1.length) else []

/-- The maps after `r` rounds: the values of the fresh queries, in the order of
the trace. -/
def settledMaps : ChoiceMaps := fun kind fnNo =>
  (histories [] events).flatMap (addition assign r kind fnNo)

end Settled

/-- What the first `r` rounds settle among some histories has seven-bit characters. -/
def Small (assign : Nat → Nat) (r : Nat) (hs : List (List (Timed Fn) × Timed Fn)) : Prop :=
  ∀ he ∈ hs, ∀ q, he.2.event = .asks q → Fresh he.1 he.2 q → he.2.inst < r →
    assign he.1.length < 80

variable {events front back : List (Timed Fn)} {assign : Nat → Nat} {r : Nat} {e : Timed Fn}
  {q : Query Fn}

omit [DecidableEq Fn] in
theorem inst_le_of_mem_front (hordered : events.Pairwise fun a b => a.inst ≤ b.inst)
    (hsplit : events = front ++ e :: back) {e' : Timed Fn} (he' : e' ∈ front) :
    e'.inst ≤ e.inst := by
  subst hsplit
  exact (List.pairwise_append.mp hordered).2.2 e' he' e List.mem_cons_self

omit [DecidableEq Fn] in
theorem inst_le_of_mem_back (hordered : events.Pairwise fun a b => a.inst ≤ b.inst)
    (hsplit : events = front ++ e :: back) {e' : Timed Fn} (he' : e' ∈ back) :
    e.inst ≤ e'.inst := by
  subst hsplit
  exact (List.pairwise_cons.mp (List.pairwise_append.mp hordered).2.1).1 e' he'

/-- What a settled query of the same number asks about. -/
theorem freshPair_of_settles (hsplit : events = front ++ e :: back) (he : e.event = .asks q)
    {he' : List (Timed Fn) × Timed Fn} (hmem : he' ∈ histories [] events)
    (h : settles r q.kind (functionNoAt front.reverse q.function) he' = true) :
    freshPair q.kind q.function he' = true ∧ he'.2.inst < r := by
  obtain ⟨hist', e'⟩ := he'
  obtain ⟨front', back', hsplit', rfl⟩ := mem_histories_nil.mp hmem
  cases hevent : e'.event with
  | sees g => simp [settles, hevent] at h
  | asks q' =>
      simp only [settles, hevent, decide_eq_true_eq] at h
      obtain ⟨⟨hkind, hno⟩, hfresh, hinst⟩ := h
      simp only [freshPair, hevent, decide_eq_true_eq]
      exact ⟨⟨⟨hkind, function_eq_of_functionNoAt hsplit he hsplit' hevent hno⟩, hfresh⟩, hinst⟩

theorem settles_of_freshPair (hsplit : events = front ++ e :: back) (he : e.event = .asks q)
    {he' : List (Timed Fn) × Timed Fn} (hmem : he' ∈ histories [] events)
    (h : freshPair q.kind q.function he' = true) (hinst : he'.2.inst < r) :
    settles r q.kind (functionNoAt front.reverse q.function) he' = true := by
  obtain ⟨hist', e'⟩ := he'
  obtain ⟨front', back', hsplit', rfl⟩ := mem_histories_nil.mp hmem
  cases hevent : e'.event with
  | sees g => simp [freshPair, hevent] at h
  | asks q' =>
      simp only [freshPair, hevent, decide_eq_true_eq] at h
      obtain ⟨⟨hkind, hfunction⟩, hfresh⟩ := h
      simp only [settles, hevent, decide_eq_true_eq]
      refine ⟨⟨hkind, ?_⟩, hfresh, hinst⟩
      rw [functionNoAt_eq hsplit' hevent, functionNoAt_eq hsplit he, hfunction]

/-- Seven-bit values add one entry each. -/
theorem length_additions {kind : OptimisticChoiceKind} {fnNo : Nat}
    {hs : List (List (Timed Fn) × Timed Fn)} (hsmall : Small assign r hs) :
    (hs.flatMap (addition assign r kind fnNo)).length = hs.countP (settles r kind fnNo) := by
  induction hs with
  | nil => rfl
  | cons he hs ih =>
      have htail : Small assign r hs := fun h hh => hsmall h (List.mem_cons_of_mem _ hh)
      rw [List.flatMap_cons, List.length_append, ih htail, List.countP_cons, addition]
      cases hsettles : settles r kind fnNo he with
      | false => simp
      | true =>
          have hlt : assign he.1.length < 80 := by
            cases hevent : he.2.event with
            | sees g => simp [settles, hevent] at hsettles
            | asks q' =>
                simp only [settles, hevent, decide_eq_true_eq] at hsettles
                exact hsmall he List.mem_cons_self q' hevent hsettles.2.1 hsettles.2.2
          rw [if_pos rfl, if_pos rfl, entries_of_lt hlt, List.length_singleton]
          omega

/-- The additions of a trace, around one of its queries. -/
theorem settledMaps_split (hsplit : events = front ++ e :: back) (kind : OptimisticChoiceKind)
    (fnNo : Nat) :
    settledMaps events assign r kind fnNo =
      (histories [] front).flatMap (addition assign r kind fnNo) ++
        (addition assign r kind fnNo (front.reverse, e) ++
          (histories (e :: front.reverse) back).flatMap (addition assign r kind fnNo)) := by
  rw [settledMaps, hsplit, histories_append, histories, List.flatMap_append, List.flatMap_cons,
    List.append_nil]

omit [DecidableEq Fn] in
theorem mem_histories_front (hsplit : events = front ++ e :: back)
    {he : List (Timed Fn) × Timed Fn} (hmem : he ∈ histories [] front) :
    he ∈ histories [] events := by
  rw [hsplit, histories_append]
  exact List.mem_append_left _ hmem

/-- Queries at and behind the current instance find no entry. -/
theorem explicit_settledMaps_eq_zero (hordered : events.Pairwise fun a b => a.inst ≤ b.inst)
    (hsplit : events = front ++ e :: back) (hsmall : Small assign r (histories [] front))
    (he : e.event = .asks q) (hinst : r ≤ e.inst) :
    explicit (settledMaps events assign r) front.reverse q = 0 := by
  have hlater : ∀ he' ∈ (front.reverse, e) :: histories (e :: front.reverse) back,
      addition assign r q.kind (functionNoAt front.reverse q.function) he' = [] := by
    intro he' hmem
    have hle : r ≤ he'.2.inst := by
      rcases List.mem_cons.mp hmem with rfl | hback
      · exact hinst
      · have hsnd : he'.2 ∈ back := by
          rw [← map_snd_histories (e :: front.reverse) back]
          exact List.mem_map_of_mem hback
        exact hinst.trans (inst_le_of_mem_back hordered hsplit hsnd)
    rw [addition, settles]
    split
    · simp
    · simp only [decide_eq_true_eq]
      rw [if_neg]
      omega
  have hfront : (histories [] front).countP
      (settles r q.kind (functionNoAt front.reverse q.function)) ≤
      position q.kind q.function front.reverse := by
    rw [position_reverse]
    apply List.countP_mono_left
    intro he' hmem hsettles
    exact asksPair_of_freshPair
      (freshPair_of_settles hsplit he (mem_histories_front hsplit hmem) hsettles).1
  rw [explicit, List.getD_eq_getElem?_getD, settledMaps_split hsplit, ← List.flatMap_cons,
    List.flatMap_eq_nil_iff.mpr hlater, List.append_nil, List.getElem?_eq_none]
  · rfl
  · rw [length_additions hsmall]
    exact hfront

/-- In front of a fresh query of an earlier instance, as many queries were
settled as were asked. -/
theorem length_additions_front (hordered : events.Pairwise fun a b => a.inst ≤ b.inst)
    (hsplit : events = front ++ e :: back) (hsmall : Small assign r (histories [] front))
    (he : e.event = .asks q) (hinst : e.inst < r) :
    ((histories [] front).flatMap
      (addition assign r q.kind (functionNoAt front.reverse q.function))).length =
      (histories [] front).countP (freshPair q.kind q.function) := by
  rw [length_additions hsmall]
  apply List.countP_congr
  intro he' hmem
  have hevents := mem_histories_front hsplit hmem
  refine ⟨fun h => (freshPair_of_settles hsplit he hevents h).1, fun h => ?_⟩
  apply settles_of_freshPair hsplit he hevents h
  have hfront : he'.2 ∈ front := by
    rw [← map_snd_histories [] front]
    exact List.mem_map_of_mem hmem
  exact (inst_le_of_mem_front hordered hsplit hfront).trans_lt hinst

theorem addition_self (he : e.event = .asks q) (hfresh : Fresh front.reverse e q)
    (hinst : e.inst < r) :
    addition assign r q.kind (functionNoAt front.reverse q.function) (front.reverse, e) =
      entries (assign front.length) := by
  have hsettles : settles r q.kind (functionNoAt front.reverse q.function) (front.reverse, e) =
      true := by
    simp [settles, he, hfresh, hinst]
  rw [addition, if_pos hsettles, List.length_reverse]

/-- A fresh query of an earlier instance finds its own entry. -/
theorem explicit_settledMaps_of_fresh (hordered : events.Pairwise fun a b => a.inst ≤ b.inst)
    (hsplit : events = front ++ e :: back) (hsmall : Small assign r (histories [] front))
    (he : e.event = .asks q) (hfresh : Fresh front.reverse e q) (hinst : e.inst < r)
    (haligned : Aligned q.kind q.function front) {entry : Nat} {rest : List Nat}
    (hentry : entries (assign front.length) = entry :: rest) :
    explicit (settledMaps events assign r) front.reverse q = entry := by
  have hlen := length_additions_front hordered hsplit hsmall he hinst
  rw [Aligned] at haligned
  rw [explicit, List.getD_eq_getElem?_getD, settledMaps_split hsplit, ← haligned, ← hlen,
    List.getElem?_append_right (Nat.le_refl _), Nat.sub_self, addition_self he hfresh hinst, hentry]
  rfl

/-! ### The cache -/

theorem cached_eq_zero {maps : ChoiceMaps} {kind : OptimisticChoiceKind} {name : Str}
    {hist : List (Timed Fn)} (h : ∀ newer e' older q', hist = newer ++ e' :: older →
      e'.event = .asks q' → q'.kind = kind → q'.name = name → explicit maps older q' = 0) :
    cached maps kind name hist = 0 := by
  induction hist with
  | nil => rfl
  | cons e' hist ih =>
      have htail := ih fun newer d older q' hsplit => h (e' :: newer) d older q' (by simp [hsplit])
      rw [cached]
      cases hevent : e'.event with
      | sees f => exact htail
      | asks q' =>
          show (if _ then _ else _) = 0
          rw [if_neg, htail]
          rintro ⟨hkind, hname, hpos⟩
          have hzero := h [] e' hist q' rfl hevent hkind hname
          omega

/-- Whatever is cached is the entry of a namesake. -/
theorem cached_cases (maps : ChoiceMaps) (kind : OptimisticChoiceKind) (name : Str)
    (hist : List (Timed Fn)) :
    cached maps kind name hist = 0 ∨ ∃ newer e' older q', hist = newer ++ e' :: older ∧
      e'.event = .asks q' ∧ q'.kind = kind ∧ q'.name = name ∧
      cached maps kind name hist = explicit maps older q' := by
  induction hist with
  | nil => exact .inl rfl
  | cons e' hist ih =>
      have hlift : (∃ newer d older q', hist = newer ++ d :: older ∧ d.event = .asks q' ∧
          q'.kind = kind ∧ q'.name = name ∧ cached maps kind name hist = explicit maps older q') →
          ∃ newer d older q', e' :: hist = newer ++ d :: older ∧ d.event = .asks q' ∧
            q'.kind = kind ∧ q'.name = name ∧
            cached maps kind name hist = explicit maps older q' := by
        rintro ⟨newer, d, older, q', rfl, hrest⟩
        exact ⟨e' :: newer, d, older, q', rfl, hrest⟩
      rw [cached]
      cases hevent : e'.event with
      | sees f => exact ih.imp_right hlift
      | asks q' =>
          dsimp only
          split
          · rename_i hsame
            exact .inr ⟨[], e', hist, q', rfl, hevent, hsame.1, hsame.2.1, rfl⟩
          · exact ih.imp_right hlift

theorem cached_pos {maps : ChoiceMaps} {hist newer older : List (Timed Fn)} {e' : Timed Fn}
    {q' : Query Fn} (hsplit : hist = newer ++ e' :: older) (he' : e'.event = .asks q')
    (hpos : 0 < explicit maps older q') : 0 < cached maps q'.kind q'.name hist := by
  subst hsplit
  induction newer with
  | nil =>
      rw [List.nil_append, cached, he']
      show 0 < if _ then _ else _
      rw [if_pos ⟨rfl, rfl, hpos⟩]
      exact hpos
  | cons d newer ih =>
      rw [List.cons_append, cached]
      cases hevent : d.event with
      | sees f => exact ih
      | asks q'' =>
          show 0 < if _ then _ else _
          split
          · rename_i hsame
            exact hsame.2.2
          · exact ih

end Petospa
