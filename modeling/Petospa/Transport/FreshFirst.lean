import Petospa.Transport.Agreement

/-!
# Exactly when every round is replayed

The rounds of a trace are replayed whatever values are chosen if and only if the
fresh queries of a kind and function come first. The other direction follows the
first query that is out of order: give it a value of its own, all others 0, and
the entry is read by another query.
-/

namespace Petospa

open Text Transducer

variable {Fn : Type*} [DecidableEq Fn] {events front back : List (Timed Fn)} {assign : Nat → Nat}
  {r : Nat} {e : Timed Fn} {q : Query Fn}

/-! ### Fresh queries first -/

theorem FreshFirst.understood (h : FreshFirst events) (hassign : Assignment events assign)
    (r : Nat) : Understood events assign r where
  small := by
    rintro ⟨hist, e⟩ hmem q he hfresh -
    have hnum := (h _ hmem q he hfresh).1
    obtain ⟨front, back, hsplit, rfl⟩ := mem_histories_nil.mp hmem
    have hlt := hassign front.length q (asked_of_split hsplit he)
    show assign front.reverse.length < 80
    rw [List.length_reverse]
    exact hlt.trans_le hnum
  aligned := by
    intro front e back q hsplit he hfresh _
    exact aligned_iff.mpr (h _ (mem_histories_split hsplit) q he hfresh).2

/-! ### The first query out of order -/

/-- The value is given to one query; all others get 0. -/
def onlyAt (i v j : Nat) : Nat := if j = i then v else 0

theorem onlyAt_le (i v j : Nat) : onlyAt i v j ≤ v := by
  rw [onlyAt]
  split
  · exact Nat.le_refl v
  · exact Nat.zero_le v

theorem assignment_onlyAt (hregular : Regular events) (hsplit : events = front ++ e :: back)
    (he : e.event = .asks q) {v : Nat} (hv : v < q.numChoices) :
    Assignment events (onlyAt front.length v) := by
  intro i q' hasked
  rw [onlyAt]
  split
  · rename_i hi
    obtain ⟨e', hi', he'⟩ := hasked
    obtain ⟨d, hd, hdevent⟩ := asked_of_split hsplit he
    subst hi
    obtain rfl := Option.some.inj (hd.symm.trans hi')
    obtain rfl := Event.asks.inj (hdevent.symm.trans he')
    exact hv
  · have := hregular.options i q' hasked
    omega

omit [DecidableEq Fn] in
/-- Histories in front of a query are shorter, those behind it longer. -/
theorem length_of_mem_front {he : List (Timed Fn) × Timed Fn} (hmem : he ∈ histories [] front) :
    he.1.length < front.length := by
  obtain ⟨hist, e'⟩ := he
  obtain ⟨front', back', rfl, rfl⟩ := mem_histories_nil.mp hmem
  rw [List.length_reverse, List.length_append, List.length_cons]
  omega

omit [DecidableEq Fn] in
theorem length_of_mem_back {he : List (Timed Fn) × Timed Fn}
    (hmem : he ∈ histories (e :: front.reverse) back) : front.length < he.1.length := by
  obtain ⟨hist, e'⟩ := he
  obtain ⟨front', back', rfl, rfl⟩ := mem_histories.mp hmem
  simp only [List.length_append, List.length_reverse, List.length_cons]
  omega

/-- Events of earlier instances are in front. -/
theorem mem_front_of_inst_lt (hregular : Regular events) (hsplit : events = front ++ e :: back)
    {he : List (Timed Fn) × Timed Fn} (hmem : he ∈ histories [] events)
    (hinst : he.2.inst < e.inst) : he ∈ histories [] front := by
  rw [hsplit, histories_append, List.append_nil, histories] at hmem
  rcases List.mem_append.mp hmem with hfront | hrest
  · exact hfront
  · rcases List.mem_cons.mp hrest with rfl | hback
    · exact absurd hinst (Nat.lt_irrefl _)
    · have hsnd : he.2 ∈ back := by
        rw [← map_snd_histories (e :: front.reverse) back]
        exact List.mem_map_of_mem hback
      have := inst_le_of_mem_back hregular.ordered hsplit hsnd
      omega

/-- The order that `FreshFirst` asks for, at one event. -/
def InOrder (hist : List (Timed Fn)) (e : Timed Fn) : Prop :=
  ∀ q, e.event = .asks q → Fresh hist e q → q.numChoices ≤ 80 ∧
    ∀ newer e' older q', hist = newer ++ e' :: older → e'.event = .asks q' → q'.kind = q.kind →
      q'.function = q.function → Fresh older e' q'

/-- Before the first query out of order, the string is understood. -/
theorem understood_onlyAt (hregular : Regular events) (hsplit : events = front ++ e :: back)
    (hbefore : ∀ he ∈ histories [] front, InOrder he.1 he.2) (v : Nat) :
    Understood events (onlyAt front.length v) e.inst where
  small := by
    intro he hmem q' _ _ hinst
    have hfront := mem_front_of_inst_lt hregular hsplit hmem hinst
    rw [onlyAt, if_neg (length_of_mem_front hfront).ne]
    decide
  aligned := by
    intro front' e' back' q' hsplit' he' hfresh' hinst
    have hfront := mem_front_of_inst_lt hregular hsplit (mem_histories_split hsplit') hinst
    exact aligned_iff.mpr (hbefore _ hfront q' he' hfresh').2

theorem listed_of_split (hregular : Regular events) (h : Understood events assign r)
    (hr : r + 1 < 2 ^ 31) (hsplit : events = front ++ e :: back) (he : e.event = .asks q)
    (hfresh : Fresh front.reverse e q) (hinst : e.inst = r) :
    ∃ o, (front.length, o) ∈ listed (r + 1) (settledMaps events assign r) events := by
  refine ⟨⟨q.numChoices, 0, q.kind, functionNoAt front.reverse q.function, q.name, q.functionName,
    q.numChoices_pos⟩, ?_⟩
  rw [h.listed_eq hregular hr]
  apply List.mem_filterMap.mpr
  refine ⟨(front.reverse, e), mem_histories_split hsplit, ?_⟩
  simp only [freshOpportunity, he]
  rw [if_pos ⟨hfresh, hinst⟩, Option.map_some, List.length_reverse]

/-- What agreement means for a fresh query of the round. -/
theorem answering_of_agrees (hregular : Regular events) (hr : r + 1 < 2 ^ 31)
    (h : Understood events assign r) (hcarried : ∀ i, assign i ≤ 80)
    (hsplit : events = front ++ e :: back) (he : e.event = .asks q)
    (hfresh : Fresh front.reverse e q) (hinst : e.inst = r) (hagrees : Agrees events assign r) :
    answering compiling (settledMaps events assign (r + 1)) front.reverse q - 1 =
      assign front.length := by
  obtain ⟨maps, maps', hmaps, hmaps', hreplay, -⟩ := hagrees
  have hbefore : decode .empty (built events assign r) = .ok (settledMaps events assign r) :=
    decode_built hregular (by omega) (h.mono (by omega)) fun _ _ _ _ _ _ _ _ => hcarried _
  have hafter : decode .empty (built events assign (r + 1)) =
      .ok (settledMaps events assign (r + 1)) :=
    decode_built hregular hr h fun _ _ _ _ _ _ _ _ => hcarried _
  obtain rfl := Except.ok.inj (hbefore.symm.trans hmaps)
  obtain rfl := Except.ok.inj (hafter.symm.trans hmaps')
  obtain ⟨o, ho⟩ := listed_of_split hregular h hr hsplit he hfresh hinst
  obtain ⟨printed, hgiven⟩ := hreplay _ ho
  obtain ⟨printed', hanswer⟩ := answers_asked compiling (settledMaps events assign (r + 1))
    (asked_of_split hsplit he)
  rw [annotate_compiling hregular, hanswer, before_of_split hsplit] at hgiven
  exact congrArg Answer.value (Option.some.inj (Option.some.inj hgiven))

/-- The character of 80 is not seven-bit: its first byte is read as a huge entry. -/
theorem entries_eighty : ∃ entry rest, entries 80 = entry :: rest ∧ 82 ≤ entry :=
  ⟨_, _, rfl, by decide⟩

/-- A fresh query that offers more than eighty values is not replayed with 80. -/
theorem not_agrees_of_large (hregular : Regular events) (hsplit : events = front ++ e :: back)
    (hbefore : ∀ he ∈ histories [] front, InOrder he.1 he.2) (he : e.event = .asks q)
    (hfresh : Fresh front.reverse e q) (haligned : Aligned q.kind q.function front) :
    ¬ Agrees events (onlyAt front.length 80) e.inst := by
  intro hagrees
  have hinst := hregular.instances e (by simp [hsplit])
  have hcode := answering_of_agrees hregular hinst (understood_onlyAt hregular hsplit hbefore 80)
    (onlyAt_le _ _) hsplit he hfresh rfl hagrees
  obtain ⟨entry, rest, hentries, hlarge⟩ := entries_eighty
  have hsmall : Small (onlyAt front.length 80) (e.inst + 1) (histories [] front) := by
    intro he' hmem _ _ _ _
    rw [onlyAt, if_neg (length_of_mem_front hmem).ne]
    decide
  have hown : onlyAt front.length 80 front.length = 80 := if_pos rfl
  have hexplicit := explicit_settledMaps_of_fresh hregular.ordered hsplit hsmall he hfresh
    (Nat.lt_succ_self _) haligned (by rw [hown]; exact hentries)
  rw [answering, hexplicit, if_pos (by omega), hown] at hcode
  omega

theorem getD_le_one {l : List Nat} (h : ∀ x ∈ l, x ≤ 1) (p : Nat) : l.getD p 0 ≤ 1 := by
  rw [List.getD_eq_getElem?_getD]
  cases hget : l[p]? with
  | none => exact Nat.zero_le 1
  | some x => exact h x (List.mem_of_getElem? hget)

theorem additions_le_one {kind : OptimisticChoiceKind} {fnNo : Nat}
    {hs : List (List (Timed Fn) × Timed Fn)} (h : ∀ he ∈ hs, assign he.1.length = 0) :
    ∀ x ∈ hs.flatMap (addition assign r kind fnNo), x ≤ 1 := by
  intro x hx
  obtain ⟨he, hmem, hx⟩ := List.mem_flatMap.mp hx
  rw [addition, h he hmem, entries_of_lt (by decide)] at hx
  split at hx
  · exact (List.mem_singleton.mp hx).le
  · cases hx

/-- All entries are those of the value 0, but for that of the query which has
another value; it stands behind the entries of the queries in front of it. -/
theorem explicit_le_one {v : Nat} (hsplit : events = front ++ e :: back) (hv : v < 80)
    {hist : List (Timed Fn)} {q' : Query Fn}
    (hother : settles r q'.kind (functionNoAt hist q'.function) (front.reverse, e) = true →
      position q'.kind q'.function hist ≠ ((histories [] front).flatMap
        (addition (onlyAt front.length v) r q'.kind (functionNoAt hist q'.function))).length) :
    explicit (settledMaps events (onlyAt front.length v) r) hist q' ≤ 1 := by
  have hfront : ∀ x ∈ (histories [] front).flatMap
      (addition (onlyAt front.length v) r q'.kind (functionNoAt hist q'.function)), x ≤ 1 :=
    additions_le_one fun he hmem => if_neg (length_of_mem_front hmem).ne
  have hback : ∀ x ∈ (histories (e :: front.reverse) back).flatMap
      (addition (onlyAt front.length v) r q'.kind (functionNoAt hist q'.function)), x ≤ 1 :=
    additions_le_one fun he hmem => if_neg (length_of_mem_back hmem).ne'
  rw [explicit, settledMaps_split hsplit, addition]
  split
  · rename_i hsettles
    have hne := hother hsettles
    rw [List.length_reverse, onlyAt, if_pos rfl, entries_of_lt hv, List.getD_eq_getElem?_getD]
    rcases Nat.lt_or_gt_of_ne hne with hlt | hgt
    · rw [List.getElem?_append_left hlt, ← List.getD_eq_getElem?_getD]
      exact getD_le_one hfront _
    · rw [List.getElem?_append_right hgt.le,
        List.getElem?_append_right (by rw [List.length_singleton]; omega),
        ← List.getD_eq_getElem?_getD]
      exact getD_le_one hback _
  · rw [List.nil_append]
    apply getD_le_one
    intro x hx
    rcases List.mem_append.mp hx with hx | hx
    · exact hfront x hx
    · exact hback x hx

/-- In front of a query that asks out of order, fewer queries were settled than
were asked. -/
theorem length_additions_lt (hregular : Regular events) (hsplit : events = front ++ e :: back)
    (hsmall : Small assign r (histories [] front)) (he : e.event = .asks q) (hinst : e.inst < r)
    (hunaligned : ¬ Aligned q.kind q.function front) :
    ((histories [] front).flatMap
      (addition assign r q.kind (functionNoAt front.reverse q.function))).length <
      position q.kind q.function front.reverse := by
  have hle : (histories [] front).countP (freshPair q.kind q.function) ≤
      position q.kind q.function front.reverse := by
    rw [position_reverse]
    exact List.countP_mono_left fun _ _ => asksPair_of_freshPair
  rw [length_additions_front hregular.ordered hsplit hsmall he hinst]
  exact lt_of_le_of_ne hle hunaligned

/-- A fresh query in order is at the position of its own entry. -/
theorem position_lt_of_inOrder {older newer : List (Timed Fn)} {e' : Timed Fn} {q' : Query Fn}
    (hfront : front = older.reverse ++ e' :: newer.reverse) (he' : e'.event = .asks q')
    (hfresh : Fresh older e' q') (horder : InOrder older e') :
    position q'.kind q'.function older <
      (histories [] front).countP (freshPair q'.kind q'.function) := by
  have haligned : Aligned q'.kind q'.function older.reverse := by
    rw [aligned_iff, List.reverse_reverse]
    exact (horder q' he' hfresh).2
  have hself : freshPair q'.kind q'.function (older, e') = true := by
    simp [freshPair, he', hfresh]
  rw [Aligned, List.reverse_reverse] at haligned
  rw [← haligned, hfront, histories_append, List.countP_append, List.reverse_reverse,
    List.append_nil, histories, List.countP_cons_of_pos hself]
  omega

/-- A fresh query behind one that was not is not replayed with 1. -/
theorem not_agrees_of_unaligned (hregular : Regular events) (hsplit : events = front ++ e :: back)
    (hbefore : ∀ he ∈ histories [] front, InOrder he.1 he.2) (he : e.event = .asks q)
    (hfresh : Fresh front.reverse e q) (hunaligned : ¬ Aligned q.kind q.function front) :
    ¬ Agrees events (onlyAt front.length 1) e.inst := by
  intro hagrees
  have hinst := hregular.instances e (by simp [hsplit])
  have hcode := answering_of_agrees hregular hinst (understood_onlyAt hregular hsplit hbefore 1)
    (fun i => (onlyAt_le _ 1 i).trans (by decide)) hsplit he hfresh rfl hagrees
  have hsmall : Small (onlyAt front.length 1) (e.inst + 1) (histories [] front) := by
    intro he' hmem _ _ _ _
    rw [onlyAt, if_neg (length_of_mem_front hmem).ne]
    decide
  have hfewer := length_additions_lt hregular hsplit hsmall he (Nat.lt_succ_self _) hunaligned
  -- Its own position is behind the entry that was meant for it.
  have hexplicit : explicit (settledMaps events (onlyAt front.length 1) (e.inst + 1))
      front.reverse q ≤ 1 :=
    explicit_le_one hsplit (by decide) fun _ => hfewer.ne'
  -- A namesake of the same instance reads no other query's entry either.
  have hcached : cached (settledMaps events (onlyAt front.length 1) (e.inst + 1)) q.kind q.name
      front.reverse ≤ 1 := by
    rcases cached_cases (settledMaps events (onlyAt front.length 1) (e.inst + 1)) q.kind q.name
      front.reverse with hzero | ⟨newer, e', older, q', hreverse, he', hkind, hname, hentry⟩
    · omega
    rw [hentry]
    apply explicit_le_one hsplit (by decide)
    intro hsettles
    have hfront := eq_of_reverse_eq hreverse
    have hsplit' : events = older.reverse ++ e' :: (newer.reverse ++ e :: back) := by
      rw [hsplit, hfront, List.append_assoc, List.cons_append]
    have hmem : (older, e') ∈ histories [] front := by
      rw [mem_histories_nil]
      exact ⟨older.reverse, newer.reverse, hfront, (List.reverse_reverse older).symm⟩
    have hearlier : e'.inst ≤ e.inst :=
      inst_le_of_mem_front hregular.ordered hsplit (by simp [hfront])
    have hfresh' : Fresh older e' q' := by
      intro d hd hasks
      rw [hkind, hname] at hasks
      exact hearlier.trans (hfresh d (by simp [hreverse, hd]) hasks)
    simp only [settles, he, decide_eq_true_eq] at hsettles
    have hfunction : q'.function = q.function := by
      refine function_eq_of_functionNoAt hsplit he hsplit' he' ?_
      rw [List.reverse_reverse]
      exact hsettles.1.2.symm
    have hlt := position_lt_of_inOrder hfront he' hfresh' (hbefore _ hmem)
    have hcount := length_additions_front hregular.ordered hsplit hsmall he (Nat.lt_succ_self _)
    rw [hkind, hfunction] at hlt
    rw [← hsettles.1.2, hkind, hcount, hfunction]
    exact hlt.ne
  have hown : onlyAt front.length 1 front.length = 1 := if_pos rfl
  rw [answering, hown] at hcode
  split at hcode
  · omega
  · split at hcode
    · omega
    · simp [compiling] at hcode

/-- Every round of every tuning run is replayed if and only if the fresh queries
of a kind and function come first and offer at most eighty values. -/
theorem agrees_iff_freshFirst (hregular : Regular events) :
    (∀ assign, Assignment events assign → ∀ r, r + 1 < 2 ^ 31 → Agrees events assign r) ↔
      FreshFirst events := by
  constructor
  · intro hagrees
    by_contra hnot
    obtain ⟨front, e, back, hsplit, hbad, hbefore⟩ := exists_first (p := InOrder) hnot
    have hinst := hregular.instances e (by simp [hsplit])
    simp only [InOrder, not_forall] at hbad
    obtain ⟨q, he, hfresh, hbad⟩ := hbad
    by_cases haligned : Aligned q.kind q.function front
    · have hlarge : 80 < q.numChoices := by
        by_contra hsmall
        exact hbad ⟨Nat.le_of_not_lt hsmall, aligned_iff.mp haligned⟩
      exact not_agrees_of_large hregular hsplit hbefore he hfresh haligned
        (hagrees _ (assignment_onlyAt hregular hsplit he hlarge) _ hinst)
    · have htwo := hregular.options _ q (asked_of_split hsplit he)
      exact not_agrees_of_unaligned hregular hsplit hbefore he hfresh haligned
        (hagrees _ (assignment_onlyAt hregular hsplit he htwo) _ hinst)
  · intro hfirst assign hassign r hr
    exact agrees_of_understood hregular hr (hfirst.understood hassign (r + 1))

/-! ### Two additions of a function -/

/-- A question for the no-signed-wrap flag of an addition with the given name. -/
def asksNamed (inst : Nat) (name : Str) : Timed Nat :=
  ⟨inst, .asks ⟨2, name, 0, lit "f", .overflowNsw, Nat.two_pos⟩⟩

/-- The second addition is created between the instances. -/
def secondAddition : List (Timed Nat) :=
  [asksNamed 0 (lit "a"), asksNamed 1 (lit "a"), asksNamed 1 (lit "b")]

theorem asked_secondAddition {i : Nat} {q : Query Nat} (h : Asked secondAddition i q) :
    q.kind = .overflowNsw ∧ q.numChoices = 2 := by
  obtain ⟨e, hi, he⟩ := h
  have hmem := List.mem_of_getElem? hi
  simp only [secondAddition, asksNamed, List.mem_cons, List.not_mem_nil, or_false] at hmem
  rcases hmem with rfl | rfl | rfl <;>
    (obtain rfl := Event.asks.inj he; exact ⟨rfl, rfl⟩)

theorem regular_secondAddition : Regular secondAddition where
  ordered := by simp [secondAddition, asksNamed]
  instances := by simp [secondAddition, asksNamed]
  kinds := by
    intro i q hasked
    rw [(asked_secondAddition hasked).1]
    decide
  options := by
    intro i q hasked
    exact (asked_secondAddition hasked).2.ge
  functions := by decide

theorem agrees_iff_freshFirst_secondAddition :
    (∀ assign, Assignment secondAddition assign → ∀ r, r + 1 < 2 ^ 31 →
      Agrees secondAddition assign r) ↔ FreshFirst secondAddition :=
  agrees_iff_freshFirst regular_secondAddition

/-- The first addition is answered silently in instance 1, but takes the entry
that is meant for the second one. -/
theorem not_agrees :
    ¬ ∀ events : List (Timed Nat), Regular events → ∀ assign, Assignment events assign →
      ∀ r, r + 1 < 2 ^ 31 → Agrees events assign r := by
  intro h
  have hassign : Assignment secondAddition (onlyAt 2 1) :=
    assignment_onlyAt regular_secondAddition
      (show secondAddition =
        [asksNamed 0 (lit "a"), asksNamed 1 (lit "a")] ++ asksNamed 1 (lit "b") :: [] from rfl)
      rfl (by decide)
  obtain ⟨maps, maps', hmaps, hmaps', hreplay, -⟩ :=
    h secondAddition regular_secondAddition _ hassign 1 (by decide)
  have hbuilt : built secondAddition (onlyAt 2 1) 2 = lit "#f0f#c40#f0f#c41" := rfl
  have hlisted : ∃ maps, decode .empty (built secondAddition (onlyAt 2 1) 1) = .ok maps ∧
      listed 2 maps secondAddition = [(2, ⟨2, 0, .overflowNsw, 0, lit "b", lit "f", by decide⟩)] :=
    ⟨_, rfl, rfl⟩
  have hanswers : ∃ maps', decode .empty (lit "#f0f#c40#f0f#c41") = .ok maps' ∧
      annotate compiling maps' secondAddition =
        [some ⟨0, none⟩, some ⟨1, none⟩, some ⟨0, none⟩] := ⟨_, rfl, rfl⟩
  obtain ⟨_, hone, hlist⟩ := hlisted
  obtain rfl := Except.ok.inj (hmaps.symm.trans hone)
  obtain ⟨_, htwo, hanswers⟩ := hanswers
  rw [hbuilt] at hmaps'
  obtain rfl := Except.ok.inj (hmaps'.symm.trans htwo)
  obtain ⟨printed, hgiven⟩ := hreplay _ (by rw [hlist]; exact List.mem_singleton.mpr rfl)
  rw [hanswers] at hgiven
  have hvalue : 0 = onlyAt 2 1 2 :=
    congrArg Answer.value (Option.some.inj (Option.some.inj hgiven))
  exact absurd hvalue (by decide)

end Petospa
