import Petospa.Transport.Settled

/-!
# When tuner and annotator agree by position

As long as the fresh queries of a kind and function come first, a built string
decodes to `settledMaps`, a round lists exactly the fresh queries of its
instance, and replaying it gives every query its value. The first fresh query
behind another one breaks the agreement.
-/

namespace Petospa

open Text Transducer

variable {Fn : Type*} [DecidableEq Fn] {events front back : List (Timed Fn)} {assign : Nat → Nat}
  {r : Nat} {e : Timed Fn} {q : Query Fn}

/-! ### What a round lists -/

theorem listing_annotates {r inst : Nat} (hr : r < 2 ^ 31) :
    (listing r).annotates inst = decide (inst < r) := by
  rw [Options.annotates, decide_eq_decide]
  show ¬ ((r : Int) % 2 ^ 32).toNat ≤ inst ↔ inst < r
  omega

theorem compiling_annotates {inst : Nat} (hinst : inst + 1 < 2 ^ 31) :
    compiling.annotates inst = true := by
  rw [Options.annotates, decide_eq_true_iff]
  show ¬ ((-1 : Int) % 2 ^ 32).toNat ≤ inst
  omega

theorem annotate_compiling (hregular : Regular events) (maps : ChoiceMaps) :
    annotate compiling maps events = answers compiling maps events := by
  rw [annotate, answers, List.filter_eq_self.mpr]
  intro e he
  exact compiling_annotates (hregular.instances e he)

theorem histories_below (hregular : Regular events) (r : Nat) :
    histories [] (events.filter fun e => e.inst < r) =
      (histories [] events).filter fun he => he.2.inst < r := by
  apply histories_filter
  apply hregular.ordered.imp
  intro a b hab hb
  simp only [decide_eq_true_eq] at hb ⊢
  omega

omit [DecidableEq Fn] in
/-- A round lists up to its own instance. -/
theorem filter_listing_annotates (hr : r < 2 ^ 31) :
    events.filter (fun e => (listing r).annotates e.inst) = events.filter fun e => e.inst < r := by
  apply List.filter_congr
  intro e _
  exact listing_annotates hr

/-- The opportunities of a round, read off the histories of the trace. -/
theorem listed_eq (hregular : Regular events) (hr : r < 2 ^ 31) (maps : ChoiceMaps) :
    listed r maps events =
      ((histories [] events).filter fun he => he.2.inst < r).filterMap fun he =>
        ((answerAt (listing r) maps he.1 he.2).bind Answer.printed).map
          fun o => (he.1.length, o) := by
  have hindex := zipIdx_histories [] (events.filter fun e => decide (e.inst < r))
  rw [List.length_nil] at hindex
  rw [listed, annotate, filter_listing_annotates hr,
    (Annotator.step_follows (listing r) maps).outputs (Annotator.initial_tracks maps),
    List.zipIdx_map, hindex, histories_below hregular, List.map_map, List.filterMap_map]
  rfl

/-- The opportunity that a round lists for a fresh query of its instance. -/
def freshOpportunity (r : Nat) (he : List (Timed Fn) × Timed Fn) : Option Opportunity :=
  match he.2.event with
  | .sees _ => none
  | .asks q =>
      if Fresh he.1 he.2 q ∧ he.2.inst = r then
        some ⟨q.numChoices, 0, q.kind, functionNoAt he.1 q.function, q.name, q.functionName,
          q.numChoices_pos⟩
      else none

/-! ### Fresh queries are listed, and no others -/

/-- The conditions under which a round is understood: what the rounds before it
settled has seven-bit values and comes first. -/
structure Understood (events : List (Timed Fn)) (assign : Nat → Nat) (r : Nat) : Prop where
  small : Small assign r (histories [] events)
  aligned : ∀ front e back q, events = front ++ e :: back → e.event = .asks q →
    Fresh front.reverse e q → e.inst < r → Aligned q.kind q.function front

omit [DecidableEq Fn] in
theorem mem_histories_split (hsplit : events = front ++ e :: back) :
    (front.reverse, e) ∈ histories [] events :=
  mem_histories_nil.mpr ⟨front, back, hsplit, rfl⟩

omit [DecidableEq Fn] in
theorem Small.of_split (h : Small assign r (histories [] events))
    (hsplit : events = front ++ e :: back) : Small assign r (histories [] front) :=
  fun he hmem => h he (mem_histories_front hsplit hmem)

omit [DecidableEq Fn] in
theorem asksName_of_event {kind : OptimisticChoiceKind} {name : Str}
    (h : e.asksName kind name = true) : ∃ q : Query Fn, e.event = .asks q ∧ q.kind = kind ∧
      q.name = name := by
  rw [Timed.asksName] at h
  cases he : e.event with
  | sees f => simp [he] at h
  | asks q =>
      simp only [he, decide_eq_true_eq] at h
      exact ⟨q, rfl, h⟩

/-- A fresh query of an earlier instance is answered with its value. -/
theorem Understood.explicit_eq (hregular : Regular events) (h : Understood events assign r)
    (hsplit : events = front ++ e :: back) (he : e.event = .asks q)
    (hfresh : Fresh front.reverse e q) (hinst : e.inst < r) :
    explicit (settledMaps events assign r) front.reverse q = assign front.length + 1 := by
  have hlt : assign front.length < 80 := by
    have := h.small _ (mem_histories_split hsplit) q he hfresh hinst
    rwa [List.length_reverse] at this
  exact explicit_settledMaps_of_fresh hregular.ordered hsplit (h.small.of_split hsplit) he hfresh
    hinst (h.aligned _ _ _ _ hsplit he hfresh hinst) (entries_of_lt hlt)

/-- A name that an earlier instance asked about was fresh once, and has an entry. -/
theorem Understood.cached_pos (hregular : Regular events) (h : Understood events assign r)
    (hsplit : events = front ++ e :: back) (hstale : ¬ Fresh front.reverse e q)
    (hinst : e.inst ≤ r) :
    0 < cached (settledMaps events assign r) q.kind q.name front.reverse := by
  simp only [Fresh, not_forall, List.mem_reverse] at hstale
  obtain ⟨d, hd, hname, hearlier⟩ := hstale
  -- The first query with this kind and name.
  have hfind : (front.find? (·.asksName q.kind q.name)).isSome = true :=
    List.find?_isSome.mpr ⟨d, hd, hname⟩
  obtain ⟨first, hfirst⟩ := Option.isSome_iff_exists.mp hfind
  obtain ⟨hfirstName, older, newer, rfl, hnone⟩ := List.find?_eq_some_iff_append.mp hfirst
  obtain ⟨q', he', hkind, hsame⟩ := asksName_of_event hfirstName
  have hsplit' : events = older ++ first :: (newer ++ e :: back) := by
    rw [hsplit, List.append_assoc, List.cons_append]
  have hfresh : Fresh older.reverse first q' := by
    intro e' hmem hasks
    have := hnone e' (List.mem_reverse.mp hmem)
    rw [hkind, hsame] at hasks
    simp [hasks] at this
  have hle : first.inst ≤ d.inst := by
    rcases List.mem_append.mp hd with hold | hrest
    · have := hnone d hold
      simp [hname] at this
    · rcases List.mem_cons.mp hrest with rfl | hnew
      · exact Nat.le_refl _
      · exact inst_le_of_mem_back hregular.ordered hsplit' (List.mem_append_left _ hnew)
  have hpos : 0 < explicit (settledMaps events assign r) older.reverse q' := by
    rw [h.explicit_eq hregular hsplit' he' hfresh (by omega)]
    omega
  have hreverse : (older ++ first :: newer).reverse = newer.reverse ++ first :: older.reverse := by
    simp
  rw [← hkind, ← hsame]
  exact Petospa.cached_pos hreverse he' hpos

/-- A name that is asked about for the first time in an instance has no entry. -/
theorem Understood.cached_eq_zero (hregular : Regular events) (h : Understood events assign r)
    (hsplit : events = front ++ e :: back) (hfresh : Fresh front.reverse e q)
    (hinst : r ≤ e.inst) :
    cached (settledMaps events assign r) q.kind q.name front.reverse = 0 := by
  apply Petospa.cached_eq_zero
  intro newer e' older q' hreverse he' hkind hname
  have hfront := eq_of_reverse_eq hreverse
  have hsplit' : events = older.reverse ++ e' :: (newer.reverse ++ e :: back) := by
    rw [hsplit, hfront, List.append_assoc, List.cons_append]
  have hle : e.inst ≤ e'.inst := by
    apply hfresh e'
    · rw [hreverse]
      simp
    · simp [Timed.asksName, he', hkind, hname]
  have hzero := explicit_settledMaps_eq_zero hregular.ordered hsplit'
    (h.small.of_split hsplit') he' (hinst.trans hle)
  rwa [List.reverse_reverse] at hzero

/-- A round lists the fresh queries of its instance. -/
theorem Understood.printed_eq (hregular : Regular events) (h : Understood events assign r)
    (hr : r + 1 < 2 ^ 31) {he : List (Timed Fn) × Timed Fn} (hmem : he ∈ histories [] events)
    (hinst : he.2.inst < r + 1) :
    (answerAt (listing (r + 1)) (settledMaps events assign r) he.1 he.2).bind Answer.printed =
      freshOpportunity r he := by
  obtain ⟨hist, e⟩ := he
  obtain ⟨front, back, hsplit, rfl⟩ := mem_histories_nil.mp hmem
  cases hevent : e.event with
  | sees f => simp [answerAt, freshOpportunity, hevent]
  | asks q =>
      have hlast : ((listing (r + 1)).annotationRuns < 0 ∨
          (e.inst : Int) = (listing (r + 1)).annotationRuns - 1) ↔ e.inst = r := by
        show (((r + 1 : Nat) : Int) < 0 ∨ (e.inst : Int) = ((r + 1 : Nat) : Int) - 1) ↔ e.inst = r
        omega
      simp only [answerAt, hevent, Option.bind_some, printedAt, hlast, freshOpportunity]
      by_cases hnow : e.inst = r
      · have hexplicit := explicit_settledMaps_eq_zero hregular.ordered hsplit
          (h.small.of_split hsplit) hevent hnow.ge
        by_cases hfresh : Fresh front.reverse e q
        · have hcached := h.cached_eq_zero hregular hsplit hfresh hnow.ge
          rw [if_pos ⟨hexplicit, hcached, hnow, rfl⟩, if_pos ⟨hfresh, hnow⟩, answering,
            if_neg (by omega), if_neg (by omega)]
          rfl
        · have hcached := h.cached_pos hregular hsplit hfresh hnow.le
          rw [if_neg (by omega), if_neg (fun hboth => hfresh hboth.1)]
      · rw [if_neg (fun hall => hnow hall.2.2.1), if_neg (fun hboth => hnow hboth.2)]

theorem Understood.listed_eq (hregular : Regular events) (h : Understood events assign r)
    (hr : r + 1 < 2 ^ 31) :
    listed (r + 1) (settledMaps events assign r) events =
      (histories [] events).filterMap fun he =>
        (freshOpportunity r he).map fun o => (he.1.length, o) := by
  rw [Petospa.listed_eq hregular hr, List.filterMap_filter]
  apply List.filterMap_congr
  intro he hmem
  by_cases hinst : he.2.inst < r + 1
  · simp only [hinst, decide_true, if_true, h.printed_eq hregular hr hmem hinst]
  · have hnone : freshOpportunity r he = none := by
      rw [freshOpportunity]
      split
      · rfl
      · rw [if_neg (fun hboth => by omega)]
    simp [hinst, hnone]

/-! ### What a built string decodes to -/

/-- What the round with the given number adds for a history. -/
def roundAddition (assign : Nat → Nat) (r : Nat) (kind : OptimisticChoiceKind) (fnNo : Nat)
    (he : List (Timed Fn) × Timed Fn) : List Nat :=
  if he.2.inst = r then addition assign (r + 1) kind fnNo he else []

theorem addition_eq_nil {kind : OptimisticChoiceKind} {fnNo : Nat}
    {he : List (Timed Fn) × Timed Fn} (hinst : r ≤ he.2.inst) :
    addition assign r kind fnNo he = [] := by
  have hnot : settles r kind fnNo he = false := by
    cases hevent : he.2.event with
    | sees f => simp [settles, hevent]
    | asks q => simp [settles, hevent, Nat.not_lt.mpr hinst]
  simp [addition, hnot]

theorem addition_succ {kind : OptimisticChoiceKind} {fnNo : Nat}
    {he : List (Timed Fn) × Timed Fn} (hinst : he.2.inst < r) :
    addition assign (r + 1) kind fnNo he = addition assign r kind fnNo he := by
  have hsame : settles (r + 1) kind fnNo he = settles r kind fnNo he := by
    cases hevent : he.2.event with
    | sees f => simp [settles, hevent]
    | asks q => simp [settles, hevent, hinst, Nat.lt_succ_of_lt hinst]
  rw [addition, addition, hsame]

/-- Instances run in order, so a round adds behind what is there. -/
theorem flatMap_addition_succ {kind : OptimisticChoiceKind} {fnNo : Nat}
    {hs : List (List (Timed Fn) × Timed Fn)}
    (hordered : hs.Pairwise fun a b => a.2.inst ≤ b.2.inst) :
    hs.flatMap (addition assign (r + 1) kind fnNo) =
      hs.flatMap (addition assign r kind fnNo) ++
        hs.flatMap (roundAddition assign r kind fnNo) := by
  induction hs with
  | nil => rfl
  | cons he hs ih =>
      obtain ⟨hhead, htail⟩ := List.pairwise_cons.mp hordered
      rw [List.flatMap_cons, List.flatMap_cons, List.flatMap_cons, ih htail]
      rcases Nat.lt_or_ge he.2.inst r with hlt | hge
      · have hnone : roundAddition assign r kind fnNo he = [] := by
          rw [roundAddition, if_neg (by omega)]
        rw [addition_succ hlt, hnone, List.nil_append, List.append_assoc]
      · have hrest : hs.flatMap (addition assign r kind fnNo) = [] :=
          List.flatMap_eq_nil_iff.mpr fun he' hmem => addition_eq_nil (hge.trans (hhead he' hmem))
        have hhere :
            addition assign (r + 1) kind fnNo he = roundAddition assign r kind fnNo he := by
          by_cases hnow : he.2.inst = r
          · rw [roundAddition, if_pos hnow]
          · rw [roundAddition, if_neg hnow, addition_eq_nil (by omega)]
        rw [hrest, hhere, addition_eq_nil hge, List.nil_append, List.nil_append, List.nil_append]

/-- The entries of the choices that a round lists. -/
theorem flatMap_roundAddition (kind : OptimisticChoiceKind) (fnNo : Nat)
    (hs : List (List (Timed Fn) × Timed Fn)) :
    ((((hs.filterMap fun he => (freshOpportunity r he).map fun o => (he.1.length, o)).map
      (assigned assign)).filter (·.belongsTo kind fnNo)).flatMap fun oc => entries oc.value) =
      hs.flatMap (roundAddition assign r kind fnNo) := by
  induction hs with
  | nil => rfl
  | cons he hs ih =>
      rw [List.flatMap_cons, ← ih]
      cases hevent : he.2.event with
      | sees f =>
          have hnone : freshOpportunity r he = none := by rw [freshOpportunity, hevent]
          have hempty : roundAddition assign r kind fnNo he = [] := by
            simp [roundAddition, addition, settles, hevent]
          simp [hnone, hempty]
      | asks q =>
          by_cases hnow : Fresh he.1 he.2 q ∧ he.2.inst = r
          · obtain ⟨hfresh, rfl⟩ := hnow
            have hsome : freshOpportunity he.2.inst he = some ⟨q.numChoices, 0, q.kind,
                functionNoAt he.1 q.function, q.name, q.functionName, q.numChoices_pos⟩ := by
              simp only [freshOpportunity, hevent]
              rw [if_pos ⟨hfresh, trivial⟩]
            have hbelongs : ∀ o : Opportunity, o.kind = q.kind →
                o.functionNo = functionNoAt he.1 q.function →
                ((assigned assign (he.1.length, o)).belongsTo kind fnNo = true ↔
                  q.kind = kind ∧ functionNoAt he.1 q.function = fnNo) := by
              intro o hkind hno
              simp only [assigned, Opportunity.toChoice, OptimisticChoice.new,
                OptimisticChoice.belongsTo, hkind, hno, decide_eq_true_eq, Nat.cast_inj]
              refine and_congr_left fun _ => ⟨OptimisticChoiceKind.number_injective, ?_⟩
              rintro rfl
              rfl
            rw [List.filterMap_cons, hsome, Option.map_some, List.map_cons, List.filter_cons]
            by_cases hpair : q.kind = kind ∧ functionNoAt he.1 q.function = fnNo
            · rw [if_pos ((hbelongs _ rfl rfl).mpr hpair), List.flatMap_cons, roundAddition,
                if_pos rfl, addition, if_pos]
              · rfl
              · simp [settles, hevent, hpair, hfresh]
            · rw [if_neg (mt (hbelongs _ rfl rfl).mp hpair), roundAddition, if_pos rfl, addition,
                if_neg]
              · rfl
              · simp only [settles, hevent, decide_eq_true_eq]
                exact fun hall => hpair hall.1
          · have hnone : freshOpportunity r he = none := by
              simp only [freshOpportunity, hevent]
              rw [if_neg hnow]
            have hempty : roundAddition assign r kind fnNo he = [] := by
              rw [roundAddition]
              split
              · rename_i hinst
                have hstale : ¬ Fresh he.1 he.2 q := fun hfresh => hnow ⟨hfresh, hinst⟩
                simp [addition, settles, hevent, hstale]
              · rfl
            simp [hnone, hempty]

theorem Understood.mono {r' : Nat} (h : Understood events assign r) (hle : r' ≤ r) :
    Understood events assign r' where
  small := fun he hmem q hevent hfresh hinst => h.small he hmem q hevent hfresh (by omega)
  aligned := fun front e back q hsplit hevent hfresh hinst =>
    h.aligned front e back q hsplit hevent hfresh (by omega)

theorem mem_listed {io : Nat × Opportunity}
    (hio : io ∈ (histories [] events).filterMap fun he =>
      (freshOpportunity r he).map fun o => (he.1.length, o)) :
    ∃ front e back q, events = front ++ e :: back ∧ e.event = .asks q ∧ e.inst = r ∧
      Fresh front.reverse e q ∧ io = (front.length, ⟨q.numChoices, 0, q.kind,
        functionNoAt front.reverse q.function, q.name, q.functionName, q.numChoices_pos⟩) := by
  obtain ⟨⟨hist, e⟩, hmem, hsome⟩ := List.mem_filterMap.mp hio
  obtain ⟨front, back, hsplit, rfl⟩ := mem_histories_nil.mp hmem
  cases hevent : e.event with
  | sees f => simp [freshOpportunity, hevent] at hsome
  | asks q =>
      simp only [freshOpportunity, hevent] at hsome
      split at hsome
      · rename_i hnow
        obtain rfl := Option.some.inj hsome
        exact ⟨front, e, back, q, hsplit, hevent, hnow.2, hnow.1, by simp⟩
      · cases hsome

omit [DecidableEq Fn] in
theorem asked_of_split (hsplit : events = front ++ e :: back) (he : e.event = .asks q) :
    Asked events front.length q := by
  refine ⟨e, ?_, he⟩
  rw [hsplit, List.getElem?_append_right (Nat.le_refl _), Nat.sub_self]
  rfl

omit [DecidableEq Fn] in
theorem before_of_split (hsplit : events = front ++ e :: back) :
    before events front.length = front.reverse := by
  rw [before, hsplit, List.take_left]

theorem pairwise_histories (hregular : Regular events) :
    (histories [] events).Pairwise fun a b => a.2.inst ≤ b.2.inst := by
  rw [← List.pairwise_map (f := Prod.snd) (R := fun a b : Timed Fn => a.inst ≤ b.inst),
    map_snd_histories]
  exact hregular.ordered

/-- A built string decodes to the settled maps. -/
theorem decode_built (hregular : Regular events) (hr : r < 2 ^ 31)
    (h : Understood events assign (r - 1))
    (hcarried : ∀ front e back q, events = front ++ e :: back → e.event = .asks q →
      Fresh front.reverse e q → e.inst < r → assign front.length ≤ 80) :
    decode .empty (built events assign r) = .ok (settledMaps events assign r) := by
  induction r with
  | zero =>
      have hnone : settledMaps events assign 0 = .empty := by
        funext kind fnNo
        exact List.flatMap_eq_nil_iff.mpr fun he _ => addition_eq_nil (Nat.zero_le _)
      rw [hnone]
      rfl
  | succ r ih =>
      rw [Nat.add_sub_cancel] at h
      have hbefore := ih (by omega) (h.mono (by omega)) fun front e back q hsplit he hfresh hinst =>
        hcarried front e back q hsplit he hfresh (by omega)
      have hchoices : ∀ oc ∈ sortChoices
          ((listed (r + 1) (settledMaps events assign r) events).map (assigned assign)),
          oc.Codable ∧ oc.Encodable := by
        intro oc hoc
        rw [Sourcefile.mem_sortChoices, h.listed_eq hregular hr] at hoc
        obtain ⟨io, hio, rfl⟩ := List.mem_map.mp hoc
        obtain ⟨front, e, back, q, hsplit, he, hinst, hfresh, rfl⟩ := mem_listed hio
        have hkind := (hregular.kinds _ q (asked_of_split hsplit he)).bounds
        have hno : functionNoAt front.reverse q.function < 2 ^ 31 :=
          (functionNoAt_lt hsplit he).trans_le hregular.functions
        have hvalue := hcarried front e back q hsplit he hfresh (by omega)
        refine ⟨⟨?_, ?_, ?_, ?_⟩, ?_⟩
        · show (0 : Int) ≤ (functionNoAt front.reverse q.function : Nat)
          omega
        · show ((functionNoAt front.reverse q.function : Nat) : Int) < 2 ^ 31
          omega
        · show (1 : Int) ≤ (q.kind.number : Nat)
          omega
        · show ((q.kind.number : Nat) : Int) ≤ 22
          omega
        · show (fsencodeChar (48 + assign front.length)).isSome = true
          simp only [fsencodeChar]
          split
          · rfl
          · rw [if_pos (by omega)]
            rfl
      rw [built, hbefore]
      show decode .empty (layout (built events assign r) (sortChoices
        ((listed (r + 1) (settledMaps events assign r) events).map (assigned assign)))) = _
      rw [decode_layout hbefore (fun oc hoc => (hchoices oc hoc).1)
        (fun oc hoc => (hchoices oc hoc).2)]
      congr 1
      funext kind fnNo
      rw [ChoiceMaps.extend, filter_sortChoices, h.listed_eq hregular hr, flatMap_roundAddition,
        settledMaps, settledMaps, flatMap_addition_succ (pairwise_histories hregular)]

/-! ### Agreement -/

/-- The instances that a round annotates come first. -/
theorem filter_inst_isPrefix (hregular : Regular events) (r : Nat) :
    (events.filter fun e => e.inst < r) <+: events := by
  have hordered := hregular.ordered
  clear hregular
  induction events with
  | nil => exact List.prefix_refl _
  | cons e events ih =>
      obtain ⟨hhead, htail⟩ := List.pairwise_cons.mp hordered
      by_cases hinst : e.inst < r
      · rw [List.filter_cons_of_pos (by simpa using hinst)]
        exact List.cons_prefix_cons.mpr ⟨rfl, ih htail⟩
      · have hnone : (e :: events).filter (fun e => decide (e.inst < r)) = [] := by
          rw [List.filter_eq_nil_iff]
          intro d hd
          have hle : e.inst ≤ d.inst := by
            rcases List.mem_cons.mp hd with rfl | hd
            · exact Nat.le_refl _
            · exact hhead d hd
          simp only [decide_eq_true_eq]
          omega
        rw [hnone]
        exact List.nil_prefix

/-- The answer of a listing run to a query with an entry. -/
theorem listing_answer (hregular : Regular events) (hr : r < 2 ^ 31) {maps : ChoiceMaps} {i : Nat}
    {answer : Answer} (hasked : Asked events i q) (hpos : 0 < explicit maps (before events i) q)
    (hlisted : (annotate (listing r) maps events)[i]? = some (some answer)) :
    answer.value = explicit maps (before events i) q - 1 := by
  rw [annotate, filter_listing_annotates hr,
    (Annotator.step_follows (listing r) maps).getElem?_outputs (Annotator.initial_tracks maps)]
    at hlisted
  obtain ⟨back, hback⟩ := filter_inst_isPrefix hregular r
  generalize events.filter (fun e => decide (e.inst < r)) = early at hback hlisted
  obtain ⟨e, he, hanswer⟩ := Option.map_eq_some_iff.mp hlisted
  have hlt : i < early.length := (List.getElem?_eq_some_iff.mp he).1
  have htake : early.take i = events.take i := by
    rw [← hback, List.take_append_of_le_length hlt.le]
  obtain ⟨e', he', hevent⟩ := hasked
  have hsame : e = e' := by
    rw [← hback, List.getElem?_append_left hlt] at he'
    exact Option.some.inj (he.symm.trans he')
  subst hsame
  rw [htake, answerAt, hevent] at hanswer
  obtain rfl := Option.some.inj hanswer
  show answering _ _ (before events i) _ - 1 = _
  rw [answering, if_pos hpos]

/-- Later rounds keep the entries of earlier ones. -/
theorem explicit_settledMaps_succ (hregular : Regular events) (hist : List (Timed Fn))
    (h : 0 < explicit (settledMaps events assign r) hist q) :
    explicit (settledMaps events assign (r + 1)) hist q =
      explicit (settledMaps events assign r) hist q := by
  have hlt : position q.kind q.function hist <
      (settledMaps events assign r q.kind (functionNoAt hist q.function)).length := by
    by_contra hge
    rw [explicit, List.getD_eq_getElem?_getD,
      List.getElem?_eq_none (Nat.le_of_not_lt hge)] at h
    exact absurd h (Nat.lt_irrefl 0)
  rw [explicit, explicit, List.getD_eq_getElem?_getD, List.getD_eq_getElem?_getD, settledMaps,
    flatMap_addition_succ (pairwise_histories hregular)]
  rw [settledMaps] at hlt ⊢
  rw [List.getElem?_append_left hlt]

/-- An understood round is replayed. -/
theorem agrees_of_understood (hregular : Regular events) (hr : r + 1 < 2 ^ 31)
    (h : Understood events assign (r + 1)) : Agrees events assign r := by
  have hcarried : ∀ front e back q, events = front ++ e :: back → e.event = .asks q →
      Fresh front.reverse e q → e.inst < r + 1 → assign front.length ≤ 80 := by
    intro front e back q hsplit he hfresh hinst
    have hlt := h.small _ (mem_histories_split hsplit) q he hfresh hinst
    rw [List.length_reverse] at hlt
    exact hlt.le
  have hnow := decode_built hregular hr (h.mono (by omega)) hcarried
  have hbefore : decode .empty (built events assign r) = .ok (settledMaps events assign r) :=
    decode_built hregular (by omega) (h.mono (by omega))
      fun front e back q hsplit he hfresh hinst =>
        hcarried front e back q hsplit he hfresh (by omega)
  refine ⟨_, _, hbefore, hnow, ?_, ?_⟩
  · intro io hio
    rw [(h.mono (by omega)).listed_eq hregular hr] at hio
    obtain ⟨front, e, back, q, hsplit, he, hinst, hfresh, rfl⟩ := mem_listed hio
    obtain ⟨printed, hanswer⟩ := answers_asked compiling (settledMaps events assign (r + 1))
      (asked_of_split hsplit he)
    refine ⟨printed, ?_⟩
    have hexplicit := h.explicit_eq hregular hsplit he hfresh (by omega)
    rw [annotate_compiling hregular, hanswer, before_of_split hsplit, answering, hexplicit,
      if_pos (by omega)]
    rfl
  · intro i q answer hasked hpos hlisted
    have hvalue := listing_answer hregular hr hasked hpos hlisted
    have hkept := explicit_settledMaps_succ hregular (before events i) hpos
    obtain ⟨printed, hanswer⟩ := answers_asked compiling (settledMaps events assign (r + 1)) hasked
    refine ⟨printed, ?_⟩
    rw [annotate_compiling hregular, hanswer, answering, hkept, if_pos hpos, hvalue]

end Petospa
