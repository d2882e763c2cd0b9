import Petospa.Transport.OpportunityLines

/-!
# Counting default answers

What a run prints is one opportunity for each query that it answers by default in
an instance that prints. The tuner finds as many choices for each kind and
function.
-/

namespace Petospa

open Text Transducer

section Runs

variable {Fn : Type*} [DecidableEq Fn]

/-- The opportunities that a run prints, in their order. -/
def printedBy (opts : Options) (maps : ChoiceMaps) (events : List (Timed Fn)) : List Opportunity :=
  (annotate opts maps events).filterMap fun answer => answer.bind Answer.printed

/-- The number of a function at the end of a run. -/
def numberOf (opts : Options) (events : List (Timed Fn)) (f : Fn) : Nat :=
  (functionsSeen (events.filter fun e => opts.annotates e.inst).reverse).idxOf f

/-- Opportunities are printed in all instances or in the last requested one. -/
def Options.prints (opts : Options) (inst : Nat) : Bool :=
  opts.annotationRuns < 0 ∨ (inst : Int) = opts.annotationRuns - 1

/-- A query about the kind and function for which there is neither an entry of its
own nor one of a namesake. -/
def answeredByDefault (maps : ChoiceMaps) (kind : OptimisticChoiceKind) (f : Fn)
    (hist : List (Timed Fn)) (e : Timed Fn) : Bool :=
  match e.event with
  | .sees _ => false
  | .asks q =>
      q.kind = kind ∧ q.function = f ∧ explicit maps hist q = 0 ∧
        cached maps q.kind q.name hist = 0

/-- The queries of some instances that a run answers by default. -/
def numDefaults (opts : Options) (maps : ChoiceMaps) (events : List (Timed Fn))
    (instances : Nat → Bool) (kind : OptimisticChoiceKind) (f : Fn) : Nat :=
  (histories [] (events.filter fun e => opts.annotates e.inst)).countP fun he =>
    instances he.2.inst && answeredByDefault maps kind f he.1 he.2

theorem printedBy_eq (opts : Options) (maps : ChoiceMaps) (events : List (Timed Fn)) :
    printedBy opts maps events =
      (histories [] (events.filter fun e => opts.annotates e.inst)).filterMap fun he =>
        (answerAt opts maps he.1 he.2).bind Answer.printed := by
  rw [printedBy, annotate,
    (Annotator.step_follows opts maps).outputs (Annotator.initial_tracks maps), List.filterMap_map]
  rfl

/-- A function that was asked about has its number for good. -/
theorem functionNoAt_eq_iff {events front back : List (Timed Fn)} {e : Timed Fn} {q : Query Fn}
    {f : Fn} (hsplit : events = front ++ e :: back) (he : e.event = .asks q) :
    functionNoAt front.reverse q.function = (functionsSeen events.reverse).idxOf f ↔
      q.function = f := by
  have hfunction : e.function = q.function := by rw [Timed.function, he]
  have hseen : functionsSeen (e :: front.reverse) =
      number (functionsSeen front.reverse) q.function := by rw [functionsSeen, hfunction]
  have hmem : q.function ∈ functionsSeen (e :: front.reverse) := by
    rw [hseen]
    exact mem_number.mpr (.inr rfl)
  have hreverse : events.reverse = back.reverse ++ e :: front.reverse := by
    rw [hsplit, List.reverse_append, List.reverse_cons, List.append_assoc]
    rfl
  obtain ⟨later, hlater⟩ := functionsSeen_isPrefix back.reverse (e :: front.reverse)
  have hstays : (functionsSeen (e :: front.reverse) ++ later).idxOf q.function =
      (functionsSeen (e :: front.reverse)).idxOf q.function := List.idxOf_append_of_mem hmem
  rw [functionNoAt, ← hseen, hreverse, ← hlater, ← hstays]
  constructor
  · exact idxOf_injective (List.mem_append_left later hmem)
  · rintro rfl
    rfl

variable {opts : Options}

/-- A query prints an opportunity of the kind and function if it is answered by default. -/
theorem belongsTo_printed (hprint : opts.printOptimisticOpportunities = true) (maps : ChoiceMaps)
    {events front back : List (Timed Fn)} {e : Timed Fn} (hsplit : events = front ++ e :: back)
    (kind : OptimisticChoiceKind) (f : Fn) :
    (((answerAt opts maps front.reverse e).bind Answer.printed).map fun o =>
        o.toChoice.belongsTo kind ((functionsSeen events.reverse).idxOf f)).getD false =
      (opts.prints e.inst && answeredByDefault maps kind f front.reverse e) := by
  cases he : e.event with
  | sees g => simp [answerAt, answeredByDefault, he]
  | asks q =>
      by_cases hdefault : explicit maps front.reverse q = 0 ∧
          cached maps q.kind q.name front.reverse = 0 ∧
          (opts.annotationRuns < 0 ∨ (e.inst : Int) = opts.annotationRuns - 1) ∧
          opts.printOptimisticOpportunities
      · have hnumber := functionNoAt_eq_iff (f := f) hsplit he
        have hkind : q.kind.number = kind.number ↔ q.kind = kind :=
          ⟨OptimisticChoiceKind.number_injective, fun h => h ▸ rfl⟩
        obtain ⟨hexplicit, hcached, hlast, -⟩ := hdefault
        simp [answerAt, he, printedAt, answeredByDefault, Options.prints, hexplicit, hcached, hlast,
          hprint, Opportunity.toChoice, OptimisticChoice.new, OptimisticChoice.belongsTo, hnumber,
          hkind]
      · simp only [answerAt, he, printedAt, if_neg hdefault, Option.bind_some, Option.map_none,
          Option.getD_none, answeredByDefault]
        symm
        rw [Bool.eq_false_iff]
        intro h
        simp only [Options.prints, Bool.and_eq_true, decide_eq_true_eq] at h
        obtain ⟨hlast, -, -, hexplicit, hcached⟩ := h
        exact hdefault ⟨hexplicit, hcached, hlast, hprint⟩

theorem countP_printedBy (hprint : opts.printOptimisticOpportunities = true) (maps : ChoiceMaps)
    (events : List (Timed Fn)) (kind : OptimisticChoiceKind) (f : Fn) :
    ((printedBy opts maps events).map Opportunity.toChoice).countP
        (·.belongsTo kind (numberOf opts events f)) =
      numDefaults opts maps events opts.prints kind f := by
  rw [printedBy_eq, List.countP_map, List.countP_filterMap, numDefaults]
  apply List.countP_congr
  rintro ⟨hist, e⟩ hmem
  obtain ⟨front, back, hsplit, rfl⟩ := mem_histories_nil.mp hmem
  have hprinted := belongsTo_printed hprint maps hsplit kind f
  rw [Bool.eq_iff_iff] at hprinted
  exact hprinted

end Runs

/-! ### The way of the opportunities -/

universe u

/-- The tuner finds the printed opportunities in their order, and builds each choice
with the data that was printed. -/
structure RoundTrips (lines : List StderrLine) : Prop where
  found : (decodeUtf8 (stderr lines)).map findOpportunities =
    some ((opportunities lines).map Opportunity.groups)
  built : ∀ o ∈ opportunities lines, ∀ position,
    OptimisticChoice.ofMatch o.groups position = some { o.toChoice with position := position }
  /-- Without a whitelist and a blacklist all of them are returned. -/
  returned : determineOptimisticChoices ⟨none, []⟩ (stderr lines) =
    some ((opportunities lines).length,
      (opportunities lines).zipIdx.map fun oi => { oi.1.toChoice with position := oi.2 })

/-- In the output of a run there are as many choices of each kind and function as
queries of the given instances that the run answered by default. -/
def CountsDefaults (lines : List StderrLine) (instances : Options → Nat → Bool) : Prop :=
  ∀ (Fn : Type u) [DecidableEq Fn] (opts : Options) (maps : ChoiceMaps) (events : List (Timed Fn)),
    opts.printOptimisticOpportunities = true → printedBy opts maps events = opportunities lines →
    ∀ kind f, ((opportunities lines).map Opportunity.toChoice).countP
      (·.belongsTo kind (numberOf opts events f)) =
        numDefaults opts maps events (instances opts) kind f

theorem roundTrips_and_countsDefaults {lines : List StderrLine}
    (hproper : ∀ line ∈ lines, line.Proper) (htext : ∀ line ∈ lines, line.IsText) :
    RoundTrips lines ∧ CountsDefaults.{u} lines Options.prints := by
  refine ⟨⟨?_, fun o _ position => ofMatch_groups o position,
    determineOptimisticChoices_stderr hproper htext⟩, ?_⟩
  · obtain ⟨runOutput, hdecoded, hfound⟩ := findOpportunities_stderr hproper htext
    rw [hdecoded, Option.map_some, hfound]
  · intro Fn _ opts maps events hprint hprinted kind f
    rw [← hprinted]
    exact countP_printedBy hprint maps events kind f

/-- A warning and the opportunity of an addition. -/
def warningAndAddition : List StderrLine :=
  [.other (lit "1 warning"),
    .opportunity ⟨2, 0, .overflowNsw, 0, lit "add", lit "f", Nat.two_pos⟩]

theorem proper_warningAndAddition : ∀ line ∈ warningAndAddition, line.Proper := by
  simp only [warningAndAddition, List.forall_mem_cons]
  exact ⟨⟨by decide, by decide⟩, ⟨by decide, by decide, by decide, by decide⟩, by simp⟩

theorem isText_warningAndAddition : ∀ line ∈ warningAndAddition, line.IsText := by
  have hplain : ∀ line ∈ warningAndAddition, ∀ byte ∈ line.bytes, byte < 128 := by decide
  intro line hline
  exact ⟨line.bytes, utf8_ascii (hplain line hline)⟩

theorem roundTrips_and_countsDefaults_addition :
    printedBy ⟨false, 1, true⟩ .empty [asksNsw 0 0] = opportunities warningAndAddition ∧
      RoundTrips warningAndAddition ∧ CountsDefaults.{0} warningAndAddition Options.prints :=
  ⟨by decide, roundTrips_and_countsDefaults proper_warningAndAddition isText_warningAndAddition⟩

/-- A line that is no text makes the decoding raise, and instances in front of the
last one answer by default in silence. -/
theorem not_roundTrips_and_countsDefaults :
    (¬ ∀ lines, (∀ line ∈ lines, line.Proper) → RoundTrips lines) ∧
      ¬ ∀ lines, (∀ line ∈ lines, line.Proper) → CountsDefaults.{0} lines fun _ _ => true := by
  constructor
  · intro h
    have hproper : ∀ line ∈ [StderrLine.other [255]], line.Proper := by
      intro line hline
      obtain rfl := List.mem_singleton.mp hline
      exact ⟨by decide, by decide⟩
    have hraises : decodeUtf8 (stderr [.other [255]]) = none := decodeUtf8_eq_none (by decide)
    have hfound := (h _ hproper).found
    rw [hraises] at hfound
    cases hfound
  · intro h
    have hcount := h [] (by simp) Nat ⟨false, 2, true⟩ .empty [asksNsw 0 0] rfl (by decide)
      .overflowNsw 0
    exact absurd hcount (by decide)

end Petospa
