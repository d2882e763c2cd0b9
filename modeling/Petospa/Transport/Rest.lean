import Petospa.Transport.Frame
import Petospa.Transport.Rewriting

/-!
# Calls leave the rest of the source alone

Functions are told apart by their names in the module, annotations by the names
in C. A run of calls leaves the rest alone if every call finds a text with nothing
that it takes for an annotation, and no other function shares a C name with one
of its own.
-/

namespace Petospa

open Text

/-- The name of a function in C. -/
def cNameOf (f : Str) : Str := f.map fun c => if c = ord '.' then ord '_' else c

/-- The functions that a call annotates. -/
def annotated (ocs : List OptimisticChoice) : List Str :=
  (ocs.filter fun oc => 0 ≤ oc.opportunityNo).map OptimisticChoice.function

theorem map_cNameOf_annotated (ocs : List OptimisticChoice) :
    (annotated ocs).map cNameOf = annotatedNames ocs := by
  rw [annotated, annotatedNames, List.map_map]
  rfl

/-- The C names of the functions that are not among `fs`. -/
def otherNames (functions fs : List Str) : List Str :=
  (functions.filter fun f => ∀ g ∈ fs, f ≠ g).map cNameOf

theorem otherNames_subset {functions fs fs' : List Str} (h : fs ⊆ fs') :
    otherNames functions fs' ⊆ otherNames functions fs := by
  refine List.map_subset _ fun f hf => ?_
  simp only [List.mem_filter, decide_eq_true_eq] at hf ⊢
  exact ⟨hf.1, fun g hg => hf.2 g (h hg)⟩

/-- A call of `writeControl` that writes the file. -/
structure Rewrite (stem : Str) where
  before : Str
  choices : List OptimisticChoice
  after : Str
  written : writeControl stem before choices = .ok after

/-- Calls one after the other on one file. -/
inductive Rewrites (stem : Str) : Str → List (Rewrite stem) → Str → Prop where
  | nil (text : Str) : Rewrites stem text [] text
  | cons {calls : List (Rewrite stem)} {text : Str} (call : Rewrite stem)
      (rest : Rewrites stem call.after calls text) : Rewrites stem call.before (call :: calls) text

namespace Rewrite

variable {stem : Str}

/-- The call leaves the rest of the file alone. -/
def Framed (functions : List Str) (call : Rewrite stem) : Prop :=
  Frame stem (annotatedNames call.choices) (otherNames functions (annotated call.choices))
    call.before call.after

/-- No other function has the C name of a function of the call. -/
def Distinct (functions : List Str) (call : Rewrite stem) : Prop :=
  (annotatedNames call.choices).Disjoint (otherNames functions (annotated call.choices))

/-- The call takes nothing for what it is not. -/
def Untouched (call : Rewrite stem) : Prop :=
  Petospa.Untouched stem (annotatedNames call.choices) call.before

/-- The call is about functions of the module. -/
def About (functions : List Str) (call : Rewrite stem) : Prop := annotated call.choices ⊆ functions

variable {functions : List Str} {call : Rewrite stem}

theorem About.identifier (h : call.About functions)
    (hfunctions : ∀ f ∈ functions, Identifier (cNameOf f)) :
    ∀ f ∈ annotatedNames call.choices, Identifier f := by
  intro f hf
  rw [← map_cNameOf_annotated] at hf
  obtain ⟨g, hg, rfl⟩ := List.mem_map.mp hf
  exact hfunctions g (h hg)

theorem framed_of_untouched (hstem : Identifier stem)
    (hfunctions : ∀ f ∈ functions, Identifier (cNameOf f)) (habout : call.About functions)
    (hdistinct : call.Distinct functions) (h : call.Untouched) : call.Framed functions := by
  have hnames := habout.identifier hfunctions
  refine Untouched.frame hstem ?_ hdistinct h (writeControl_written hstem hnames call.written)
  intro f hf
  cases List.mem_append.mp hf with
  | inl hmem => exact hnames f hmem
  | inr hmem =>
      obtain ⟨g, hg, rfl⟩ := List.mem_map.mp hmem
      exact hfunctions g (List.mem_filter.mp hg).1

theorem untouched_of_framed (hstem : Identifier stem)
    (hfunctions : ∀ f ∈ functions, Identifier (cNameOf f)) (habout : call.About functions)
    (h : call.Framed functions) : call.Untouched :=
  have hnames := habout.identifier hfunctions
  have hreturn := carriageReturn_notMem_writeControl hstem hnames call.written
  h.untouched (h.untranslated hstem hnames hreturn) (writeControl_written hstem hnames call.written)

end Rewrite

section Runs

variable {stem : Str} {fs fs' gs gs' : List Str} {text text' text'' : Str}

theorem Frame.refl (stem : Str) (fs gs : List Str) (text : Str) : Frame stem fs gs text text :=
  ⟨List.filter_sublist, fun _ _ => rfl⟩

/-- What is left alone by a call may be cut down. -/
theorem Frame.mono (h : Frame stem fs gs text text') (hfs : fs ⊆ fs') (hgs : gs' ⊆ gs) :
    Frame stem fs' gs' text text' where
  kept := by
    have hsplit : ((lineBodies text).filter fun line => ¬ AnnotatesAny stem fs' line) =
        ((lineBodies text).filter fun line => ¬ AnnotatesAny stem fs line).filter
          fun line => ¬ AnnotatesAny stem fs' line := by
      rw [List.filter_filter]
      refine List.filter_congr fun line _ => ?_
      have hmono : AnnotatesAny stem fs line → AnnotatesAny stem fs' line := by
        rintro ⟨f, hf, hannotates⟩
        exact ⟨f, hfs hf, hannotates⟩
      by_cases hline : AnnotatesAny stem fs line
      · simp [hline, hmono hline]
      · simp [hline]
    rw [hsplit]
    exact List.filter_sublist.trans h.kept
  others := fun g hg => h.others g (hgs hg)

/-- Two calls that leave the same alone do so together. -/
theorem Frame.trans (h : Frame stem fs gs text text') (h' : Frame stem fs gs text' text'') :
    Frame stem fs gs text text'' where
  kept := by
    have hfilter := h.kept.filter fun line => decide (¬ AnnotatesAny stem fs line)
    rw [List.filter_filter, List.filter_congr fun line _ => Bool.and_self _] at hfilter
    exact hfilter.trans h'.kept
  others := fun g hg => (h'.others g hg).trans (h.others g hg)

/-- What every call leaves alone, the run leaves alone. -/
theorem Rewrites.frame {functions : List Str} {calls : List (Rewrite stem)}
    (hcalls : Rewrites stem text calls text') (h : ∀ call ∈ calls, call.Framed functions) :
    Frame stem (calls.flatMap fun call => annotatedNames call.choices)
      (otherNames functions (calls.flatMap fun call => annotated call.choices)) text text' := by
  induction hcalls with
  | nil text => exact Frame.refl stem _ _ text
  | cons call rest ih =>
      have hfirst := h call List.mem_cons_self
      have hrest := ih fun c hc => h c (List.mem_cons_of_mem _ hc)
      simp only [List.flatMap_cons]
      refine Frame.trans (hfirst.mono ?_ ?_) (hrest.mono ?_ ?_)
      · exact List.subset_append_left _ _
      · exact otherNames_subset (List.subset_append_left _ _)
      · exact List.subset_append_right _ _
      · exact otherNames_subset (List.subset_append_right _ _)

/-- Where C names tell the functions apart, a call leaves the rest alone exactly
if it takes nothing for what it is not; and then so does a run of such calls. -/
theorem writeControl_frame (hstem : Identifier stem) (functions : List Str)
    (hfunctions : ∀ f ∈ functions, Identifier (cNameOf f)) {calls : List (Rewrite stem)}
    (hcalls : Rewrites stem text calls text') (habout : ∀ call ∈ calls, call.About functions) :
    (∀ call ∈ calls, call.Distinct functions → (call.Framed functions ↔ call.Untouched)) ∧
      ((∀ call ∈ calls, call.Distinct functions ∧ call.Untouched) →
        (∀ call ∈ calls, call.Framed functions) ∧
        Frame stem (calls.flatMap fun call => annotatedNames call.choices)
          (otherNames functions (calls.flatMap fun call => annotated call.choices))
          text text') := by
  have hframed : ∀ call ∈ calls, call.Distinct functions → call.Untouched →
      call.Framed functions := fun call hcall hdistinct huntouched =>
    Rewrite.framed_of_untouched hstem hfunctions (habout call hcall) hdistinct huntouched
  constructor
  · intro call hcall hdistinct
    exact ⟨Rewrite.untouched_of_framed hstem hfunctions (habout call hcall),
      hframed call hcall hdistinct⟩
  · intro h
    have hall : ∀ call ∈ calls, call.Framed functions := fun call hcall =>
      hframed call hcall (h call hcall).1 (h call hcall).2
    exact ⟨hall, hcalls.frame hall⟩

end Runs

/-! ### A function whose name starts with another's -/

/-- What a call generates for `foo` in the first and in the second call. -/
def fooAnnotations (cs : String) : Str :=
  declarationLine (lit "foo") (lit cs) ++ keepAliveLine (lit "main") (lit "foo")

/-- A file with the annotations of `bar`. -/
def barSource : Str :=
  lit "int x;" ++ [newline] ++ declarationLine (lit "bar") (lit "#c41") ++
    keepAliveLine (lit "main") (lit "bar")

/-- A first call for `foo`. -/
def firstCall : Rewrite (lit "main") where
  before := barSource
  choices := [settledNsw 0 (lit "foo")]
  after := barSource ++ fooAnnotations "#c41"
  written := by decide +kernel

/-- The call that comes next. -/
def secondCall : Rewrite (lit "main") where
  before := firstCall.after
  choices := [settledNsw 0 (lit "foo")]
  after := barSource ++ fooAnnotations "#c41#c41"
  written := by decide +kernel

/-- A run of two calls for `foo` leaves the annotations of `bar` alone. -/
theorem writeControl_frame_foo :
    Frame (lit "main") (annotatedNames (firstCall.choices ++ secondCall.choices)) [lit "bar"]
      firstCall.before secondCall.after := by
  have hcalls : Rewrites (lit "main") firstCall.before [firstCall, secondCall] secondCall.after :=
    .cons firstCall (.cons secondCall (.nil _))
  have hframe := writeControl_frame (by unfold Identifier; decide) [lit "foo", lit "bar"]
    (by unfold Identifier; decide) hcalls (by unfold Rewrite.About; decide)
  have hmeets : ∀ call ∈ [firstCall, secondCall],
      call.Distinct [lit "foo", lit "bar"] ∧ call.Untouched := by
    have hdisjoint : List.Disjoint [lit "foo"] [lit "bar"] :=
      List.disjoint_singleton.mpr (by decide)
    intro call hcall
    cases hcall with
    | head => exact ⟨hdisjoint, by decide +kernel, by decide +kernel, by decide +kernel⟩
    | tail _ hcall =>
        obtain rfl := List.mem_singleton.mp hcall
        exact ⟨hdisjoint, by decide +kernel, by decide +kernel, by decide +kernel⟩
  exact (hframe.2 hmeets).2

/-- A call for `foo` in a file with the annotations of `foobar`: its `KeepAlive`
line is taken for one of `foo` and dropped. -/
def foobarCall : Rewrite (lit "main") where
  before := declarationLine (lit "foobar") (lit "#c41") ++
    keepAliveLine (lit "main") (lit "foobar")
  choices := [settledNsw 0 (lit "foo")]
  after := declarationLine (lit "foobar") (lit "#c41") ++ fooAnnotations "#c41"
  written := by decide +kernel

theorem not_all_framed : ¬ ∀ (stem : Str) (functions : List Str) (text text' : Str)
    (calls : List (Rewrite stem)), Identifier stem → (∀ f ∈ functions, Identifier (cNameOf f)) →
    Rewrites stem text calls text' → (∀ call ∈ calls, call.About functions) →
    ∀ call ∈ calls, call.Framed functions := by
  intro hall
  have hframed := hall (lit "main") [lit "foo", lit "foobar"] foobarCall.before foobarCall.after
    [foobarCall] (by unfold Identifier; decide) (by unfold Identifier; decide)
    (.cons foobarCall (.nil _)) (by unfold Rewrite.About; decide) foobarCall List.mem_cons_self
  have hothers := hframed.others (lit "foobar") (by decide +kernel)
  revert hothers
  decide +kernel

end Petospa
