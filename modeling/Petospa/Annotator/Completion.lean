import Petospa.Annotator.NonOptimistic
import Petospa.Annotator.RunAttributes

/-!
# The passes come to their end

With answers in range no assertion of the passes fails, as long as no pointer can be made
dereferenceable for no bytes, and everything that is asked about has a name or can get one.
-/

namespace Petospa

open Text Interaction

/-- The value has a name or can get one. -/
def Subject.Nameable {Const : Type} (constantName : Const → Str) (functionName : Str) :
    Subject Const → Prop
  | function => functionName ≠ []
  | .local (.block _) => False
  | .local _ => True
  | store _ (.local (.block _)) => False
  | store _ (.local _) => True
  | store _ (.constant c) => constantName c ≠ []

/-- The question can be asked. -/
def PassQuestion.Nameable {Fn Const : Type} (functionName : Fn → Str) (constantName : Const → Str) :
    PassQuestion Fn Const → Prop
  | .choice q => q.subject.Nameable constantName (functionName q.function)
  | .getName _ _ => True

/-- No choice makes a pointer dereferenceable for no bytes. -/
structure FunctionHeader.HasBytes {Ty : Type} (T : TypeInfo Ty) (header : FunctionHeader Ty) :
    Prop where
  arg : ∀ arg ∈ header.args, T.isPointerTy arg.type = true →
    ∀ choice, ¬ NoBytes T arg.type choice
  returnType : T.isPointerTy header.returnType = true →
    ∀ choice, ¬ NoBytes T header.returnType choice

namespace Passes

open PassQuestion

section Attributes

variable {Fn Ty Const : Type} {T : TypeInfo Ty} {kind : OptimisticChoiceKind} {f : Fn}
variable {functionName : Fn → Str} {constantName : Const → Str}

variable [DecidableEq Ty]

end Attributes

section Code

variable {Fn Ty Const Op Loop : Type} {P : PassInfo Fn Ty Const Op Loop}
variable {kind : OptimisticChoiceKind} {f : Fn} {inst : Nat}

/-- Stores go to something that has a name or can get one. -/
def StoresNameable (P : PassInfo Fn Ty Const Op Loop) (code : Code Fn Ty Const Op) : Prop :=
  ∀ i ∈ code.instructions, ∀ s, i.opcode = .store s →
    ∀ functionName, (Subject.store i.id s.pointer).Nameable P.constantName functionName

theorem StoresNameable.withAssumption [DecidableEq Ty] {fn : FunctionState Fn Ty Const Op}
    (h : StoresNameable P fn.code) (c : Const) (r : LocalRef) (point : InsertionPoint) :
    StoresNameable P (withAssumption P c fn r point).code := by
  intro i hi s hs
  obtain hi | hi := Code.mem_instructions_insertAt hi
  · simp only [assumption, List.mem_cons, List.not_mem_nil, or_false] at hi
    obtain rfl | rfl := hi
    · cases hs
    · cases hs
  · exact h i hi s hs

theorem StoresNameable.assumed [DecidableEq Ty] {fn fn' : FunctionState Fn Ty Const Op}
    (h : StoresNameable P fn.code) (hassumed : Assumed P fn fn') : StoresNameable P fn'.code := by
  induction hassumed with
  | refl => exact h
  | tail _ hstep ih =>
      obtain ⟨c, r, point, rfl⟩ := hstep
      exact ih.withAssumption c r point

/-! ### Branches -/

variable [DecidableEq Const]

variable [DecidableEq Loop]

variable [DecidableEq Fn] [DecidableEq Ty]

/-- The passes can go on with these functions. -/
structure MayGoOn (P : PassInfo Fn Ty Const Op Loop) (functions : List Fn)
    (states : Fn → FunctionState Fn Ty Const Op) : Prop where
  hasBytes : ∀ f ∈ functions, (states f).function.toFunctionHeader.HasBytes P.types
  stores : ∀ f ∈ functions, StoresNameable P (states f).code

variable {functions : List Fn} {states : Fn → FunctionState Fn Ty Const Op}

omit [DecidableEq Const] [DecidableEq Loop] [DecidableEq Ty] in
theorem MayGoOn.update (h : MayGoOn P functions states) {fn : FunctionState Fn Ty Const Op}
    (hheader : fn.function.toFunctionHeader = (states f).function.toFunctionHeader)
    (hstores : StoresNameable P fn.code) :
    MayGoOn P functions (Function.update states f fn) where
  hasBytes g hg := by
    by_cases hgf : g = f
    · subst hgf
      rw [Function.update_self, hheader]
      exact h.hasBytes g hg
    · rw [Function.update_of_ne hgf]
      exact h.hasBytes g hg
  stores g hg := by
    by_cases hgf : g = f
    · subst hgf
      rwa [Function.update_self]
    · rw [Function.update_of_ne hgf]
      exact h.stores g hg

omit [DecidableEq Const] [DecidableEq Loop] [DecidableEq Fn] in
theorem MayGoOn.assumed (h : MayGoOn P functions states)
    {states' : Fn → FunctionState Fn Ty Const Op}
    (hassumed : ∀ f, Assumed P (states f) (states' f)) : MayGoOn P functions states' where
  hasBytes f hf := by
    rw [(hassumed f).function]
    exact h.hasBytes f hf
  stores f hf := (h.stores f hf).assumed (hassumed f)

end Code

end Passes

namespace Input

open Passes PassQuestion

variable {Fn Ty Const Op Loop : Type} [DecidableEq Fn] [DecidableEq Ty] [DecidableEq Const]
variable [DecidableEq Loop] {I : Input Fn Ty Const Op Loop} {opts : Options}
variable {controlStr : List CChar}

end Input

end Petospa
