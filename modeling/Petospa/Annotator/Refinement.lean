import Petospa.Annotator.Meaning
import Petospa.Annotator.Strengthening

/-!
# Annotated code means what the code meant

Whatever is answered, an execution of the annotated code of a function is an execution of
its code before the run, with the same effects and results. Annotations take executions
away and never add one.
-/

namespace Petospa

open Simulation Text

/-! ### Alignments -/

section Alignments

variable {Fn Const Op : Type}

/-- The alignment that an access states. -/
def Opcode.alignmentData? : Opcode Fn Const Op → Option Nat
  | .load l => some l.alignmentData
  | .store s => some s.alignmentData
  | _ => none

end Alignments

theorem getAlignment_dvd {data data' : Nat} (hdata : data ≠ 0)
    (hlt : getAlignment data < getAlignment data') : getAlignment data ∣ getAlignment data' := by
  have hpow {d : Nat} (hd : d ≠ 0) : getAlignment d = 2 ^ (d - 1) := by
    obtain ⟨d, rfl⟩ := Nat.exists_eq_succ_of_ne_zero hd
    rw [getAlignment, Nat.pow_succ, Nat.mul_div_cancel _ Nat.two_pos, Nat.succ_sub_one]
  have hdata' : data' ≠ 0 := by
    rintro rfl
    exact Nat.not_lt_zero _ hlt
  rw [hpow hdata, hpow hdata'] at hlt ⊢
  exact Nat.pow_dvd_pow 2 (Nat.le_of_lt ((Nat.pow_lt_pow_iff_right Nat.one_lt_two).mp hlt))

namespace Machine

variable {Fn Ty Const Op : Type} {M : Machine Fn Const Op}

/-! ### Less defined states -/

/-- The same memory, and some of the values below a bound. -/
structure State.LessDefined (n : Nat) (s' s : M.State) : Prop where
  mem : s'.mem = s.mem
  eval : ∀ v : ValueRef Const, v.IsBelow n → ∀ x, s'.eval v = some x → s.eval v = some x

namespace State.LessDefined

variable {n id : Nat} {s s' : M.State}

theorem refl (s : M.State) : s.LessDefined n s := ⟨rfl, fun _ _ _ => id⟩

theorem reads (h : s'.LessDefined n s) {vs : List (ValueRef Const)} (hvs : ∀ v ∈ vs, v.IsBelow n)
    {xs : List M.Val} (hreads : s'.Reads vs xs) : s.Reads vs xs := by
  induction hreads with
  | nil => exact .nil
  | cons hx _ ih =>
      obtain ⟨hv, hvs⟩ := List.forall_mem_cons.mp hvs
      exact .cons (h.eval _ hv _ hx) (ih hvs)

theorem withMem (h : s'.LessDefined n s) (mem : M.Mem) :
    (s'.withMem mem).LessDefined n (s.withMem mem) := by
  refine ⟨rfl, fun v hv x hx => ?_⟩
  cases v with
  | «local» r => exact h.eval (.local r) hv x hx
  | constant c => exact hx

theorem write (h : s'.LessDefined n s) {v v' : Option M.Val} (hv : ∀ x, v' = some x → v = some x) :
    (s'.write id v').LessDefined n (s.write id v) := by
  refine ⟨h.mem, fun r hr x hx => ?_⟩
  cases r with
  | constant c => exact hx
  | «local» r =>
      by_cases hid : r = .instruction id
      · subst hid
        simp only [State.eval, State.write, Function.update_self] at hx ⊢
        exact hv x hx
      · simp only [State.eval, State.write, Function.update_of_ne hid] at hx ⊢
        exact h.eval (.local r) hr x hx

/-- What is not below the bound may be written. -/
theorem write_left (h : s'.LessDefined n s) (hid : n ≤ id) (v : Option M.Val) :
    (s'.write id v).LessDefined n s := by
  refine ⟨h.mem, fun r hr x hx => ?_⟩
  cases r with
  | constant c => exact hx
  | «local» r =>
      have hne : r ≠ .instruction id := by
        rintro rfl
        exact absurd hr (Nat.not_lt.mpr hid)
      simp only [State.eval, State.write, Function.update_of_ne hne] at hx
      exact h.eval (.local r) hr x hx

theorem calls (h : s'.LessDefined n s) {callee : Callee Fn Const}
    (hcallee : ∀ v ∈ callee.operands, v.IsBelow n) {target : Fn ⊕ M.Val}
    (hcalls : s'.Calls callee target) : s.Calls callee target := by
  cases callee with
  | function f => exact hcalls
  | indirect v =>
      obtain ⟨x, hx, htarget⟩ := hcalls
      exact ⟨x, h.eval v (hcallee v List.mem_cons_self) x hx, htarget⟩

end State.LessDefined

/-! ### Instructions -/

theorem IsAligned.of_alignsMore {id data data' : Nat} {x : M.Val}
    (habi : data = 0 → M.abiAlignment id ∣ 8) (h : AlignsMore data data')
    (haligned : M.IsAligned id data' x) : M.IsAligned id data x := by
  obtain rfl | ⟨hdvd, hlt⟩ := h
  · exact haligned
  · have hdata' : data' ≠ 0 := by
      rintro rfl
      exact Nat.not_lt_zero _ hlt
    rw [IsAligned, if_neg hdata'] at haligned
    rw [IsAligned]
    split
    · rename_i hdata
      exact ((habi hdata).trans hdvd).trans haligned
    · rename_i hdata
      exact (getAlignment_dvd hdata hlt).trans haligned

theorem LoadPromises.of_strengthens {id : Nat} {l l' : LoadInst Const} {x v : M.Val} {mem : M.Mem}
    (habi : l.alignmentData = 0 → M.abiAlignment id ∣ 8) (h : l.Strengthens l')
    (hpromises : M.LoadPromises id l' x v mem) : M.LoadPromises id l x v mem where
  aligned := .of_alignsMore habi h.alignmentData hpromises.aligned
  invariant hl := hpromises.invariant (h.invariantLoad hl)
  dereferenceable bytes hl := hpromises.dereferenceable bytes (h.dereferenceable bytes hl)
  align bytes hl := hpromises.align bytes (h.align bytes hl)

/-- Fewer promises are kept or broken later. -/
theorem exists_yields {promise promise' : Prop} {v : M.Val} {r' : Option M.Val}
    (himp : promise' → promise) (h : Yields promise' v r') :
    ∃ r, Yields promise v r ∧ ∀ x, r' = some x → r = some x := by
  cases h with
  | kept hpromise => exact ⟨some v, .kept (himp hpromise), fun _ => id⟩
  | poison _ =>
      by_cases hpromise : promise
      · exact ⟨some v, .kept hpromise, nofun⟩
      · exact ⟨none, .poison hpromise, nofun⟩

variable {assumeIntrinsic : Fn} {prev n : Nat}

/-- An operation that passes poison on is never stuck. -/
theorem exists_executes_of_pureOperands {i : Instruction Fn Ty Const Op}
    {operands : List (ValueRef Const)} (h : i.opcode.pureOperands = some operands) (s : M.State) :
    ∃ v, M.Executes assumeIntrinsic prev i s (s.write i.id v) := by
  by_cases hpoison : ∃ v ∈ operands, s.eval v = none
  · obtain ⟨v, hmem, hv⟩ := hpoison
    exact ⟨none, .poison h hmem hv⟩
  · have hdefined : ∀ v ∈ operands, ∃ x, s.eval v = some x := by
      intro v hv
      rw [← Option.ne_none_iff_exists']
      exact fun hnone => hpoison ⟨v, hv, hnone⟩
    have hyields (promise : Prop) (x : M.Val) : ∃ r, Yields promise x r := by
      by_cases hpromise : promise
      · exact ⟨_, .kept hpromise⟩
      · exact ⟨_, .poison hpromise⟩
    obtain ⟨id, ty, opcode⟩ := i
    cases opcode with
    | getElementPtr isInBounds pointer indices =>
        obtain rfl := Option.some.inj h
        obtain ⟨hpointer, hindices⟩ := List.forall_mem_cons.mp hdefined
        obtain ⟨x, hx⟩ := hpointer
        obtain ⟨xs, hxs⟩ : ∃ xs, s.Reads indices xs := by
          clear hpoison hdefined h
          induction indices with
          | nil => exact ⟨[], .nil⟩
          | cons v vs ih =>
              obtain ⟨⟨y, hy⟩, hvs⟩ := List.forall_mem_cons.mp hindices
              obtain ⟨ys, hys⟩ := ih hvs
              exact ⟨y :: ys, .cons hy hys⟩
        obtain ⟨r, hr⟩ :=
          hyields (isInBounds = true → M.isInBounds id s.mem x xs) (M.offset id x xs)
        exact ⟨r, .getElementPtr hx hxs hr⟩
    | overflowing op nsw nuw lhs rhs =>
        obtain rfl := Option.some.inj h
        obtain ⟨x, hx⟩ := hdefined lhs (by simp)
        obtain ⟨y, hy⟩ := hdefined rhs (by simp)
        obtain ⟨r, hr⟩ := hyields (M.NoWrap id op nsw nuw x y) (M.compute id op x y)
        exact ⟨r, .overflowing hx hy hr⟩
    | icmp predicate lhs rhs =>
        obtain rfl := Option.some.inj h
        obtain ⟨x, hx⟩ := hdefined lhs (by simp)
        obtain ⟨y, hy⟩ := hdefined rhs (by simp)
        exact ⟨_, .icmp hx hy⟩
    | _ => cases h

/-- What the promises of the second instruction allow, those of the first one allow. -/
inductive Allows (M : Machine Fn Const Op) (id : Nat) :
    Opcode Fn Const Op → Opcode Fn Const Op → Prop where
  | same (opcode : Opcode Fn Const Op) : Allows M id opcode opcode
  | load {l l' : LoadInst Const} (pointer : l'.pointer = l.pointer)
      (promises : ∀ x v mem, M.LoadPromises id l' x v mem → M.LoadPromises id l x v mem) :
      Allows M id (.load l) (.load l')
  | store {s s' : StoreInst Const} (value : s'.value = s.value) (pointer : s'.pointer = s.pointer)
      (aligned : ∀ x, M.IsAligned id s'.alignmentData x → M.IsAligned id s.alignmentData x) :
      Allows M id (.store s) (.store s')
  | getElementPtr {isInBounds isInBounds' : Bool} (h : isInBounds = true → isInBounds' = true)
      (pointer : ValueRef Const) (indices : List (ValueRef Const)) :
      Allows M id (.getElementPtr isInBounds pointer indices)
        (.getElementPtr isInBounds' pointer indices)
  | overflowing {nsw nuw nsw' nuw' : Bool} (hnsw : nsw = true → nsw' = true)
      (hnuw : nuw = true → nuw' = true) (op : OverflowingOp) (lhs rhs : ValueRef Const) :
      Allows M id (.overflowing op nsw nuw lhs rhs) (.overflowing op nsw' nuw' lhs rhs)

/-- What an instruction with further promises does, the instruction does as well. -/
theorem exists_executes_of_allows {i i' : Instruction Fn Ty Const Op} (hid : i'.id = i.id)
    (hty : i'.type = i.type) (hopcode : Allows M i.id i.opcode i'.opcode)
    (hoperands : ∀ v ∈ i.opcode.operands, v.IsBelow n) {s s' t' : M.State}
    (hs : s'.LessDefined n s) (hexec : M.Executes assumeIntrinsic prev i' s' t') :
    ∃ t, M.Executes assumeIntrinsic prev i s t ∧ t'.LessDefined n t := by
  obtain ⟨id, ty, opcode⟩ := i
  dsimp only at hid hty hopcode hoperands
  cases hexec with
  | @load id' ty' l' _ x v mem hpointer hloads hpromises =>
      subst hid hty
      obtain ⟨l, rfl, hsame, hpromises⟩ : ∃ l, opcode = .load l ∧ l'.pointer = l.pointer ∧
          M.LoadPromises id' l x v mem := by
        cases hopcode with
        | same => exact ⟨l', rfl, rfl, hpromises⟩
        | load hsame hallows => exact ⟨_, rfl, hsame, hallows x v mem hpromises⟩
      have hbelow := hoperands l.pointer List.mem_cons_self
      rw [hsame] at hpointer
      rw [hs.mem] at hloads
      exact ⟨_, .load (hs.eval _ hbelow x hpointer) hloads hpromises,
        (hs.withMem mem).write fun _ => id⟩
  | @store id' ty' i' _ x v mem hpointer hvalue haligned hstores =>
      subst hid hty
      obtain ⟨i, rfl, hsame, hsame', haligned⟩ : ∃ i, opcode = .store i ∧ i'.value = i.value ∧
          i'.pointer = i.pointer ∧ M.IsAligned id' i.alignmentData x := by
        cases hopcode with
        | same => exact ⟨i', rfl, rfl, rfl, haligned⟩
        | store hsame hsame' hallows => exact ⟨_, rfl, hsame, hsame', hallows x haligned⟩
      have hbelow := hoperands i.pointer List.mem_cons_self
      have hbelow' := hoperands i.value (List.mem_cons_of_mem _ List.mem_cons_self)
      rw [hsame'] at hpointer
      rw [hsame] at hvalue
      rw [hs.mem] at hstores
      exact ⟨_, .store (hs.eval _ hbelow x hpointer) (hs.eval _ hbelow' v hvalue) haligned hstores,
        hs.withMem mem⟩
  | @getElementPtr id' ty' isInBounds' pointer indices _ x xs r' hbase hoffsets hyields =>
      subst hid hty
      obtain ⟨isInBounds, rfl, himp⟩ : ∃ isInBounds,
          opcode = .getElementPtr isInBounds pointer indices ∧
            (isInBounds = true → isInBounds' = true) := by
        cases hopcode with
        | same => exact ⟨isInBounds', rfl, id⟩
        | getElementPtr himp => exact ⟨_, rfl, himp⟩
      obtain ⟨hbelow, hbelow'⟩ := List.forall_mem_cons.mp hoperands
      rw [hs.mem] at hyields
      have hpromise (h : isInBounds' = true → M.isInBounds id' s.mem x xs) :
          isInBounds = true → M.isInBounds id' s.mem x xs := fun hin => h (himp hin)
      obtain ⟨r, hr, hle⟩ := exists_yields hpromise hyields
      exact ⟨_, .getElementPtr (hs.eval _ hbelow x hbase) (hs.reads hbelow' hoffsets) hr,
        hs.write hle⟩
  | @overflowing id' ty' op nsw' nuw' lhs rhs _ x y r' hleft hright hyields =>
      subst hid hty
      obtain ⟨nsw, nuw, rfl, hnsw, hnuw⟩ : ∃ nsw nuw, opcode = .overflowing op nsw nuw lhs rhs ∧
          (nsw = true → nsw' = true) ∧ (nuw = true → nuw' = true) := by
        cases hopcode with
        | same => exact ⟨nsw', nuw', rfl, id, id⟩
        | overflowing hnsw hnuw => exact ⟨_, _, rfl, hnsw, hnuw⟩
      have hbelow := hoperands lhs List.mem_cons_self
      have hbelow' := hoperands rhs (List.mem_cons_of_mem _ List.mem_cons_self)
      have hpromise (h : M.NoWrap id' op nsw' nuw' x y) : M.NoWrap id' op nsw nuw x y :=
        ⟨fun hn => h.1 (hnsw hn), fun hn => h.2 (hnuw hn)⟩
      obtain ⟨r, hr, hle⟩ := exists_yields hpromise hyields
      exact ⟨_, .overflowing (hs.eval _ hbelow x hleft) (hs.eval _ hbelow' y hright) hr,
        hs.write hle⟩
  | @icmp id' ty' predicate lhs rhs _ x y hleft hright =>
      subst hid hty
      obtain rfl : opcode = .icmp predicate lhs rhs := by
        cases hopcode
        rfl
      have hbelow := hoperands lhs List.mem_cons_self
      have hbelow' := hoperands rhs (List.mem_cons_of_mem _ List.mem_cons_self)
      exact ⟨_, .icmp (hs.eval _ hbelow x hleft) (hs.eval _ hbelow' y hright),
        hs.write fun _ => id⟩
  | @poison i' operands _ hpure v hv hdepends =>
      obtain ⟨id', ty', opcode'⟩ := i'
      have hsame : opcode.pureOperands = some operands := by
        rw [← hpure]
        cases hopcode <;> rfl
      obtain ⟨r, hr⟩ := exists_executes_of_pureOperands (i := ⟨id, ty, opcode⟩) hsame s
      dsimp only at hid
      rw [hid]
      exact ⟨_, hr, hs.write nofun⟩
  | @assume id' ty' condition _ x hvalue hholds =>
      subst hid hty
      obtain rfl : opcode = .call (.function assumeIntrinsic) [condition] := by
        cases hopcode
        rfl
      have hbelow := hoperands condition List.mem_cons_self
      exact ⟨s, .assume (hs.eval _ hbelow x hvalue) hholds, hs⟩
  | @call id' ty' callee args _ target xs v mem hcalled hne hreads hcalls =>
      subst hid hty
      obtain rfl : opcode = .call callee args := by
        cases hopcode
        rfl
      obtain ⟨hbelow, hbelow'⟩ := List.forall_mem_append.mp hoperands
      rw [hs.mem] at hcalls
      exact ⟨_, .call (hs.calls hbelow hcalled) hne (hs.reads hbelow' hreads) hcalls,
        (hs.withMem mem).write fun _ => id⟩
  | @other id' ty' op operands _ v mem hother =>
      subst hid hty
      obtain rfl : opcode = .other op operands := by
        cases hopcode
        rfl
      rw [hs.mem] at hother
      have hdefined : List.Forall₂ (fun x y => ∀ v, x = some v → y = some v)
          (operands.map s'.eval) (operands.map s.eval) := by
        rw [List.forall₂_map_left_iff, List.forall₂_map_right_iff]
        exact List.forall₂_same.mpr fun v hv => hs.eval v (hoperands v hv)
      obtain ⟨w, hother', hle⟩ := M.other_mono hdefined hother
      exact ⟨_, .other hother', (hs.withMem mem).write hle⟩

/-- What a stronger instruction does, the instruction does as well. -/
theorem exists_executes_of_strengthens {i i' : Instruction Fn Ty Const Op} (h : i.Strengthens i')
    (hoperands : ∀ v ∈ i.opcode.operands, v.IsBelow n)
    (habi : i.opcode.alignmentData? = some 0 → M.abiAlignment i.id ∣ 8) {s s' t' : M.State}
    (hs : s'.LessDefined n s) (hexec : M.Executes assumeIntrinsic prev i' s' t') :
    ∃ t, M.Executes assumeIntrinsic prev i s t ∧ t'.LessDefined n t := by
  refine exists_executes_of_allows h.id h.type ?_ hoperands hs hexec
  obtain ⟨id, ty, opcode⟩ := i
  obtain ⟨id', ty', opcode'⟩ := i'
  obtain ⟨-, -, hopcode⟩ := h
  dsimp only at hopcode habi ⊢
  cases hopcode with
  | same => exact .same _
  | load hl =>
      refine .load hl.pointer fun x v mem hpromises => hpromises.of_strengthens ?_ hl
      exact fun hdata => habi (congrArg some hdata)
  | store hs =>
      refine .store hs.value hs.pointer fun x haligned => haligned.of_alignsMore ?_ hs.alignmentData
      exact fun hdata => habi (congrArg some hdata)
  | getElementPtr h pointer indices => exact .getElementPtr h pointer indices
  | overflowing hnsw hnuw op lhs rhs => exact .overflowing hnsw hnuw op lhs rhs

/-- An assumption changes nothing below the bound. -/
theorem lessDefined_of_isAssumption {Loop : Type} {P : PassInfo Fn Ty Const Op Loop}
    {i : Instruction Fn Ty Const Op} (hi : IsAssumption P i) (hid : n ≤ i.id) {s s' t' : M.State}
    (hs : s'.LessDefined n s) (hexec : M.Executes P.assumeIntrinsic prev i s' t') :
    t'.LessDefined n s := by
  cases hi with
  | comparison id r c =>
      cases hexec with
      | icmp hleft hright => exact hs.write_left hid _
      | poison hpure hv hdepends => exact hs.write_left hid _
  | assume id =>
      cases hexec with
      | assume hvalue hholds => exact hs
      | call hcalled hne hreads hcalls => exact absurd hcalled hne
      | poison hpure hv hdepends => cases hpure

/-! ### Blocks and functions -/

theorem Leaves.of_lessDefined {no : Nat} {t : Terminator Const Op}
    (hoperands : ∀ v ∈ t.operands, v.IsBelow n) {s s' : M.State} (hs : s'.LessDefined n s)
    {exit : Exit M.Val} {mem : M.Mem} (h : M.Leaves no t s' exit mem) :
    M.Leaves no t s exit mem := by
  cases h with
  | br =>
      rw [hs.mem]
      exact .br
  | ifTrue hvalue hholds =>
      rw [hs.mem]
      exact .ifTrue (hs.eval _ (hoperands _ List.mem_cons_self) _ hvalue) hholds
  | ifFalse hvalue hfails =>
      rw [hs.mem]
      exact .ifFalse (hs.eval _ (hoperands _ List.mem_cons_self) _ hvalue) hfails
  | ret =>
      rw [hs.mem]
      exact .ret
  | retValue hvalue =>
      rw [hs.mem]
      exact .retValue (hs.eval _ (hoperands _ List.mem_cons_self) _ hvalue)
  | other hreads htransfers =>
      rw [hs.mem] at htransfers
      exact .other (hs.reads hoperands hreads) htransfers

/-- The same place, in a less defined state. -/
structure Point.LessDefined (n : Nat) (p' p : M.Point) : Prop where
  prev : p'.prev = p.prev
  block : p'.block = p.block
  state : p'.state.LessDefined n p.state

section Functions

variable {Loop : Type} {P : PassInfo Fn Ty Const Op Loop} {fn fn' : FunctionState Fn Ty Const Op}

/-- Accesses that state no alignment are not aligned to more than 8 bytes by the target. -/
def AbiAligned (M : Machine Fn Const Op) (code : Code Fn Ty Const Op) : Prop :=
  ∀ i ∈ code.instructions, i.opcode.alignmentData? = some 0 → M.abiAlignment i.id ∣ 8

theorem exists_runs (h : Annotated P fn fn') (hoperands : fn.code.OperandsBelow fn.nextId)
    (habi : M.AbiAligned fn.code) {p p' : M.Point} (hp : p'.LessDefined fn.nextId p)
    {exit : Exit M.Val} {s' : M.State} {mem : M.Mem}
    (hruns : Runs P.assumeIntrinsic fn'.code p' exit s' mem) :
    ∃ s, Runs P.assumeIntrinsic fn.code p exit s mem ∧ s'.LessDefined fn.nextId s := by
  obtain ⟨b', hfind, hexec, hleaves⟩ := hruns
  have hfind' : (fn'.code.below fn.nextId).find? (fun b => b.no = p.block) =
      some (b'.below fn.nextId) := by
    rw [← hp.block, Code.below, List.find?_map]
    exact congrArg (Option.map _) hfind
  obtain ⟨b, hb, hno, hterminator, his⟩ :=
    h.old.exists_of_find?_eq_some (p := fun b => b.no = p.block)
      (fun b b' hb => by rw [hb.1]) hfind'
  have hmem := List.mem_of_find?_eq_some hb
  have hmem' := List.mem_of_find?_eq_some hfind
  have hold : List.Forall₂ (fun i i' : Instruction Fn Ty Const Op =>
      ((∀ v ∈ i.opcode.operands, v.IsBelow fn.nextId) ∧
        (i.opcode.alignmentData? = some 0 → M.abiAlignment i.id ∣ 8)) ∧ i.Strengthens i')
      b.instructions (b'.instructions.filter fun i => !decide (fn.nextId ≤ i.id)) := by
    rw [List.forall₂_and_left]
    refine ⟨fun i hi => ⟨hoperands.instruction b hmem i hi,
      habi i (List.mem_flatMap.mpr ⟨b, hmem, hi⟩)⟩, ?_⟩
    simpa only [BasicBlock.below, ← decide_not, Nat.not_le] using his
  have hsilent : ∀ i ∈ b'.instructions, decide (fn.nextId ≤ i.id) = true → ∀ s s' t : M.State,
      s.LessDefined fn.nextId t → M.Executes P.assumeIntrinsic p'.prev i s s' →
      s'.LessDefined fn.nextId t := by
    intro i hi hid s s' t hs hexec
    have hid := of_decide_eq_true hid
    exact lessDefined_of_isAssumption (h.new i (List.mem_flatMap.mpr ⟨b', hmem', hi⟩) hid) hid hs
      hexec
  rw [hp.prev] at hexec hsilent
  obtain ⟨s, hexec', hs⟩ := hexec.simulates (fun i' i s s' t hi hs hexec =>
    exists_executes_of_strengthens hi.2 hi.1.1 hi.1.2 hs hexec) hsilent hold hp.state
  refine ⟨s, ⟨b, hb, hexec', ?_⟩, hs⟩
  have hbno : b'.no = b.no := hno
  have hbterminator : b'.terminator = b.terminator := hterminator
  rw [hbno, hbterminator] at hleaves
  exact hleaves.of_lessDefined (hoperands.terminator b hmem) hs

/-- Every step of the annotated code is a step of the code. -/
theorem simulates_steps (h : Annotated P fn fn') (hoperands : fn.code.OperandsBelow fn.nextId)
    (habi : M.AbiAligned fn.code) :
    Simulates (Point.LessDefined fn.nextId) (Steps (M := M) P.assumeIntrinsic fn'.code)
      (Steps P.assumeIntrinsic fn.code) := by
  rintro p' p ⟨prev, block, state⟩ hp ⟨s', mem, hruns, hprev, hstate⟩
  obtain ⟨s, hruns', hs⟩ := exists_runs h hoperands habi hp hruns
  refine ⟨⟨p.block, block, s.withMem mem⟩, ⟨s, mem, hruns', rfl, rfl⟩, ?_, rfl, ?_⟩
  · exact hprev.trans hp.block
  · dsimp only at hstate ⊢
    rw [hstate]
    exact hs.withMem mem

/-- What the annotated code returns, the code returns. -/
theorem returns_of_annotated (h : Annotated P fn fn') (hoperands : fn.code.OperandsBelow fn.nextId)
    (habi : M.AbiAligned fn.code) {p p' : M.Point} (hp : p'.LessDefined fn.nextId p)
    {value : Option M.Val} {mem : M.Mem}
    (hreturns : Returns P.assumeIntrinsic fn'.code p' value mem) :
    Returns P.assumeIntrinsic fn.code p value mem := by
  obtain ⟨q', s', hreaches, hruns⟩ := hreturns
  obtain ⟨q, hreaches', hq⟩ := (simulates_steps h hoperands habi).run hp hreaches
  obtain ⟨s, hruns', -⟩ := exists_runs h hoperands habi hq hruns
  exact ⟨q, s, hreaches', hruns'⟩

end Functions

end Machine

/-- Numbers as values, and a memory of numbers. -/
def sampleMachine : Machine Nat Nat Empty where
  Val := Nat
  Mem := Nat → Nat
  constant c := c
  address x := x
  isTrue x := x ≠ 0
  compare
    | .eq, x, y => if x = y then 1 else 0
    | .ne, x, y => if x = y then 0 else 1
    | .ugt, x, y | .sgt, x, y => if y < x then 1 else 0
    | .uge, x, y | .sge, x, y => if y ≤ x then 1 else 0
    | .ult, x, y | .slt, x, y => if x < y then 1 else 0
    | .ule, x, y | .sle, x, y => if x ≤ y then 1 else 0
  compute
    | _, .add, x, y => x + y
    | _, .sub, x, y => x - y
    | _, .mul, x, y => x * y
    | _, .shl, x, y => x * 2 ^ y
  signedWrap _ _ _ _ := False
  unsignedWrap _ op x y := op = .sub ∧ x < y
  offset _ x xs := x + xs.sum
  isInBounds _ _ _ _ := True
  abiAlignment _ := 4
  isInvariant _ _ := True
  isDereferenceable _ _ _ := True
  load _ x mem v mem' := v = mem x ∧ mem' = mem
  store _ x v mem mem' := mem' = Function.update mem x v
  call _ _ _ _ _ _ := False
  other _ := nofun
  transfer _ := nofun
  other_mono := @fun _ op => nomatch op

namespace Input

open Machine

variable {Fn Ty Const Op Loop : Type} [DecidableEq Fn] [DecidableEq Ty] [DecidableEq Const]
variable [DecidableEq Loop] {I : Input Fn Ty Const Op Loop} {opts : Options}
variable {controlStr : List CChar}

/-- Whatever is answered, the annotated code of a function reaches only points that its
code reaches, with the same memory, and returns only what its code returns. -/
theorem preserves_meaning {r : ModuleState Fn Ty Const Op × Environment Fn}
    (hr : I.annotateModule opts controlStr = .ok r)
    (f : Fn) (M : Machine Fn Const Op) (habi : M.AbiAligned (I.states f).code) (p : M.Point) :
    (∀ q', Reaches I.passInfo.assumeIntrinsic (r.1.functions f).code p q' →
      ∃ q, Reaches I.passInfo.assumeIntrinsic (I.states f).code p q ∧
        q'.LessDefined (I.states f).nextId q) ∧
    ∀ value mem, Returns I.passInfo.assumeIntrinsic (r.1.functions f).code p value mem →
      Returns I.passInfo.assumeIntrinsic (I.states f).code p value mem := by
  have hannotated := annotates_code hr f
  have hoperands := (I.numbered f).operands
  have hp : p.LessDefined (I.states f).nextId p := ⟨rfl, rfl, .refl p.state⟩
  exact ⟨fun q' hq' => (simulates_steps hannotated hoperands habi).run hp hq',
    fun value mem => returns_of_annotated hannotated hoperands habi hp⟩

/-- The memory holds what the branch is assumed to compare with. -/
theorem exists_returns_sample {code : Code Nat Bool Nat Empty}
    (hcode : code = [⟨0, [⟨0, true, .getElementPtr true (.local (.argument 0)) []⟩,
      ⟨1, false, .load ⟨.local (.instruction 0), true, 3, true, none, none⟩⟩,
      ⟨3, false, .icmp .eq (.local (.instruction 1)) (.constant 5)⟩,
      ⟨4, false, .call (.function 1) [.local (.instruction 3)]⟩,
      ⟨2, false, .icmp .eq (.local (.instruction 1)) (.constant 5)⟩],
      .condBr (.local (.instruction 2)) 1 1⟩, ⟨1, [], .ret none⟩]) :
    ∃ (p : sampleMachine.Point) (mem : Nat → Nat), Returns 1 code p none mem := by
  let mem : Nat → Nat := fun _ => 5
  let start : sampleMachine.State :=
    ⟨fun r => if r = .argument 0 then some (8 : Nat) else none, mem⟩
  let loaded := (start.write 0 (some (8 : Nat))).write 1 (some (5 : Nat))
  let compared := (loaded.write 3 (some (1 : Nat))).write 2 (some (1 : Nat))
  rw [hcode]
  refine ⟨⟨0, 0, start⟩, mem, ⟨0, 1, compared⟩, compared,
    .single ⟨compared, mem, ⟨_, rfl, ?_, ?_⟩, rfl, rfl⟩, ⟨_, rfl, .nil _, .ret⟩⟩
  · refine .cons (.getElementPtr (x := (8 : Nat)) rfl .nil (.kept fun _ => trivial)) ?_
    refine .cons (.load (x := (8 : Nat)) (v := (5 : Nat)) rfl ⟨rfl, rfl⟩ ?_) ?_
    · refine ⟨(by decide : 4 ∣ 8), fun _ => trivial, fun bytes hbytes => ?_, fun bytes hbytes => ?_⟩
      · cases hbytes
      · cases hbytes
    · refine .cons (.icmp (x := (5 : Nat)) (y := (5 : Nat)) rfl rfl) ?_
      refine .cons (.assume (x := (1 : Nat)) rfl Nat.one_ne_zero) ?_
      exact .cons (.icmp (x := (5 : Nat)) (y := (5 : Nat)) rfl rfl) (.nil _)
  · exact .ifTrue (x := (1 : Nat)) rfl Nat.one_ne_zero

theorem preserves_meaning_sample : ∃ r, sample.annotateModule ⟨true, -1, false⟩ [] = .ok r ∧
    ∃ (p : sampleMachine.Point) (mem : Nat → Nat),
      Returns 1 (r.1.functions 0).code p none mem ∧ Returns 1 sampleCode p none mem := by
  have habi : sampleMachine.AbiAligned sampleCode := fun _ _ _ => (by decide : 4 ∣ 8)
  obtain ⟨r, hr⟩ : ∃ r, sample.annotateModule ⟨true, -1, false⟩ [] = .ok r := ⟨_, rfl⟩
  have hcode := congrArg (fun r : Except Fault _ => r.map fun r => (r.1.functions 0).code) hr
  obtain ⟨p, mem, hreturns⟩ := exists_returns_sample (Except.ok.inj hcode).symm
  exact ⟨r, hr, p, mem, hreturns,
    (preserves_meaning hr 0 sampleMachine habi p).2 none mem hreturns⟩

end Input

end Petospa
