import Mathlib.Data.List.Perm.Subperm
import Mathlib.Logic.Function.Basic
import Petospa.Annotator.Instructions
import Petospa.Annotator.Query
import Petospa.Lib.Dict
import Petospa.Lib.Interaction
import Petospa.Lib.Unicode

/-!
# Questions of the passes and the names of values

A pass asks `getOptimisticChoice` about a value. A value that has no name gets one,
which no other value of its function has; a store has none and is asked about
under the name of its pointer. The names of a function are its symbol table.
-/

namespace Petospa

open Text Interaction

/-- The names of the values of a function, and the last number that was put behind
a name to make it another one. -/
structure SymbolTable where
  names : Dict LocalRef Str
  lastUnique : Nat
  unique : (names.entries.map Prod.snd).Nodup

namespace SymbolTable

variable (table : SymbolTable)

def values : List Str := table.names.entries.map Prod.snd

def hasName (r : LocalRef) : Bool := (table.names.get? r).isSome

/-- `getName`, which is empty without a name. -/
def getName (r : LocalRef) : Str := (table.names.get? r).getD []

/-- A name with a number behind it. -/
def numbered (base : Str) (n : Nat) : Str := base ++ str n

theorem numbered_injective (base : Str) : Function.Injective (numbered base) := by
  intro m n h
  have hint := int_str m
  rw [List.append_cancel_left h, int_str] at hint
  exact (Option.some.inj hint).symm

/-- The numbers among which `makeUniqueName` finds one. -/
def candidates : List Nat := List.range' (table.lastUnique + 1) (table.values.length + 1)

/-- The number that the loop of `makeUniqueName` ends with. -/
def uniqueNumber (base : Str) : Nat :=
  (table.candidates.find? fun n => !table.values.contains (numbered base n)).getD 0

/-- The candidates are more than the names. -/
theorem exists_candidate (base : Str) :
    ∃ n ∈ table.candidates, numbered base n ∉ table.values := by
  by_contra hnone
  have hall : ∀ n ∈ table.candidates, numbered base n ∈ table.values := by
    intro n hn
    by_contra hname
    exact hnone ⟨n, hn, hname⟩
  have hnodup : (table.candidates.map (numbered base)).Nodup :=
    List.Nodup.map (numbered_injective base) (List.nodup_range' 1)
  have hsubset : table.candidates.map (numbered base) ⊆ table.values := by
    intro name hname
    obtain ⟨n, hn, rfl⟩ := List.mem_map.mp hname
    exact hall n hn
  have hle := (List.subperm_of_subset hnodup hsubset).length_le
  rw [List.length_map, candidates, List.length_range'] at hle
  omega

/-- The loop of `makeUniqueName` ends with a new name. -/
theorem numbered_uniqueNumber_notMem (base : Str) :
    numbered base (table.uniqueNumber base) ∉ table.values := by
  cases hfind : table.candidates.find? fun n => !table.values.contains (numbered base n) with
  | none =>
      obtain ⟨n, hn, hname⟩ := table.exists_candidate base
      have hnone := List.find?_eq_none.mp hfind n hn
      simp [hname] at hnone
  | some n =>
      have hname := List.find?_some hfind
      rw [uniqueNumber, hfind]
      simpa using hname

/-- `createValueName` for a value without a name: the name as it is, or with a number. -/
def createValueName (base : Str) : Str × Nat :=
  if table.values.contains base then
    (numbered base (table.uniqueNumber base), table.uniqueNumber base)
  else (base, table.lastUnique)

theorem createValueName_notMem (base : Str) : (table.createValueName base).1 ∉ table.values := by
  rw [createValueName]
  split
  · exact table.numbered_uniqueNumber_notMem base
  · rename_i hunused
    simpa using hunused

/-- `setName` of a value without a name; a value that has one keeps it. -/
def setName (r : LocalRef) (base : Str) : SymbolTable :=
  if h : r ∈ table.names.keys then table
  else
    { names := table.names.set r (table.createValueName base).1
      lastUnique := (table.createValueName base).2
      unique := by
        rw [Dict.set, Dict.entries_modify_of_notMem h, List.map_append, List.map_singleton]
        exact table.unique.append (List.nodup_singleton _)
          (List.disjoint_singleton.mpr (table.createValueName_notMem base)) }

def ensureName (r : LocalRef) : Except Fault SymbolTable :=
  if table.hasName r then .ok table
  else
    match r with
    | .instruction _ => .ok (table.setName r (lit "v"))
    | .argument _ => .ok (table.setName r (lit "a"))
    | .block _ => .error .unreachable

end SymbolTable

/-! ### Questions -/

/-- What a pass asks about. -/
inductive Subject (Const : Type) where
  | function
  | local (r : LocalRef)
  | store (id : Nat) (pointer : ValueRef Const)
  deriving DecidableEq

/-- A call of `getOptimisticChoice` in a pass. -/
structure ChoiceQuestion (Fn Const : Type) where
  numChoices : Nat
  function : Fn
  subject : Subject Const
  kind : OptimisticChoiceKind
  /-- `assert(NumChoices > 0)` -/
  numChoices_pos : 0 < numChoices

/-- A choice between nothing and some others. -/
def ChoiceQuestion.among {Fn Const : Type} (others : Nat) (f : Fn) (subject : Subject Const)
    (kind : OptimisticChoiceKind) : ChoiceQuestion Fn Const :=
  ⟨others + 1, f, subject, kind, Nat.succ_pos others⟩

inductive PassQuestion (Fn Const : Type) where
  | choice (q : ChoiceQuestion Fn Const)
  /-- A pass looks at the name of a value. -/
  | getName (f : Fn) (r : LocalRef)

abbrev PassAnswer {Fn Const : Type} : PassQuestion Fn Const → Type
  | .choice _ => Nat
  | .getName _ _ => Str

/-- A computation of the annotator that asks for choices and names. -/
abbrev Pass (Fn Const α : Type) := Program (PassQuestion Fn Const) PassAnswer Fault α

section Answers

variable {Fn Const : Type} [DecidableEq Fn] (functionName : Fn → Str) (constantName : Const → Str)

/-- The name that a value is asked about with, and the symbol table behind. A
constant without a name cannot get one. -/
def Subject.name (functionName : Str) (constantName : Const → Str) (table : SymbolTable) :
    Subject Const → Except Fault (Str × SymbolTable)
  | function => if functionName = [] then .error .unreachable else .ok (functionName, table)
  | .local r => do
      let table ← table.ensureName r
      return (table.getName r, table)
  | store _ (.local r) => do
      let table ← table.ensureName r
      return (lit "__s." ++ table.getName r, table)
  | store _ (.constant c) =>
      if constantName c = [] then .error .unreachable
      else .ok (lit "__s." ++ constantName c, table)

/-- The names of all values, and the tables of the annotator. -/
structure Environment (Fn : Type) where
  symbols : Fn → SymbolTable
  annotator : Annotator Fn

def ChoiceQuestion.query (q : ChoiceQuestion Fn Const) (name : Str) : Query Fn where
  numChoices := q.numChoices
  name := name
  function := q.function
  functionName := functionName q.function
  kind := q.kind
  numChoices_pos := q.numChoices_pos

/-- `getOptimisticChoice` of a pass. -/
def answer (opts : Options) (inst : Nat) :
    (q : PassQuestion Fn Const) → Environment Fn → Except Fault (PassAnswer q × Environment Fn)
  | .choice q, env => do
      let (name, table) ←
        q.subject.name (functionName q.function) constantName (env.symbols q.function)
      let (annotator, answer) :=
        env.annotator.getOptimisticChoice opts inst (q.query functionName name)
      return (answer.value, ⟨Function.update env.symbols q.function table, annotator⟩)
  | .getName f r, env => .ok ((env.symbols f).getName r, env)

/-- The queries that are made for a sequence of questions. -/
def queries : List (PassQuestion Fn Const) → (Fn → SymbolTable) → List (Query Fn)
  | [], _ => []
  | .getName _ _ :: qs, symbols => queries qs symbols
  | .choice q :: qs, symbols =>
      match q.subject.name (functionName q.function) constantName (symbols q.function) with
      | .error _ => []
      | .ok (name, table) =>
          q.query functionName name :: queries qs (Function.update symbols q.function table)

end Answers

end Petospa
