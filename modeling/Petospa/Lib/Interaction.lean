import Mathlib.Data.List.Forall2
import Mathlib.Data.List.Infix
import Mathlib.Logic.Function.Basic
import Mathlib.Tactic.Common
import Petospa.Lib.Segments

/-!
# Programs that ask questions

A program ends with a result, stops with an error, or asks a question and goes on
with the answer. An environment answers from a state of its own. There are rules
for what holds whatever is answered (`Meets`), for what is asked whatever is
answered (`Asks`), and for two programs that ask the same (`Lockstep`). They are
composed along binds and loops, and the run theorems turn them into facts about
runs in an environment.
-/

namespace Interaction

universe u v w x

/-- A question `q` is answered by an element of `A q`. -/
inductive Program (Q : Type u) (A : Q → Type v) (ε : Type w) (α : Type x) where
  | done (a : α)
  | fails (e : ε)
  | ask (q : Q) (next : A q → Program Q A ε α)

namespace Program

variable {Q : Type u} {A : Q → Type v} {ε : Type w} {α β γ : Type x}

def bind : Program Q A ε α → (α → Program Q A ε β) → Program Q A ε β
  | done a, f => f a
  | fails e, _ => fails e
  | ask q next, f => ask q fun a => (next a).bind f

instance : Monad (Program Q A ε) where
  pure := done
  bind := bind

@[simp] theorem done_bind (a : α) (f : α → Program Q A ε β) : (done a >>= f) = f a := rfl

@[simp] theorem fails_bind (e : ε) (f : α → Program Q A ε β) :
    (fails e : Program Q A ε α) >>= f = fails e := rfl

@[simp] theorem ask_bind (q : Q) (next : A q → Program Q A ε α) (f : α → Program Q A ε β) :
    (ask q next >>= f) = ask q fun a => next a >>= f := rfl

theorem bind_done (p : Program Q A ε α) : p >>= done = p := by
  induction p with
  | done a => rfl
  | fails e => rfl
  | ask q next ih =>
      rw [ask_bind]
      exact congrArg (ask q) (funext ih)

theorem bind_bind (p : Program Q A ε α) (f : α → Program Q A ε β) (g : β → Program Q A ε γ) :
    p >>= f >>= g = p >>= fun a => f a >>= g := by
  induction p with
  | done a => rfl
  | fails e => rfl
  | ask q next ih =>
      rw [ask_bind, ask_bind, ask_bind]
      exact congrArg (ask q) (funext ih)

instance : LawfulMonad (Program Q A ε) :=
  LawfulMonad.mk' (Program Q A ε) (fun p => bind_done p) (fun _ _ => rfl) bind_bind

/-- Ask and go on with the answer. -/
def question {Q : Type u} {A : Q → Type x} (q : Q) : Program Q A ε (A q) := ask q done

/-- A computation that asks nothing. -/
def ofExcept : Except ε α → Program Q A ε α
  | .ok a => done a
  | .error e => fails e

/-! ### Runs -/

variable {σ τ : Type*}

/-- A run in an environment. -/
def run (env : (q : Q) → σ → Except ε (A q × σ)) : Program Q A ε α → σ → Except ε (α × σ)
  | done a, s => .ok (a, s)
  | fails e, _ => .error e
  | ask q next, s =>
      match env q s with
      | .error e => .error e
      | .ok (a, s) => run env (next a) s

/-- What is asked and answered in a run. -/
def transcript (env : (q : Q) → σ → Except ε (A q × σ)) : Program Q A ε α → σ → List (Sigma A)
  | done _, _ => []
  | fails _, _ => []
  | ask q next, s =>
      match env q s with
      | .error _ => []
      | .ok (a, s) => ⟨q, a⟩ :: transcript env (next a) s

/-- The questions of a run. -/
def asked (env : (q : Q) → σ → Except ε (A q × σ)) (p : Program Q A ε α) (s : σ) : List Q :=
  (p.transcript env s).map Sigma.fst

/-- The program may end with a result behind some answers. -/
def Ends : Program Q A ε α → List (Sigma A) → α → Prop
  | done a, tr, b => tr = [] ∧ a = b
  | fails _, _, _ => False
  | ask q next, tr, b => ∃ a rest, tr = ⟨q, a⟩ :: rest ∧ (next a).Ends rest b

@[simp] theorem ends_done {a b : α} {tr : List (Sigma A)} :
    (done a : Program Q A ε α).Ends tr b ↔ tr = [] ∧ a = b := Iff.rfl

@[simp] theorem ends_pure {a b : α} {tr : List (Sigma A)} :
    (pure a : Program Q A ε α).Ends tr b ↔ tr = [] ∧ a = b := Iff.rfl

@[simp] theorem ends_fails {e : ε} {b : α} {tr : List (Sigma A)} :
    ¬ (fails e : Program Q A ε α).Ends tr b := id

theorem ends_bind {p : Program Q A ε α} {f : α → Program Q A ε β} {tr : List (Sigma A)} {b : β} :
    (p >>= f).Ends tr b ↔
      ∃ front back a, tr = front ++ back ∧ p.Ends front a ∧ (f a).Ends back b := by
  induction p generalizing tr with
  | done a =>
      constructor
      · intro h
        exact ⟨[], tr, a, rfl, ⟨rfl, rfl⟩, h⟩
      · rintro ⟨_, back, _, rfl, ⟨rfl, rfl⟩, h⟩
        exact h
  | fails e =>
      constructor
      · exact False.elim
      · rintro ⟨_, _, _, _, h, _⟩
        exact h
  | ask q next ih =>
      constructor
      · rintro ⟨answer, rest, rfl, h⟩
        obtain ⟨front, back, a, rfl, hfront, hback⟩ := (ih answer).mp h
        exact ⟨⟨q, answer⟩ :: front, back, a, rfl, ⟨answer, front, rfl, hfront⟩, hback⟩
      · rintro ⟨_, back, a, rfl, ⟨answer, front, rfl, hfront⟩, hback⟩
        exact ⟨answer, front ++ back, rfl, (ih answer).mpr ⟨front, back, a, rfl, hfront, hback⟩⟩

theorem ends_of_run {env : (q : Q) → σ → Except ε (A q × σ)} {p : Program Q A ε α} {s t : σ} {a : α}
    (h : p.run env s = .ok (a, t)) : p.Ends (p.transcript env s) a := by
  induction p generalizing s with
  | done b =>
      obtain ⟨rfl, rfl⟩ := Prod.mk.inj (Except.ok.inj h)
      exact ⟨rfl, rfl⟩
  | fails e => cases h
  | ask q next ih =>
      rw [run] at h
      rw [transcript]
      split at h
      · cases h
      · rename_i answer s' henv
        exact ⟨answer, _, rfl, ih answer h⟩

/-! ### Fixed answers -/

/-- The result if the answers are a function of the questions. -/
def evaluate (answers : (q : Q) → A q) : Program Q A ε α → Except ε α
  | done a => .ok a
  | fails e => .error e
  | ask q next => evaluate answers (next (answers q))

section Evaluate

variable {answers : (q : Q) → A q}

@[simp] theorem evaluate_pure (a : α) : (pure a : Program Q A ε α).evaluate answers = .ok a := rfl

@[simp] theorem evaluate_ofExcept (x : Except ε α) :
    (ofExcept x : Program Q A ε α).evaluate answers = x := by
  cases x <;> rfl

@[simp] theorem evaluate_bind {α β : Type x} (p : Program Q A ε α) (f : α → Program Q A ε β) :
    (p >>= f).evaluate answers = p.evaluate answers >>= fun a => (f a).evaluate answers := by
  induction p with
  | done a => rfl
  | fails e => rfl
  | ask q next ih => exact ih (answers q)

end Evaluate

/-- The answers to questions that are asked once are a function of these. -/
theorem exists_answers {ok : (q : Q) → A q → Prop} (once : Q → Bool) {tr : List (Sigma A)}
    (hnodup : ((tr.map Sigma.fst).filter once).Nodup)
    (hexists : ∃ answers : (q : Q) → A q, ∀ q, ok q (answers q)) (hok : ∀ e ∈ tr, ok e.1 e.2) :
    ∃ answers : (q : Q) → A q, (∀ q, ok q (answers q)) ∧
      ∀ e ∈ tr, once e.1 = true → answers e.1 = e.2 := by
  classical
  induction tr with
  | nil =>
      obtain ⟨answers, hanswers⟩ := hexists
      exact ⟨answers, hanswers, nofun⟩
  | cons e tr ih =>
      obtain ⟨he, hok⟩ := List.forall_mem_cons.mp hok
      rw [List.map_cons, List.filter_cons] at hnodup
      split at hnodup
      · obtain ⟨hnew, hnodup⟩ := List.nodup_cons.mp hnodup
        obtain ⟨answers, hanswers, hsame⟩ := ih hnodup hok
        refine ⟨Function.update answers e.1 e.2, fun q => ?_, fun e' he' honce => ?_⟩
        · by_cases hq : q = e.1
          · subst hq
            rwa [Function.update_self]
          · rw [Function.update_of_ne hq]
            exact hanswers q
        · obtain rfl | he' := List.mem_cons.mp he'
          · rw [Function.update_self]
          · rw [Function.update_of_ne, hsame e' he' honce]
            rintro heq
            apply hnew
            rw [← heq]
            exact List.mem_filter.mpr ⟨List.mem_map_of_mem he', honce⟩
      · rename_i hmany
        obtain ⟨answers, hanswers, hsame⟩ := ih hnodup hok
        refine ⟨answers, hanswers, fun e' he' honce => ?_⟩
        obtain rfl | he' := List.mem_cons.mp he'
        · exact absurd honce hmany
        · exact hsame e' he' honce

/-! ### Whatever is answered -/

/-- For answers that are `ok`, a result meets the postcondition and an error the
exceptional one. -/
def Meets (ok : (q : Q) → A q → Prop) (exc : ε → Prop) (post : α → Prop) :
    Program Q A ε α → Prop
  | done a => post a
  | fails e => exc e
  | ask q next => ∀ a, ok q a → Meets ok exc post (next a)

section Meets

variable {ok : (q : Q) → A q → Prop} {exc : ε → Prop} {post post' : α → Prop}

@[simp] theorem meets_done {a : α} : (done a).Meets ok exc post ↔ post a := Iff.rfl

@[simp] theorem meets_pure {a : α} :
    (pure a : Program Q A ε α).Meets ok exc post ↔ post a := Iff.rfl

@[simp] theorem meets_fails {e : ε} : (fails e).Meets ok exc post ↔ exc e := Iff.rfl

@[simp] theorem meets_question {Q : Type u} {A : Q → Type x} {ok : (q : Q) → A q → Prop} {q : Q}
    {post : A q → Prop} :
    (question q : Program Q A ε (A q)).Meets ok exc post ↔ ∀ a, ok q a → post a := Iff.rfl

theorem meets_trivial (p : Program Q A ε α) : p.Meets ok (fun _ => True) fun _ => True := by
  induction p with
  | done a => trivial
  | fails e => trivial
  | ask q next ih => exact fun a _ => ih a

theorem meets_ofExcept {x : Except ε α} (h : ∀ a, x = .ok a → post a) :
    (ofExcept x : Program Q A ε α).Meets ok (fun _ => True) post := by
  cases x with
  | error e => trivial
  | ok a => exact h a rfl

theorem Meets.mono {p : Program Q A ε α} (h : p.Meets ok exc post) (himp : ∀ a, post a → post' a) :
    p.Meets ok exc post' := by
  induction p with
  | done a => exact himp a h
  | fails e => exact h
  | ask q next ih => exact fun a ha => ih a (h a ha)

theorem Meets.weaken {p : Program Q A ε α} (h : p.Meets ok exc post) :
    p.Meets ok (fun _ => True) post := by
  induction p with
  | done a => exact h
  | fails e => trivial
  | ask q next ih => exact fun a ha => ih a (h a ha)

theorem Meets.bind {p : Program Q A ε α} {f : α → Program Q A ε β} {post' : β → Prop}
    (h : p.Meets ok exc post) (hf : ∀ a, post a → (f a).Meets ok exc post') :
    (p >>= f).Meets ok exc post' := by
  induction p with
  | done a => exact hf a h
  | fails e => exact h
  | ask q next ih => exact fun a ha => ih a (h a ha)

theorem meets_mapM {δ : Type*} {f : δ → Program Q A ε α} (post : δ → α → Prop) {xs : List δ}
    (h : ∀ x ∈ xs, (f x).Meets ok exc (post x)) :
    (xs.mapM f).Meets ok exc (List.Forall₂ post xs) := by
  induction xs with
  | nil => exact .nil
  | cons x xs ih =>
      obtain ⟨hx, hxs⟩ := List.forall_mem_cons.mp h
      rw [List.mapM_cons]
      refine hx.bind fun y hy => (ih hxs).bind fun ys hys => ?_
      exact .cons hy hys

/-- A loop; the invariant may depend on what is left to be done. -/
theorem meets_foldlM {δ : Type*} {f : α → δ → Program Q A ε α} (inv : List δ → α → Prop)
    (h : ∀ x rest s, inv (x :: rest) s → (f s x).Meets ok exc (inv rest)) {xs : List δ} {s : α}
    (hs : inv xs s) : (xs.foldlM f s).Meets ok exc (inv []) := by
  induction xs generalizing s with
  | nil => exact hs
  | cons x xs ih =>
      rw [List.foldlM_cons]
      exact (h x xs s hs).bind fun t ht => ih ht

/-- What is ended with behind answers that are `ok`. -/
theorem Meets.ends {p : Program Q A ε α} (h : p.Meets ok exc post) {tr : List (Sigma A)} {a : α}
    (hends : p.Ends tr a) (hok : ∀ e ∈ tr, ok e.1 e.2) : post a := by
  induction p generalizing tr with
  | done b =>
      obtain ⟨-, rfl⟩ := hends
      exact h
  | fails e => exact hends.elim
  | ask q next ih =>
      obtain ⟨answer, rest, rfl, hrest⟩ := hends
      obtain ⟨hanswer, hrestOk⟩ := List.forall_mem_cons.mp hok
      exact ih answer (h answer hanswer) hrest hrestOk

/-- What a run ends with. -/
theorem Meets.run {env : (q : Q) → σ → Except ε (A q × σ)} (inv : σ → Prop)
    (henv : ∀ q s a t, inv s → env q s = .ok (a, t) → ok q a ∧ inv t) {p : Program Q A ε α} {s : σ}
    (h : p.Meets ok exc post) (hs : inv s) :
    ∀ a t, p.run env s = .ok (a, t) → post a ∧ inv t := by
  induction p generalizing s with
  | done b =>
      rintro _ _ ⟨⟩
      exact ⟨h, hs⟩
  | fails e =>
      intro _ _ hrun
      cases hrun
  | ask q next ih =>
      intro a t hrun
      rw [Program.run] at hrun
      split at hrun
      · cases hrun
      · rename_i answer s' hanswer
        obtain ⟨hok, hs'⟩ := henv q s answer s' hs hanswer
        exact ih answer (h answer hok) hs' a t hrun

end Meets

/-! ### Programs that come to their end -/

/-- For answers that are `ok`, the program asks what is allowed and never fails. -/
def Completes (allowed : Q → Prop) (ok : (q : Q) → A q → Prop) (post : α → Prop) :
    Program Q A ε α → Prop
  | done a => post a
  | fails _ => False
  | ask q next => allowed q ∧ ∀ a, ok q a → Completes allowed ok post (next a)

section Completes

variable {allowed : Q → Prop} {ok : (q : Q) → A q → Prop} {post post' : α → Prop}

@[simp] theorem completes_pure {a : α} :
    (pure a : Program Q A ε α).Completes allowed ok post ↔ post a := Iff.rfl

theorem Completes.bind {p : Program Q A ε α} {f : α → Program Q A ε β} {post' : β → Prop}
    (h : p.Completes allowed ok post) (hf : ∀ a, post a → (f a).Completes allowed ok post') :
    (p >>= f).Completes allowed ok post' := by
  induction p with
  | done a => exact hf a h
  | fails e => exact h.elim
  | ask q next ih => exact ⟨h.1, fun a ha => ih a (h.2 a ha)⟩

theorem Completes.mono {p : Program Q A ε α} (h : p.Completes allowed ok post)
    (himp : ∀ a, post a → post' a) : p.Completes allowed ok post' := by
  induction p with
  | done a => exact himp a h
  | fails e => exact h
  | ask q next ih => exact ⟨h.1, fun a ha => ih a (h.2 a ha)⟩

/-- What is known of a result in another way. -/
theorem Completes.and {p : Program Q A ε α} {exc : ε → Prop}
    (h : p.Completes allowed ok post) (h' : p.Meets ok exc post') :
    p.Completes allowed ok fun a => post a ∧ post' a := by
  induction p with
  | done a => exact ⟨h, h'⟩
  | fails e => exact h
  | ask q next ih => exact ⟨h.1, fun a ha => ih a (h.2 a ha) (h' a ha)⟩

/-- A run ends with a result if all its answers are `ok`. -/
theorem Completes.run {env : (q : Q) → σ → Except ε (A q × σ)}
    (henv : ∀ q s, allowed q → ∃ r, env q s = .ok r) {p : Program Q A ε α} {s : σ}
    (h : p.Completes allowed ok post) (hok : ∀ e ∈ p.transcript env s, ok e.1 e.2) :
    ∃ a t, p.run env s = .ok (a, t) ∧ post a := by
  induction p generalizing s with
  | done a => exact ⟨a, s, rfl, h⟩
  | fails e => exact h.elim
  | ask q next ih =>
      obtain ⟨⟨a, t⟩, hanswer⟩ := henv q s h.1
      simp only [transcript, hanswer] at hok
      obtain ⟨ha, hok⟩ := List.forall_mem_cons.mp hok
      rw [Program.run, hanswer]
      exact ih a (h.2 a ha) hok

end Completes

/-! ### What is asked -/

/-- Whatever is answered, the program asks these questions in this order, up to an
error, and ends with a result that meets the postcondition. -/
inductive Asks (post : α → Prop) : List Q → Program Q A ε α → Prop where
  | done {a : α} (h : post a) : Asks post [] (done a)
  | fails (qs : List Q) (e : ε) : Asks post qs (fails e)
  | ask {q : Q} {qs : List Q} {next : A q → Program Q A ε α} (h : ∀ a, Asks post qs (next a)) :
      Asks post (q :: qs) (ask q next)

section Asks

variable {post post' : α → Prop} {qs qs' : List Q}

theorem Asks.mono {p : Program Q A ε α} (h : p.Asks post qs) (himp : ∀ a, post a → post' a) :
    p.Asks post' qs := by
  induction h with
  | done h => exact .done (himp _ h)
  | fails qs e => exact .fails qs e
  | ask _ ih => exact .ask ih

theorem Asks.bind {p : Program Q A ε α} {f : α → Program Q A ε β} {post' : β → Prop}
    (h : p.Asks post qs) (hf : ∀ a, post a → (f a).Asks post' qs') :
    (p >>= f).Asks post' (qs ++ qs') := by
  induction h with
  | done h => exact hf _ h
  | fails qs e => exact .fails _ e
  | ask _ ih => exact .ask ih

theorem Asks.map {g : α → β} {post' : β → Prop} {p : Program Q A ε α}
    (h : p.Asks (fun a => post' (g a)) qs) : (p >>= fun a => pure (g a)).Asks post' qs := by
  induction h with
  | done h => exact .done h
  | fails qs e => exact .fails qs e
  | ask _ ih => exact .ask ih

theorem asks_mapM {δ : Type*} {f : δ → Program Q A ε α} {needed : δ → List Q}
    {post : δ → α → Prop} {xs : List δ} (h : ∀ x ∈ xs, (f x).Asks (post x) (needed x)) :
    (xs.mapM f).Asks (List.Forall₂ post xs) (xs.flatMap needed) := by
  induction xs with
  | nil => exact .done .nil
  | cons x xs ih =>
      obtain ⟨hx, hxs⟩ := List.forall_mem_cons.mp h
      rw [List.mapM_cons, List.flatMap_cons]
      apply hx.bind
      intro y hy
      apply Asks.map
      exact (ih hxs).mono fun ys hys => .cons hy hys

theorem asks_foldlM {δ : Type*} {f : α → δ → Program Q A ε α} {needed : δ → List Q}
    (inv : α → Prop) {xs : List δ} (h : ∀ x ∈ xs, ∀ s, inv s → (f s x).Asks inv (needed x))
    {s : α} (hs : inv s) : (xs.foldlM f s).Asks inv (xs.flatMap needed) := by
  induction xs generalizing s with
  | nil => exact .done hs
  | cons x xs ih =>
      obtain ⟨hx, hxs⟩ := List.forall_mem_cons.mp h
      rw [List.foldlM_cons, List.flatMap_cons]
      exact (hx s hs).bind fun t ht => ih hxs ht

/-- The questions of a result are all of them. -/
theorem Asks.ends {p : Program Q A ε α} (h : p.Asks post qs) {tr : List (Sigma A)} {a : α}
    (hends : p.Ends tr a) : tr.map Sigma.fst = qs ∧ post a := by
  induction h generalizing tr with
  | done h =>
      obtain ⟨rfl, rfl⟩ := hends
      exact ⟨rfl, h⟩
  | fails qs e => exact hends.elim
  | ask _ ih =>
      obtain ⟨answer, rest, rfl, hrest⟩ := hends
      obtain ⟨hqs, hpost⟩ := ih answer hrest
      exact ⟨congrArg (List.cons _) hqs, hpost⟩

end Asks

/-- The answers to the questions that are asked are fixed. -/
theorem Asks.meets_evaluate {ok : (q : Q) → A q → Prop} {p : Program Q A ε α}
    (h : p.Asks post qs) {answers : (q : Q) → A q}
    (hok : ∀ q ∈ qs, ∀ a, ok q a → answers q = a) :
    p.Meets ok (fun e => p.evaluate answers = .error e) fun a => p.evaluate answers = .ok a := by
  induction h with
  | done h => rfl
  | fails qs e => rfl
  | ask _ ih =>
      obtain ⟨hq, hqs⟩ := List.forall_mem_cons.mp hok
      intro a ha
      obtain rfl := hq a ha
      exact ih _ hqs

/-- What is asked is no matter. -/
theorem Asks.meets {post : α → Prop} {qs : List Q} {p : Program Q A ε α} (h : p.Asks post qs)
    (ok : (q : Q) → A q → Prop) : p.Meets ok (fun _ => True) post := by
  induction h with
  | done h => exact h
  | fails qs e => trivial
  | ask _ ih => exact fun a _ => ih a

/-! ### Questions of a kind -/

/-- All questions are allowed. -/
def Only (allowed : Q → Prop) : Program Q A ε α → Prop
  | done _ => True
  | fails _ => True
  | ask q next => allowed q ∧ ∀ a, Only allowed (next a)

section Only

variable {allowed : Q → Prop}

@[simp] theorem only_pure {a : α} : (pure a : Program Q A ε α).Only allowed := trivial

@[simp] theorem only_ofExcept {x : Except ε α} :
    (ofExcept x : Program Q A ε α).Only allowed := by
  cases x <;> trivial

theorem Only.bind {p : Program Q A ε α} {f : α → Program Q A ε β} (h : p.Only allowed)
    (hf : ∀ a, (f a).Only allowed) : (p >>= f).Only allowed := by
  induction p with
  | done a => exact hf a
  | fails e => trivial
  | ask q next ih => exact ⟨h.1, fun a => ih a (h.2 a)⟩

theorem only_foldlM {δ : Type*} {f : α → δ → Program Q A ε α} {xs : List δ}
    (h : ∀ s, ∀ x ∈ xs, (f s x).Only allowed) (s : α) : (xs.foldlM f s).Only allowed := by
  induction xs generalizing s with
  | nil => trivial
  | cons x xs ih =>
      rw [List.foldlM_cons]
      exact (h s x List.mem_cons_self).bind fun t =>
        ih (fun s y hy => h s y (List.mem_cons_of_mem x hy)) t

theorem Asks.only {post : α → Prop} {qs : List Q} {p : Program Q A ε α} (h : p.Asks post qs)
    (hqs : ∀ q ∈ qs, allowed q) : p.Only allowed := by
  induction h with
  | done h => trivial
  | fails qs e => trivial
  | ask _ ih =>
      obtain ⟨hq, hqs⟩ := List.forall_mem_cons.mp hqs
      exact ⟨hq, fun a => ih a hqs⟩

end Only

/-! ### What was asked -/

/-- The questions on the way to a result, and the result. -/
def Logs (post : List Q → α → Prop) (p : Program Q A ε α) : Prop :=
  ∀ tr a, p.Ends tr a → post (tr.map Sigma.fst) a

section Logs

variable {post : List Q → α → Prop}

theorem logs_pure {a : α} (h : post [] a) : (pure a : Program Q A ε α).Logs post := by
  rintro _ _ ⟨rfl, rfl⟩
  exact h

theorem Logs.mono {post' : List Q → α → Prop} {p : Program Q A ε α} (h : p.Logs post)
    (himp : ∀ asked a, post asked a → post' asked a) : p.Logs post' :=
  fun tr a hends => himp _ a (h tr a hends)

theorem Logs.bind {p : Program Q A ε α} {f : α → Program Q A ε β} {post' : List Q → β → Prop}
    (h : p.Logs post)
    (hf : ∀ asked a, post asked a → (f a).Logs fun asked' b => post' (asked ++ asked') b) :
    (p >>= f).Logs post' := by
  intro tr b hends
  obtain ⟨front, back, a, rfl, hfront, hback⟩ := ends_bind.mp hends
  rw [List.map_append]
  exact hf _ a (h front a hfront) back b hback

theorem logs_foldlM_append {δ : Type*} {f : α → δ → Program Q A ε α}
    (inv : List δ → List Q → α → Prop)
    (h : ∀ x rest asked s, inv (x :: rest) asked s →
      (f s x).Logs fun asked' t => inv rest (asked ++ asked') t)
    {xs : List δ} {asked : List Q} {s : α} (hs : inv xs asked s) :
    (xs.foldlM f s).Logs fun asked' t => inv [] (asked ++ asked') t := by
  induction xs generalizing asked s with
  | nil =>
      apply logs_pure
      rwa [List.append_nil]
  | cons x xs ih =>
      rw [List.foldlM_cons]
      refine (h x xs asked s hs).bind fun asked' t ht => ?_
      exact (ih ht).mono fun asked'' u hu => by rwa [List.append_assoc] at hu

/-- A loop; the invariant may depend on what is left to be done and on what was asked. -/
theorem logs_foldlM {δ : Type*} {f : α → δ → Program Q A ε α} (inv : List δ → List Q → α → Prop)
    (h : ∀ x rest asked s, inv (x :: rest) asked s →
      (f s x).Logs fun asked' t => inv rest (asked ++ asked') t)
    {xs : List δ} {s : α} (hs : inv xs [] s) : (xs.foldlM f s).Logs (inv []) :=
  logs_foldlM_append inv h hs

theorem Asks.logs {post : α → Prop} {qs : List Q} {p : Program Q A ε α} (h : p.Asks post qs) :
    p.Logs fun asked a => asked = qs ∧ post a :=
  fun _ _ hends => h.ends hends

theorem Only.logs {allowed : Q → Prop} {p : Program Q A ε α} (h : p.Only allowed) :
    p.Logs fun asked _ => ∀ q ∈ asked, allowed q := by
  induction p with
  | done a =>
      rintro _ _ ⟨rfl, rfl⟩
      simp
  | fails e => exact fun _ _ hends => hends.elim
  | ask q next ih =>
      rintro _ a ⟨answer, rest, rfl, hrest⟩
      exact List.forall_mem_cons.mpr ⟨h.1, ih answer (h.2 answer) rest a hrest⟩

end Logs

/-! ### Two programs -/

/-- Two programs that ask the same questions as long as the answers agree, and end
with related results. -/
inductive Lockstep (agree : (q : Q) → A q → A q → Prop) (R : α → β → Prop) :
    Program Q A ε α → Program Q A ε β → Prop where
  | done {a : α} {b : β} (h : R a b) : Lockstep agree R (done a) (done b)
  | failsLeft (e : ε) (p : Program Q A ε β) : Lockstep agree R (fails e) p
  | failsRight (p : Program Q A ε α) (e : ε) : Lockstep agree R p (fails e)
  | ask {q : Q} {next : A q → Program Q A ε α} {next' : A q → Program Q A ε β}
      (h : ∀ a a', agree q a a' → Lockstep agree R (next a) (next' a')) :
      Lockstep agree R (ask q next) (ask q next')

section Lockstep

variable {agree : (q : Q) → A q → A q → Prop}

theorem Lockstep.mono {R R' : α → β → Prop} {p : Program Q A ε α} {p' : Program Q A ε β}
    (h : Lockstep agree R p p') (himp : ∀ a b, R a b → R' a b) : Lockstep agree R' p p' := by
  induction h with
  | done h => exact .done (himp _ _ h)
  | failsLeft e p => exact .failsLeft e p
  | failsRight p e => exact .failsRight p e
  | ask _ ih => exact .ask ih

theorem Lockstep.bind {α' β' : Type x} {R : α → β → Prop} {R' : α' → β' → Prop}
    {p : Program Q A ε α} {p' : Program Q A ε β} {f : α → Program Q A ε α'}
    {f' : β → Program Q A ε β'} (h : Lockstep agree R p p')
    (hf : ∀ a b, R a b → Lockstep agree R' (f a) (f' b)) :
    Lockstep agree R' (p >>= f) (p' >>= f') := by
  induction h with
  | done h => exact hf _ _ h
  | failsLeft e p => exact .failsLeft e _
  | failsRight p e => exact .failsRight _ e
  | ask _ ih => exact .ask ih

theorem lockstep_ofExcept {R : α → β → Prop} {x : Except ε α} {y : Except ε β}
    (h : ∀ a b, x = .ok a → y = .ok b → R a b) :
    Lockstep agree R (ofExcept x : Program Q A ε α) (ofExcept y) := by
  cases x with
  | error e => exact .failsLeft e _
  | ok a =>
      cases y with
      | error e => exact .failsRight _ e
      | ok b => exact .done (h a b rfl rfl)

/-- Programs that ask the same whatever is answered. -/
theorem lockstep_of_asks {post : α → Prop} {post' : β → Prop} {qs : List Q}
    {p : Program Q A ε α} {p' : Program Q A ε β} (h : p.Asks post qs) (h' : p'.Asks post' qs) :
    Lockstep agree (fun a b => post a ∧ post' b) p p' := by
  induction h generalizing p' with
  | done h =>
      cases h' with
      | done h' => exact .done ⟨h, h'⟩
      | fails _ e => exact .failsRight _ e
  | fails qs e => exact .failsLeft e _
  | ask _ ih =>
      cases h' with
      | fails _ e => exact .failsRight _ e
      | ask h' => exact .ask fun a a' _ => ih a (h' a')

/-- Two loops; the relation may depend on what is left to be done. -/
theorem lockstep_foldlM {δ : Type*} {f : α → δ → Program Q A ε α} {f' : β → δ → Program Q A ε β}
    {R : List δ → α → β → Prop}
    (h : ∀ x rest s s', R (x :: rest) s s' → Lockstep agree (R rest) (f s x) (f' s' x))
    {xs : List δ} {s : α} {s' : β} (hs : R xs s s') :
    Lockstep agree (R []) (xs.foldlM f s) (xs.foldlM f' s') := by
  induction xs generalizing s s' with
  | nil => exact .done hs
  | cons x xs ih =>
      rw [List.foldlM_cons, List.foldlM_cons]
      exact (h x xs s s' hs).bind fun t t' ht => ih ht

theorem lockstep_mapM {δ δ' : Type*} {f : δ → Program Q A ε α} {f' : δ' → Program Q A ε β}
    {S : δ → δ' → Prop} {R : α → β → Prop} {xs : List δ} {ys : List δ'} (h : List.Forall₂ S xs ys)
    (hf : ∀ x y, S x y → Lockstep agree R (f x) (f' y)) :
    Lockstep agree (List.Forall₂ R) (xs.mapM f) (ys.mapM f') := by
  induction h with
  | nil => exact .done .nil
  | cons hx _ ih =>
      rw [List.mapM_cons, List.mapM_cons]
      refine (hf _ _ hx).bind fun a b hab => ih.bind fun as bs habs => ?_
      exact .done (.cons hab habs)

/-- Two loops over lists that are related part by part. -/
theorem lockstep_mapM_segmented {δ δ' : Type*} {f : δ → Program Q A ε α}
    {f' : δ' → Program Q A ε β} {S : List δ → List δ' → Prop} {R : List α → List β → Prop}
    {xs : List δ} {ys : List δ'} (h : List.Segmented S xs ys)
    (hf : ∀ xs ys, S xs ys → Lockstep agree R (xs.mapM f) (ys.mapM f')) :
    Lockstep agree (List.Segmented R) (xs.mapM f) (ys.mapM f') := by
  induction h with
  | nil => exact .done .nil
  | append head _ ih =>
      rw [List.mapM_append, List.mapM_append]
      refine (hf _ _ head).bind fun as bs hab => ih.bind fun as' bs' habs => ?_
      exact .done (.append hab habs)

/-- Less may be known about the answers. -/
theorem Lockstep.of_agree {agree' : (q : Q) → A q → A q → Prop} {R : α → β → Prop}
    {p : Program Q A ε α} {p' : Program Q A ε β} (h : Lockstep agree R p p')
    (hagree : ∀ q a a', agree' q a a' → agree q a a') : Lockstep agree' R p p' := by
  induction h with
  | done h => exact .done h
  | failsLeft e p => exact .failsLeft e p
  | failsRight p e => exact .failsRight p e
  | ask _ ih => exact .ask fun a a' ha => ih a a' (hagree _ a a' ha)

/-- What is known of each of the results. -/
theorem Lockstep.and_meets {R : α → β → Prop} {p : Program Q A ε α} {p' : Program Q A ε β}
    (h : Lockstep agree R p p') {exc exc' : ε → Prop} {post : α → Prop} {post' : β → Prop}
    (hp : p.Meets (fun _ _ => True) exc post) (hp' : p'.Meets (fun _ _ => True) exc' post') :
    Lockstep agree (fun a b => R a b ∧ post a ∧ post' b) p p' := by
  induction h with
  | done h => exact .done ⟨h, hp, hp'⟩
  | failsLeft e p => exact .failsLeft e p
  | failsRight p e => exact .failsRight p e
  | ask _ ih => exact .ask fun a a' ha => ih a a' ha (hp a trivial) (hp' a' trivial)

/-- Two transcripts with answers that agree end with related results. -/
theorem Lockstep.ends {R : α → β → Prop} {p : Program Q A ε α} {p' : Program Q A ε β}
    (h : Lockstep agree R p p') {tr tr' : List (Sigma A)} {a : α} {b : β} (hp : p.Ends tr a)
    (hp' : p'.Ends tr' b)
    (hagree : ∀ q x x', (⟨q, x⟩, ⟨q, x'⟩) ∈ tr.zip tr' → agree q x x') : R a b := by
  induction h generalizing tr tr' with
  | done h =>
      obtain ⟨-, rfl⟩ := hp
      obtain ⟨-, rfl⟩ := hp'
      exact h
  | failsLeft e p => exact hp.elim
  | failsRight p e => exact hp'.elim
  | ask _ ih =>
      obtain ⟨x, rest, rfl, hrest⟩ := hp
      obtain ⟨x', rest', rfl, hrest'⟩ := hp'
      rw [List.zip_cons_cons] at hagree
      refine ih x x' (hagree _ x x' List.mem_cons_self) hrest hrest' fun q y y' hy => ?_
      exact hagree q y y' (List.mem_cons_of_mem _ hy)

variable {env : (q : Q) → σ → Except ε (A q × σ)} {env' : (q : Q) → τ → Except ε (A q × τ)}

/-- In two environments whose answers agree, the answers in the transcripts agree. -/
theorem Lockstep.agree_of_mem_zip {S : σ → τ → Prop} {R : α → β → Prop}
    (henv : ∀ q s s', S s s' → ∀ a t a' t', env q s = .ok (a, t) → env' q s' = .ok (a', t') →
      agree q a a' ∧ S t t')
    {p : Program Q A ε α} {p' : Program Q A ε β} (h : Lockstep agree R p p') {s : σ} {s' : τ}
    (hs : S s s') {q : Q} {x x' : A q}
    (hmem : (⟨q, x⟩, ⟨q, x'⟩) ∈ (p.transcript env s).zip (p'.transcript env' s')) :
    agree q x x' := by
  induction h generalizing s s' with
  | done h => cases hmem
  | failsLeft e p => cases hmem
  | failsRight p e =>
      rw [transcript, List.zip_nil_right] at hmem
      cases hmem
  | @ask q' next next' hnext ih =>
      rw [transcript, transcript] at hmem
      cases hanswer : env q' s with
      | error e =>
          rw [hanswer] at hmem
          cases hmem
      | ok r =>
          cases hanswer' : env' q' s' with
          | error e =>
              rw [hanswer', List.zip_nil_right] at hmem
              cases hmem
          | ok r' =>
              obtain ⟨hagree, hs⟩ := henv q' s s' hs _ _ _ _ hanswer hanswer'
              rw [hanswer, hanswer', List.zip_cons_cons] at hmem
              obtain hmem | hmem := List.mem_cons.mp hmem
              · cases hmem
                exact hagree
              · exact ih r.1 r'.1 hagree hs hmem

/-- In two environments whose answers agree, one run asks a prefix of what the other
asks, and the same if both end with a result. -/
theorem Lockstep.runs {S : σ → τ → Prop} {R : α → β → Prop}
    (henv : ∀ q s s', S s s' → ∀ a t a' t', env q s = .ok (a, t) → env' q s' = .ok (a', t') →
      agree q a a' ∧ S t t')
    {p : Program Q A ε α} {p' : Program Q A ε β} (h : Lockstep agree R p p') {s : σ} {s' : τ}
    (hs : S s s') :
    (p.asked env s <+: p'.asked env' s' ∨ p'.asked env' s' <+: p.asked env s) ∧
      ∀ a t a' t', p.run env s = .ok (a, t) → p'.run env' s' = .ok (a', t') →
        R a a' ∧ S t t' ∧ p.asked env s = p'.asked env' s' := by
  induction h generalizing s s' with
  | done h =>
      refine ⟨.inl (List.nil_prefix), ?_⟩
      rintro _ _ _ _ ⟨⟩ ⟨⟩
      exact ⟨h, hs, rfl⟩
  | failsLeft e p =>
      refine ⟨.inl List.nil_prefix, ?_⟩
      intro _ _ _ _ hrun
      cases hrun
  | failsRight p e =>
      refine ⟨.inr List.nil_prefix, ?_⟩
      intro _ _ _ _ _ hrun
      cases hrun
  | ask hnext ih =>
      rename_i q next next'
      simp only [asked, transcript, run]
      cases hanswer : env q s with
      | error e =>
          refine ⟨.inl List.nil_prefix, ?_⟩
          intro _ _ _ _ hrun
          cases hrun
      | ok at_ =>
          cases hanswer' : env' q s' with
          | error e =>
              refine ⟨.inr List.nil_prefix, ?_⟩
              intro _ _ _ _ _ hrun
              cases hrun
          | ok at' =>
              obtain ⟨hagree, hs⟩ := henv q s s' hs _ _ _ _ hanswer hanswer'
              obtain ⟨hbegins, hends⟩ := ih at_.1 at'.1 hagree hs
              refine ⟨?_, ?_⟩
              · simpa only [asked, List.map_cons, List.cons_prefix_cons, true_and] using hbegins
              · intro a t a' t' hrun hrun'
                obtain ⟨hR, hS, hasked⟩ := hends a t a' t' hrun hrun'
                exact ⟨hR, hS, congrArg (List.cons q) hasked⟩

end Lockstep

end Program

end Interaction
