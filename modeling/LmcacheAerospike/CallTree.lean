/-
# Programs as trees of calls

A program that talks to the outside through calls is the tree of the calls it may
make: a leaf returns a value or raises an exception, an inner node names one call
and says how the program goes on for each answer.  The same tree can be run
against a handler that answers at once (`Prog.run`), followed along any answers
(`Prog.Trace`), or interleaved with other programs call by call
(`SharedDevice.lean`), so a function is written once and every account of it is
about that text.

Nothing here depends on what the calls are: `Op` is the type of calls, `Res o`
the type of answers to the call `o`, `E` the type of exceptions.
-/
import Mathlib.Logic.Basic
import Mathlib.Tactic.Common

/-- A program over the calls `Op`, answered in `Res`, raising exceptions in `E`. -/
inductive Prog (Op : Type) (Res : Op → Type) (E : Type) (α : Type) : Type where
  /-- Return a value. -/
  | ret (a : α) : Prog Op Res E α
  /-- Raise an exception. -/
  | raise (e : E) : Prog Op Res E α
  /-- Make the call `o` and go on with its answer. -/
  | call (o : Op) (k : Res o → Prog Op Res E α) : Prog Op Res E α

namespace Prog

variable {Op : Type} {Res : Op → Type} {E α β γ : Type}

/-! ## Sequencing and exceptions -/

/-- Run `p`, then `f` on the value it returns. -/
def bind : Prog Op Res E α → (α → Prog Op Res E β) → Prog Op Res E β
  | ret a, f => f a
  | raise e, _ => raise e
  | call o k, f => call o fun x => (k x).bind f

/-- `try p except: handler`. -/
def tryCatch : Prog Op Res E α → (E → Prog Op Res E α) → Prog Op Res E α
  | ret a, _ => ret a
  | raise e, handler => handler e
  | call o k, handler => call o fun x => (k x).tryCatch handler

/-- The value of a computation without calls, or its exception. -/
def ofExcept : Except E α → Prog Op Res E α
  | .ok a => ret a
  | .error e => raise e

/-- Run `p` and go on with its outcome, an exception included. -/
def attempt (p : Prog Op Res E α) : Prog Op Res E (Except E α) :=
  (p.bind fun a => ret (.ok a)).tryCatch fun e => ret (.error e)

/-- The program with its exceptions renamed. -/
def mapError {E' : Type} (f : E → E') : Prog Op Res E α → Prog Op Res E' α
  | ret a => ret a
  | raise e => raise (f e)
  | call o k => call o fun x => (k x).mapError f

instance : Monad (Prog Op Res E) where
  pure := ret
  bind := bind

instance : MonadExceptOf E (Prog Op Res E) where
  throw := raise
  tryCatch := tryCatch

theorem pure_eq (a : α) : (pure a : Prog Op Res E α) = ret a := rfl

@[simp] theorem ret_bind (a : α) (f : α → Prog Op Res E β) :
    (ret a : Prog Op Res E α).bind f = f a := rfl

theorem bind_eq (p : Prog Op Res E α) (f : α → Prog Op Res E β) :
    (p >>= f) = p.bind f := rfl

/-- Sequencing is associative. -/
theorem bind_assoc (p : Prog Op Res E α) (f : α → Prog Op Res E β)
    (g : β → Prog Op Res E γ) :
    (p.bind f).bind g = p.bind fun a => (f a).bind g := by
  induction p with
  | ret a => rfl
  | raise e => rfl
  | call o k ih =>
    simp only [bind]
    congr 1
    funext x
    exact ih x

/-! ## The calls of a program -/

/-- Every call that the program can make, whatever the answers, meets `G`. -/
def AllCalls (G : Op → Prop) : Prog Op Res E α → Prop
  | ret _ => True
  | raise _ => True
  | call o k => G o ∧ ∀ x, (k x).AllCalls G

/-- A weaker condition on the calls. -/
theorem allCalls_mono {G G' : Op → Prop} (h : ∀ o, G o → G' o) (p : Prog Op Res E α)
    (hp : p.AllCalls G) : p.AllCalls G' := by
  induction p with
  | ret a => trivial
  | raise e => trivial
  | call o k ih => exact ⟨h o hp.1, fun x => ih x (hp.2 x)⟩

theorem allCalls_true (p : Prog Op Res E α) : p.AllCalls fun _ => True := by
  induction p with
  | ret a => trivial
  | raise e => trivial
  | call o k ih => exact ⟨trivial, ih⟩

/-- The calls of a sequence are those of its parts. -/
theorem allCalls_bind {G : Op → Prop} (p : Prog Op Res E α) (f : α → Prog Op Res E β)
    (hp : p.AllCalls G) (hf : ∀ a, (f a).AllCalls G) : (p.bind f).AllCalls G := by
  induction p with
  | ret a => exact hf a
  | raise e => trivial
  | call o k ih => exact ⟨hp.1, fun x => ih x (hp.2 x)⟩

/-- The calls of a guarded program are its own and those of its handler. -/
theorem allCalls_tryCatch {G : Op → Prop} (p : Prog Op Res E α)
    (handler : E → Prog Op Res E α) (hp : p.AllCalls G)
    (hh : ∀ e, (handler e).AllCalls G) : (p.tryCatch handler).AllCalls G := by
  induction p with
  | ret a => trivial
  | raise e => exact hh e
  | call o k ih => exact ⟨hp.1, fun x => ih x (hp.2 x)⟩

/-- A computation makes no call. -/
theorem allCalls_ofExcept {G : Op → Prop} (r : Except E α) :
    (ofExcept r : Prog Op Res E α).AllCalls G := by
  cases r <;> trivial

theorem allCalls_mapError {E' : Type} {G : Op → Prop} (f : E → E') (p : Prog Op Res E α)
    (hp : p.AllCalls G) : (p.mapError f).AllCalls G := by
  induction p with
  | ret a => trivial
  | raise e => trivial
  | call o k ih => exact ⟨hp.1, fun x => ih x (hp.2 x)⟩

theorem allCalls_attempt {G : Op → Prop} (p : Prog Op Res E α) (hp : p.AllCalls G) :
    p.attempt.AllCalls G :=
  allCalls_tryCatch _ _ (allCalls_bind _ _ hp fun _ => trivial) fun _ => trivial

/-! ## Traces -/

/-- The program may end in `r`, its calls being answered as the list says. -/
inductive Trace : Prog Op Res E α → List (Σ o : Op, Res o) → Except E α → Prop
  | ret (a : α) : Trace (ret a) [] (.ok a)
  | raise (e : E) : Trace (raise e) [] (.error e)
  | call {o : Op} {k : Res o → Prog Op Res E α} (x : Res o) {calls : List (Σ o : Op, Res o)}
      {r : Except E α} : Trace (k x) calls r → Trace (call o k) (⟨o, x⟩ :: calls) r

section Traces

variable {calls : List (Σ o : Op, Res o)}

/-- A program that returns at once makes no call. -/
theorem trace_ret {a : α} {r : Except E α}
    (h : (ret a : Prog Op Res E α).Trace calls r) : calls = [] ∧ r = .ok a := by
  cases h
  exact ⟨rfl, rfl⟩

/-- A program that raises at once makes no call. -/
theorem trace_raise {e : E} {r : Except E α}
    (h : (raise e : Prog Op Res E α).Trace calls r) : calls = [] ∧ r = .error e := by
  cases h
  exact ⟨rfl, rfl⟩

/-- The trace of a call: its answer comes first. -/
theorem trace_call {o : Op} {k : Res o → Prog Op Res E α} {r : Except E α}
    (h : (call o k).Trace calls r) :
    ∃ x rest, calls = ⟨o, x⟩ :: rest ∧ (k x).Trace rest r := by
  cases h with
  | call x hrest => exact ⟨x, _, rfl, hrest⟩

/-- A computation has the empty trace, and ends in its outcome. -/
theorem trace_ofExcept {r r' : Except E α}
    (h : (ofExcept r : Prog Op Res E α).Trace calls r') : calls = [] ∧ r' = r := by
  cases r with
  | ok a => exact trace_ret h
  | error e => exact trace_raise h

/-- A trace of a sequence splits where its first part ends. -/
theorem trace_bind {p : Prog Op Res E α} {f : α → Prog Op Res E β} {r : Except E β}
    (h : (p.bind f).Trace calls r) :
    (∃ a before after, p.Trace before (.ok a) ∧ (f a).Trace after r ∧
        calls = before ++ after) ∨
      ∃ e, p.Trace calls (.error e) ∧ r = .error e := by
  induction p generalizing calls with
  | ret a => exact Or.inl ⟨a, [], calls, .ret a, h, rfl⟩
  | raise e =>
    obtain ⟨rfl, rfl⟩ := trace_raise h
    exact Or.inr ⟨e, .raise e, rfl⟩
  | call o k ih =>
    obtain ⟨x, rest, rfl, hrest⟩ := trace_call h
    rcases ih x hrest with ⟨a, before, after, hp, hf, rfl⟩ | ⟨e, hp, hr⟩
    · exact Or.inl ⟨a, ⟨o, x⟩ :: before, after, .call x hp, hf, rfl⟩
    · exact Or.inr ⟨e, .call x hp, hr⟩

/-- A trace of a guarded program: it ended well, or its handler took over. -/
theorem trace_tryCatch {p : Prog Op Res E α} {handler : E → Prog Op Res E α} {r : Except E α}
    (h : (p.tryCatch handler).Trace calls r) :
    (∃ a, p.Trace calls (.ok a) ∧ r = .ok a) ∨
      ∃ e before after, p.Trace before (.error e) ∧ (handler e).Trace after r ∧
        calls = before ++ after := by
  induction p generalizing calls with
  | ret a =>
    obtain ⟨rfl, rfl⟩ := trace_ret h
    exact Or.inl ⟨a, .ret a, rfl⟩
  | raise e => exact Or.inr ⟨e, [], calls, .raise e, h, rfl⟩
  | call o k ih =>
    obtain ⟨x, rest, rfl, hrest⟩ := trace_call h
    rcases ih x hrest with ⟨a, hp, hr⟩ | ⟨e, before, after, hp, hh, rfl⟩
    · exact Or.inl ⟨a, .call x hp, hr⟩
    · exact Or.inr ⟨e, ⟨o, x⟩ :: before, after, .call x hp, hh, rfl⟩

end Traces

/-! ## Running against a handler -/

variable {S : Type}

/-- Run a program against a handler that answers each call at once. -/
def run (h : ∀ o : Op, S → Res o × S) : Prog Op Res E α → S → Except E α × S
  | ret a, s => (.ok a, s)
  | raise e, s => (.error e, s)
  | call o k, s => (k (h o s).1).run h (h o s).2

@[simp] theorem run_call (h : ∀ o : Op, S → Res o × S) (o : Op)
    (k : Res o → Prog Op Res E α) (s : S) :
    (call o k).run h s = (k (h o s).1).run h (h o s).2 := rfl

/-- What follows a program's outcome in a sequence: a value goes to the rest, an
exception ends the run. -/
def andThen (h : ∀ o : Op, S → Res o × S) (f : α → Prog Op Res E β) :
    Except E α × S → Except E β × S
  | (.ok a, s) => (f a).run h s
  | (.error e, s) => (.error e, s)

@[simp] theorem andThen_ok (h : ∀ o : Op, S → Res o × S) (f : α → Prog Op Res E β)
    (a : α) (s : S) : andThen h f (.ok a, s) = (f a).run h s := rfl

/-- **The sequencing rule of runs.** -/
theorem run_bind (h : ∀ o : Op, S → Res o × S) (p : Prog Op Res E α)
    (f : α → Prog Op Res E β) (s : S) :
    (p.bind f).run h s = andThen h f (p.run h s) := by
  induction p generalizing s with
  | ret a => rfl
  | raise e => rfl
  | call o k ih => exact ih _ _

/-- What follows a guarded program's outcome: an exception goes to the handler. -/
def orElse (h : ∀ o : Op, S → Res o × S) (handler : E → Prog Op Res E α) :
    Except E α × S → Except E α × S
  | (.ok a, s) => (.ok a, s)
  | (.error e, s) => (handler e).run h s

/-- **The exception rule of runs.** -/
theorem run_tryCatch (h : ∀ o : Op, S → Res o × S) (p : Prog Op Res E α)
    (handler : E → Prog Op Res E α) (s : S) :
    (p.tryCatch handler).run h s = orElse h handler (p.run h s) := by
  induction p generalizing s with
  | ret a => rfl
  | raise e => rfl
  | call o k ih => exact ih _ _

/-- A renamed exception is raised where the program raised. -/
theorem run_mapError {E' : Type} (h : ∀ o : Op, S → Res o × S) (f : E → E')
    (p : Prog Op Res E α) (s : S) :
    (p.mapError f).run h s = ((p.run h s).1.mapError f, (p.run h s).2) := by
  induction p generalizing s with
  | ret a => rfl
  | raise e => rfl
  | call o k ih => exact ih _ _

/-- A guarded program always returns its outcome. -/
theorem run_attempt (h : ∀ o : Op, S → Res o × S) (p : Prog Op Res E α) (s : S) :
    p.attempt.run h s = (.ok (p.run h s).1, (p.run h s).2) := by
  rw [attempt, run_tryCatch, run_bind]
  rcases p.run h s with ⟨r, s'⟩
  cases r with
  | ok a => rfl
  | error e => rfl

/-! ### What a run ends in -/

/-- The program ends in `Post` as long as every call is answered as `Ans` says. -/
def Meets (Ans : ∀ o : Op, Res o → Prop) (Post : Except E α → Prop) : Prog Op Res E α → Prop
  | ret a => Post (.ok a)
  | raise e => Post (.error e)
  | call o k => ∀ x, Ans o x → (k x).Meets Ans Post

/-- A weaker postcondition. -/
theorem meets_mono {Ans : ∀ o : Op, Res o → Prop} {Post Post' : Except E α → Prop}
    (h : ∀ r, Post r → Post' r) (p : Prog Op Res E α) (hp : p.Meets Ans Post) :
    p.Meets Ans Post' := by
  induction p with
  | ret a => exact h _ hp
  | raise e => exact h _ hp
  | call o k ih => exact fun x hx => ih x (hp x hx)

/-- The rule of sequences, through a condition on what comes in between. -/
theorem meets_bind {Ans : ∀ o : Op, Res o → Prop} {M : Except E α → Prop}
    {Post : Except E β → Prop} (p : Prog Op Res E α) (f : α → Prog Op Res E β)
    (hp : p.Meets Ans M) (hok : ∀ a, M (.ok a) → (f a).Meets Ans Post)
    (herror : ∀ e, M (.error e) → Post (.error e)) : (p.bind f).Meets Ans Post := by
  induction p with
  | ret a => exact hok a hp
  | raise e => exact herror e hp
  | call o k ih => exact fun x hx => ih x (hp x hx)

/-- The rule of guarded programs: the handler starts from the exception. -/
theorem meets_tryCatch {Ans : ∀ o : Op, Res o → Prop} {M Post : Except E α → Prop}
    (p : Prog Op Res E α) (handler : E → Prog Op Res E α) (hp : p.Meets Ans M)
    (hok : ∀ a, M (.ok a) → Post (.ok a))
    (herror : ∀ e, M (.error e) → (handler e).Meets Ans Post) :
    (p.tryCatch handler).Meets Ans Post := by
  induction p with
  | ret a => exact hok a hp
  | raise e => exact herror e hp
  | call o k ih => exact fun x hx => ih x (hp x hx)

theorem meets_ofExcept {Ans : ∀ o : Op, Res o → Prop} {Post : Except E α → Prop}
    {r : Except E α} (hr : Post r) : (ofExcept r : Prog Op Res E α).Meets Ans Post := by
  cases r with
  | ok a => exact hr
  | error e => exact hr

/-- A guarded program always returns, and with an outcome of its postcondition. -/
theorem meets_attempt {Ans : ∀ o : Op, Res o → Prop} {Post : Except E α → Prop}
    (p : Prog Op Res E α) (hp : p.Meets Ans Post) :
    p.attempt.Meets Ans fun r : Except E (Except E α) => ∃ x, r = .ok x ∧ Post x := by
  refine meets_tryCatch (M := fun r : Except E (Except E α) =>
    (∃ x, r = .ok x ∧ Post x) ∨ ∃ e, r = .error e ∧ Post (.error e)) _ _ ?_ ?_ ?_
  · exact meets_bind _ _ hp (fun a ha => Or.inl ⟨_, rfl, ha⟩) fun e he => Or.inr ⟨e, rfl, he⟩
  · rintro x (hx | ⟨e, he, -⟩)
    · exact hx
    · cases he
  · rintro e (⟨x, hx, -⟩ | ⟨e', he, hpost⟩)
    · cases hx
    · cases he
      exact ⟨_, rfl, hpost⟩

/-- **The rule of postconditions.** -/
theorem run_meets {h : ∀ o : Op, S → Res o × S} {Ans : ∀ o : Op, Res o → Prop}
    (hans : ∀ o s, Ans o (h o s).1) {Post : Except E α → Prop} (p : Prog Op Res E α)
    (hp : p.Meets Ans Post) (s : S) : Post (p.run h s).1 := by
  induction p generalizing s with
  | ret a => exact hp
  | raise e => exact hp
  | call o k ih => exact ih _ (hp _ (hans o s)) _

/-! ### Runs from different states -/

/-- **The rule of similar states**: a relation that every call keeps, and by which the calls
are answered alike. -/
theorem run_similar {S' : Type} {h : ∀ o : Op, S → Res o × S} {h' : ∀ o : Op, S' → Res o × S'}
    {R : S → S' → Prop} {G : Op → Prop}
    (hcall : ∀ o s s', G o → R s s' → (h o s).1 = (h' o s').1 ∧ R (h o s).2 (h' o s').2)
    (p : Prog Op Res E α) (hp : p.AllCalls G) {s : S} {s' : S'} (hs : R s s') :
    (p.run h s).1 = (p.run h' s').1 ∧ R (p.run h s).2 (p.run h' s').2 := by
  induction p generalizing s s' with
  | ret a => exact ⟨rfl, hs⟩
  | raise e => exact ⟨rfl, hs⟩
  | call o k ih =>
    obtain ⟨hres, hnext⟩ := hcall o s s' hp.1 hs
    rw [run_call, run_call, hres]
    exact ih _ (hp.2 _) hnext

/-- A relation to the start that every call keeps holds at the end. -/
theorem run_keeps {h : ∀ o : Op, S → Res o × S} {I : S → Prop} {G : Op → Prop}
    (hcall : ∀ o s, G o → I s → I (h o s).2)
    (p : Prog Op Res E α) (hp : p.AllCalls G) {s : S} (hs : I s) : I (p.run h s).2 := by
  induction p generalizing s with
  | ret a => exact hs
  | raise e => exact hs
  | call o k ih => exact ih _ (hp.2 _) (hcall o s hp.1 hs)

end Prog
