/-
# Clients of a shared device

A device answers calls in sessions: a session of the call `o` opens in a start
state, makes any number of small steps, each of which may read and change the
shared state, and closes with an answer.  A call that the device performs
atomically has one small step; a batch has one for each of its items, so other
clients' steps fall between them.

* `Device.itemwise` is the device whose calls are lists of items, each performed
  atomically at its own moment, in any order;
* `Device.Outcome` and `Device.Exec` run one program alone, and `Device.Reaches` stops it
  anywhere on its way;
* `Pool.Step` runs any number of labelled programs, their steps interleaved in any
  order, each of which may stop for ever at any moment, while the environment
  changes the shared state on its own;
* `Protocol` is the rely-guarantee argument: an invariant of the shared state kept
  by every small step of an admitted call, and what the invariant promises of the
  answers.  A program that makes only admitted calls as long as its answers keep
  the promise is `Safe`, and then the invariant holds in every reachable pool and
  every program that has ended meets its postcondition (`Protocol.reachable`).
-/
import Mathlib.Logic.Relation
import Mathlib.Data.List.Forall2
import Mathlib.Tactic.SplitIfs
import LmcacheAerospike.CallTree

/-! ## Devices -/

/-- How a device serves each call: by sessions of small steps on the state `S`. -/
structure Device (Op : Type) (Res : Op → Type) (S : Type) where
  /-- The progress of one served call. -/
  Sess : Op → Type
  /-- A session as it opens. -/
  start : ∀ o, Sess o
  /-- One small step of a session. -/
  micro : ∀ o, Sess o → S → Sess o → S → Prop
  /-- The answers with which a session may close. -/
  finish : ∀ o, Sess o → Res o → Prop

namespace Device

variable {Op : Type} {Res : Op → Type} {S E α : Type}

/-- Any number of small steps of one session, nothing else happening meanwhile. -/
def Micros (D : Device Op Res S) (o : Op) : D.Sess o × S → D.Sess o × S → Prop :=
  Relation.ReflTransGen fun a b => D.micro o a.1 a.2 b.1 b.2

/-- The call `o`, made alone on `σ`, may be answered by `x` and leave `σ'`. -/
def Outcome (D : Device Op Res S) (o : Op) (σ : S) (x : Res o) (σ' : S) : Prop :=
  ∃ s, D.Micros o (D.start o, σ) (s, σ') ∧ D.finish o s x

/-- The program, run alone on `σ`, may end with `r` and leave `σ'`. -/
def Exec (D : Device Op Res S) : Prog Op Res E α → S → Except E α → S → Prop
  | .ret a, σ, r, σ' => r = .ok a ∧ σ' = σ
  | .raise e, σ, r, σ' => r = .error e ∧ σ' = σ
  | .call o k, σ, r, σ' => ∃ x σ₁, D.Outcome o σ x σ₁ ∧ D.Exec (k x) σ₁ r σ'

/-- The program, run alone on `σ`, may have come to `σ'` with the calls `calls`, of which the
last may not have been answered yet. -/
inductive Reaches (D : Device Op Res S) : Prog Op Res E α → List Op → S → S → Prop
  | here (p : Prog Op Res E α) (σ : S) : Reaches D p [] σ σ
  | inside {o : Op} {k : Res o → Prog Op Res E α} {σ σ' : S} {s : D.Sess o} :
      D.Micros o (D.start o, σ) (s, σ') → Reaches D (.call o k) [o] σ σ'
  | answered {o : Op} {k : Res o → Prog Op Res E α} {calls : List Op} {σ σ₁ σ' : S}
      {x : Res o} : D.Outcome o σ x σ₁ → Reaches D (k x) calls σ₁ σ' →
      Reaches D (.call o k) (o :: calls) σ σ'

/-- The program, run alone on `σ`, may have come to the rest `p'` with the state `σ'`. -/
inductive ComesTo (D : Device Op Res S) : Prog Op Res E α → S → Prog Op Res E α → S → Prop
  | here (p : Prog Op Res E α) (σ : S) : ComesTo D p σ p σ
  | answered {o : Op} {k : Res o → Prog Op Res E α} {p : Prog Op Res E α} {σ σ₁ σ' : S}
      {x : Res o} : D.Outcome o σ x σ₁ → ComesTo D (k x) σ₁ p σ' → ComesTo D (.call o k) σ p σ'

/-- A run of a sequence splits where its first part ends. -/
theorem exec_bind {β : Type} (D : Device Op Res S) (p : Prog Op Res E α)
    (f : α → Prog Op Res E β) (σ : S) (r : Except E β) (σ' : S) :
    D.Exec (p.bind f) σ r σ' ↔
      (∃ a σ₁, D.Exec p σ (.ok a) σ₁ ∧ D.Exec (f a) σ₁ r σ') ∨
        ∃ e, D.Exec p σ (.error e) σ' ∧ r = .error e := by
  induction p generalizing σ with
  | ret a => simp [Prog.bind, Exec]
  | raise e => simp [Prog.bind, Exec, and_comm]
  | call o k ih =>
    simp only [Prog.bind, Exec, ih]
    constructor
    · rintro ⟨x, σ₁, hx, ⟨a, σ₂, h₁, h₂⟩ | ⟨e, h₁, h₂⟩⟩
      · exact Or.inl ⟨a, σ₂, ⟨x, σ₁, hx, h₁⟩, h₂⟩
      · exact Or.inr ⟨e, ⟨x, σ₁, hx, h₁⟩, h₂⟩
    · rintro (⟨a, σ₂, ⟨x, σ₁, hx, h₁⟩, h₂⟩ | ⟨e, ⟨x, σ₁, hx, h₁⟩, h₂⟩)
      · exact ⟨x, σ₁, hx, Or.inl ⟨a, σ₂, h₁, h₂⟩⟩
      · exact ⟨x, σ₁, hx, Or.inr ⟨e, h₁, h₂⟩⟩

/-- A run whose value goes through a function. -/
theorem exec_bind_ret {β : Type} (D : Device Op Res S) {p : Prog Op Res E α} (g : α → β)
    {σ : S} {a : α} {σ' : S} (h : D.Exec p σ (.ok a) σ') :
    D.Exec (p.bind fun a => .ret (g a)) σ (.ok (g a)) σ' :=
  (D.exec_bind ..).mpr (Or.inl ⟨a, σ', h, rfl, rfl⟩)

/-- A guarded run that returns a value: the program returned it, or its handler did. -/
theorem exec_tryCatch (D : Device Op Res S) (p : Prog Op Res E α)
    (handler : E → Prog Op Res E α) (σ : S) (r : Except E α) (σ' : S) :
    D.Exec (p.tryCatch handler) σ r σ' ↔
      (∃ a, D.Exec p σ (.ok a) σ' ∧ r = .ok a) ∨
        ∃ e σ₁, D.Exec p σ (.error e) σ₁ ∧ D.Exec (handler e) σ₁ r σ' := by
  induction p generalizing σ with
  | ret a => simp [Prog.tryCatch, Exec, and_comm]
  | raise e => simp [Prog.tryCatch, Exec]
  | call o k ih =>
    simp only [Prog.tryCatch, Exec, ih]
    constructor
    · rintro ⟨x, σ₁, hx, ⟨a, h₁, h₂⟩ | ⟨e, σ₂, h₁, h₂⟩⟩
      · exact Or.inl ⟨a, ⟨x, σ₁, hx, h₁⟩, h₂⟩
      · exact Or.inr ⟨e, σ₂, ⟨x, σ₁, hx, h₁⟩, h₂⟩
    · rintro (⟨a, ⟨x, σ₁, hx, h₁⟩, h₂⟩ | ⟨e, σ₂, ⟨x, σ₁, hx, h₁⟩, h₂⟩)
      · exact ⟨x, σ₁, hx, Or.inl ⟨a, h₁, h₂⟩⟩
      · exact ⟨x, σ₁, hx, Or.inr ⟨e, σ₂, h₁, h₂⟩⟩

/-- A run with renamed exceptions is a run of the program. -/
theorem exec_mapError {E' : Type} (D : Device Op Res S) (f : E → E') {p : Prog Op Res E α}
    {σ : S} {r : Except E α} {σ' : S} (h : D.Exec p σ r σ') :
    D.Exec (p.mapError f) σ (r.mapError f) σ' := by
  induction p generalizing σ with
  | ret a =>
    obtain ⟨rfl, rfl⟩ := h
    exact ⟨rfl, rfl⟩
  | raise e =>
    obtain ⟨rfl, rfl⟩ := h
    exact ⟨rfl, rfl⟩
  | call o k ih =>
    obtain ⟨x, σ₁, hout, hrest⟩ := h
    exact ⟨x, σ₁, hout, ih x hrest⟩

/-- A sequence comes to its second part when the first has returned. -/
theorem comesTo_of_exec {β : Type} {D : Device Op Res S} {p : Prog Op Res E α}
    (f : α → Prog Op Res E β) {σ : S} {a : α} {σ' : S} (h : D.Exec p σ (.ok a) σ') :
    D.ComesTo (p.bind f) σ (f a) σ' := by
  induction p generalizing σ with
  | ret a' =>
    obtain ⟨heq, rfl⟩ := h
    cases heq
    exact .here ..
  | raise e => cases h.1
  | call o k ih =>
    obtain ⟨x, σ₁, hout, hrest⟩ := h
    exact .answered hout (ih x hrest)

theorem comesTo_bind {β : Type} {D : Device Op Res S} {p p' : Prog Op Res E α} {σ σ' : S}
    (h : D.ComesTo p σ p' σ') (f : α → Prog Op Res E β) :
    D.ComesTo (p.bind f) σ (p'.bind f) σ' := by
  induction h with
  | here p σ => exact .here ..
  | answered hout _ ih => exact .answered hout ih

theorem comesTo_mapError {E' : Type} {D : Device Op Res S} {p p' : Prog Op Res E α} {σ σ' : S}
    (h : D.ComesTo p σ p' σ') (f : E → E') :
    D.ComesTo (p.mapError f) σ (p'.mapError f) σ' := by
  induction h with
  | here p σ => exact .here ..
  | answered hout _ ih => exact .answered hout ih

theorem reaches_ret {D : Device Op Res S} {a : α} {calls : List Op} {σ σ' : S}
    (h : D.Reaches (.ret a : Prog Op Res E α) calls σ σ') : calls = [] ∧ σ' = σ := by
  cases h
  exact ⟨rfl, rfl⟩

theorem reaches_raise {D : Device Op Res S} {e : E} {calls : List Op} {σ σ' : S}
    (h : D.Reaches (.raise e : Prog Op Res E α) calls σ σ') : calls = [] ∧ σ' = σ := by
  cases h
  exact ⟨rfl, rfl⟩

/-- A program that is still before a call, in it, or past it. -/
theorem reaches_call {D : Device Op Res S} {o : Op} {k : Res o → Prog Op Res E α}
    {calls : List Op} {σ σ' : S} (h : D.Reaches (.call o k) calls σ σ') :
    (calls = [] ∧ σ' = σ) ∨ (calls = [o] ∧ ∃ s, D.Micros o (D.start o, σ) (s, σ')) ∨
      ∃ x rest σ₁, calls = o :: rest ∧ D.Outcome o σ x σ₁ ∧ D.Reaches (k x) rest σ₁ σ' := by
  cases h with
  | here => exact Or.inl ⟨rfl, rfl⟩
  | inside hms => exact Or.inr (Or.inl ⟨rfl, _, hms⟩)
  | answered hout hrest => exact Or.inr (Or.inr ⟨_, _, _, rfl, hout, hrest⟩)

/-- A sequence is in its first part, or in its second and the first has returned. -/
theorem reaches_bind {β : Type} {D : Device Op Res S} {p : Prog Op Res E α}
    {f : α → Prog Op Res E β} {calls : List Op} {σ σ' : S} (h : D.Reaches (p.bind f) calls σ σ') :
    D.Reaches p calls σ σ' ∨
      ∃ a σ₁ before after, D.Exec p σ (.ok a) σ₁ ∧ calls = before ++ after ∧
        D.Reaches (f a) after σ₁ σ' := by
  induction p generalizing calls σ with
  | ret a => exact Or.inr ⟨a, σ, [], calls, ⟨rfl, rfl⟩, rfl, h⟩
  | raise e =>
    obtain ⟨rfl, rfl⟩ := reaches_raise h
    exact Or.inl (.here ..)
  | call o k ih =>
    rcases reaches_call h with ⟨rfl, rfl⟩ | ⟨rfl, s, hms⟩ | ⟨x, rest, σ₁, rfl, hout, hrest⟩
    · exact Or.inl (.here ..)
    · exact Or.inl (.inside hms)
    · rcases ih x hrest with hp | ⟨a, σ₂, before, after, hexec, rfl, hafter⟩
      · exact Or.inl (.answered hout hp)
      · exact Or.inr ⟨a, σ₂, o :: before, after, ⟨x, σ₁, hout, hexec⟩, rfl, hafter⟩

/-- A sequence may have come as far as its first part. -/
theorem reaches_bind_left {β : Type} {D : Device Op Res S} {p : Prog Op Res E α}
    {calls : List Op} {σ σ' : S} (h : D.Reaches p calls σ σ') (f : α → Prog Op Res E β) :
    D.Reaches (p.bind f) calls σ σ' := by
  induction h with
  | here p σ => exact .here ..
  | inside hms => exact .inside hms
  | answered hout _ ih => exact .answered hout ih

/-- A program with renamed exceptions comes as far as the program. -/
theorem reaches_mapError {E' : Type} {D : Device Op Res S} {p : Prog Op Res E α}
    {calls : List Op} {σ σ' : S} (h : D.Reaches p calls σ σ') (f : E → E') :
    D.Reaches (p.mapError f) calls σ σ' := by
  induction h with
  | here p σ => exact .here ..
  | inside hms => exact .inside hms
  | answered hout _ ih => exact .answered hout ih

/-- A guarded program may have come as far as the program. -/
theorem reaches_tryCatch {D : Device Op Res S} {p : Prog Op Res E α} {calls : List Op}
    {σ σ' : S} (h : D.Reaches p calls σ σ') (handler : E → Prog Op Res E α) :
    D.Reaches (p.tryCatch handler) calls σ σ' := by
  induction h with
  | here p σ => exact .here ..
  | inside hms => exact .inside hms
  | answered hout _ ih => exact .answered hout ih

/-- What a program ends in, when the device answers as the program may rely on. -/
theorem exec_meets (D : Device Op Res S) {Ans : ∀ o : Op, Res o → Prop}
    (hans : ∀ o σ x σ', D.Outcome o σ x σ' → Ans o x) {Post : Except E α → Prop}
    (p : Prog Op Res E α) (hp : p.Meets Ans Post) {σ : S} {r : Except E α} {σ' : S}
    (h : D.Exec p σ r σ') : Post r := by
  induction p generalizing σ with
  | ret a =>
    obtain ⟨rfl, -⟩ := h
    exact hp
  | raise e =>
    obtain ⟨rfl, -⟩ := h
    exact hp
  | call o k ih =>
    obtain ⟨x, σ₁, hout, hrest⟩ := h
    exact ih x (hp x (hans o σ x σ₁ hout)) hrest

/-- A handler whose every answer is a possible outcome runs programs as the device may. -/
theorem exec_run (D : Device Op Res S) {h : ∀ o : Op, S → Res o × S}
    (hh : ∀ o σ, D.Outcome o σ (h o σ).1 (h o σ).2) (p : Prog Op Res E α) (σ : S) :
    D.Exec p σ (p.run h σ).1 (p.run h σ).2 := by
  induction p generalizing σ with
  | ret a => exact ⟨rfl, rfl⟩
  | raise e => exact ⟨rfl, rfl⟩
  | call o k ih => exact ⟨_, _, hh o σ, ih _ _⟩

/-! ### Calls made of items -/

section Itemwise

variable {Item R : Type} (items : Op → List Item) (respond : ∀ o, List R → Res o)
  (raises : ∀ o, Res o → Prop) (Does : Item → S → R → S → Prop)

/-- The device whose calls are lists of items.  `Does i σ r σ'` says that performing the
item `i` on `σ` may have the result `r` and leave `σ'`; a call all of whose items have
their results is answered from these, and it may raise at any moment. -/
@[reducible] def itemwise : Device Op Res S where
  Sess := fun _ => List (Option R)
  start := fun o => (items o).map fun _ => none
  micro := fun o s σ s' σ' => ∃ n i r, (items o)[n]? = some i ∧ s[n]? = some none ∧
    s' = s.set n (some r) ∧ Does i σ r σ'
  finish := fun o s x => (∃ rs, s = rs.map some ∧ x = respond o rs) ∨ raises o x

/-- Items performed one after the other, in list order. -/
inductive DoesAll : List Item → S → List R → S → Prop
  | nil (σ : S) : DoesAll [] σ [] σ
  | cons {i is σ σ₁ σ₂ r rs} : Does i σ r σ₁ → DoesAll is σ₁ rs σ₂ →
      DoesAll (i :: is) σ (r :: rs) σ₂

variable {items respond raises Does}

/-- **Performing the items in list order is one way a session may go on.** -/
theorem itemwise_micros {o : Op} {σ σ' : S} {rs : List R} (h : DoesAll Does (items o) σ rs σ') :
    (itemwise items respond raises Does).Micros o
      ((items o).map fun _ => none, σ) (rs.map some, σ') := by
  -- `done` are the results so far, `before` the items they belong to
  have hrest : ∀ (todo : List Item) (σ : S) (rs done : List R) (before : List Item),
      before.length = done.length → items o = before ++ todo → DoesAll Does todo σ rs σ' →
      (itemwise items respond raises Does).Micros o
        (done.map some ++ todo.map fun _ => none, σ) ((done ++ rs).map some, σ') := by
    intro todo
    induction todo with
    | nil =>
      intro σ rs done before _ _ hd
      cases hd
      rw [List.map_nil, List.append_nil, List.append_nil]
      exact Relation.ReflTransGen.refl
    | cons i todo ih =>
      intro σ rs done before hlen hitems hd
      cases hd with
      | cons hi hrest =>
        rename_i σ₁ r rs
        have hstep := ih σ₁ rs (done ++ [r]) (before ++ [i]) (by simp [hlen])
          (by simp [hitems]) hrest
        rw [List.append_assoc, List.singleton_append] at hstep
        refine Relation.ReflTransGen.head ⟨done.length, i, r, ?_, ?_, ?_, hi⟩ hstep
        · rw [hitems, ← hlen, List.getElem?_append_right (Nat.le_refl _), Nat.sub_self]
          rfl
        · rw [List.getElem?_append_right (by simp)]
          simp
        · simp
  exact hrest (items o) σ rs [] [] rfl rfl h

/-- **Performing some of the items, in any order**: `is` are their places and themselves. -/
theorem itemwise_micros_at {o : Op} {perform : Item → S → R × S}
    (hdo : ∀ i σ, Does i σ (perform i σ).1 (perform i σ).2) {is : List (ℕ × Item)}
    (hnodup : (is.map Prod.fst).Nodup) (his : ∀ x ∈ is, (items o)[x.1]? = some x.2) (σ : S) :
    ∃ s, (itemwise items respond raises Does).Micros o ((items o).map fun _ => none, σ)
      (s, is.foldl (fun σ x => (perform x.2 σ).2) σ) := by
  -- the session may have begun, as long as these items are still out
  have hrest : ∀ (is : List (ℕ × Item)) (s : List (Option R)) (σ : S),
      (is.map Prod.fst).Nodup →
      (∀ x ∈ is, (items o)[x.1]? = some x.2 ∧ s[x.1]? = some none) →
      ∃ s', (itemwise items respond raises Does).Micros o (s, σ)
        (s', is.foldl (fun σ x => (perform x.2 σ).2) σ) := by
    intro is
    induction is with
    | nil =>
      intro s σ _ _
      exact ⟨s, Relation.ReflTransGen.refl⟩
    | cons x is ih =>
      intro s σ hnodup hout
      rw [List.map_cons, List.nodup_cons] at hnodup
      rw [List.forall_mem_cons] at hout
      obtain ⟨⟨hitem, hnone⟩, hout⟩ := hout
      obtain ⟨s', hs'⟩ := ih (s.set x.1 (some (perform x.2 σ).1)) (perform x.2 σ).2 hnodup.2
        fun y hy => by
          have hne : x.1 ≠ y.1 := by
            intro heq
            exact hnodup.1 (heq ▸ List.mem_map_of_mem hy)
          rw [List.getElem?_set_ne hne]
          exact hout y hy
      exact ⟨s', Relation.ReflTransGen.head
        ⟨x.1, x.2, (perform x.2 σ).1, hitem, hnone, rfl, hdo x.2 σ⟩ hs'⟩
  refine hrest is _ σ hnodup fun x hx => ⟨his x hx, ?_⟩
  rw [List.getElem?_map, his x hx]
  rfl

/-- Performing the items in list order is one way to serve the call. -/
theorem itemwise_outcome {o : Op} {σ σ' : S} {rs : List R}
    (h : DoesAll Does (items o) σ rs σ') :
    (itemwise items respond raises Does).Outcome o σ (respond o rs) σ' :=
  ⟨rs.map some, itemwise_micros h, Or.inl ⟨rs, rfl, rfl⟩⟩

/-- **A session of one item** has not performed it yet, or has its result. -/
theorem itemwise_micros_single {o : Op} {i : Item} (ho : items o = [i]) {σ : S}
    {b : List (Option R) × S} (h : (itemwise items respond raises Does).Micros o
      ((items o).map fun _ => none, σ) b) :
    b = ([none], σ) ∨ ∃ r, b.1 = [some r] ∧ Does i σ r b.2 := by
  induction h with
  | refl =>
    rw [ho]
    exact Or.inl rfl
  | tail _ hstep ih =>
    obtain ⟨n, j, r, hj, hn, hs, hd⟩ := hstep
    rw [ho] at hj
    rcases ih with rfl | ⟨r', hr', -⟩
    · obtain rfl : n = 0 := by
        by_contra hne
        rw [List.getElem?_eq_none (by simp only [List.length_singleton]; omega)] at hj
        cases hj
      cases hj
      exact Or.inr ⟨r, hs, hd⟩
    · rw [hr'] at hn
      cases n <;> simp at hn

/-- **A call of one item** raises, or ends with the result of that item. -/
theorem itemwise_single {o : Op} {i : Item} (ho : items o = [i]) {σ σ' : S} {x : Res o}
    (h : (itemwise items respond raises Does).Outcome o σ x σ') :
    (∃ r, Does i σ r σ' ∧ x = respond o [r]) ∨ raises o x := by
  obtain ⟨s, hms, hfin⟩ := h
  rcases hfin with ⟨rs, rfl, rfl⟩ | hr
  · rcases itemwise_micros_single ho hms with heq | ⟨r, hr, hd⟩
    · have hnone : rs.map some = [none] := congrArg Prod.fst heq
      cases rs <;> simp at hnone
    · obtain rfl : rs = [r] := by
        cases rs with
        | nil => simp at hr
        | cons r' rs => simpa using hr
      exact Or.inl ⟨r, hd, rfl⟩
  · exact Or.inr hr

end Itemwise

end Device

/-! ## Pools of programs -/

/-- A program on its way, under the label it was started with. -/
inductive Thread {Op : Type} {Res : Op → Type} {S : Type} (D : Device Op Res S)
    (L E α : Type) : Type where
  /-- Between two calls, or ended. -/
  | at (l : L) (p : Prog Op Res E α) : Thread D L E α
  /-- Inside a call: the session, and how the program goes on from its answer. -/
  | busy (l : L) (o : Op) (s : D.Sess o) (k : Res o → Prog Op Res E α) : Thread D L E α

/-- The shared state and the programs started so far that have not crashed. -/
structure Pool {Op : Type} {Res : Op → Type} {S : Type} (D : Device Op Res S)
    (L E α : Type) : Type where
  state : S
  threads : List (Thread D L E α)

/-- **One step of the pool.**  `env` is what the environment may do to the shared
state on its own, `prog l` the program started under the label `l`, `allowed` the
labels that may be started. -/
inductive Pool.Step {Op : Type} {Res : Op → Type} {S L E α : Type} {D : Device Op Res S}
    (env : S → S → Prop) (prog : L → Prog Op Res E α) (allowed : L → Prop) :
    Pool D L E α → Pool D L E α → Prop
  | spawn {σ ts} (l : L) : allowed l →
      Step env prog allowed ⟨σ, ts⟩ ⟨σ, .at l (prog l) :: ts⟩
  | begin {σ f b} (l : L) (o : Op) (k : Res o → Prog Op Res E α) :
      Step env prog allowed ⟨σ, f ++ .at l (.call o k) :: b⟩
        ⟨σ, f ++ .busy l o (D.start o) k :: b⟩
  | micro {σ σ' f b} (l : L) (o : Op) (s s' : D.Sess o)
      (k : Res o → Prog Op Res E α) : D.micro o s σ s' σ' →
      Step env prog allowed ⟨σ, f ++ .busy l o s k :: b⟩
        ⟨σ', f ++ .busy l o s' k :: b⟩
  | finish {σ f b} (l : L) (o : Op) (s : D.Sess o)
      (k : Res o → Prog Op Res E α) (x : Res o) : D.finish o s x →
      Step env prog allowed ⟨σ, f ++ .busy l o s k :: b⟩
        ⟨σ, f ++ .at l (k x) :: b⟩
  | crash {σ f b} (t : Thread D L E α) :
      Step env prog allowed ⟨σ, f ++ t :: b⟩ ⟨σ, f ++ b⟩
  | env {σ σ' ts} : env σ σ' → Step env prog allowed ⟨σ, ts⟩ ⟨σ', ts⟩

/-- The pools that any interleaving reaches from the state `σ₀` with no program
started. -/
def Pool.Reachable {Op : Type} {Res : Op → Type} {S L E α : Type} {D : Device Op Res S}
    (env : S → S → Prop) (prog : L → Prog Op Res E α) (allowed : L → Prop) (σ₀ : S) :
    Pool D L E α → Prop :=
  Relation.ReflTransGen (Pool.Step env prog allowed) ⟨σ₀, []⟩

section Alone

variable {Op : Type} {Res : Op → Type} {S L E α : Type} {D : Device Op Res S}
  {env : S → S → Prop} {prog : L → Prog Op Res E α} {allowed : L → Prop}

/-- A session that goes on while the other programs stand still. -/
theorem Pool.steps_of_micros (l : L) (ts : List (Thread D L E α)) {o : Op}
    (k : Res o → Prog Op Res E α) {a b : D.Sess o × S} (h : D.Micros o a b) :
    Relation.ReflTransGen (Pool.Step env prog allowed)
      ⟨a.2, .busy l o a.1 k :: ts⟩ ⟨b.2, .busy l o b.1 k :: ts⟩ := by
  induction h with
  | refl => exact Relation.ReflTransGen.refl
  | tail _ hm ih => exact ih.tail (Pool.Step.micro (f := []) l o _ _ k hm)

/-- A call that is served while the other programs stand still. -/
theorem Pool.steps_of_outcome (l : L) (ts : List (Thread D L E α)) {o : Op}
    (k : Res o → Prog Op Res E α) {σ σ' : S} {x : Res o} (h : D.Outcome o σ x σ') :
    Relation.ReflTransGen (Pool.Step env prog allowed)
      ⟨σ, .at l (.call o k) :: ts⟩ ⟨σ', .at l (k x) :: ts⟩ := by
  obtain ⟨s, hms, hfin⟩ := h
  have hbegin : Pool.Step env prog allowed (⟨σ, .at l (.call o k) :: ts⟩ : Pool D L E α)
      ⟨σ, .busy l o (D.start o) k :: ts⟩ := Pool.Step.begin (f := []) l o k
  have hfinish : Pool.Step env prog allowed (⟨σ', .busy l o s k :: ts⟩ : Pool D L E α)
      ⟨σ', .at l (k x) :: ts⟩ := Pool.Step.finish (f := []) l o s k x hfin
  exact Relation.ReflTransGen.head hbegin ((Pool.steps_of_micros l ts k hms).tail hfinish)

/-- **A program run alone is one of the interleavings**: while the others stand still, the
pool goes from the program to its end. -/
theorem Pool.steps_of_exec (l : L) (ts : List (Thread D L E α)) (p : Prog Op Res E α)
    (σ : S) (r : Except E α) (σ' : S) (h : D.Exec p σ r σ') :
    Relation.ReflTransGen (Pool.Step env prog allowed) ⟨σ, .at l p :: ts⟩
      ⟨σ', .at l (.ofExcept r) :: ts⟩ := by
  induction p generalizing σ with
  | ret a =>
    obtain ⟨rfl, rfl⟩ := h
    exact Relation.ReflTransGen.refl
  | raise e =>
    obtain ⟨rfl, rfl⟩ := h
    exact Relation.ReflTransGen.refl
  | call o k ih =>
    obtain ⟨x, σ₁, hout, hrest⟩ := h
    exact (Pool.steps_of_outcome l ts k hout).trans (ih x σ₁ hrest)

/-- **A program on its way**, run alone while the others stand still. -/
theorem Pool.steps_of_comesTo (l : L) (ts : List (Thread D L E α)) {p p' : Prog Op Res E α}
    {σ σ' : S} (h : D.ComesTo p σ p' σ') :
    Relation.ReflTransGen (Pool.Step env prog allowed) ⟨σ, .at l p :: ts⟩ ⟨σ', .at l p' :: ts⟩ := by
  induction h with
  | here p σ => exact Relation.ReflTransGen.refl
  | answered hout _ ih => exact (Pool.steps_of_outcome l ts _ hout).trans ih

/-- **A program that crashes in the middle of a call** leaves what the session has done. -/
theorem Pool.steps_of_crash (l : L) (ts : List (Thread D L E α)) {o : Op}
    (k : Res o → Prog Op Res E α) {σ σ' : S} {s : D.Sess o}
    (h : D.Micros o (D.start o, σ) (s, σ')) :
    Relation.ReflTransGen (Pool.Step env prog allowed)
      ⟨σ, .at l (.call o k) :: ts⟩ ⟨σ', ts⟩ := by
  have hbegin : Pool.Step env prog allowed (⟨σ, .at l (.call o k) :: ts⟩ : Pool D L E α)
      ⟨σ, .busy l o (D.start o) k :: ts⟩ := Pool.Step.begin (f := []) l o k
  have hcrash : Pool.Step env prog allowed (⟨σ', .busy l o s k :: ts⟩ : Pool D L E α)
      ⟨σ', ts⟩ := Pool.Step.crash (f := []) _
  exact Relation.ReflTransGen.head hbegin ((Pool.steps_of_micros l ts k h).tail hcrash)

/-- **A program that crashes anywhere on its way** leaves the state to which it has come. -/
theorem Pool.steps_of_reaches (l : L) (ts : List (Thread D L E α)) {p : Prog Op Res E α}
    {calls : List Op} {σ σ' : S} (h : D.Reaches p calls σ σ') :
    Relation.ReflTransGen (Pool.Step env prog allowed)
      ⟨σ, .at l p :: ts⟩ ⟨σ', ts⟩ := by
  induction h with
  | here p σ => exact Relation.ReflTransGen.single (Pool.Step.crash (f := []) _)
  | inside hms => exact Pool.steps_of_crash l ts _ hms
  | answered hout _ ih => exact (Pool.steps_of_outcome l ts _ hout).trans ih

/-- One more program, started and run alone to its end, in any pool. -/
theorem Pool.steps_started {σ σ' : S} (ts : List (Thread D L E α)) (l : L) (hl : allowed l)
    {r : Except E α} (h : D.Exec (prog l) σ r σ') :
    Relation.ReflTransGen (Pool.Step env prog allowed) ⟨σ, ts⟩ ⟨σ', .at l (.ofExcept r) :: ts⟩ :=
  Relation.ReflTransGen.head (Pool.Step.spawn l hl) (Pool.steps_of_exec l ts (prog l) σ r σ' h)

/-- One more program, started and run alone to its end. -/
theorem Pool.reachable_exec {σ₀ σ σ' : S} {ts : List (Thread D L E α)}
    (hc : Pool.Reachable env prog allowed σ₀ ⟨σ, ts⟩) (l : L) (hl : allowed l)
    {r : Except E α} (h : D.Exec (prog l) σ r σ') :
    Pool.Reachable env prog allowed σ₀ ⟨σ', .at l (.ofExcept r) :: ts⟩ :=
  hc.trans (Pool.steps_started ts l hl h)

/-- **A program that is overtaken**: it comes some way, another one runs to its end and is gone,
and then it goes on alone. -/
theorem Pool.reachable_overtaken {σ₀ σ σ₁ σ₂ σ₃ : S} {ts : List (Thread D L E α)}
    (hc : Pool.Reachable env prog allowed σ₀ ⟨σ, ts⟩) {l l' : L} (hl : allowed l)
    (hl' : allowed l') {p : Prog Op Res E α} {r r' : Except E α}
    (h₁ : D.ComesTo (prog l) σ p σ₁) (h₂ : D.Exec (prog l') σ₁ r' σ₂) (h₃ : D.Exec p σ₂ r σ₃) :
    Pool.Reachable env prog allowed σ₀ ⟨σ₃, .at l (.ofExcept r) :: ts⟩ := by
  have hpaused : Pool.Reachable env prog allowed σ₀ ⟨σ₁, .at l p :: ts⟩ :=
    (hc.tail (Pool.Step.spawn l hl)).trans (Pool.steps_of_comesTo l ts h₁)
  have hended := Pool.reachable_exec hpaused l' hl' h₂
  have hgone : Pool.Reachable env prog allowed σ₀ ⟨σ₂, .at l p :: ts⟩ :=
    hended.tail (Pool.Step.crash (f := []) _)
  exact hgone.trans (Pool.steps_of_exec l ts p σ₂ r σ₃ h₃)

end Alone

/-! ## The rely-guarantee argument -/

/-- An invariant of the shared state that the environment and every small step of a
good call keep, with what it promises of open sessions and of answers. -/
structure Protocol {Op : Type} {Res : Op → Type} {S : Type} (D : Device Op Res S)
    (env : S → S → Prop) where
  /-- The invariant of the shared state. -/
  Inv : S → Prop
  /-- The calls that programs may make. -/
  Good : Op → Prop
  /-- What holds of the open session of a good call. -/
  SessOk : ∀ o, D.Sess o → Prop
  /-- What holds of the answer to a good call. -/
  ResOk : ∀ o, Res o → Prop
  env_inv : ∀ {σ σ'}, env σ σ' → Inv σ → Inv σ'
  start_ok : ∀ o, Good o → SessOk o (D.start o)
  micro_ok : ∀ o s σ s' σ', Good o → SessOk o s → Inv σ → D.micro o s σ s' σ' →
    Inv σ' ∧ SessOk o s'
  finish_ok : ∀ o s x, Good o → SessOk o s → D.finish o s x → ResOk o x

namespace Protocol

variable {Op : Type} {Res : Op → Type} {S L E α β : Type} {D : Device Op Res S}
  {env : S → S → Prop}

/-- The program makes only good calls and ends in `Post`, as long as every answer is
one the invariant allows. -/
def Safe (P : Protocol D env) (Post : Except E α → Prop) : Prog Op Res E α → Prop
  | .ret a => Post (.ok a)
  | .raise e => Post (.error e)
  | .call o k => P.Good o ∧ ∀ x, P.ResOk o x → P.Safe Post (k x)

/-- **The sequencing rule**: `Mid` is what the first part ends in. -/
theorem safe_bind (P : Protocol D env) {Mid : Except E α → Prop} {Post : Except E β → Prop}
    (p : Prog Op Res E α) (f : α → Prog Op Res E β) (hp : P.Safe Mid p)
    (hok : ∀ a, Mid (.ok a) → P.Safe Post (f a))
    (herror : ∀ e, Mid (.error e) → Post (.error e)) :
    P.Safe Post (p.bind f) := by
  induction p with
  | ret a => exact hok a hp
  | raise e => exact herror e hp
  | call o k ih => exact ⟨hp.1, fun x hx => ih x (hp.2 x hx)⟩

/-- **The exception rule**: `Mid` is what the guarded program ends in. -/
theorem safe_tryCatch (P : Protocol D env) {Mid Post : Except E α → Prop}
    (p : Prog Op Res E α) (handler : E → Prog Op Res E α) (hp : P.Safe Mid p)
    (hok : ∀ a, Mid (.ok a) → Post (.ok a))
    (herror : ∀ e, Mid (.error e) → P.Safe Post (handler e)) :
    P.Safe Post (p.tryCatch handler) := by
  induction p with
  | ret a => exact hok a hp
  | raise e => exact herror e hp
  | call o k ih => exact ⟨hp.1, fun x hx => ih x (hp.2 x hx)⟩

theorem safe_ofExcept (P : Protocol D env) {Post : Except E α → Prop}
    (r : Except E α) (hr : Post r) : P.Safe Post (Prog.ofExcept r) := by
  cases r <;> exact hr

/-- A program is safe for a postcondition that is always met when all its calls are
good. -/
theorem safe_of_allCalls (P : Protocol D env) {Post : Except E α → Prop}
    (hpost : ∀ r, Post r) (p : Prog Op Res E α) (hp : p.AllCalls P.Good) :
    P.Safe Post p := by
  induction p with
  | ret a => exact hpost _
  | raise e => exact hpost _
  | call o k ih => exact ⟨hp.1, fun x _ => ih x (hp.2 x)⟩

theorem safe_mono (P : Protocol D env) {Post Post' : Except E α → Prop}
    (h : ∀ r, Post r → Post' r) (p : Prog Op Res E α) (hp : P.Safe Post p) :
    P.Safe Post' p := by
  induction p with
  | ret a => exact h _ hp
  | raise e => exact h _ hp
  | call o k ih => exact ⟨hp.1, fun x hx => ih x (hp.2 x hx)⟩

/-- **The rule of renamed exceptions.** -/
theorem safe_mapError {E' : Type} (P : Protocol D env) (f : E → E')
    {Post : Except E' α → Prop} (p : Prog Op Res E α)
    (hp : P.Safe (fun r => Post (r.mapError f)) p) : P.Safe Post (p.mapError f) := by
  induction p with
  | ret a => exact hp
  | raise e => exact hp
  | call o k ih => exact ⟨hp.1, fun x hx => ih x (hp.2 x hx)⟩

/-! ### Itemwise devices -/

/-- **The rule for itemwise devices**: an invariant that every single good item keeps,
and what it promises of the item's result. -/
def itemwise {Item R : Type} {items : Op → List Item} {respond : ∀ o, List R → Res o}
    {raises : ∀ o, Res o → Prop} {Does : Item → S → R → S → Prop}
    (Inv : S → Prop) (GoodItem : Item → Prop) (ItemRes : Item → R → Prop)
    (henv : ∀ {σ σ'}, env σ σ' → Inv σ → Inv σ')
    (hitem : ∀ {i σ r σ'}, GoodItem i → Inv σ → Does i σ r σ' → Inv σ' ∧ ItemRes i r) :
    Protocol (Device.itemwise items respond raises Does) env where
  Inv := Inv
  Good := fun o => ∀ i ∈ items o, GoodItem i
  SessOk := fun o s => List.Forall₂ (fun i r? => ∀ r, r? = some r → ItemRes i r) (items o) s
  ResOk := fun o x =>
    (∃ rs, List.Forall₂ ItemRes (items o) rs ∧ x = respond o rs) ∨ raises o x
  env_inv := henv
  start_ok := fun o _ => by
    show List.Forall₂ _ (items o) ((items o).map fun _ => none)
    rw [List.forall₂_map_right_iff]
    exact List.forall₂_same.mpr fun i _ r hr => by simp at hr
  micro_ok := fun o s σ s' σ' hgood hs hi hm => by
    obtain ⟨n, i, r, hn, -, rfl, hd⟩ := hm
    obtain ⟨hi', hr⟩ := hitem (hgood i (List.mem_of_getElem? hn)) hi hd
    refine ⟨hi', ?_⟩
    rw [List.forall₂_iff_get] at hs ⊢
    refine ⟨by simpa using hs.1, fun m h₁ h₂ r' hr' => ?_⟩
    simp only [List.get_eq_getElem, List.getElem_set] at hr' ⊢
    split_ifs at hr' with hnm
    · subst hnm
      cases hr'
      rw [List.getElem?_eq_getElem h₁] at hn
      cases hn
      exact hr
    · have h₂' : m < s.length := by simpa using h₂
      exact hs.2 m h₁ h₂' r' hr'
  finish_ok := fun o s x _ hs hx => by
    rcases hx with ⟨rs, rfl, rfl⟩ | hr
    · refine Or.inl ⟨rs, ?_, rfl⟩
      have hs' : List.Forall₂ (fun i r? => ∀ r, r? = some r → ItemRes i r) (items o)
        (rs.map some) := hs
      rw [List.forall₂_map_right_iff] at hs'
      exact hs'.imp fun i r h => h r rfl
    · exact Or.inr hr

/-! ### One program alone -/

theorem micros_ok (P : Protocol D env) {o : Op} (ho : P.Good o)
    {a b : D.Sess o × S} (h : D.Micros o a b) (hs : P.SessOk o a.1) (hi : P.Inv a.2) :
    P.Inv b.2 ∧ P.SessOk o b.1 := by
  induction h with
  | refl => exact ⟨hi, hs⟩
  | tail _ hstep ih => exact P.micro_ok o _ _ _ _ ho ih.2 ih.1 hstep

theorem outcome_ok (P : Protocol D env) {o : Op} (ho : P.Good o) {σ σ' : S} {x : Res o}
    (h : D.Outcome o σ x σ') (hi : P.Inv σ) : P.Inv σ' ∧ P.ResOk o x := by
  obtain ⟨s, hms, hfin⟩ := h
  obtain ⟨hi', hs'⟩ := P.micros_ok ho hms (P.start_ok o ho) hi
  exact ⟨hi', P.finish_ok o s x ho hs' hfin⟩

/-- A safe program run alone keeps the invariant and ends in its postcondition. -/
theorem exec_ok (P : Protocol D env) {Post : Except E α → Prop} {p : Prog Op Res E α}
    (hp : P.Safe Post p) {σ σ' : S} {r : Except E α} (h : D.Exec p σ r σ')
    (hi : P.Inv σ) : P.Inv σ' ∧ Post r := by
  induction p generalizing σ with
  | ret a =>
    obtain ⟨rfl, rfl⟩ := h
    exact ⟨hi, hp⟩
  | raise e =>
    obtain ⟨rfl, rfl⟩ := h
    exact ⟨hi, hp⟩
  | call o k ih =>
    obtain ⟨x, σ₁, hx, hrest⟩ := h
    obtain ⟨hi₁, hres⟩ := P.outcome_ok hp.1 hx hi
    exact ih x (hp.2 x hres) hrest hi₁

/-! ### Any number of programs interleaved -/

/-- A thread whose remaining program is safe, its open session included. -/
def ThreadOk (P : Protocol D env) (Post : L → Except E α → Prop) :
    Thread D L E α → Prop
  | .at l p => P.Safe (Post l) p
  | .busy l o s k => P.Good o ∧ P.SessOk o s ∧ ∀ x, P.ResOk o x → P.Safe (Post l) (k x)

/-- **The step lemma**: one step of the pool keeps the invariant and the safety of
every thread. -/
theorem step_ok (P : Protocol D env) {Post : L → Except E α → Prop}
    {prog : L → Prog Op Res E α} {allowed : L → Prop}
    (hsafe : ∀ l, allowed l → P.Safe (Post l) (prog l)) {c c' : Pool D L E α}
    (h : Pool.Step env prog allowed c c') (hi : P.Inv c.state)
    (ht : ∀ t ∈ c.threads, P.ThreadOk Post t) :
    P.Inv c'.state ∧ ∀ t ∈ c'.threads, P.ThreadOk Post t := by
  cases h with
  | spawn l hl =>
    refine ⟨hi, ?_⟩
    simp only [List.forall_mem_cons]
    exact ⟨hsafe l hl, ht⟩
  | begin l o k =>
    simp only [List.forall_mem_append, List.forall_mem_cons] at ht ⊢
    obtain ⟨h₁, ⟨hgood, hk⟩, h₂⟩ := ht
    exact ⟨hi, h₁, ⟨hgood, P.start_ok o hgood, hk⟩, h₂⟩
  | micro l o s s' k hm =>
    simp only [List.forall_mem_append, List.forall_mem_cons] at ht ⊢
    obtain ⟨h₁, ⟨hgood, hs, hk⟩, h₂⟩ := ht
    obtain ⟨hi', hs'⟩ := P.micro_ok o s _ s' _ hgood hs hi hm
    exact ⟨hi', h₁, ⟨hgood, hs', hk⟩, h₂⟩
  | finish l o s k x hx =>
    simp only [List.forall_mem_append, List.forall_mem_cons] at ht ⊢
    obtain ⟨h₁, ⟨hgood, hs, hk⟩, h₂⟩ := ht
    exact ⟨hi, h₁, hk x (P.finish_ok o s x hgood hs hx), h₂⟩
  | crash t =>
    simp only [List.forall_mem_append, List.forall_mem_cons] at ht ⊢
    exact ⟨hi, ht.1, ht.2.2⟩
  | env he => exact ⟨P.env_inv he hi, ht⟩

/-- **The run lemma**: in every reachable pool the invariant holds and every thread is
safe. -/
theorem reachable (P : Protocol D env) {Post : L → Except E α → Prop}
    {prog : L → Prog Op Res E α} {allowed : L → Prop}
    (hsafe : ∀ l, allowed l → P.Safe (Post l) (prog l)) {σ₀ : S} (h₀ : P.Inv σ₀)
    {c : Pool D L E α} (hc : Pool.Reachable env prog allowed σ₀ c) :
    P.Inv c.state ∧ ∀ t ∈ c.threads, P.ThreadOk Post t := by
  induction hc with
  | refl => exact ⟨h₀, by simp⟩
  | tail _ hstep ih => exact P.step_ok hsafe hstep ih.1 ih.2

end Protocol
