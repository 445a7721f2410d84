/-
# Runs of labelled steps

A system is given by what an action may do to a state: `Step s a s'`.  A run is the list of
actions taken from a start state.  The rules here are those every account of a run is made
of: an invariant of the states (`Run.invariant`), a guard that every action of the run meets
(`guarded`), a measure that every action lowers (`Run.length_add_le`), and a second system that
matches every step (`Run.simulated`).

When the step is a partial function, `execute` runs a list of actions, so that a run on
given inputs is a computation (`run_of_execute`).
-/
import Mathlib.Algebra.GroupWithZero.Nat
import Mathlib.Tactic.Common

/-- The actions `as`, taken in order from `s₀`, lead to the state. -/
inductive Run {S A : Type} (Step : S → A → S → Prop) (s₀ : S) : List A → S → Prop
  | start : Run Step s₀ [] s₀
  | step {as : List A} {s s' : S} {a : A} :
      Run Step s₀ as s → Step s a s' → Run Step s₀ (as ++ [a]) s'

/-- The steps whose action meets `G` in the state before it. -/
def guarded {S A : Type} (G : S → A → Prop) (Step : S → A → S → Prop) (s : S) (a : A)
    (s' : S) : Prop :=
  G s a ∧ Step s a s'

section Rules

variable {S A : Type} {Step Step' : S → A → S → Prop} {s₀ s : S} {as : List A}

/-- **The rule of invariants.** -/
theorem Run.invariant {Inv : S → Prop} (h : Run Step s₀ as s) (hstart : Inv s₀)
    (hstep : ∀ s a s', Inv s → Step s a s' → Inv s') : Inv s := by
  induction h with
  | start => exact hstart
  | step _ hs ih => exact hstep _ _ _ ih hs

/-- More steps, more runs. -/
theorem Run.mono (h : Run Step s₀ as s) (hsub : ∀ s a s', Step s a s' → Step' s a s') :
    Run Step' s₀ as s := by
  induction h with
  | start => exact Run.start
  | step _ hs ih => exact ih.step (hsub _ _ _ hs)

/-- A guarded run is a run. -/
theorem Run.unguarded {G : S → A → Prop} (h : Run (guarded G Step) s₀ as s) :
    Run Step s₀ as s :=
  h.mono fun _ _ _ hs => hs.2

/-- A run goes on from where another one ended. -/
theorem Run.append {bs : List A} {s' : S} (h : Run Step s₀ as s) (h' : Run Step s bs s') :
    Run Step s₀ (as ++ bs) s' := by
  induction h' with
  | start => rwa [List.append_nil]
  | step _ hs ih =>
    rw [← List.append_assoc]
    exact ih.step hs

/-- **The rule of measures**: where an invariant holds no run is longer than the measure of
its start. -/
theorem Run.length_add_le {Inv : S → Prop} (μ : S → ℕ) (h : Run Step s₀ as s)
    (hstart : Inv s₀) (hstep : ∀ s a s', Inv s → Step s a s' → Inv s' ∧ μ s' < μ s) :
    as.length + μ s ≤ μ s₀ := by
  have hinv : ∀ {as s}, Run Step s₀ as s → Inv s := fun h =>
    h.invariant hstart fun s a s' hs hs' => (hstep s a s' hs hs').1
  induction h with
  | start => simp
  | step hrun hs ih =>
    have hlt := (hstep _ _ _ (hinv hrun) hs).2
    rw [List.length_append, List.length_singleton]
    omega

/-- **The rule of progress**: where a state that is not done has a step, and every step lowers
the measure, a run goes on until the state is done. -/
theorem exists_run_done {Inv Done : S → Prop} (μ : S → ℕ)
    (hprogress : ∀ s, Inv s → ¬ Done s → ∃ a s', Step s a s')
    (hstep : ∀ s a s', Inv s → Step s a s' → Inv s' ∧ μ s' < μ s) (hs : Inv s) :
    ∃ bs s', Run Step s bs s' ∧ Done s' := by
  induction hn : μ s using Nat.strongRecOn generalizing s with
  | ind n ih =>
    by_cases hdone : Done s
    · exact ⟨[], s, Run.start, hdone⟩
    · obtain ⟨a, s₁, hs₁⟩ := hprogress s hs hdone
      obtain ⟨hinv, hlt⟩ := hstep s a s₁ hs hs₁
      obtain ⟨bs, s', hrun, hdone'⟩ := ih (μ s₁) (hn ▸ hlt) hinv rfl
      have hfirst : Run Step s ([] ++ [a]) s₁ := Run.start.step hs₁
      exact ⟨[] ++ [a] ++ bs, s', hfirst.append hrun, hdone'⟩

end Rules

/-! ## Simulation -/

/-- **Forward simulation**: from related states every step of the one system is matched by a
step of the other with the same action, to related states. -/
def Simulates {S T A : Type} (Step : S → A → S → Prop) (Spec : T → A → T → Prop)
    (R : S → T → Prop) : Prop :=
  ∀ s a s' t, R s t → Step s a s' → ∃ t', Spec t a t' ∧ R s' t'

/-- **The rule of simulation**: a run is matched by one with the same actions. -/
theorem Run.simulated {S T A : Type} {Step : S → A → S → Prop} {Spec : T → A → T → Prop}
    {R : S → T → Prop} (hsim : Simulates Step Spec R) {s₀ s : S} {t₀ : T} {as : List A}
    (h : Run Step s₀ as s) (hstart : R s₀ t₀) : ∃ t, Run Spec t₀ as t ∧ R s t := by
  induction h with
  | start => exact ⟨t₀, Run.start, hstart⟩
  | step _ hs ih =>
    obtain ⟨t, hrun, hrel⟩ := ih
    obtain ⟨t', hmatch, hrel'⟩ := hsim _ _ _ t hrel hs
    exact ⟨t', hrun.step hmatch, hrel'⟩

/-! ## Steps that are computed -/

section Computed

variable {S A : Type} (step : S → A → Option S)

/-- The step relation of a partial function. -/
def takes (s : S) (a : A) (s' : S) : Prop := step s a = some s'

/-- Take the actions in order. -/
def execute : S → List A → Option S
  | s, [] => some s
  | s, a :: as => (step s a).bind fun s' => execute s' as

variable {step}

/-- One more action of a guarded run. -/
theorem Run.take {G : S → A → Prop} {s₀ s : S} {as : List A}
    (h : Run (guarded G (takes step)) s₀ as s) (a : A) (s' : S) (hguard : G s a)
    (hstep : step s a = some s') : Run (guarded G (takes step)) s₀ (as ++ [a]) s' :=
  h.step ⟨hguard, hstep⟩

/-- What is executed with actions that meet the guard in every state is a guarded run. -/
theorem guarded_run_of_execute {G : S → A → Prop} {s s' : S} {as : List A}
    (h : execute step s as = some s') (hG : ∀ a ∈ as, ∀ s, G s a) :
    Run (guarded G (takes step)) s as s' := by
  induction as generalizing s with
  | nil =>
    cases h
    exact Run.start
  | cons a as ih =>
    obtain ⟨s₁, hs₁, hrest⟩ := Option.bind_eq_some_iff.mp h
    rw [List.forall_mem_cons] at hG
    have hfirst : Run (guarded G (takes step)) s ([] ++ [a]) s₁ :=
      Run.start.step ⟨hG.1 s, hs₁⟩
    exact hfirst.append (ih hrest hG.2)

/-- What is executed is a run. -/
theorem run_of_execute {s s' : S} {as : List A} (h : execute step s as = some s') :
    Run (takes step) s as s' :=
  (guarded_run_of_execute (G := fun _ _ => True) h fun _ _ _ => trivial).unguarded

end Computed

/-! ## States with a list of parts -/

section Parts

variable {α : Type} {l : List α} {i : ℕ} {a b : α} {P : α → Prop}

/-- Some part meets `P`: the part at `i`, or one at another place. -/
theorem exists_mem_iff_at (h : l[i]? = some a) :
    (∃ x ∈ l, P x) ↔ P a ∨ ∃ j x, j ≠ i ∧ l[j]? = some x ∧ P x := by
  constructor
  · rintro ⟨x, hx, hP⟩
    obtain ⟨j, hj⟩ := List.mem_iff_getElem?.mp hx
    by_cases hji : j = i
    · rw [hji, h] at hj
      cases hj
      exact Or.inl hP
    · exact Or.inr ⟨j, x, hji, hj, hP⟩
  · rintro (hP | ⟨j, x, -, hj, hP⟩)
    · exact ⟨a, List.mem_of_getElem? h, hP⟩
    · exact ⟨x, List.mem_of_getElem? hj, hP⟩

/-- The part at `i` replaced. -/
theorem getElem?_set_at (h : l[i]? = some a) : (l.set i b)[i]? = some b := by
  have hlt : i < l.length := (List.getElem?_eq_some_iff.mp h).1
  exact List.getElem?_set_self hlt

/-- The parts when the part at `i` is replaced. -/
theorem getElem?_set_iff (h : l[i]? = some a) {j : ℕ} {x : α} :
    (l.set i b)[j]? = some x ↔ (j = i ∧ x = b) ∨ (j ≠ i ∧ l[j]? = some x) := by
  by_cases hji : j = i
  · subst hji
    rw [getElem?_set_at h]
    constructor
    · intro hx
      exact Or.inl ⟨rfl, (Option.some.inj hx).symm⟩
    · rintro (⟨-, rfl⟩ | ⟨hne, -⟩)
      · rfl
      · exact absurd rfl hne
  · rw [List.getElem?_set_ne (Ne.symm hji)]
    constructor
    · intro hx
      exact Or.inr ⟨hji, hx⟩
    · rintro (⟨heq, -⟩ | ⟨-, hx⟩)
      · exact absurd heq hji
      · exact hx

/-- The parts when there is one more. -/
theorem getElem?_concat_iff {j : ℕ} {x : α} :
    (l ++ [b])[j]? = some x ↔ (j = l.length ∧ x = b) ∨ (j ≠ l.length ∧ l[j]? = some x) := by
  rw [List.getElem?_append]
  split_ifs with hlt
  · constructor
    · intro hx
      exact Or.inr ⟨Nat.ne_of_lt hlt, hx⟩
    · rintro (⟨heq, -⟩ | ⟨-, hx⟩)
      · exact absurd heq (Nat.ne_of_lt hlt)
      · exact hx
  · rw [List.getElem?_singleton, List.getElem?_eq_none (Nat.le_of_not_lt hlt)]
    split_ifs with hsub
    · constructor
      · intro hx
        exact Or.inl ⟨by omega, (Option.some.inj hx).symm⟩
      · rintro (⟨-, rfl⟩ | ⟨-, hx⟩)
        · rfl
        · cases hx
    · constructor
      · intro hx
        cases hx
      · rintro (⟨heq, -⟩ | ⟨-, hx⟩)
        · omega
        · cases hx

/-- Some part meets `P` when the part at `i` is replaced. -/
theorem exists_mem_set_iff (h : l[i]? = some a) :
    (∃ x ∈ l.set i b, P x) ↔ P b ∨ ∃ j x, j ≠ i ∧ l[j]? = some x ∧ P x := by
  rw [exists_mem_iff_at (getElem?_set_at h)]
  refine or_congr_right ?_
  constructor
  · rintro ⟨j, x, hji, hj, hP⟩
    rcases (getElem?_set_iff h).mp hj with ⟨heq, -⟩ | ⟨-, hj'⟩
    · exact absurd heq hji
    · exact ⟨j, x, hji, hj', hP⟩
  · rintro ⟨j, x, hji, hj, hP⟩
    exact ⟨j, x, hji, (getElem?_set_iff h).mpr (Or.inr ⟨hji, hj⟩), hP⟩

/-- All parts meet `P` when the part at `i` is replaced by one that does. -/
theorem forall_mem_set (h : ∀ x ∈ l, P x) (hb : P b) : ∀ x ∈ l.set i b, P x := by
  intro x hx
  rcases List.mem_or_eq_of_mem_set hx with hmem | rfl
  · exact h x hmem
  · exact hb

/-- A sum over all parts when the part at `i` is replaced. -/
theorem sum_map_set (f : α → ℕ) (h : l[i]? = some a) :
    ((l.set i b).map f).sum + f a = (l.map f).sum + f b := by
  induction l generalizing i with
  | nil => cases h
  | cons x l ih =>
    cases i with
    | zero =>
      cases h
      rw [List.set_cons_zero, List.map_cons, List.map_cons, List.sum_cons, List.sum_cons]
      omega
    | succ i =>
      have hrest := ih h
      rw [List.set_cons_succ, List.map_cons, List.map_cons, List.sum_cons, List.sum_cons]
      omega

end Parts
