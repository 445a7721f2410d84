/-
# Put tasks in flight

`batched_submit_put_task` and `exists_in_put_tasks` of the storage plugin.  The set
`_put_tasks` stands for the keys of all submissions that are not finished with, and each
submission takes its keys out one by one.  A set forgets how often a key is in it, and a
key of a loop that an exception has left is never taken out; in the runs where neither
happens the set is exact (`put_tasks_exact`), and otherwise it is not
(`put_tasks_forgets_submission`).
-/
import Mathlib.Data.Finset.Basic
import Mathlib.Data.Finset.Dedup
import LmcacheAerospike.LabelledRun

/-! ## The plugin's put tasks -/

/-- What becomes of one key in the loop of `_put_all`. -/
inductive KeyOutcome : Type where
  | stored
  | put_raised
  | callback_raised
  deriving DecidableEq, Repr

/-- The outcome leaves the loop. -/
def KeyOutcome.raised : KeyOutcome → Bool
  | .stored => false
  | .put_raised | .callback_raised => true

/-- The state of the future that `submit` returned. -/
inductive FutureState : Type where
  | pending | running | done
  deriving DecidableEq, Repr

/-- A submission: the keys that its loop has not finished with, and its future. -/
structure Submission (κ : Type) : Type where
  rest : List κ
  future : FutureState
  deriving DecidableEq

/-- The set `_put_tasks`, and the submissions made so far. -/
structure PutTasks (κ : Type) : Type where
  put_tasks : Finset κ
  submissions : List (Submission κ)
  deriving DecidableEq

/-- The steps of callers and of the executor threads.  `put i` ends with the `finally`
block of the current key of submission `i`. -/
inductive PutAction (κ : Type) : Type where
  | submit (keys : List κ)
  | start (i : ℕ)
  | put (i : ℕ) (outcome : KeyOutcome)
  | return_ (i : ℕ)

namespace PutTasks

variable {κ : Type} [DecidableEq κ]

def empty : PutTasks κ := ⟨∅, []⟩

def exists_in_put_tasks (s : PutTasks κ) (key : κ) : Bool := decide (key ∈ s.put_tasks)

/-- The threads of the executor that are busy. -/
def busy (s : PutTasks κ) : ℕ := s.submissions.countP fun sub => sub.future = .running

/-- `_put_tasks.update(keys)`, and then `executor.submit(_put_all)`. -/
def batched_submit_put_task (s : PutTasks κ) (keys : List κ) : PutTasks κ :=
  ⟨s.put_tasks ∪ keys.toFinset, s.submissions ++ [⟨keys, .pending⟩]⟩

/-- One step, with `workers` threads in the executor. -/
def step (workers : ℕ) (s : PutTasks κ) : PutAction κ → Option (PutTasks κ)
  | .submit keys => some (s.batched_submit_put_task keys)
  | .start i =>
    match s.submissions[i]? with
    | some ⟨rest, .pending⟩ =>
      if s.busy < workers then
        some { s with submissions := s.submissions.set i ⟨rest, .running⟩ }
      else none
    | _ => none
  | .put i outcome =>
    match s.submissions[i]? with
    | some ⟨key :: rest, .running⟩ =>
      -- `finally`: the key is discarded whatever has been raised
      some ⟨s.put_tasks.erase key, s.submissions.set i
        ⟨rest, if outcome.raised then .done else .running⟩⟩
    | _ => none
  | .return_ i =>
    match s.submissions[i]? with
    | some ⟨[], .running⟩ => some { s with submissions := s.submissions.set i ⟨[], .done⟩ }
    | _ => none

/-! ## Exactness -/

/-- The set is exact: it has the keys that some submission has not finished with, and none
once all futures are done. -/
def Exact (s : PutTasks κ) : Prop :=
  (∀ key, s.exists_in_put_tasks key = true ↔ ∃ sub ∈ s.submissions, key ∈ sub.rest) ∧
    ((∀ sub ∈ s.submissions, sub.future = .done) →
      ∀ key, s.exists_in_put_tasks key = false)

/-- **The condition**: a key is finished with when it is in flight nowhere else, and an
exception leaves no key behind. -/
def Alone (s : PutTasks κ) : PutAction κ → Prop
  | .put i outcome => ∀ key rest, s.submissions[i]? = some ⟨key :: rest, .running⟩ →
      key ∉ rest ∧
      (∀ j sub, j ≠ i → s.submissions[j]? = some sub → key ∉ sub.rest) ∧
      (outcome.raised = true → rest = [])
  | _ => True

omit [DecidableEq κ] in
theorem alone_put {s : PutTasks κ} {i : ℕ} {key : κ} {rest : List κ} {outcome : KeyOutcome}
    (hi : s.submissions[i]? = some ⟨key :: rest, .running⟩) (hrest : key ∉ rest)
    (hothers : ∀ j sub, j ≠ i → s.submissions[j]? = some sub → key ∉ sub.rest)
    (hraised : outcome.raised = true → rest = []) : s.Alone (.put i outcome) := by
  intro key' rest' hi'
  rw [hi] at hi'
  cases hi'
  exact ⟨hrest, hothers, hraised⟩

/-! ### The invariant -/

/-- The set has exactly the keys in flight, and a future that is done has none left. -/
structure Tracked (s : PutTasks κ) : Prop where
  mem_iff : ∀ key, key ∈ s.put_tasks ↔ ∃ sub ∈ s.submissions, key ∈ sub.rest
  rest_nil : ∀ sub ∈ s.submissions, sub.future = .done → sub.rest = []

omit [DecidableEq κ] in
theorem tracked_empty : (empty : PutTasks κ).Tracked where
  mem_iff := fun key => by simp [empty]
  rest_nil := fun sub h => by cases h

omit [DecidableEq κ] in
/-- A submission that changes its future and not its keys. -/
theorem Tracked.set_future {s : PutTasks κ} (h : s.Tracked) {i : ℕ} {sub sub' : Submission κ}
    (hi : s.submissions[i]? = some sub) (hrest : sub'.rest = sub.rest)
    (hdone : sub'.future = .done → sub'.rest = []) :
    Tracked { s with submissions := s.submissions.set i sub' } where
  mem_iff := fun key => by
    rw [h.mem_iff, exists_mem_iff_at hi, exists_mem_set_iff hi, hrest]
  rest_nil := forall_mem_set h.rest_nil hdone

/-- A submission is tracked from its start. -/
theorem Tracked.submit {s : PutTasks κ} (h : s.Tracked) (keys : List κ) :
    (s.batched_submit_put_task keys).Tracked := by
  constructor
  · intro key
    show key ∈ s.put_tasks ∪ keys.toFinset
      ↔ ∃ sub ∈ s.submissions ++ [⟨keys, .pending⟩], key ∈ sub.rest
    rw [Finset.mem_union, List.mem_toFinset, h.mem_iff]
    constructor
    · rintro (⟨sub, hsub, hkey⟩ | hkey)
      · exact ⟨sub, List.mem_append_left _ hsub, hkey⟩
      · exact ⟨_, List.mem_append_right _ (List.mem_singleton_self _), hkey⟩
    · rintro ⟨sub, hsub, hkey⟩
      rcases List.mem_append.mp hsub with hold | hnew
      · exact Or.inl ⟨sub, hold, hkey⟩
      · rw [List.mem_singleton.mp hnew] at hkey
        exact Or.inr hkey
  · intro sub hsub hdone
    rcases List.mem_append.mp hsub with hold | hnew
    · exact h.rest_nil sub hold hdone
    · rw [List.mem_singleton.mp hnew] at hdone
      cases hdone

/-- A key that is in flight nowhere else is discarded. -/
theorem Tracked.discard {s : PutTasks κ} (h : s.Tracked) {i : ℕ} {key : κ} {rest : List κ}
    {future : FutureState} (hi : s.submissions[i]? = some ⟨key :: rest, .running⟩)
    (hrest : key ∉ rest)
    (hothers : ∀ j sub, j ≠ i → s.submissions[j]? = some sub → key ∉ sub.rest)
    (hdone : future = .done → rest = []) :
    Tracked ⟨s.put_tasks.erase key, s.submissions.set i ⟨rest, future⟩⟩ := by
  constructor
  · intro key'
    show key' ∈ s.put_tasks.erase key ↔ _
    rw [Finset.mem_erase, h.mem_iff, exists_mem_iff_at hi, exists_mem_set_iff hi,
      List.mem_cons]
    constructor
    · rintro ⟨hne, (rfl | hkey) | hother⟩
      · exact absurd rfl hne
      · exact Or.inl hkey
      · exact Or.inr hother
    · rintro (hkey | ⟨j, sub, hji, hj, hkey⟩)
      · refine ⟨?_, Or.inl (Or.inr hkey)⟩
        rintro rfl
        exact hrest hkey
      · refine ⟨?_, Or.inr ⟨j, sub, hji, hj, hkey⟩⟩
        rintro rfl
        exact hothers j sub hji hj hkey
  · exact forall_mem_set h.rest_nil hdone

/-- **The step lemma.** -/
theorem tracked_step {workers : ℕ} {s s' : PutTasks κ} {a : PutAction κ} (h : s.Tracked)
    (halone : s.Alone a) (hstep : s.step workers a = some s') : s'.Tracked := by
  cases a with
  | submit keys =>
    cases hstep
    exact h.submit keys
  | start i =>
    simp only [step] at hstep
    split at hstep
    · rename_i rest hi
      split_ifs at hstep
      cases hstep
      exact h.set_future hi rfl fun hdone => by cases hdone
    · cases hstep
  | put i outcome =>
    simp only [step] at hstep
    split at hstep
    · rename_i key rest hi
      cases hstep
      obtain ⟨hrest, hothers, hraised⟩ := halone key rest hi
      refine h.discard hi hrest hothers fun hdone => ?_
      by_cases hr : outcome.raised = true
      · exact hraised hr
      · rw [if_neg hr] at hdone
        cases hdone
    · cases hstep
  | return_ i =>
    simp only [step] at hstep
    split at hstep
    · rename_i hi
      cases hstep
      exact h.set_future hi rfl fun _ => rfl
    · cases hstep

/-- What is tracked is exact. -/
theorem Tracked.exact {s : PutTasks κ} (h : s.Tracked) : s.Exact := by
  constructor
  · intro key
    rw [exists_in_put_tasks, decide_eq_true_iff]
    exact h.mem_iff key
  · intro hdone key
    rw [exists_in_put_tasks, decide_eq_false_iff_not, h.mem_iff]
    rintro ⟨sub, hsub, hkey⟩
    rw [h.rest_nil sub hsub (hdone sub hsub)] at hkey
    cases hkey

/-- A key that is finished with while it is in flight elsewhere is forgotten. -/
theorem not_exact_of_in_flight {workers : ℕ} {s s' : PutTasks κ} {i : ℕ} {key : κ}
    {rest : List κ} {outcome : KeyOutcome}
    (hi : s.submissions[i]? = some ⟨key :: rest, .running⟩)
    (hstep : s.step workers (.put i outcome) = some s')
    (hflight : key ∈ rest ∨ ∃ j sub, j ≠ i ∧ s.submissions[j]? = some sub ∧ key ∈ sub.rest) :
    ¬ s'.Exact := by
  simp only [step, hi] at hstep
  cases hstep
  rintro ⟨hexact, -⟩
  have hkey := (hexact key).mpr ((exists_mem_set_iff hi).mpr hflight)
  rw [exists_in_put_tasks, decide_eq_true_iff] at hkey
  exact Finset.notMem_erase key _ hkey

end PutTasks

/-- **In-flight put tracking is exact** in every run in which each key is finished with when
it is in flight nowhere else and an exception leaves no key of its submission behind. -/
theorem put_tasks_exact {κ : Type} [DecidableEq κ] (workers : ℕ) {as : List (PutAction κ)}
    {s : PutTasks κ}
    (h : Run (guarded PutTasks.Alone (takes (PutTasks.step workers))) PutTasks.empty as s) :
    s.Exact :=
  (h.invariant PutTasks.tracked_empty fun _ _ _ hinv hstep =>
    PutTasks.tracked_step hinv hstep.1 hstep.2).exact

/-- Two submissions of the key 1, the second after the first is through with it; the last put
of the first raises, and so does the callback of the second. -/
theorem put_tasks_exact_resubmitted : ∃ s : PutTasks ℕ,
    s.Exact ∧ s.submissions = [⟨[], .done⟩, ⟨[], .done⟩] := by
  have h₁ : Run (guarded PutTasks.Alone (takes (PutTasks.step 1))) PutTasks.empty
      [PutAction.submit [1, 2]] ⟨{1, 2}, [⟨[1, 2], .pending⟩]⟩ :=
    Run.start.step ⟨trivial, rfl⟩
  have h₂ := h₁.take (.start 0) ⟨{1, 2}, [⟨[1, 2], .running⟩]⟩ trivial rfl
  have h₃ := h₂.take (.put 0 .stored) ⟨{2}, [⟨[2], .running⟩]⟩
    (PutTasks.alone_put rfl (by decide) (fun j sub hj hsub => by
      rcases j with _ | j
      · exact absurd rfl hj
      · cases hsub) (by decide)) rfl
  have h₄ := h₃.take (.submit [1]) ⟨{2, 1}, [⟨[2], .running⟩, ⟨[1], .pending⟩]⟩ trivial rfl
  have h₅ := h₄.take (.put 0 .put_raised) ⟨{1}, [⟨[], .done⟩, ⟨[1], .pending⟩]⟩
    (PutTasks.alone_put rfl (by decide) (fun j sub hj hsub => by
      rcases j with _ | _ | j
      · exact absurd rfl hj
      · cases hsub
        decide
      · cases hsub) (fun _ => rfl)) rfl
  have h₆ := h₅.take (.start 1) ⟨{1}, [⟨[], .done⟩, ⟨[1], .running⟩]⟩ trivial rfl
  have h₇ := h₆.take (.put 1 .callback_raised) ⟨∅, [⟨[], .done⟩, ⟨[], .done⟩]⟩
    (PutTasks.alone_put rfl (by decide) (fun j sub hj hsub => by
      rcases j with _ | _ | j
      · cases hsub
        decide
      · exact absurd rfl hj
      · cases hsub) (fun _ => rfl)) rfl
  exact ⟨_, put_tasks_exact 1 h₇, rfl⟩

/-- Two submissions of the key 1: when the first is through with it, it is not reported,
although the second has not begun.  And a put that raises leaves the next key reported for
ever. -/
theorem put_tasks_forgets_submission :
    (∃ (as : List (PutAction ℕ)) (s : PutTasks ℕ),
      Run (takes (PutTasks.step 1)) PutTasks.empty as s ∧
      s.exists_in_put_tasks 1 = false ∧ (∃ sub ∈ s.submissions, 1 ∈ sub.rest) ∧ ¬ s.Exact) ∧
    ∃ (as : List (PutAction ℕ)) (s : PutTasks ℕ),
      Run (takes (PutTasks.step 1)) PutTasks.empty as s ∧
      (∀ sub ∈ s.submissions, sub.future = .done) ∧ s.exists_in_put_tasks 2 = true ∧
      ¬ s.Exact := by
  constructor
  · refine ⟨[.submit [1], .submit [1], .start 0, .put 0 .stored],
      ⟨∅, [⟨[], .running⟩, ⟨[1], .pending⟩]⟩, run_of_execute rfl, rfl,
      ⟨⟨[1], .pending⟩, by decide, by decide⟩, ?_⟩
    rintro ⟨hexact, -⟩
    exact absurd ((hexact 1).mpr ⟨⟨[1], .pending⟩, by decide, by decide⟩) (by decide)
  · refine ⟨[.submit [1, 2], .start 0, .put 0 .put_raised], ⟨{2}, [⟨[2], .done⟩]⟩,
      run_of_execute rfl, by decide, by decide, ?_⟩
    rintro ⟨-, hdone⟩
    exact absurd (hdone (by decide) 2) (by decide)
