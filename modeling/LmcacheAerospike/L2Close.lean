/-
# Closing the L2 plugin

`close()` shuts `_batch_executor` down before `_executor`, so a task that still waits in the
queue of `_executor` finds nobody to take its chunk calls, and fails although the store would
have answered.  A task whose items are one chunk needs no other executor and is not affected.

Where every accepted task of several chunks has submitted them when `close()` begins, each
task comes to what it would have come to without it (`close_keeps_results`); a task that has
not is lost (`Lost.of_taskStep`, `queued_task_is_lost`).
-/
import LmcacheAerospike.L2Progress
import LmcacheAerospike.L2Tasks
import LmcacheAerospike.Payload

namespace L2Executors

variable {ρ α : Type} (p : L2Executors ρ α) {s s' : L2State ρ} {a : L2Action ρ}

/-! ## The outcome of a task -/

/-- A task that is done has come to its outcome, which no schedule has a part in. -/
def DoneOk (tid : ℕ) (task : L2Task ρ) : Prop :=
  ∀ r, task.stage = .done r → r.toOption = p.outcome tid task.req

/-- The task needs `_batch_executor` no more to take a chunk call. -/
def Submitted (task : L2Task ρ) : Prop :=
  task.stage ≠ .submitting ∧ (task.stage = .queued → p.direct task.req = true)

/-- Tasks are accepted before `close()` begins. -/
def AcceptsBefore (s : L2State ρ) : L2Action ρ → Prop
  | .submit _ => s.closing = .open_
  | _ => True

/-- **The condition**: when `close()` begins, every accepted task of several chunks has
submitted its chunk calls. -/
def ClosesSubmitted (s : L2State ρ) : L2Action ρ → Prop
  | .close => s.closing = .open_ → ∀ task ∈ s.tasks, p.Submitted task
  | _ => True

/-- `close()` is called when all tasks are done. -/
def ClosesLate (s : L2State ρ) : L2Action ρ → Prop
  | .close => ∀ task ∈ s.tasks, task.stage.isDone = true
  | _ => True

variable {p}

theorem submitted_of_done {task : L2Task ρ} (h : task.stage.isDone = true) :
    p.Submitted task := by
  constructor
  · intro hs
    rw [hs] at h
    cases h
  · intro hs
    rw [hs] at h
    cases h

/-- A late `close()` finds nothing to submit. -/
theorem closesSubmitted_of_late (h : ClosesLate s a) : p.ClosesSubmitted s a := by
  unfold ClosesSubmitted
  split
  · exact fun _ task hmem => submitted_of_done (h task hmem)
  · trivial

/-- A task that has submitted its chunk calls submits no more. -/
theorem Submitted.of_taskStep {accepting : Bool} {tid : ℕ} {task task' : L2Task ρ}
    (h : p.Submitted task) (hstep : p.TaskStep accepting tid task a task') :
    p.Submitted task' := by
  cases hstep with
  | start hq =>
    rw [if_pos (h.2 hq)]
    constructor
    · intro hs
      cases hs
    · intro hs
      cases hs
  | answer hc => exact submitted_of_done rfl
  | submitted hs hacc hlast => exact absurd hs h.1
  | submitted_all hs hacc hlast => exact absurd hs h.1
  | rejected hs hacc => exact absurd hs h.1
  | start_chunk hcall => exact h
  | finish_chunk hcall hchunk => exact h
  | gather_raised hg hcall => exact submitted_of_done rfl
  | gathered hg hcall hnone =>
    unfold afterGather
    cases gathered _ with
    | none =>
      constructor
      · intro hs
        cases hs
      · intro hs
        cases hs
    | some results => exact submitted_of_done rfl

/-- **The step lemma of outcomes**: a task is done with its outcome, unless a submission was
not taken. -/
theorem DoneOk.of_taskStep {accepting : Bool} {tid : ℕ} {task task' : L2Task ρ}
    (hok : p.TaskOk tid task) (h : p.DoneOk tid task)
    (hacc : accepting = false → p.Submitted task)
    (hstep : p.TaskStep accepting tid task a task') : p.DoneOk tid task' := by
  have hok' := hok.of_taskStep hstep
  have hstage := hok.stage_ok
  unfold StageOk at hstage
  cases hstep with
  | start hq =>
    intro r hr
    by_cases hd : p.direct task.req = true
    · rw [if_pos hd] at hr
      cases hr
    · rw [if_neg hd] at hr
      cases hr
  | answer hc =>
    rw [hc] at hstage
    intro r hr
    cases hr
    unfold outcome
    rw [hstage.1, if_pos rfl]
  | submitted hs _ hlast =>
    intro r hr
    cases hr
  | submitted_all hs _ hlast =>
    intro r hr
    cases hr
  | rejected hs hrej => exact absurd hs (hacc hrej).1
  | start_chunk hcall => exact h
  | finish_chunk hcall hchunk => exact h
  | gather_raised hg hcall =>
    rw [hg] at hstage
    intro r hr
    cases hr
    exact (outcome_of_raised hok hstage.1 hcall).symm
  | gathered hg hcall hnone =>
    intro r hr
    have hstage' := hok'.stage_ok
    unfold StageOk at hstage'
    rw [hr] at hstage'
    cases r with
    | ok results => exact (hstage' results rfl).1.symm
    | error e =>
      unfold afterGather at hr
      split at hr
      · cases hr
      · cases hr

/-- The invariant of the runs under the condition. -/
structure Undisturbed (p : L2Executors ρ α) (s : L2State ρ) : Prop where
  taskOk : EachTask p.TaskOk s
  doneOk : EachTask p.DoneOk s
  submitted : s.closing ≠ .open_ → ∀ task ∈ s.tasks, p.Submitted task

theorem undisturbed_empty : p.Undisturbed (L2State.empty : L2State ρ) where
  taskOk := eachTask_empty _
  doneOk := eachTask_empty _
  submitted := fun hclosing => absurd rfl hclosing

/-- **The step lemma.** -/
theorem Undisturbed.step (h : p.Undisturbed s) (haccepts : AcceptsBefore s a)
    (hcond : p.ClosesSubmitted s a) (hstep : p.step s a = some s') : p.Undisturbed s' := by
  refine ⟨h.taskOk.of_step hstep taskOk_new fun _ _ _ _ hok => hok.of_taskStep, ?_, ?_⟩
  · refine h.doneOk.of_step hstep (fun tid req r hr => by cases hr) ?_
    intro tid task task' htask hdone htaskStep
    refine hdone.of_taskStep (h.taskOk tid task htask) (fun hacc => ?_) htaskStep
    exact h.submitted (of_decide_eq_false hacc) task (List.mem_of_getElem? htask)
  · intro hclosing
    rcases step_cases hstep with ⟨req, rfl, -, rfl⟩ | ⟨closing, rfl, hclose, rfl⟩ |
      ⟨tid, task, task', htask, htaskStep, rfl⟩
    · exact absurd haccepts hclosing
    · by_cases hopen : s.closing = .open_
      · exact hcond hopen
      · exact h.submitted hopen
    · refine forall_mem_set (h.submitted hclosing) ?_
      have hsubmitted := h.submitted hclosing task (List.mem_of_getElem? htask)
      exact hsubmitted.of_taskStep htaskStep

/-- **The run lemma.** -/
theorem undisturbed_of_run {as : List (L2Action ρ)}
    (h : Run (guarded (fun s a => AcceptsBefore s a ∧ p.ClosesSubmitted s a) (takes p.step))
      L2State.empty as s) :
    p.Undisturbed s :=
  h.invariant undisturbed_empty fun _ _ _ hinv hstep =>
    hinv.step hstep.1.1 hstep.1.2 hstep.2

/-- All tasks come to their end: while one is not done some thread can go on, and without new
tasks no schedule goes on for ever. -/
def Completes (p : L2Executors ρ α) (s : L2State ρ) : Prop :=
  ((¬ ∀ task ∈ s.tasks, task.stage.isDone = true) →
      ∃ a s', L2Action.OfThread a ∧ p.step s a = some s') ∧
    ∀ (as : List (L2Action ρ)) (s' : L2State ρ),
      Run (guarded (fun _ a => ∀ req, a ≠ .submit req) (takes p.step)) s as s' →
        as.length ≤ p.work s

theorem completes_of_taskOk (h : EachTask p.TaskOk s) : p.Completes s := by
  refine ⟨exists_step h, fun as s' hrun => ?_⟩
  have hlen := hrun.length_add_le p.work h fun s₁ a s₂ hok hstep =>
    ⟨hok.of_step hstep.2 taskOk_new fun _ _ _ _ hok' => hok'.of_taskStep,
      work_lt hok hstep.2 hstep.1⟩
  omega

/-! ## The tasks that are lost -/

variable (p) in
/-- A task of several chunks that has not submitted them, or was not able to. -/
def Lost (task : L2Task ρ) : Prop :=
  p.direct task.req = false ∧ (task.stage = .queued ∨ task.stage = .submitting ∨
    task.stage = .done (.error (.builtin .RuntimeError)))

theorem lost_of_not_submitted {task : L2Task ρ} (hdirect : p.direct task.req = false)
    (h : ¬ p.Submitted task) : p.Lost task := by
  refine ⟨hdirect, ?_⟩
  by_cases hs : task.stage = .submitting
  · exact Or.inr (Or.inl hs)
  · left
    by_contra hq
    exact h ⟨hs, fun hq' => absurd hq' hq⟩

/-- Once `close()` has begun, a task that has not submitted its chunk calls can only fail. -/
theorem Lost.of_taskStep {tid : ℕ} {task task' : L2Task ρ} (h : p.Lost task)
    (hstep : p.TaskStep false tid task a task') : p.Lost task' := by
  obtain ⟨hdirect, hstage⟩ := h
  cases hstep with
  | start hq =>
    refine ⟨hdirect, Or.inr (Or.inl ?_)⟩
    show (if p.direct task.req then TaskStage.calling else .submitting) = .submitting
    rw [hdirect, if_neg Bool.false_ne_true]
  | answer hc =>
    rw [hc] at hstage
    rcases hstage with hq | hs | hd
    · cases hq
    · cases hs
    · cases hd
  | submitted hs hacc hlast => cases hacc
  | submitted_all hs hacc hlast => cases hacc
  | rejected hs hacc => exact ⟨hdirect, Or.inr (Or.inr rfl)⟩
  | start_chunk hcall => exact ⟨hdirect, hstage⟩
  | finish_chunk hcall hchunk => exact ⟨hdirect, hstage⟩
  | gather_raised hg hcall =>
    rw [hg] at hstage
    rcases hstage with hq | hs | hd
    · cases hq
    · cases hs
    · cases hd
  | gathered hg hcall hnone =>
    rw [hg] at hstage
    rcases hstage with hq | hs | hd
    · cases hq
    · cases hs
    · cases hd

/-- No step brings a lost task back. -/
theorem lost_of_step {s₁ s₂ : L2State ρ} {a : L2Action ρ} {tid : ℕ}
    (hstep : p.step s₁ a = some s₂) (hclosing : s₁.closing ≠ .open_) {task₁ : L2Task ρ}
    (htask₁ : s₁.tasks[tid]? = some task₁) (hlost₁ : p.Lost task₁) :
    s₂.closing ≠ .open_ ∧ ∃ task', s₂.tasks[tid]? = some task' ∧ p.Lost task' := by
  rcases step_cases hstep with ⟨req, -, -, rfl⟩ | ⟨closing, -, hclose, rfl⟩ |
    ⟨tid', task₂, task₃, htask₂, htaskStep, rfl⟩
  · refine ⟨hclosing, task₁, ?_, hlost₁⟩
    exact getElem?_concat_iff.mpr
      (Or.inr ⟨Nat.ne_of_lt (List.getElem?_eq_some_iff.mp htask₁).1, htask₁⟩)
  · refine ⟨fun hopen => ?_, task₁, htask₁, hlost₁⟩
    have hlt := close_work_lt hclose
    rw [show closing = .open_ from hopen] at hlt
    exact absurd hlt (Nat.not_lt.mpr s₁.closing.work_le)
  · refine ⟨hclosing, ?_⟩
    rw [decide_eq_false hclosing] at htaskStep
    by_cases heq : tid' = tid
    · subst heq
      obtain rfl : task₁ = task₂ := Option.some.inj (htask₁.symm.trans htask₂)
      exact ⟨task₃, getElem?_set_at htask₁, hlost₁.of_taskStep htaskStep⟩
    · refine ⟨task₁, ?_, hlost₁⟩
      rwa [List.getElem?_set_ne heq]

/-- **A task that is lost stays lost**: it ends with an exception, or not at all. -/
theorem lost_of_run {as : List (L2Action ρ)} (h : Run (takes p.step) s as s')
    (hclosing : s.closing ≠ .open_) {tid : ℕ} {task : L2Task ρ}
    (htask : s.tasks[tid]? = some task) (hlost : p.Lost task) :
    s'.closing ≠ .open_ ∧ ∃ task', s'.tasks[tid]? = some task' ∧ p.Lost task' := by
  induction h with
  | start => exact ⟨hclosing, task, htask, hlost⟩
  | step _ hstep ih =>
    obtain ⟨hclosing₁, task₁, htask₁, hlost₁⟩ := ih
    exact lost_of_step hstep hclosing₁ htask₁ hlost₁

end L2Executors

/-- **Closing the plugin does not change the results** of the tasks that were accepted before:
in every run in which those of several chunks have submitted them when `close()` begins, each
task is completed, and with the same result as in every run in which `close()` is called when
all tasks are done. -/
theorem close_keeps_results (plugin : L2Plugin)
    (call : ℕ → ℕ → List (Text × MemoryObj) → Except PyExc (List Bool))
    {as as' : List (L2Action L2Request)} {s s' : L2State L2Request}
    (h : Run (guarded (fun s a => L2Executors.AcceptsBefore s a ∧
      (plugin.executors call).ClosesSubmitted s a) (takes (plugin.executors call).step))
      L2State.empty as s)
    (hlate : Run (guarded (fun s a => L2Executors.AcceptsBefore s a ∧
      L2Executors.ClosesLate s a) (takes (plugin.executors call).step)) L2State.empty as' s') :
    (plugin.executors call).Completes s ∧
      ∀ (tid : ℕ) (task task' : L2Task L2Request) (r r' : Except PyExc (List Bool)),
        s.tasks[tid]? = some task → s'.tasks[tid]? = some task' → task.req = task'.req →
        task.stage = .done r → task'.stage = .done r' →
          plugin.result task.req r = plugin.result task'.req r' := by
  have hinv := L2Executors.undisturbed_of_run h
  have hinv' := L2Executors.undisturbed_of_run (hlate.mono fun _ _ _ hstep =>
    ⟨⟨hstep.1.1, L2Executors.closesSubmitted_of_late hstep.1.2⟩, hstep.2⟩)
  refine ⟨L2Executors.completes_of_taskOk hinv.taskOk, ?_⟩
  intro tid task task' r r' htask htask' hreq hr hr'
  rw [← hreq]
  apply plugin.result_congr
  rw [hinv.doneOk tid task htask r hr, hinv'.doneOk tid task' htask' r' hr', hreq]

/-! ## A store task of 33 keys -/

/-- A plugin over fakes. -/
def fakeL2Plugin : L2Plugin where
  engine := fakeEngine (.ofTarget 4) false false 0
  dtype := "float16".toList
  get_size := fun mo => mo.byte_array.length
  executor_threads_pos := by decide

/-- A store of `n` keys, an object of two bytes under each. -/
def storeRequest (n : ℕ) : L2Request where
  kind := .store
  keys := (List.range n).map fun i => ⟨[UInt8.ofNat i], "llama".toList, 0, []⟩
  objects := (List.range n).map fun _ => { byte_array := [1, 2] }

/-- Executors whose chunk calls all succeed. -/
def fakeL2Executors : L2Executors L2Request (Text × MemoryObj) :=
  fakeL2Plugin.executors fun _ _ chunk => .ok (chunk.map fun _ => true)

/-- The state when the task has been accepted. -/
def storeAccepted : L2State L2Request := ⟨[⟨storeRequest 33, .queued, []⟩], .open_⟩

/-- The state when the task has submitted its two chunk calls. -/
def storeSubmitted : L2State L2Request :=
  ⟨[⟨storeRequest 33, .gathering [none, none], [.queued, .queued]⟩], .open_⟩

/-- The state when the task is done with all its results. -/
def storeDone (closing : CloseStage) : L2State L2Request :=
  ⟨[⟨storeRequest 33, .done (.ok (List.replicate 33 true)),
    [.finished (.ok (List.replicate 32 true)), .finished (.ok [true])]⟩], closing⟩

/-- The task is accepted, and the run goes on. -/
theorem storeAccepted_run {G : L2State L2Request → L2Action L2Request → Prop}
    (hG : G L2State.empty (.submit (storeRequest 33))) {as : List (L2Action L2Request)}
    {s : L2State L2Request} (hexecute : execute fakeL2Executors.step storeAccepted as = some s)
    (has : ∀ a ∈ as, ∀ s, G s a) :
    Run (guarded G (takes fakeL2Executors.step)) L2State.empty
      (.submit (storeRequest 33) :: as) s := by
  have hfirst : Run (guarded G (takes fakeL2Executors.step)) L2State.empty
      ([] ++ [.submit (storeRequest 33)]) storeAccepted := Run.start.step ⟨hG, rfl⟩
  exact hfirst.append (guarded_run_of_execute hexecute has)

/-- A run in which `close()` is called at the end. -/
theorem storeDone_late : Run (guarded (fun s a => L2Executors.AcceptsBefore s a ∧
      L2Executors.ClosesLate s a) (takes fakeL2Executors.step)) L2State.empty
    [.submit (storeRequest 33), .start 0, .submit_chunk 0, .submit_chunk 0,
      .start_chunk 0 0, .start_chunk 0 1, .finish_chunk 0 1, .finish_chunk 0 0,
      .gather 0 1, .gather 0 0] (storeDone .open_) :=
  storeAccepted_run ⟨rfl, trivial⟩ rfl
    (by simp [L2Executors.AcceptsBefore, L2Executors.ClosesLate])

/-- The task has submitted its chunk calls when `close()` begins, and none of them has been
started: the result is the one that it would have had. -/
theorem close_keeps_results_submitted :
    fakeL2Executors.Completes (storeDone .closed) ∧
      fakeL2Plugin.result (storeRequest 33) (.ok (List.replicate 33 true))
        = .stored ⟨true, 66⟩ := by
  have hsubmit : Run (guarded (fun s a => L2Executors.AcceptsBefore s a ∧
      fakeL2Executors.ClosesSubmitted s a) (takes fakeL2Executors.step)) L2State.empty
      [.submit (storeRequest 33), .start 0, .submit_chunk 0, .submit_chunk 0] storeSubmitted :=
    storeAccepted_run ⟨rfl, trivial⟩ rfl
      (by simp [L2Executors.AcceptsBefore, L2Executors.ClosesSubmitted])
  have hclose := hsubmit.take .close { storeSubmitted with closing := .batch_executor }
    ⟨trivial, fun _ task hmem => by
      rw [List.mem_singleton.mp hmem]
      exact ⟨fun hs => (by cases hs), fun hs => (by cases hs)⟩⟩ rfl
  have hchunks : Run (guarded (fun s a => L2Executors.AcceptsBefore s a ∧
      fakeL2Executors.ClosesSubmitted s a) (takes fakeL2Executors.step))
      { storeSubmitted with closing := .batch_executor }
      [.start_chunk 0 0, .start_chunk 0 1, .finish_chunk 0 1, .finish_chunk 0 0,
        .gather 0 0, .gather 0 1] (storeDone .batch_executor) :=
    guarded_run_of_execute rfl
      (by simp [L2Executors.AcceptsBefore, L2Executors.ClosesSubmitted])
  have hclosing := (hclose.append hchunks).take .close (storeDone .executor)
    ⟨trivial, fun hopen => by cases hopen⟩ rfl
  have hclosed := hclosing.take .close (storeDone .closed)
    ⟨trivial, fun hopen => by cases hopen⟩ rfl
  obtain ⟨hcompletes, hresults⟩ := close_keeps_results fakeL2Plugin _ hclosed storeDone_late
  exact ⟨hcompletes, (hresults 0 _ _ _ _ rfl rfl rfl rfl rfl).trans rfl⟩

/-- The task is still queued when `close()` begins: its first chunk call is not taken, and a
store that would have succeeded is reported as failed. -/
theorem queued_task_is_lost : ∃ (as as' : List (L2Action L2Request)) (s s' : L2State L2Request)
    (task task' : L2Task L2Request) (r r' : Except PyExc (List Bool)),
    Run (guarded L2Executors.AcceptsBefore (takes fakeL2Executors.step)) L2State.empty as s ∧
    Run (guarded (fun s a => L2Executors.AcceptsBefore s a ∧ L2Executors.ClosesLate s a)
      (takes fakeL2Executors.step)) L2State.empty as' s' ∧
    s.tasks[0]? = some task ∧ s'.tasks[0]? = some task' ∧ task.req = task'.req ∧
    task.stage = .done r ∧ task'.stage = .done r' ∧
    fakeL2Plugin.result task.req r = .stored ⟨false, 0⟩ ∧
    fakeL2Plugin.result task'.req r' = .stored ⟨true, 66⟩ := by
  exact ⟨[.submit (storeRequest 33), .close, .start 0, .submit_chunk 0], _,
    ⟨[⟨storeRequest 33, .done (.error (.builtin .RuntimeError)), []⟩], .batch_executor⟩,
    storeDone .open_, _, _, _, _,
    storeAccepted_run rfl rfl (by simp [L2Executors.AcceptsBefore]), storeDone_late,
    rfl, rfl, rfl, rfl, rfl, rfl, rfl⟩
