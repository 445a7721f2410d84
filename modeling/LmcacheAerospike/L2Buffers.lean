/-
# No buffer access after completion

A caller that sees a task of the L2 plugin as completed may use the memory objects again, so
no chunk call of the task may still be running.  A task that returns all its results has
waited for all its chunk calls; the two other ways to end, by a chunk call that raised and by
a submission that `_batch_executor` no longer takes, wait for nothing
(`done_while_chunk_runs`).  The buffers are released in every run in which these two find the
other chunk calls finished (`no_access_after_done`).
-/
import LmcacheAerospike.L2Executors

namespace L2Executors

variable {ρ α : Type} {p : L2Executors ρ α} {s s' : L2State ρ} {a : L2Action ρ}

/-- All chunk calls that the task has submitted have finished. -/
def AllFinished (task : L2Task ρ) : Prop := ∀ c ∈ task.calls, c.isFinished = true

/-- A task whose entry is in the table of done tasks has no chunk call left. -/
def Released (s : L2State ρ) : Prop :=
  ∀ task ∈ s.tasks, task.stage.isDone = true → AllFinished task

/-- **The condition**: the exceptional exits of `_parallel_chunks`, at a chunk call that
raised and at a submission that is not taken, find the chunk calls of the task finished. -/
def Waits (s : L2State ρ) : L2Action ρ → Prop
  | .gather tid idx => ∀ task e, s.tasks[tid]? = some task →
      task.calls[idx]? = some (.finished (.error e)) → AllFinished task
  | .submit_chunk tid => s.closing ≠ .open_ → ∀ task, s.tasks[tid]? = some task →
      AllFinished task
  | _ => True

/-- A task that is done, and all of whose chunk calls have finished. -/
def TaskReleased (task : L2Task ρ) : Prop := task.stage.isDone = true → AllFinished task

/-- A chunk call that starts or finishes belongs to a task that is not done. -/
theorem TaskReleased.set_call {task : L2Task ρ} (h : TaskReleased task) {idx : ℕ}
    {c c' : ChunkCall} (hc : task.calls[idx]? = some c) (hnot : c.isFinished = false) :
    TaskReleased { task with calls := task.calls.set idx c' } := by
  intro hdone
  exact finished_set hc hnot (h hdone)

/-- **The step lemma of one task.** -/
theorem TaskReleased.of_taskStep {tid : ℕ} {task task' : L2Task ρ} (hok : p.TaskOk tid task)
    (h : TaskReleased task) (htask : s.tasks[tid]? = some task) (hwaits : Waits s a)
    (hstep : p.TaskStep (s.closing = .open_) tid task a task') : TaskReleased task' := by
  have hok' := hok.of_taskStep hstep
  cases hstep with
  | start hq =>
    intro hdone
    by_cases hd : p.direct task.req = true
    · rw [if_pos hd] at hdone
      cases hdone
    · rw [if_neg hd] at hdone
      cases hdone
  | answer hc =>
    -- the items were passed on as they are: there are no chunk calls
    have hstage := hok.stage_ok
    unfold StageOk at hstage
    rw [hc] at hstage
    intro _ c hmem
    rw [show task.calls = [] from hstage.2] at hmem
    cases hmem
  | submitted hs hacc hlast =>
    intro hdone
    cases hdone
  | submitted_all hs hacc hlast =>
    intro hdone
    cases hdone
  | rejected hs hacc =>
    intro _
    exact hwaits (of_decide_eq_false hacc) task htask
  | start_chunk hcall => exact h.set_call hcall rfl
  | finish_chunk hcall hchunk => exact h.set_call hcall rfl
  | gather_raised hg hcall =>
    intro _
    exact hwaits task _ htask hcall
  | @gathered idx ordered part hg hcall hnone =>
    intro hdone
    have hstage := hok'.stage_ok
    unfold StageOk at hstage
    unfold afterGather at hdone hstage
    cases hall : gathered (ordered.set idx (some part)) with
    | none =>
      rw [hall] at hdone
      cases hdone
    | some results =>
      rw [hall] at hstage
      exact (hstage results rfl).2

/-- **The step lemma.** -/
theorem released_step (hinv : EachTask (fun tid task => p.TaskOk tid task ∧ TaskReleased task) s)
    (hwaits : Waits s a) (hstep : p.step s a = some s') :
    EachTask (fun tid task => p.TaskOk tid task ∧ TaskReleased task) s' :=
  hinv.of_step hstep (fun tid req => ⟨taskOk_new tid req, fun hdone => by cases hdone⟩)
    fun _ _ _ htask h htaskStep =>
      ⟨h.1.of_taskStep htaskStep, h.2.of_taskStep h.1 htask hwaits htaskStep⟩

/-- An exceptional exit that does not find the chunk calls finished leaves them behind. -/
theorem not_released_of_not_waits (hwaits : ¬ Waits s a) (hstep : p.step s a = some s') :
    ¬ Released s' := by
  intro hreleased
  apply hwaits
  rcases step_cases hstep with ⟨req, rfl, -, -⟩ | ⟨closing, rfl, -, -⟩ |
    ⟨tid, task, task', htask, htaskStep, rfl⟩
  · trivial
  · trivial
  · have hmem : task' ∈ s.tasks.set tid task' :=
      List.mem_of_getElem? (getElem?_set_at htask)
    have hrel := hreleased task' hmem
    cases htaskStep with
    | start hq => trivial
    | answer hc => trivial
    | start_chunk hcall => trivial
    | finish_chunk hcall hchunk => trivial
    | submitted hs hacc hlast =>
      intro hclosing
      exact absurd (of_decide_eq_true hacc) hclosing
    | submitted_all hs hacc hlast =>
      intro hclosing
      exact absurd (of_decide_eq_true hacc) hclosing
    | rejected hs hacc =>
      intro _ task₁ htask₁
      obtain rfl : task = task₁ := Option.some.inj (htask.symm.trans htask₁)
      exact hrel rfl
    | gather_raised hg hcall =>
      intro task₁ e₁ htask₁ _
      obtain rfl : task = task₁ := Option.some.inj (htask.symm.trans htask₁)
      exact hrel rfl
    | gathered hg hcall hnone =>
      intro task₁ e₁ htask₁ hcall₁
      obtain rfl : task = task₁ := Option.some.inj (htask.symm.trans htask₁)
      rw [hcall] at hcall₁
      cases hcall₁

end L2Executors

/-- **No buffer access after completion** in every run in which an exceptional exit of
`_parallel_chunks` finds the chunk calls of its task finished. -/
theorem no_access_after_done {ρ α : Type} (p : L2Executors ρ α) {as : List (L2Action ρ)}
    {s : L2State ρ}
    (h : Run (guarded L2Executors.Waits (takes p.step)) L2State.empty as s) :
    L2Executors.Released s := by
  have hinv := h.invariant (L2Executors.eachTask_empty _) fun _ _ _ hinv hstep =>
    L2Executors.released_step hinv hstep.1 hstep.2
  intro task hmem
  obtain ⟨tid, htask⟩ := List.mem_iff_getElem?.mp hmem
  exact (hinv tid task htask).2

/-- The executors of the default configuration, and a client that is unreachable for the
first chunk of each task. -/
def firstChunkRaises : L2Executors (List ℕ) ℕ where
  items := id
  chunk_size := Engine.BATCH_KEYS_CHUNK
  workers := 16
  batch_workers := batch_max_workers 16
  call := fun _ idx chunk =>
    if idx = 0 then .error (.connector .connection "") else .ok (chunk.map fun _ => true)
  chunk_size_pos := by decide
  workers_pos := by decide
  batch_workers_pos := by decide

/-- The state of a task of 33 items. -/
def oneTask (stage : TaskStage) (calls : List ChunkCall) : L2State (List ℕ) :=
  ⟨[⟨List.range 33, stage, calls⟩], .open_⟩

/-- A task of 33 items: the failure of its first chunk is seen when both chunk calls have
finished. -/
theorem no_access_after_done_waiting :
    L2Executors.Released (oneTask (.done (.error (.connector .connection "")))
      [.finished (.error (.connector .connection "")), .finished (.ok [true])]) := by
  have h₁ : Run (guarded L2Executors.Waits (takes firstChunkRaises.step)) L2State.empty
      [L2Action.submit (List.range 33)] (oneTask .queued []) :=
    Run.start.step ⟨trivial, rfl⟩
  have h₂ := h₁.take (.start 0) (oneTask .submitting []) trivial rfl
  have h₃ := h₂.take (.submit_chunk 0) (oneTask .submitting [.queued])
    (fun hclosing => absurd rfl hclosing) rfl
  have h₄ := h₃.take (.submit_chunk 0) (oneTask (.gathering [none, none]) [.queued, .queued])
    (fun hclosing => absurd rfl hclosing) rfl
  have h₅ := h₄.take (.start_chunk 0 0) (oneTask (.gathering [none, none]) [.running, .queued])
    trivial rfl
  have h₆ := h₅.take (.finish_chunk 0 0) (oneTask (.gathering [none, none])
    [.finished (.error (.connector .connection "")), .queued]) trivial rfl
  have h₇ := h₆.take (.start_chunk 0 1) (oneTask (.gathering [none, none])
    [.finished (.error (.connector .connection "")), .running]) trivial rfl
  have h₈ := h₇.take (.finish_chunk 0 1) (oneTask (.gathering [none, none])
    [.finished (.error (.connector .connection "")), .finished (.ok [true])]) trivial rfl
  have h₉ := h₈.take (.gather 0 0) (oneTask (.done (.error (.connector .connection "")))
    [.finished (.error (.connector .connection "")), .finished (.ok [true])])
    (fun task e htask _ c hc => by
      cases htask
      rcases List.mem_pair.mp hc with rfl | rfl
      · rfl
      · rfl) rfl
  exact no_access_after_done firstChunkRaises h₉

/-- A task of 33 items: the first chunk raises, and the task is done while the call for the
second chunk is still running. -/
theorem done_while_chunk_runs : ∃ (as : List (L2Action (List ℕ))) (s : L2State (List ℕ)),
    Run (takes firstChunkRaises.step) L2State.empty as s ∧ ¬ L2Executors.Released s ∧
      ∃ task ∈ s.tasks, task.stage.isDone = true ∧ ChunkCall.running ∈ task.calls := by
  refine ⟨[.submit (List.range 33), .start 0, .submit_chunk 0, .submit_chunk 0,
    .start_chunk 0 0, .start_chunk 0 1, .finish_chunk 0 0, .gather 0 0],
    oneTask (.done (.error (.connector .connection "")))
      [.finished (.error (.connector .connection "")), .running],
    run_of_execute rfl, ?_, ⟨_, List.mem_singleton_self _, rfl, by simp⟩⟩
  intro hreleased
  have hfinished := hreleased _ (List.mem_singleton_self _) rfl .running (by simp)
  cases hfinished
