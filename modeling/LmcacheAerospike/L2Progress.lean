/-
# The executors of the L2 plugin come to an end

Some thread can always go on while a task is not done (`exists_step`): the chunk calls wait
for nothing, so one that is submitted is started and finishes, and a task waits for nothing
but its chunk calls.  And what remains to be done gets less with every step but the
acceptance of a new task (`work_lt`).  So every schedule ends, and it ends with all tasks done.
-/
import LmcacheAerospike.L2Executors

/-- A step of a thread, not a call of the plugin. -/
def L2Action.OfThread {ρ : Type} : L2Action ρ → Prop
  | .submit _ | .close => False
  | _ => True

def ChunkCall.work : ChunkCall → ℕ
  | .queued => 2
  | .running => 1
  | .finished _ => 0

/-- The results that the loop still waits for. -/
def missing (ordered : List (Option (List Bool))) : ℕ := ordered.countP Option.isNone

def CloseStage.work : CloseStage → ℕ
  | .open_ => 3
  | .batch_executor => 2
  | .executor => 1
  | .closed => 0

theorem CloseStage.work_le (closing : CloseStage) : closing.work ≤ CloseStage.open_.work := by
  cases closing <;> decide

namespace L2Executors

variable {ρ α : Type} (p : L2Executors ρ α) {s s' : L2State ρ} {a : L2Action ρ}

/-! ## No deadlock -/

theorem onTask_some {tid : ℕ} {task task' : L2Task ρ} (h : s.tasks[tid]? = some task)
    {f : L2Task ρ → Option (L2Task ρ)} (hf : f task = some task') :
    ∃ s', s.onTask tid f = some s' := by
  unfold L2State.onTask
  rw [h]
  dsimp only
  rw [hf]
  exact ⟨_, rfl⟩

variable {p}

/-- A running chunk call can finish. -/
theorem exists_finish_step (hok : EachTask p.TaskOk s) {task : L2Task ρ} (hmem : task ∈ s.tasks)
    (hrunning : ChunkCall.running ∈ task.calls) :
    ∃ a s', L2Action.OfThread a ∧ p.step s a = some s' := by
  obtain ⟨tid, htask⟩ := List.mem_iff_getElem?.mp hmem
  obtain ⟨idx, hidx⟩ := List.mem_iff_getElem?.mp hrunning
  have hlt : idx < (p.chunks task.req).length :=
    Nat.lt_of_lt_of_le (List.getElem?_eq_some_iff.mp hidx).1 (hok tid task htask).length_le
  have hf : p.finish_chunk tid idx task = some { task with
      calls := task.calls.set idx (.finished (p.call tid idx (p.chunks task.req)[idx])) } := by
    unfold finish_chunk
    rw [hidx, List.getElem?_eq_getElem hlt]
  obtain ⟨s', hs'⟩ := onTask_some htask hf
  exact ⟨.finish_chunk tid idx, s', trivial, hs'⟩

omit p in
theorem batch_busy_eq_zero (h : ∀ task ∈ s.tasks, ChunkCall.running ∉ task.calls) :
    s.batch_busy = 0 := by
  unfold L2State.batch_busy
  rw [List.sum_eq_zero_iff_forall_eq_nat]
  intro n hn
  obtain ⟨task, hmem, rfl⟩ := List.mem_map.mp hn
  rw [List.countP_eq_zero]
  rintro c hc hrunning
  cases c with
  | running => exact h task hmem hc
  | queued => cases hrunning
  | finished res => cases hrunning

/-- A queued chunk call can be started while no thread is busy. -/
theorem exists_start_step (hidle : ∀ task ∈ s.tasks, ChunkCall.running ∉ task.calls) {tid idx : ℕ}
    {task : L2Task ρ} (htask : s.tasks[tid]? = some task)
    (hqueued : task.calls[idx]? = some .queued) :
    ∃ a s', L2Action.OfThread a ∧ p.step s a = some s' := by
  have hf : start_chunk idx task
      = some { task with calls := task.calls.set idx .running } := by
    unfold start_chunk
    rw [hqueued]
  obtain ⟨s', hs'⟩ := onTask_some htask hf
  refine ⟨.start_chunk tid idx, s', trivial, ?_⟩
  simp only [step]
  rw [batch_busy_eq_zero hidle, if_pos p.batch_workers_pos]
  exact hs'

/-- A chunk call that has not finished can be started, or can finish. -/
theorem exists_chunk_step (hok : EachTask p.TaskOk s) {tid : ℕ} {task : L2Task ρ}
    (htask : s.tasks[tid]? = some task) {c : ChunkCall} (hc : c ∈ task.calls)
    (hnot : c.isFinished = false) : ∃ a s', L2Action.OfThread a ∧ p.step s a = some s' := by
  by_cases hidle : ∀ task ∈ s.tasks, ChunkCall.running ∉ task.calls
  · obtain ⟨idx, hidx⟩ := List.mem_iff_getElem?.mp hc
    cases c with
    | queued => exact exists_start_step hidle htask hidx
    | running => exact absurd hc (hidle task (List.mem_of_getElem? htask))
    | finished res => cases hnot
  · -- a thread is busy
    obtain ⟨task', htask'⟩ := not_forall.mp hidle
    obtain ⟨hmem, hrunning⟩ := Classical.not_imp.mp htask'
    exact exists_finish_step hok hmem (not_not.mp hrunning)

/-- A call that has finished has a result. -/
theorem finished_of_all {calls : List ChunkCall}
    (hall : ∀ c ∈ calls, c.isFinished = true) {idx : ℕ} (hlt : idx < calls.length) :
    ∃ res, calls[idx]? = some (.finished res) := by
  have hfinished := hall _ (List.getElem_mem hlt)
  rw [List.getElem?_eq_getElem hlt]
  cases hcall : calls[idx] with
  | queued =>
    rw [hcall] at hfinished
    cases hfinished
  | running =>
    rw [hcall] at hfinished
    cases hfinished
  | finished res => exact ⟨res, rfl⟩

/-- The loop can take a result that it waits for. -/
theorem exists_gather_step {tid idx : ℕ} {task : L2Task ρ} (htask : s.tasks[tid]? = some task)
    {ordered : List (Option (List Bool))} (hs : task.stage = .gathering ordered)
    (hnone : ordered[idx]? = some none) {res : Except PyExc (List Bool)}
    (hres : task.calls[idx]? = some (.finished res)) :
    ∃ a s', L2Action.OfThread a ∧ p.step s a = some s' := by
  have hf : ∃ task', gather idx task = some task' := by
    unfold gather
    rw [hs, hres]
    dsimp only
    rw [if_pos hnone]
    cases res with
    | error e => exact ⟨_, rfl⟩
    | ok part => exact ⟨_, rfl⟩
  obtain ⟨task', hf⟩ := hf
  obtain ⟨s', hs'⟩ := onTask_some htask hf
  exact ⟨.gather tid idx, s', trivial, hs'⟩

/-- A task that is running, and all of whose chunk calls have finished, can go on. -/
theorem exists_task_step (hok : EachTask p.TaskOk s) {tid : ℕ} {task : L2Task ρ}
    (htask : s.tasks[tid]? = some task) (hrunning : task.stage.isRunning = true)
    (hall : ∀ c ∈ task.calls, c.isFinished = true) :
    ∃ a s', L2Action.OfThread a ∧ p.step s a = some s' := by
  have hstage := (hok tid task htask).stage_ok
  unfold StageOk at hstage
  cases hs : task.stage with
  | queued =>
    rw [hs] at hrunning
    cases hrunning
  | done r =>
    rw [hs] at hrunning
    cases hrunning
  | calling =>
    have hf : p.answer tid task
        = some { task with stage := .done (p.call tid 0 (p.items task.req)) } := by
      unfold answer
      rw [hs]
    obtain ⟨s', hs'⟩ := onTask_some htask hf
    exact ⟨.answer tid, s', trivial, hs'⟩
  | submitting =>
    have hf : ∃ task', p.submit_chunk (s.closing = .open_) task = some task' := by
      unfold submit_chunk
      rw [hs]
      dsimp only
      split_ifs
      · exact ⟨_, rfl⟩
      · exact ⟨_, rfl⟩
      · exact ⟨_, rfl⟩
    obtain ⟨task', hf⟩ := hf
    obtain ⟨s', hs'⟩ := onTask_some htask hf
    exact ⟨.submit_chunk tid, s', trivial, hs'⟩
  | gathering ordered =>
    rw [hs] at hstage
    obtain ⟨-, hlen, hlen', hnone, -⟩ := hstage
    obtain ⟨idx, hidx⟩ := gathered_eq_none_iff.mp hnone
    have hlt : idx < task.calls.length := by
      have hlt' := (List.getElem?_eq_some_iff.mp hidx).1
      omega
    -- the future of the missing result is done
    obtain ⟨res, hres⟩ := finished_of_all hall hlt
    exact exists_gather_step htask hs hidx hres

/-- **No deadlock**: while some task is not done, some thread can go on. -/
theorem exists_step (hok : EachTask p.TaskOk s)
    (hnot : ¬ ∀ task ∈ s.tasks, task.stage.isDone = true) :
    ∃ a s', L2Action.OfThread a ∧ p.step s a = some s' := by
  obtain ⟨task, htask⟩ := not_forall.mp hnot
  obtain ⟨hmem, hdone⟩ := Classical.not_imp.mp htask
  by_cases hcalls : ∀ task ∈ s.tasks, ∀ c ∈ task.calls, c.isFinished = true
  · by_cases hrunning : ∃ task ∈ s.tasks, task.stage.isRunning = true
    · obtain ⟨task, hmem, hrunning⟩ := hrunning
      obtain ⟨tid, htask⟩ := List.mem_iff_getElem?.mp hmem
      exact exists_task_step hok htask hrunning (hcalls task hmem)
    · -- all threads are idle, and a task waits for one
      have hzero : s.busy = 0 := by
        unfold L2State.busy
        rw [List.countP_eq_zero]
        intro task hmem hr
        exact hrunning ⟨task, hmem, hr⟩
      have hqueued : task.stage = .queued := by
        cases hs : task.stage with
        | queued => rfl
        | done r => exact absurd (by rw [hs]; rfl) hdone
        | calling => exact absurd ⟨task, hmem, by rw [hs]; rfl⟩ hrunning
        | submitting => exact absurd ⟨task, hmem, by rw [hs]; rfl⟩ hrunning
        | gathering ordered => exact absurd ⟨task, hmem, by rw [hs]; rfl⟩ hrunning
      obtain ⟨tid, htask⟩ := List.mem_iff_getElem?.mp hmem
      have hf : p.start task = some { task with
          stage := if p.direct task.req then .calling else .submitting } := by
        unfold start
        rw [hqueued]
      obtain ⟨s', hs'⟩ := onTask_some htask hf
      refine ⟨.start tid, s', trivial, ?_⟩
      simp only [step]
      rw [hzero, if_pos p.workers_pos]
      exact hs'
  · obtain ⟨task, htask⟩ := not_forall.mp hcalls
    obtain ⟨hmem, hcall⟩ := Classical.not_imp.mp htask
    obtain ⟨c, hc⟩ := not_forall.mp hcall
    obtain ⟨hmemc, hnotc⟩ := Classical.not_imp.mp hc
    obtain ⟨tid, htask⟩ := List.mem_iff_getElem?.mp hmem
    exact exists_chunk_step hok htask hmemc (Bool.not_eq_true _ ▸ hnotc)

/-! ## No endless schedule -/

variable (p)

/-- The steps that a task can still make itself, and, for a chunk call that it has not
submitted yet, those of the call. -/
def stageWork (task : L2Task ρ) : ℕ :=
  match task.stage with
  | .queued => 5 * (p.chunks task.req).length + 2
  | .calling => 1
  | .submitting =>
    4 * ((p.chunks task.req).length - task.calls.length) + (p.chunks task.req).length + 1
  | .gathering ordered => missing ordered + 1
  | .done _ => 0

def taskWork (task : L2Task ρ) : ℕ :=
  p.stageWork task + (task.calls.map ChunkCall.work).sum

/-- The steps that are left. -/
def work (s : L2State ρ) : ℕ := (s.tasks.map p.taskWork).sum + s.closing.work

variable {p}

/-- A chunk call that is taken further has less to do. -/
theorem sum_work_set {calls : List ChunkCall} {idx : ℕ} {c c' : ChunkCall}
    (h : calls[idx]? = some c) (hlt : c'.work < c.work) :
    ((calls.set idx c').map ChunkCall.work).sum < (calls.map ChunkCall.work).sum := by
  have hsum := sum_map_set (b := c') ChunkCall.work h
  omega

theorem stageWork_set_call {task : L2Task ρ} {idx : ℕ} {c : ChunkCall} :
    p.stageWork { task with calls := task.calls.set idx c } = p.stageWork task := by
  unfold stageWork
  dsimp only
  rw [List.length_set]

/-- `close()` goes on to the next executor. -/
theorem close_work_lt {closing : CloseStage} (h : close s = some closing) :
    closing.work < s.closing.work := by
  unfold close at h
  split at h
  · rename_i hs
    cases h
    rw [hs]
    exact Nat.lt_succ_self _
  · rename_i hs
    split_ifs at h
    cases h
    rw [hs]
    exact Nat.lt_succ_self _
  · rename_i hs
    split_ifs at h
    cases h
    rw [hs]
    exact Nat.lt_succ_self _
  · cases h

/-- A result that the loop takes is one less to wait for. -/
theorem missing_set {ordered : List (Option (List Bool))} {idx : ℕ} {part : List Bool}
    (h : ordered[idx]? = some none) : missing (ordered.set idx (some part)) < missing ordered := by
  unfold missing
  induction ordered generalizing idx with
  | nil => cases h
  | cons o ordered ih =>
    cases idx with
    | zero =>
      cases h
      rw [List.set_cons_zero, List.countP_cons_of_neg (by simp), List.countP_cons_of_pos rfl]
      exact Nat.lt_succ_self _
    | succ idx =>
      rw [List.set_cons_succ, List.countP_cons, List.countP_cons]
      exact Nat.add_lt_add_right (ih h) _

/-- After a turn of the loop there is less to do. -/
theorem stageWork_afterGather {task : L2Task ρ} {idx : ℕ}
    {ordered : List (Option (List Bool))} {part : List Bool}
    (h : ordered[idx]? = some none) :
    p.stageWork { task with stage := afterGather (ordered.set idx (some part)) }
      < missing ordered + 1 := by
  have hlt : missing (ordered.set idx (some part)) < missing ordered := missing_set h
  unfold stageWork afterGather
  cases gathered (ordered.set idx (some part)) with
  | none =>
    dsimp only
    omega
  | some results =>
    dsimp only
    omega

/-- **The step lemma of the measure**: a task that goes on has less left to do. -/
theorem taskWork_lt {accepting : Bool} {tid : ℕ} {task task' : L2Task ρ}
    (hok : p.TaskOk tid task) (h : p.TaskStep accepting tid task a task') :
    p.taskWork task' < p.taskWork task := by
  have hstage := hok.stage_ok
  unfold StageOk at hstage
  unfold taskWork
  cases h with
  | start hq =>
    rw [hq] at hstage
    apply Nat.add_lt_add_right
    unfold stageWork
    rw [hq]
    by_cases hd : p.direct task.req = true
    · rw [if_pos hd]
      dsimp only
      omega
    · rw [if_neg hd]
      dsimp only
      omega
  | answer hc =>
    apply Nat.add_lt_add_right
    unfold stageWork
    rw [hc]
    exact Nat.one_pos
  | submitted hs hacc hlast =>
    rw [hs] at hstage
    have hlt := hstage.2
    unfold stageWork
    rw [hs, List.map_append, List.sum_append, List.length_append]
    simp only [List.map_cons, List.map_nil, List.sum_cons, List.sum_nil, List.length_singleton,
      ChunkCall.work]
    omega
  | submitted_all hs hacc hlast =>
    have hmissing : missing ((p.chunks task.req).map fun _ => none)
        = (p.chunks task.req).length := by
      unfold missing
      rw [List.countP_map]
      exact List.countP_eq_length.mpr fun _ _ => rfl
    unfold stageWork
    rw [hs, List.map_append, List.sum_append]
    simp only [List.map_cons, List.map_nil, List.sum_cons, List.sum_nil, ChunkCall.work,
      hmissing]
    omega
  | rejected hs hacc =>
    apply Nat.add_lt_add_right
    unfold stageWork
    rw [hs]
    exact Nat.succ_pos _
  | start_chunk hcall =>
    rw [stageWork_set_call]
    exact Nat.add_lt_add_left (sum_work_set hcall (by decide)) _
  | finish_chunk hcall hchunk =>
    rw [stageWork_set_call]
    exact Nat.add_lt_add_left (sum_work_set hcall (by exact Nat.one_pos)) _
  | gather_raised hg hcall =>
    apply Nat.add_lt_add_right
    unfold stageWork
    rw [hg]
    exact Nat.succ_pos _
  | gathered hg hcall hnone =>
    apply Nat.add_lt_add_right
    apply Nat.lt_of_lt_of_eq (stageWork_afterGather hnone)
    unfold stageWork
    rw [hg]

/-- **No endless schedule**: every step but the acceptance of a task lowers what is left. -/
theorem work_lt (hok : EachTask p.TaskOk s) (h : p.step s a = some s')
    (ha : ∀ req, a ≠ .submit req) : p.work s' < p.work s := by
  unfold work
  rcases step_cases h with ⟨req, rfl, -, -⟩ | ⟨closing, -, hclose, rfl⟩ |
    ⟨tid, task, task', htask, htaskStep, rfl⟩
  · exact absurd rfl (ha req)
  · apply Nat.add_lt_add_left
    exact close_work_lt hclose
  · apply Nat.add_lt_add_right
    have hsum := sum_map_set (b := task') p.taskWork htask
    have hlt := taskWork_lt (hok tid task htask) htaskStep
    dsimp only
    omega

end L2Executors
