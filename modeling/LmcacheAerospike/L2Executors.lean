/-
# The executors of the L2 plugin

A store or load task of the L2 plugin runs on `_executor`; one of more than a chunk of items
submits a call for each chunk to `_batch_executor` and collects the answers in the order in
which the calls complete (`_parallel_chunks`).  Here is the machine of the two executors:
any number of tasks, any schedule of the threads of both, chunk calls that return or raise,
and `close()`, which shuts first the one and then the other executor down.

One step changes one task (`step_task`), so an invariant of the single tasks is kept by every
schedule (`EachTask.of_step`).
-/
import Mathlib.Algebra.BigOperators.Group.List.Basic
import LmcacheAerospike.EngineRuns
import LmcacheAerospike.LabelledRun

/-! ## The machine -/

/-- A call of the chunk function that was submitted to `_batch_executor`. -/
inductive ChunkCall : Type where
  | queued
  | running
  | finished (res : Except PyExc (List Bool))

def ChunkCall.isRunning : ChunkCall → Bool
  | .running => true
  | _ => false

def ChunkCall.isFinished : ChunkCall → Bool
  | .finished _ => true
  | _ => false

/-- Where `_store_sync` or `_load_sync` stands. -/
inductive TaskStage : Type where
  /-- In the queue of `_executor`. -/
  | queued
  /-- In `fn(items)`: the items are one chunk. -/
  | calling
  /-- In the comprehension that submits the chunks. -/
  | submitting
  /-- In the loop over `as_completed(futures)`. -/
  | gathering (ordered : List (Option (List Bool)))
  /-- Its entry is in the table of done tasks, made of what `_parallel_chunks` came to. -/
  | done (results : Except PyExc (List Bool))

def TaskStage.isRunning : TaskStage → Bool
  | .calling | .submitting | .gathering _ => true
  | .queued | .done _ => false

def TaskStage.isDone : TaskStage → Bool
  | .done _ => true
  | _ => false

/-- A task: what was asked for, where it stands, and the chunk calls it has submitted. -/
structure L2Task (ρ : Type) : Type where
  req : ρ
  stage : TaskStage
  calls : List ChunkCall

/-- How far `close()` has come: the executor that it is shutting down. -/
inductive CloseStage : Type where
  | open_ | batch_executor | executor | closed
  deriving DecidableEq, Repr

/-- `_executor` takes tasks until `close()` comes to it. -/
def CloseStage.takesTasks : CloseStage → Bool
  | .open_ | .batch_executor => true
  | .executor | .closed => false

/-- The tasks by their ids, and `close()`. -/
structure L2State (ρ : Type) : Type where
  tasks : List (L2Task ρ)
  closing : CloseStage

/-- The steps of the callers and of the threads of the two executors. -/
inductive L2Action (ρ : Type) : Type where
  /-- `submit_store_task` or `submit_load_task`. -/
  | submit (req : ρ)
  | start (tid : ℕ)
  /-- `fn(items)` returns or raises. -/
  | answer (tid : ℕ)
  | submit_chunk (tid : ℕ)
  | start_chunk (tid idx : ℕ)
  | finish_chunk (tid idx : ℕ)
  /-- The loop takes the future of chunk `idx`. -/
  | gather (tid idx : ℕ)
  /-- The next step of `close()`. -/
  | close

/-- What the executors work with.  `call tid idx chunk` is what call `idx` of the chunk
function of task `tid` comes to, a list of answers or an exception. -/
structure L2Executors (ρ α : Type) : Type where
  items : ρ → List α
  chunk_size : ℕ
  /-- `max_workers` of `_executor`, which `ThreadPoolExecutor` checks to be positive. -/
  workers : ℕ
  /-- `max_workers` of `_batch_executor`. -/
  batch_workers : ℕ
  call : ℕ → ℕ → List α → Except PyExc (List Bool)
  chunk_size_pos : 0 < chunk_size
  workers_pos : 0 < workers
  batch_workers_pos : 0 < batch_workers

/-- `min(4, max(1, executor_threads // 4))`. -/
def batch_max_workers (executor_threads : ℕ) : ℕ := min 4 (max 1 (executor_threads / 4))

/-- The batch executor has a worker. -/
theorem batch_max_workers_pos (executor_threads : ℕ) :
    0 < batch_max_workers executor_threads := by
  unfold batch_max_workers
  omega

namespace L2State

variable {ρ : Type}

/-- No task has been submitted. -/
def empty : L2State ρ := ⟨[], .open_⟩

/-- The threads of `_executor` that are busy. -/
def busy (s : L2State ρ) : ℕ := s.tasks.countP fun task => task.stage.isRunning

/-- The threads of `_batch_executor` that are busy. -/
def batch_busy (s : L2State ρ) : ℕ :=
  (s.tasks.map fun task => task.calls.countP ChunkCall.isRunning).sum

/-- Change one task. -/
def onTask (s : L2State ρ) (tid : ℕ) (f : L2Task ρ → Option (L2Task ρ)) :
    Option (L2State ρ) :=
  match s.tasks[tid]? with
  | some task => (f task).map fun task' => { s with tasks := s.tasks.set tid task' }
  | none => none

end L2State

/-- The results of all chunks in order, once the loop has them all. -/
def gathered (ordered : List (Option (List Bool))) : Option (List Bool) :=
  if ordered.all Option.isSome then some (ordered.flatMap fun part => part.getD []) else none

/-- The loop goes on until it has all results. -/
def afterGather (ordered : List (Option (List Bool))) : TaskStage :=
  match gathered ordered with
  | some results => .done (.ok results)
  | none => .gathering ordered

namespace L2Executors

variable {ρ α : Type} (p : L2Executors ρ α)

/-- The chunks of a task. -/
def chunks (req : ρ) : List (List α) := Engine.chunked (p.items req) p.chunk_size

/-- The items are passed to the chunk function as they are. -/
def direct (req : ρ) : Bool :=
  decide ((p.items req).length ≤ p.chunk_size) || decide ((p.chunks req).length = 1)

/-- A thread of `_executor` takes the task. -/
def start (task : L2Task ρ) : Option (L2Task ρ) :=
  match task.stage with
  | .queued => some { task with
      stage := if p.direct task.req then .calling else .submitting }
  | _ => none

/-- A task without chunks makes its one call. -/
def answer (tid : ℕ) (task : L2Task ρ) : Option (L2Task ρ) :=
  match task.stage with
  | .calling => some { task with stage := .done (p.call tid 0 (p.items task.req)) }
  | _ => none

/-- One `submit` of the comprehension; it raises when `_batch_executor` is shut down. -/
def submit_chunk (accepting : Bool) (task : L2Task ρ) : Option (L2Task ρ) :=
  match task.stage with
  | .submitting =>
    if accepting then
      some { task with
        calls := task.calls ++ [.queued]
        stage := if task.calls.length + 1 = (p.chunks task.req).length
          then .gathering ((p.chunks task.req).map fun _ => none) else .submitting }
    else some { task with stage := .done (.error (.builtin .RuntimeError)) }
  | _ => none

def start_chunk (idx : ℕ) (task : L2Task ρ) : Option (L2Task ρ) :=
  match task.calls[idx]? with
  | some .queued => some { task with calls := task.calls.set idx .running }
  | _ => none

def finish_chunk (tid idx : ℕ) (task : L2Task ρ) : Option (L2Task ρ) :=
  match task.calls[idx]?, (p.chunks task.req)[idx]? with
  | some .running, some chunk =>
    some { task with calls := task.calls.set idx (.finished (p.call tid idx chunk)) }
  | _, _ => none

/-- One turn of the loop: `ordered[idx] = fut.result()`, which raises what the call raised. -/
def gather (idx : ℕ) (task : L2Task ρ) : Option (L2Task ρ) :=
  match task.stage, task.calls[idx]? with
  | .gathering ordered, some (.finished res) =>
    if ordered[idx]? = some none then
      match res with
      | .error e => some { task with stage := .done (.error e) }
      | .ok part => some { task with stage := afterGather (ordered.set idx (some part)) }
    else none
  | _, _ => none

/-- `shutdown` waits for all the calls of its executor, and then the next one begins. -/
def close (s : L2State ρ) : Option CloseStage :=
  match s.closing with
  | .open_ => some .batch_executor
  | .batch_executor =>
    if s.tasks.all fun task => task.calls.all ChunkCall.isFinished then some .executor else none
  | .executor => if s.tasks.all fun task => task.stage.isDone then some .closed else none
  | .closed => none

/-- One step of the machine. -/
def step (s : L2State ρ) : L2Action ρ → Option (L2State ρ)
  | .submit req =>
    if s.closing.takesTasks then some { s with tasks := s.tasks ++ [⟨req, .queued, []⟩] }
    else none
  | .start tid => if s.busy < p.workers then s.onTask tid p.start else none
  | .answer tid => s.onTask tid (p.answer tid)
  | .submit_chunk tid => s.onTask tid (p.submit_chunk (s.closing = .open_))
  | .start_chunk tid idx =>
    if s.batch_busy < p.batch_workers then s.onTask tid (start_chunk idx) else none
  | .finish_chunk tid idx => s.onTask tid (p.finish_chunk tid idx)
  | .gather tid idx => s.onTask tid (gather idx)
  | .close => (close s).map fun closing => { s with closing := closing }

/-- What `_parallel_chunks` comes to when every call of the task is made: the answers of all
chunks in order, or nothing when one of them raises. -/
def outcome (tid : ℕ) (req : ρ) : Option (List Bool) :=
  if p.direct req then (p.call tid 0 (p.items req)).toOption
  else gathered ((p.chunks req).mapIdx fun idx chunk => (p.call tid idx chunk).toOption)

/-! ## What a step can do -/

/-- What an action can do to the task `tid`; `accepting` says whether `_batch_executor` still
takes calls. -/
inductive TaskStep (accepting : Bool) (tid : ℕ) (task : L2Task ρ) :
    L2Action ρ → L2Task ρ → Prop
  | start : task.stage = .queued → TaskStep accepting tid task (.start tid)
      { task with stage := if p.direct task.req then .calling else .submitting }
  | answer : task.stage = .calling → TaskStep accepting tid task (.answer tid)
      { task with stage := .done (p.call tid 0 (p.items task.req)) }
  | submitted : task.stage = .submitting → accepting = true →
      task.calls.length + 1 ≠ (p.chunks task.req).length →
      TaskStep accepting tid task (.submit_chunk tid)
        { task with stage := .submitting, calls := task.calls ++ [.queued] }
  | submitted_all : task.stage = .submitting → accepting = true →
      task.calls.length + 1 = (p.chunks task.req).length →
      TaskStep accepting tid task (.submit_chunk tid)
        { task with
          stage := .gathering ((p.chunks task.req).map fun _ => none)
          calls := task.calls ++ [.queued] }
  | rejected : task.stage = .submitting → accepting = false →
      TaskStep accepting tid task (.submit_chunk tid)
        { task with stage := .done (.error (.builtin .RuntimeError)) }
  | start_chunk {idx : ℕ} : task.calls[idx]? = some .queued →
      TaskStep accepting tid task (.start_chunk tid idx)
        { task with calls := task.calls.set idx .running }
  | finish_chunk {idx : ℕ} {chunk : List α} : task.calls[idx]? = some .running →
      (p.chunks task.req)[idx]? = some chunk →
      TaskStep accepting tid task (.finish_chunk tid idx)
        { task with calls := task.calls.set idx (.finished (p.call tid idx chunk)) }
  | gather_raised {idx : ℕ} {ordered : List (Option (List Bool))} {e : PyExc} :
      task.stage = .gathering ordered → task.calls[idx]? = some (.finished (.error e)) →
      TaskStep accepting tid task (.gather tid idx) { task with stage := .done (.error e) }
  | gathered {idx : ℕ} {ordered : List (Option (List Bool))} {part : List Bool} :
      task.stage = .gathering ordered → task.calls[idx]? = some (.finished (.ok part)) →
      ordered[idx]? = some none →
      TaskStep accepting tid task (.gather tid idx)
        { task with stage := afterGather (ordered.set idx (some part)) }

variable {p} {s s' : L2State ρ} {a : L2Action ρ}

/-- A step of one task changes that task only. -/
theorem onTask_cases {tid : ℕ} {f : L2Task ρ → Option (L2Task ρ)}
    (h : s.onTask tid f = some s') :
    ∃ task task', s.tasks[tid]? = some task ∧ f task = some task' ∧
      s' = { s with tasks := s.tasks.set tid task' } := by
  unfold L2State.onTask at h
  cases htask : s.tasks[tid]? with
  | none =>
    rw [htask] at h
    cases h
  | some task =>
    rw [htask] at h
    obtain ⟨task', hf, rfl⟩ := Option.map_eq_some_iff.mp h
    exact ⟨task, task', rfl, hf, rfl⟩

theorem start_cases {task task' : L2Task ρ} (accepting : Bool) (tid : ℕ)
    (h : p.start task = some task') : p.TaskStep accepting tid task (.start tid) task' := by
  unfold start at h
  split at h
  · rename_i hstage
    cases h
    exact .start hstage
  · cases h

theorem answer_cases {task task' : L2Task ρ} (accepting : Bool) {tid : ℕ}
    (h : p.answer tid task = some task') :
    p.TaskStep accepting tid task (.answer tid) task' := by
  unfold answer at h
  split at h
  · rename_i hstage
    cases h
    exact .answer hstage
  · cases h

theorem submit_chunk_cases {task task' : L2Task ρ} {accepting : Bool} (tid : ℕ)
    (h : p.submit_chunk accepting task = some task') :
    p.TaskStep accepting tid task (.submit_chunk tid) task' := by
  unfold submit_chunk at h
  split at h
  · rename_i hstage
    by_cases hacc : accepting = true
    · rw [if_pos hacc] at h
      cases h
      by_cases hlast : task.calls.length + 1 = (p.chunks task.req).length
      · rw [if_pos hlast]
        exact .submitted_all hstage hacc hlast
      · rw [if_neg hlast]
        exact .submitted hstage hacc hlast
    · rw [if_neg hacc] at h
      cases h
      exact .rejected hstage (Bool.not_eq_true _ ▸ hacc)
  · cases h

theorem start_chunk_cases {task task' : L2Task ρ} (accepting : Bool) (tid : ℕ) {idx : ℕ}
    (h : start_chunk idx task = some task') :
    p.TaskStep accepting tid task (.start_chunk tid idx) task' := by
  unfold start_chunk at h
  split at h
  · rename_i hcall
    cases h
    exact .start_chunk hcall
  · cases h

theorem finish_chunk_cases {task task' : L2Task ρ} (accepting : Bool) {tid idx : ℕ}
    (h : p.finish_chunk tid idx task = some task') :
    p.TaskStep accepting tid task (.finish_chunk tid idx) task' := by
  unfold finish_chunk at h
  split at h
  · rename_i hcall hchunk
    cases h
    exact .finish_chunk hcall hchunk
  · cases h

theorem gather_cases {task task' : L2Task ρ} (accepting : Bool) (tid : ℕ) {idx : ℕ}
    (h : gather idx task = some task') :
    p.TaskStep accepting tid task (.gather tid idx) task' := by
  unfold gather at h
  split at h
  · rename_i ordered res hstage hcall
    split_ifs at h with hnone
    cases res with
    | error e =>
      cases h
      exact .gather_raised hstage hcall
    | ok part =>
      cases h
      exact .gathered hstage hcall hnone
  · cases h

/-- **What a step can do**: accept a task, change one task, or take `close()` further. -/
theorem step_cases (h : p.step s a = some s') :
    (∃ req, a = .submit req ∧ s.closing.takesTasks = true ∧
      s' = { s with tasks := s.tasks ++ [⟨req, .queued, []⟩] }) ∨
    (∃ closing, a = .close ∧ close s = some closing ∧ s' = { s with closing := closing }) ∨
    ∃ tid task task', s.tasks[tid]? = some task ∧
      p.TaskStep (s.closing = .open_) tid task a task' ∧
      s' = { s with tasks := s.tasks.set tid task' } := by
  cases a with
  | submit req =>
    simp only [step] at h
    split_ifs at h with htakes
    cases h
    exact Or.inl ⟨req, rfl, htakes, rfl⟩
  | start tid =>
    simp only [step] at h
    split_ifs at h
    obtain ⟨task, task', htask, hf, rfl⟩ := onTask_cases h
    exact Or.inr (Or.inr ⟨tid, task, task', htask, start_cases _ _ hf, rfl⟩)
  | answer tid =>
    obtain ⟨task, task', htask, hf, rfl⟩ := onTask_cases h
    exact Or.inr (Or.inr ⟨tid, task, task', htask, answer_cases _ hf, rfl⟩)
  | submit_chunk tid =>
    obtain ⟨task, task', htask, hf, rfl⟩ := onTask_cases h
    exact Or.inr (Or.inr ⟨tid, task, task', htask, submit_chunk_cases _ hf, rfl⟩)
  | start_chunk tid idx =>
    simp only [step] at h
    split_ifs at h
    obtain ⟨task, task', htask, hf, rfl⟩ := onTask_cases h
    exact Or.inr (Or.inr ⟨tid, task, task', htask, start_chunk_cases _ _ hf, rfl⟩)
  | finish_chunk tid idx =>
    obtain ⟨task, task', htask, hf, rfl⟩ := onTask_cases h
    exact Or.inr (Or.inr ⟨tid, task, task', htask, finish_chunk_cases _ hf, rfl⟩)
  | gather tid idx =>
    obtain ⟨task, task', htask, hf, rfl⟩ := onTask_cases h
    exact Or.inr (Or.inr ⟨tid, task, task', htask, gather_cases _ _ hf, rfl⟩)
  | close =>
    obtain ⟨closing, hclose, rfl⟩ := Option.map_eq_some_iff.mp h
    exact Or.inr (Or.inl ⟨closing, rfl, hclose, rfl⟩)

/-- Every task of the state meets `I`, which may depend on its id. -/
def EachTask (I : ℕ → L2Task ρ → Prop) (s : L2State ρ) : Prop :=
  ∀ tid task, s.tasks[tid]? = some task → I tid task

theorem eachTask_empty (I : ℕ → L2Task ρ → Prop) : EachTask I (L2State.empty : L2State ρ) := by
  intro tid task h
  cases h

/-- A new task that meets the invariant. -/
theorem EachTask.append {I : ℕ → L2Task ρ → Prop} (h : EachTask I s) {task : L2Task ρ}
    (hnew : I s.tasks.length task) (closing : CloseStage) :
    EachTask I ⟨s.tasks ++ [task], closing⟩ := by
  intro tid task' htask'
  rcases getElem?_concat_iff.mp htask' with ⟨rfl, rfl⟩ | ⟨-, hold⟩
  · exact hnew
  · exact h tid task' hold

/-- A changed task that meets the invariant. -/
theorem EachTask.set {I : ℕ → L2Task ρ → Prop} (h : EachTask I s) {tid : ℕ}
    {task : L2Task ρ} (hnew : I tid task) (closing : CloseStage) :
    EachTask I ⟨s.tasks.set tid task, closing⟩ := by
  intro tid' task' htask'
  by_cases heq : tid = tid'
  · subst heq
    obtain ⟨hlt, -⟩ := List.getElem?_eq_some_iff.mp htask'
    rw [List.length_set] at hlt
    rw [List.getElem?_set_self hlt] at htask'
    cases htask'
    exact hnew
  · rw [List.getElem?_set_ne heq] at htask'
    exact h tid' task' htask'

/-- **The step lemma of the single tasks**: what a new task meets and a change of one task
keeps holds of all tasks after any step. -/
theorem EachTask.of_step {I : ℕ → L2Task ρ → Prop} (h : EachTask I s)
    (hstep : p.step s a = some s') (hnew : ∀ tid req, I tid ⟨req, .queued, []⟩)
    (hkeep : ∀ tid task task', s.tasks[tid]? = some task → I tid task →
      p.TaskStep (s.closing = .open_) tid task a task' → I tid task') : EachTask I s' := by
  rcases step_cases hstep with ⟨req, -, -, rfl⟩ | ⟨closing, -, -, rfl⟩ |
    ⟨tid, task, task', htask, htaskStep, rfl⟩
  · exact h.append (hnew _ _) _
  · exact h
  · exact h.set (hkeep tid task task' htask (h tid task htask) htaskStep) _

/-! ## The results that the loop has -/

/-- The results are put together unless one is missing. -/
theorem gathered_eq_none_iff {ordered : List (Option (List Bool))} :
    gathered ordered = none ↔ ∃ idx : ℕ, ordered[idx]? = some none := by
  unfold gathered
  rw [ite_eq_right_iff]
  constructor
  · intro h
    have hall : ¬ ordered.all Option.isSome = true := fun hall => by cases h hall
    rw [List.all_eq_true] at hall
    obtain ⟨part, hpart⟩ := not_forall.mp hall
    obtain ⟨hmem, hnone⟩ := Classical.not_imp.mp hpart
    obtain ⟨idx, hidx⟩ := List.mem_iff_getElem?.mp hmem
    cases part with
    | none => exact ⟨idx, hidx⟩
    | some part => exact absurd rfl hnone
  · rintro ⟨idx, hidx⟩ hall
    have hsome := List.all_eq_true.mp hall none (List.mem_of_getElem? hidx)
    cases hsome

/-- All results are there: each place has one. -/
theorem gathered_some {ordered : List (Option (List Bool))} {results : List Bool}
    (h : gathered ordered = some results) :
    ∀ idx, idx < ordered.length → ∃ part, ordered[idx]? = some (some part) := by
  intro idx hidx
  cases hpart : ordered[idx] with
  | none =>
    have hnone := gathered_eq_none_iff.mpr ⟨idx, by rw [List.getElem?_eq_getElem hidx, hpart]⟩
    rw [h] at hnone
    cases hnone
  | some part => exact ⟨part, by rw [List.getElem?_eq_getElem hidx, hpart]⟩

section Chunks

variable (p)

/-- Items that are not passed on as they are make more than one chunk. -/
theorem chunks_pos {req : ρ} (h : p.direct req = false) : 0 < (p.chunks req).length := by
  unfold direct at h
  rw [Bool.or_eq_false_iff, decide_eq_false_iff_not] at h
  have hitems : 0 < (p.items req).length := by omega
  unfold chunks Engine.chunked
  rw [List.length_map, List.length_range]
  exact Nat.pos_of_ne_zero fun hzero => by
    have hle := (ceilDiv_le_iff_le_mul p.chunk_size_pos).mp (Nat.le_of_eq hzero)
    omega

/-- **The invariant of a task**: its chunk calls come to what they come to, and the loop has
collected results of calls that have finished. -/
def StageOk (tid : ℕ) (task : L2Task ρ) : Prop :=
  match task.stage with
  | .queued => task.calls = []
  | .calling => p.direct task.req = true ∧ task.calls = []
  | .submitting => p.direct task.req = false ∧ task.calls.length < (p.chunks task.req).length
  | .gathering ordered => p.direct task.req = false ∧
      task.calls.length = (p.chunks task.req).length ∧
      ordered.length = (p.chunks task.req).length ∧ gathered ordered = none ∧
      ∀ (idx : ℕ) (part : List Bool), ordered[idx]? = some (some part) →
        task.calls[idx]? = some (.finished (.ok part))
  | .done r => ∀ results, r = .ok results →
      p.outcome tid task.req = some results ∧ ∀ c ∈ task.calls, c.isFinished = true

structure TaskOk (tid : ℕ) (task : L2Task ρ) : Prop where
  length_le : task.calls.length ≤ (p.chunks task.req).length
  finished_ok : ∀ (idx : ℕ) (res : Except PyExc (List Bool)),
    task.calls[idx]? = some (.finished res) →
      ∃ chunk, (p.chunks task.req)[idx]? = some chunk ∧ res = p.call tid idx chunk
  stage_ok : p.StageOk tid task

end Chunks

/-- The collected results of all calls are the outcome of the task. -/
theorem outcome_of_gathered {tid : ℕ} {task : L2Task ρ}
    (hdirect : p.direct task.req = false)
    (hfinished : ∀ (idx : ℕ) (res : Except PyExc (List Bool)),
      task.calls[idx]? = some (.finished res) →
        ∃ chunk, (p.chunks task.req)[idx]? = some chunk ∧ res = p.call tid idx chunk)
    {ordered : List (Option (List Bool))} (hlen : ordered.length = (p.chunks task.req).length)
    (hordered : ∀ (idx : ℕ) (part : List Bool), ordered[idx]? = some (some part) →
      task.calls[idx]? = some (.finished (.ok part)))
    {results : List Bool} (h : gathered ordered = some results) :
    p.outcome tid task.req = some results := by
  have heq : ordered
      = (p.chunks task.req).mapIdx fun idx chunk => (p.call tid idx chunk).toOption := by
    apply List.ext_getElem?
    intro idx
    rw [List.getElem?_mapIdx]
    by_cases hidx : idx < ordered.length
    · obtain ⟨part, hpart⟩ := gathered_some h idx hidx
      obtain ⟨chunk, hchunk, hres⟩ := hfinished idx _ (hordered idx part hpart)
      rw [hpart, hchunk, Option.map_some, ← hres]
      rfl
    · rw [List.getElem?_eq_none (by omega), List.getElem?_eq_none (by omega), Option.map_none]
  unfold outcome
  rw [hdirect, if_neg Bool.false_ne_true, ← heq]
  exact h

/-- A call that raised leaves the task without an outcome. -/
theorem outcome_of_raised {tid idx : ℕ} {task : L2Task ρ} (h : p.TaskOk tid task) {e : PyExc}
    (hdirect : p.direct task.req = false)
    (hcall : task.calls[idx]? = some (.finished (.error e))) :
    p.outcome tid task.req = none := by
  obtain ⟨chunk, hchunk, hres⟩ := h.finished_ok idx _ hcall
  unfold outcome
  rw [hdirect, if_neg Bool.false_ne_true]
  refine gathered_eq_none_iff.mpr ⟨idx, ?_⟩
  rw [List.getElem?_mapIdx, hchunk, Option.map_some, ← hres]
  rfl

/-- A call that was just submitted has not finished. -/
theorem finished_of_append {calls : List ChunkCall} {idx : ℕ} {res : Except PyExc (List Bool)}
    (h : (calls ++ [ChunkCall.queued])[idx]? = some (.finished res)) :
    calls[idx]? = some (.finished res) := by
  rcases getElem?_concat_iff.mp h with ⟨-, hqueued⟩ | ⟨-, hold⟩
  · cases hqueued
  · exact hold

/-- Where all calls have finished there is none to start or to finish. -/
theorem finished_set {calls : List ChunkCall} {idx : ℕ} {c c' : ChunkCall}
    (hc : calls[idx]? = some c) (hnot : c.isFinished = false)
    (hall : ∀ c ∈ calls, c.isFinished = true) :
    ∀ c'' ∈ calls.set idx c', c''.isFinished = true := by
  have hmem := hall c (List.mem_of_getElem? hc)
  rw [hnot] at hmem
  cases hmem

/-- A chunk call that starts or finishes leaves the stage as it was. -/
theorem StageOk.set_call {tid idx : ℕ} {task : L2Task ρ} (h : p.StageOk tid task)
    {c c' : ChunkCall} (hc : task.calls[idx]? = some c) (hnot : c.isFinished = false) :
    p.StageOk tid { task with calls := task.calls.set idx c' } := by
  obtain ⟨req, stage, calls⟩ := task
  have hne : calls ≠ [] := by
    rintro rfl
    cases hc
  cases stage with
  | queued => exact absurd h hne
  | calling => exact absurd h.2 hne
  | submitting =>
    show _ ∧ (calls.set idx c').length < _
    rw [List.length_set]
    exact h
  | gathering ordered =>
    obtain ⟨hdirect, hlen, hlen', hnone, hordered⟩ := h
    refine ⟨hdirect, by rw [List.length_set]; exact hlen, hlen', hnone, fun i part hpart => ?_⟩
    have hcall := hordered i part hpart
    by_cases hi : idx = i
    · subst hi
      rw [hc] at hcall
      cases hcall
      cases hnot
    · rwa [List.getElem?_set_ne hi]
  | done r =>
    intro results hr
    obtain ⟨houtcome, hall⟩ := h results hr
    exact ⟨houtcome, finished_set hc hnot hall⟩

/-- One more result is collected: the loop goes on, or the task is done with its outcome. -/
theorem stageOk_afterGather {tid idx : ℕ} {task : L2Task ρ} {ordered : List (Option (List Bool))}
    {part : List Bool}
    (hfinished : ∀ (idx : ℕ) (res : Except PyExc (List Bool)),
      task.calls[idx]? = some (.finished res) →
        ∃ chunk, (p.chunks task.req)[idx]? = some chunk ∧ res = p.call tid idx chunk)
    (h : p.StageOk tid { task with stage := .gathering ordered })
    (hcall : task.calls[idx]? = some (.finished (.ok part))) (hnone : ordered[idx]? = some none) :
    p.StageOk tid { task with stage := afterGather (ordered.set idx (some part)) } := by
  obtain ⟨hdirect, hlen, hlen', -, hordered⟩ := h
  have hordered' : ∀ (i : ℕ) (part' : List Bool),
      (ordered.set idx (some part))[i]? = some (some part') →
        task.calls[i]? = some (.finished (.ok part')) := by
    intro i part' hpart'
    rcases (getElem?_set_iff hnone).mp hpart' with ⟨rfl, hsome⟩ | ⟨-, hold⟩
    · cases hsome
      exact hcall
    · exact hordered i part' hold
  have hlength : (ordered.set idx (some part)).length = (p.chunks task.req).length := by
    rw [List.length_set]
    exact hlen'
  unfold StageOk afterGather
  cases hall : gathered (ordered.set idx (some part)) with
  | none => exact ⟨hdirect, hlen, hlength, hall, hordered'⟩
  | some results =>
    intro results' hr
    cases hr
    refine ⟨outcome_of_gathered hdirect hfinished hlength hordered' hall, fun c hc => ?_⟩
    obtain ⟨i, hi⟩ := List.mem_iff_getElem?.mp hc
    have hlt : i < (ordered.set idx (some part)).length := by
      have hlt' : i < task.calls.length := (List.getElem?_eq_some_iff.mp hi).1
      have hlen₁ : task.calls.length = (p.chunks task.req).length := hlen
      omega
    obtain ⟨part', hpart'⟩ := gathered_some hall i hlt
    rw [hordered' i part' hpart'] at hi
    cases hi
    rfl

/-- **The step lemma of the invariant.** -/
theorem TaskOk.of_taskStep {accepting : Bool} {tid : ℕ} {task task' : L2Task ρ}
    (h : p.TaskOk tid task) (hstep : p.TaskStep accepting tid task a task') :
    p.TaskOk tid task' := by
  obtain ⟨hle, hfinished, hstage⟩ := h
  have hstageOk := hstage
  unfold StageOk at hstage
  cases hstep with
  | start hq =>
    rw [hq] at hstage
    refine ⟨hle, hfinished, ?_⟩
    by_cases hd : p.direct task.req = true
    · rw [if_pos hd]
      exact ⟨hd, hstage⟩
    · rw [if_neg hd]
      rw [Bool.not_eq_true] at hd
      refine ⟨hd, ?_⟩
      show task.calls.length < _
      rw [show task.calls = [] from hstage]
      exact p.chunks_pos hd
  | answer hc =>
    rw [hc] at hstage
    refine ⟨hle, hfinished, ?_⟩
    intro results hr
    constructor
    · show p.outcome tid task.req = some results
      unfold outcome
      rw [hstage.1, if_pos rfl, hr]
      rfl
    · show ∀ c ∈ task.calls, _
      rw [hstage.2]
      intro c hmem
      cases hmem
  | submitted hs hacc hlast =>
    rw [hs] at hstage
    have hlen : (task.calls ++ [ChunkCall.queued]).length = task.calls.length + 1 :=
      List.length_append
    refine ⟨?_, ?_, ?_⟩
    · show (task.calls ++ [_]).length ≤ _
      rw [hlen]
      exact hstage.2
    · intro idx res hres
      exact hfinished idx res (finished_of_append hres)
    · refine ⟨hstage.1, ?_⟩
      show (task.calls ++ [_]).length < _
      rw [hlen]
      exact Nat.lt_of_le_of_ne hstage.2 hlast
  | submitted_all hs hacc hlast =>
    rw [hs] at hstage
    have hlen : (task.calls ++ [ChunkCall.queued]).length = task.calls.length + 1 :=
      List.length_append
    refine ⟨?_, ?_, ?_⟩
    · show (task.calls ++ [_]).length ≤ _
      rw [hlen]
      exact hstage.2
    · intro idx res hres
      exact hfinished idx res (finished_of_append hres)
    · refine ⟨hstage.1, hlen.trans hlast, List.length_map .., ?_, ?_⟩
      · refine gathered_eq_none_iff.mpr ⟨0, ?_⟩
        rw [List.getElem?_map, List.getElem?_eq_getElem (p.chunks_pos hstage.1)]
        rfl
      · intro idx part hpart
        rw [List.getElem?_map] at hpart
        obtain ⟨chunk, -, hnone⟩ := Option.map_eq_some_iff.mp hpart
        cases hnone
  | rejected hs hacc =>
    refine ⟨hle, hfinished, ?_⟩
    intro results hr
    cases hr
  | @start_chunk idx hcall =>
    refine ⟨by rw [List.length_set]; exact hle, ?_, hstageOk.set_call hcall rfl⟩
    intro i res hres
    rcases (getElem?_set_iff hcall).mp hres with ⟨-, hrunning⟩ | ⟨-, hold⟩
    · cases hrunning
    · exact hfinished i res hold
  | @finish_chunk idx chunk hcall hchunk =>
    refine ⟨by rw [List.length_set]; exact hle, ?_, hstageOk.set_call hcall rfl⟩
    intro i res hres
    rcases (getElem?_set_iff hcall).mp hres with ⟨rfl, hres'⟩ | ⟨-, hold⟩
    · cases hres'
      exact ⟨chunk, hchunk, rfl⟩
    · exact hfinished i res hold
  | gather_raised hg hcall =>
    refine ⟨hle, hfinished, ?_⟩
    intro results hr
    cases hr
  | @gathered idx ordered part hg hcall hnone =>
    rw [hg] at hstage
    exact ⟨hle, hfinished, stageOk_afterGather hfinished hstage hcall hnone⟩

/-- A new task meets the invariant. -/
theorem taskOk_new (tid : ℕ) (req : ρ) : p.TaskOk tid ⟨req, .queued, []⟩ where
  length_le := Nat.zero_le _
  finished_ok := fun idx res h => by cases h
  stage_ok := rfl

/-- **Every task of a reachable state meets the invariant.** -/
theorem taskOk_of_run {as : List (L2Action ρ)} (h : Run (takes p.step) L2State.empty as s) :
    EachTask p.TaskOk s :=
  h.invariant (eachTask_empty _) fun _ _ _ hs hstep =>
    hs.of_step hstep taskOk_new fun _ _ _ _ hok htaskStep => hok.of_taskStep htaskStep

end L2Executors
