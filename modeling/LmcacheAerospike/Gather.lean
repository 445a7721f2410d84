/-
# Calls that are gathered

`asyncio.gather` over calls that a pool of threads runs.  Each call goes through its stages
(`CallStage`) while the caller awaits the result of the gather: the outcomes of all calls, or,
if exceptions are not returned, the first exception that the event loop sees.  In the latter
case the caller goes on while the other calls are at any stage.

A state of the gather that is reached agrees with its result (`gather_consistent`), and if the
calls are taken in any order the caller gets its result after finitely many steps
(`exists_run_returned`).
-/
import Mathlib.Data.List.Basic
import Mathlib.Tactic.Cases
import LmcacheAerospike.LabelledRun

/-! ## The gather -/

/-- A call waits for the semaphore, is in the queue of the pool, is run by a thread, has its
outcome, or the event loop has seen its outcome. -/
inductive CallStage : Type where
  | waiting | queued | running | finished | delivered
  deriving DecidableEq, Repr

namespace CallStage

def rank : CallStage → ℕ
  | .waiting => 0
  | .queued => 1
  | .running => 2
  | .finished => 3
  | .delivered => 4

def next : CallStage → CallStage
  | .waiting => .queued
  | .queued => .running
  | .running => .finished
  | .finished | .delivered => .delivered

theorem rank_le (stage : CallStage) : stage.rank ≤ CallStage.delivered.rank := by
  cases stage <;> decide

theorem rank_injective {stage stage' : CallStage} (h : stage.rank = stage'.rank) :
    stage = stage' := by
  cases stage <;> cases stage' <;> first | rfl | cases h

/-- A call that has been taken, and is not running, is over. -/
theorem running_lt {stage : CallStage} (h : CallStage.queued.rank < stage.rank)
    (hne : stage ≠ .running) : CallStage.running.rank < stage.rank := by
  have hsucc : CallStage.running.rank = CallStage.queued.rank + 1 := rfl
  have hrank : stage.rank ≠ CallStage.running.rank := fun heq => hne (rank_injective heq)
  omega

theorem running_lt_iff {stage : CallStage} :
    CallStage.running.rank < stage.rank ↔ stage = .finished ∨ stage = .delivered := by
  cases stage <;> decide

theorem rank_next {stage : CallStage} (h : stage ≠ .delivered) :
    stage.next.rank = stage.rank + 1 := by
  cases stage with
  | delivered => exact absurd rfl h
  | _ => rfl

theorem next_ne_delivered {stage : CallStage} (h : stage ≠ .delivered) (h' : stage ≠ .finished) :
    stage.next ≠ .delivered := by
  cases stage with
  | delivered => exact absurd rfl h
  | finished => exact absurd rfl h'
  | waiting => decide
  | queued => decide
  | running => decide

end CallStage

/-- A call, with the outcome that it has once it is finished. -/
structure GatherCall (R : Type) : Type where
  outcome : R
  stage : CallStage
  deriving DecidableEq

/-- The calls of a gather, the result of its future, and whether the caller has gone on. -/
structure Gather (E α : Type) : Type where
  calls : List (GatherCall (Except E α))
  outer : Option (Except E (List (Except E α)))
  returned : Bool

/-- What the gather is started with.  The semaphore, if there is one, is what a call holds
from before its submission until its outcome is seen; the calls are taken one after the other
if both the semaphore and the queue of the pool are in order. -/
structure GatherSetup : Type where
  return_exceptions : Bool
  in_order : Bool
  max_workers : ℕ
  max_workers_pos : 0 < max_workers
  semaphore : Option ℕ
  semaphore_pos : ∀ n ∈ semaphore, 0 < n

/-- A call goes on to its next stage, or the caller does. -/
inductive GatherAction : Type where
  | advance (i : ℕ)
  | resume
  deriving DecidableEq, Repr

namespace GatherSetup

variable {E α R : Type} (m : GatherSetup)

/-- The gather, as it is awaited. -/
def start (outcomes : List (Except E α)) : Gather E α where
  calls := outcomes.map fun outcome =>
    ⟨outcome, if m.semaphore.isSome then .waiting else .queued⟩
  outer := if outcomes = [] then some (.ok []) else none
  returned := false

/-- The calls that hold the semaphore. -/
def in_flight (calls : List (GatherCall R)) : ℕ :=
  calls.countP fun call => call.stage ≠ .waiting ∧ call.stage ≠ .delivered

/-- The threads that are busy. -/
def busy (calls : List (GatherCall R)) : ℕ := calls.countP fun call => call.stage = .running

/-- The calls before the one at `i` are further than `stage`, if that matters. -/
def in_turn (calls : List (GatherCall R)) (i : ℕ) (stage : CallStage) : Bool :=
  !m.in_order || (calls.take i).all fun call => decide (stage.rank < call.stage.rank)

/-- The call at `i` need not wait at this stage. -/
def ready (calls : List (GatherCall R)) (i : ℕ) : CallStage → Bool
  | .waiting =>
    m.semaphore.all (fun n => decide (in_flight calls < n)) && m.in_turn calls i .waiting
  | .queued => decide (busy calls < m.max_workers) && m.in_turn calls i .queued
  | .running | .finished => true
  | .delivered => false

/-- What the event loop does when it sees an outcome: the first exception is the result, or
the outcomes are once all are there. -/
def settle (calls : List (GatherCall (Except E α))) (outcome : Except E α) :
    Option (Except E (List (Except E α))) → Option (Except E (List (Except E α)))
  | some result => some result
  | none =>
    match m.return_exceptions, outcome with
    | false, .error e => some (.error e)
    | _, _ =>
      if calls.all fun call => call.stage = .delivered then some (.ok (calls.map (·.outcome)))
      else none

/-- The calls when the one at `i` goes on. -/
def moved (calls : List (GatherCall R)) (i : ℕ) (call : GatherCall R) : List (GatherCall R) :=
  calls.set i ⟨call.outcome, call.stage.next⟩

/-- The gather when the call at `i` goes on. -/
def advance (g : Gather E α) (i : ℕ) (call : GatherCall (Except E α)) : Gather E α where
  calls := moved g.calls i call
  outer := if call.stage = .finished then m.settle (moved g.calls i call) call.outcome g.outer
    else g.outer
  returned := g.returned

def step (g : Gather E α) : GatherAction → Option (Gather E α)
  | .advance i =>
    match g.calls[i]? with
    | some call => if m.ready g.calls i call.stage then some (m.advance g i call) else none
    | none => none
  | .resume =>
    if g.outer.isSome && !g.returned then some { g with returned := true } else none

/-! ## Steps -/

variable {m} {g g' : Gather E α} {a : GatherAction} {i : ℕ} {outcomes : List (Except E α)}

/-- What a step can do. -/
theorem step_cases (h : m.step g a = some g') :
    (∃ i call, a = .advance i ∧ g.calls[i]? = some call ∧
      m.ready g.calls i call.stage = true ∧ g' = m.advance g i call) ∨
    (a = .resume ∧ g.outer ≠ none ∧ g.returned = false ∧ g' = { g with returned := true }) := by
  cases a with
  | advance i =>
    left
    simp only [step] at h
    split at h
    · rename_i call hcall
      split_ifs at h with hready
      exact ⟨i, call, rfl, hcall, hready, (Option.some.inj h).symm⟩
    · cases h
  | resume =>
    right
    simp only [step] at h
    split_ifs at h with hcond
    rw [Bool.and_eq_true, Bool.not_eq_true'] at hcond
    refine ⟨rfl, ?_, hcond.2, (Option.some.inj h).symm⟩
    intro hnone
    rw [hnone] at hcond
    cases hcond.1

theorem step_advance {call : GatherCall (Except E α)} (hcall : g.calls[i]? = some call)
    (hready : m.ready g.calls i call.stage = true) :
    m.step g (.advance i) = some (m.advance g i call) := by
  simp only [step, hcall]
  rw [if_pos hready]

/-- A call that can go on is not yet delivered. -/
theorem ne_delivered_of_ready {calls : List (GatherCall R)} {stage : CallStage}
    (h : m.ready calls i stage = true) : stage ≠ .delivered := by
  rintro rfl
  cases h

/-- A call that is replaced by one with the same outcome. -/
theorem map_outcome_moved {calls : List (GatherCall R)} {call : GatherCall R}
    (hcall : calls[i]? = some call) :
    (moved calls i call).map (·.outcome) = calls.map (·.outcome) := by
  apply List.ext_getElem?
  intro j
  rw [List.getElem?_map, List.getElem?_map, moved]
  by_cases hji : j = i
  · subst hji
    rw [getElem?_set_at hcall, hcall]
    rfl
  · rw [List.getElem?_set_ne (Ne.symm hji)]

/-- A call that is delivered stays as it is when another one goes on. -/
theorem mem_moved_of_delivered {calls : List (GatherCall R)} {call c : GatherCall R}
    (hcall : calls[i]? = some call) (hne : call.stage ≠ .delivered) (hc : c ∈ calls)
    (hdelivered : c.stage = .delivered) : c ∈ moved calls i call := by
  obtain ⟨j, hj⟩ := List.mem_iff_getElem?.mp hc
  have hji : j ≠ i := by
    rintro rfl
    rw [hcall] at hj
    cases hj
    exact hne hdelivered
  exact List.mem_of_getElem? ((getElem?_set_iff hcall).mpr (Or.inr ⟨hji, hj⟩))

theorem map_outcome_step (h : m.step g a = some g') :
    g'.calls.map (·.outcome) = g.calls.map (·.outcome) := by
  rcases step_cases h with ⟨i, call, -, hcall, -, rfl⟩ | ⟨-, -, -, rfl⟩
  · exact map_outcome_moved hcall
  · rfl

/-- The calls have their outcomes, whatever has happened. -/
theorem gather_outcomes {as : List GatherAction} (h : Run (takes m.step) (m.start outcomes) as g) :
    g.calls.map (·.outcome) = outcomes := by
  induction h with
  | start =>
    show (outcomes.map _).map _ = outcomes
    rw [List.map_map]
    exact List.map_id outcomes
  | step _ hs ih => rw [map_outcome_step hs, ih]

/-! ## The result agrees with the calls -/

/-- The result of the future is what the calls make of it. -/
def Consistent (m : GatherSetup) (g : Gather E α) : Prop :=
  match g.outer with
  | none => g.returned = false ∧ ∃ call ∈ g.calls, call.stage ≠ .delivered
  | some (.error e) => m.return_exceptions = false ∧
      ∃ call ∈ g.calls, call.stage = .delivered ∧ call.outcome = .error e
  | some (.ok outcomes) => (∀ call ∈ g.calls, call.stage = .delivered) ∧
      outcomes = g.calls.map (·.outcome)

theorem consistent_start (outcomes : List (Except E α)) : m.Consistent (m.start outcomes) := by
  cases outcomes with
  | nil =>
    refine ⟨fun call hcall => ?_, rfl⟩
    cases hcall
  | cons outcome outcomes =>
    refine ⟨rfl, _, List.mem_cons_self, ?_⟩
    dsimp only
    split_ifs
    · exact CallStage.noConfusion
    · exact CallStage.noConfusion

/-- The event loop sees an outcome. -/
theorem consistent_settle {calls : List (GatherCall (Except E α))} {outcome : Except E α}
    (hcall : ⟨outcome, .delivered⟩ ∈ calls) :
    m.Consistent ⟨calls, m.settle calls outcome none, false⟩ := by
  unfold settle
  dsimp only
  split
  · -- an exception that is not returned
    rename_i e hreturn
    exact ⟨hreturn, _, hcall, rfl, rfl⟩
  · split_ifs with hall
    · refine ⟨fun c hc => ?_, rfl⟩
      exact of_decide_eq_true (List.all_eq_true.mp hall c hc)
    · refine ⟨rfl, ?_⟩
      rw [List.all_eq_true, not_forall] at hall
      obtain ⟨c, hc⟩ := hall
      obtain ⟨hmem, hnot⟩ := Classical.not_imp.mp hc
      exact ⟨c, hmem, fun heq => hnot (decide_eq_true heq)⟩

/-- **The step lemma.** -/
theorem Consistent.step (hg : m.Consistent g) (h : m.step g a = some g') : m.Consistent g' := by
  rcases step_cases h with ⟨i, call, -, hcall, hready, rfl⟩ | ⟨-, houter, -, rfl⟩
  · have hne : call.stage ≠ .delivered := ne_delivered_of_ready hready
    obtain ⟨calls, outer, returned⟩ := g
    have hself : ⟨call.outcome, call.stage.next⟩ ∈ moved calls i call :=
      List.mem_of_getElem? (getElem?_set_at hcall)
    cases outer with
    | none =>
      obtain ⟨rfl, -⟩ := hg
      unfold advance
      dsimp only
      split_ifs with hfinished
      · rw [hfinished] at hself
        exact consistent_settle hself
      · exact ⟨rfl, _, hself, CallStage.next_ne_delivered hne hfinished⟩
    | some result =>
      have houter : (m.advance ⟨calls, some result, returned⟩ i call).outer = some result := by
        unfold advance
        dsimp only
        split_ifs <;> rfl
      unfold Consistent
      rw [houter]
      cases result with
      | error e =>
        obtain ⟨hreturn, c, hc, hdelivered, houtcome⟩ := hg
        exact ⟨hreturn, c, mem_moved_of_delivered hcall hne hc hdelivered, hdelivered, houtcome⟩
      | ok outcomes =>
        -- no call can go on any more
        exact absurd (hg.1 call (List.mem_of_getElem? hcall)) hne
  · obtain ⟨calls, outer, returned⟩ := g
    cases outer with
    | none => exact absurd rfl houter
    | some result =>
      cases result with
      | error e => exact hg
      | ok outcomes => exact hg

/-- **A state that is reached agrees with its result.** -/
theorem gather_consistent {as : List GatherAction}
    (h : Run (takes m.step) (m.start outcomes) as g) : m.Consistent g :=
  h.invariant (consistent_start outcomes) fun _ _ _ hg hs => hg.step hs

/-- A caller that has gone on has a result. -/
theorem Consistent.outer_ne_none (hg : m.Consistent g) (h : g.returned = true) :
    g.outer ≠ none := by
  intro hnone
  unfold Consistent at hg
  rw [hnone, h] at hg
  exact absurd hg.1 (by decide)

/-- If exceptions are returned, the result is the list of all outcomes. -/
theorem Consistent.outer_of_return_exceptions (hg : m.Consistent g)
    (hm : m.return_exceptions = true) (h : g.returned = true) :
    g.outer = some (.ok (g.calls.map (·.outcome))) ∧
      ∀ call ∈ g.calls, call.stage = .delivered := by
  have houter := hg.outer_ne_none h
  unfold Consistent at hg
  cases hresult : g.outer with
  | none => exact absurd hresult houter
  | some result =>
    rw [hresult] at hg
    cases result with
    | error e => exact absurd (hm.symm.trans hg.1) (by decide)
    | ok outcomes =>
      obtain ⟨hall, rfl⟩ := hg
      exact ⟨rfl, hall⟩

/-! ## The caller goes on -/

/-- The steps that are left. -/
def work (g : Gather E α) : ℕ :=
  (g.calls.map fun call => CallStage.delivered.rank - call.stage.rank).sum
    + if g.returned then 0 else 1

/-- **No endless schedule**: every step lowers what is left. -/
theorem work_lt (h : m.step g a = some g') : work g' < work g := by
  rcases step_cases h with ⟨i, call, -, hcall, hready, rfl⟩ | ⟨-, -, hreturned, rfl⟩
  · have hne : call.stage ≠ .delivered := ne_delivered_of_ready hready
    have hsum := sum_map_set (b := ⟨call.outcome, call.stage.next⟩)
      (fun call : GatherCall (Except E α) => CallStage.delivered.rank - call.stage.rank) hcall
    have hrank := CallStage.rank_next hne
    have hle := CallStage.rank_le call.stage.next
    unfold work
    apply Nat.add_lt_add_right
    show ((moved g.calls i call).map _).sum < _
    unfold moved
    dsimp only at hsum
    omega
  · unfold work
    apply Nat.add_lt_add_left
    rw [hreturned]
    exact Nat.one_pos

/-- **Every schedule is finite.** -/
theorem schedule_le {s₀ : Gather E α} {as : List GatherAction} (h : Run (takes m.step) s₀ as g) :
    as.length + work g ≤ work s₀ := by
  have htrue : (fun _ : Gather E α => True) s₀ := trivial
  exact h.length_add_le work htrue fun _ _ _ _ hs => ⟨trivial, work_lt hs⟩

/-- Calls none of which is at a stage. -/
theorem countP_stage_eq_zero {calls : List (GatherCall R)} {stage : CallStage}
    (h : ¬ ∃ call ∈ calls, call.stage = stage) :
    (calls.countP fun call => call.stage = stage) = 0 := by
  rw [List.countP_eq_zero]
  intro call hcall hstage
  exact h ⟨call, hcall, of_decide_eq_true hstage⟩

/-- Calls that hold no semaphore. -/
theorem in_flight_eq_zero {calls : List (GatherCall R)}
    (h : ∀ call ∈ calls, call.stage = .waiting ∨ call.stage = .delivered) :
    in_flight calls = 0 := by
  unfold in_flight
  rw [List.countP_eq_zero]
  intro call hcall hholds
  obtain ⟨hwaiting, hdelivered⟩ := of_decide_eq_true hholds
  rcases h call hcall with hs | hs
  · exact hwaiting hs
  · exact hdelivered hs

theorem in_turn_of_any_order (hm : m.in_order = false) (calls : List (GatherCall R)) (i : ℕ)
    (stage : CallStage) : m.in_turn calls i stage = true := by
  unfold in_turn
  rw [hm]
  rfl

/-- Some call can go on while one is not delivered. -/
theorem exists_ready (hm : m.in_order = false) {calls : List (GatherCall R)}
    (h : ∃ call ∈ calls, call.stage ≠ .delivered) :
    ∃ i call, calls[i]? = some call ∧ m.ready calls i call.stage = true := by
  have hat : ∀ stage, (∃ call ∈ calls, call.stage = stage) →
      (∀ i, m.ready calls i stage = true) →
      ∃ i call, calls[i]? = some call ∧ m.ready calls i call.stage = true := by
    rintro stage ⟨call, hmem, rfl⟩ hready
    obtain ⟨i, hi⟩ := List.mem_iff_getElem?.mp hmem
    exact ⟨i, call, hi, hready i⟩
  by_cases hrunning : ∃ call ∈ calls, call.stage = .running
  · exact hat _ hrunning fun _ => rfl
  by_cases hfinished : ∃ call ∈ calls, call.stage = .finished
  · exact hat _ hfinished fun _ => rfl
  by_cases hqueued : ∃ call ∈ calls, call.stage = .queued
  · -- all threads are idle
    refine hat _ hqueued fun i => ?_
    have hbusy : busy calls = 0 := countP_stage_eq_zero hrunning
    show (decide (busy calls < m.max_workers) && m.in_turn calls i .queued) = true
    rw [hbusy, in_turn_of_any_order hm, decide_eq_true m.max_workers_pos]
    rfl
  · -- nobody holds the semaphore
    have hrest : ∀ c ∈ calls, c.stage = .waiting ∨ c.stage = .delivered := by
      intro c hc
      cases hs : c.stage with
      | waiting => exact Or.inl rfl
      | queued => exact absurd ⟨c, hc, hs⟩ hqueued
      | running => exact absurd ⟨c, hc, hs⟩ hrunning
      | finished => exact absurd ⟨c, hc, hs⟩ hfinished
      | delivered => exact Or.inr rfl
    have hflight : in_flight calls = 0 := in_flight_eq_zero hrest
    obtain ⟨call, hmem, hne⟩ := h
    have hwaiting : call.stage = .waiting := (hrest call hmem).resolve_right hne
    refine hat _ ⟨call, hmem, hwaiting⟩ fun i => ?_
    show (m.semaphore.all (fun n => decide (in_flight calls < n)) && m.in_turn calls i .waiting)
      = true
    rw [hflight, in_turn_of_any_order hm, Bool.and_true]
    cases hsem : m.semaphore with
    | none => rfl
    | some n => exact decide_eq_true (m.semaphore_pos n hsem)

/-- **No deadlock**, if the calls are taken in any order. -/
theorem exists_gather_step (hm : m.in_order = false) (hg : m.Consistent g)
    (h : g.returned = false) : ∃ a g', m.step g a = some g' := by
  cases houter : g.outer with
  | none =>
    unfold Consistent at hg
    rw [houter] at hg
    obtain ⟨i, call, hcall, hready⟩ := exists_ready hm hg.2
    exact ⟨.advance i, _, step_advance hcall hready⟩
  | some result =>
    refine ⟨.resume, { g with returned := true }, ?_⟩
    simp only [step, houter, h]
    rfl

/-- **The caller goes on** after finitely many more steps, if the calls are taken in any
order. -/
theorem exists_run_returned (hm : m.in_order = false) {as : List GatherAction}
    (h : Run (takes m.step) (m.start outcomes) as g) :
    ∃ bs g', Run (takes m.step) g bs g' ∧ g'.returned = true := by
  have hg : m.Consistent g := gather_consistent h
  refine exists_run_done work ?_ ?_ hg
  · intro g hg hnot
    exact exists_gather_step hm hg (Bool.eq_false_iff.mpr hnot)
  · intro g a g' hg hs
    exact ⟨hg.step hs, work_lt hs⟩

/-! ## Calls that are taken in order -/

/-- With one thread, a call that has been taken has only finished calls before it. -/
def OneAtATime (g : Gather E α) : Prop :=
  ∀ (i j : ℕ) (ci cj : GatherCall (Except E α)), i < j →
    g.calls[i]? = some ci → g.calls[j]? = some cj →
      CallStage.queued.rank < cj.stage.rank → CallStage.running.rank < ci.stage.rank

theorem oneAtATime_start (outcomes : List (Except E α)) :
    OneAtATime (m.start outcomes) := by
  intro i j ci cj hij hi hj htaken
  obtain ⟨outcome, -, rfl⟩ := List.mem_map.mp (List.mem_of_getElem? hj)
  dsimp only at htaken
  split_ifs at htaken
  · exact absurd htaken (by decide)
  · exact absurd htaken (by decide)

/-- The call that a thread takes has only finished calls before it. -/
theorem finished_of_ready (hm : m.in_order = true) (hone : m.max_workers = 1)
    {calls : List (GatherCall R)} {j : ℕ} (hready : m.ready calls j .queued = true)
    {c : GatherCall R} (hij : i < j) (hi : calls[i]? = some c) : CallStage.running.rank < c.stage.rank := by
  rw [ready, in_turn, hm, hone, Bool.and_eq_true] at hready
  obtain ⟨hbusy, hturn⟩ := hready
  have hidle : busy calls = 0 := Nat.lt_one_iff.mp (of_decide_eq_true hbusy)
  have hnot : c.stage ≠ .running := by
    intro hrunning
    unfold busy at hidle
    rw [List.countP_eq_zero] at hidle
    exact hidle c (List.mem_of_getElem? hi) (decide_eq_true hrunning)
  have htake : c ∈ calls.take j := by
    refine List.mem_of_getElem? (i := i) ?_
    rw [List.getElem?_take_of_lt hij, hi]
  exact CallStage.running_lt (of_decide_eq_true (List.all_eq_true.mp hturn c htake)) hnot

/-- **The step lemma** of calls that are taken one at a time. -/
theorem OneAtATime.step (hm : m.in_order = true) (hone : m.max_workers = 1)
    (hg : OneAtATime g) (h : m.step g a = some g') : OneAtATime g' := by
  rcases step_cases h with ⟨k, call, -, hcall, hready, rfl⟩ | ⟨-, -, -, rfl⟩
  · have hnext := CallStage.rank_next (ne_delivered_of_ready hready)
    intro i j ci cj hij hi hj htaken
    rcases (getElem?_set_iff hcall).mp hi with ⟨rfl, rfl⟩ | ⟨-, hci⟩
    · rcases (getElem?_set_iff hcall).mp hj with ⟨rfl, -⟩ | ⟨-, hcj⟩
      · exact absurd hij (Nat.lt_irrefl _)
      · have hold := hg i j call cj hij hcall hcj htaken
        show CallStage.running.rank < call.stage.next.rank
        omega
    · rcases (getElem?_set_iff hcall).mp hj with ⟨rfl, rfl⟩ | ⟨-, hcj⟩
      · -- the later call is the one that goes on
        by_cases hqueued : call.stage = .queued
        · rw [hqueued] at hready
          exact finished_of_ready hm hone hready hij hci
        · refine hg i j ci call hij hci hcall ?_
          have htaken : CallStage.queued.rank < call.stage.next.rank := htaken
          have hrank : call.stage.rank ≠ CallStage.queued.rank := fun heq =>
            hqueued (CallStage.rank_injective heq)
          omega
      · exact hg i j ci cj hij hci hcj htaken
  · exact hg

theorem gather_one_at_a_time (hm : m.in_order = true) (hone : m.max_workers = 1)
    {as : List GatherAction} (h : Run (takes m.step) (m.start outcomes) as g) :
    OneAtATime g :=
  h.invariant (oneAtATime_start outcomes) fun _ _ _ hg hs => hg.step hm hone hs

/-! ### A call that is served -/

theorem moved_append (f b : List (GatherCall R)) (call : GatherCall R) :
    moved (f ++ call :: b) f.length call = f ++ ⟨call.outcome, call.stage.next⟩ :: b := by
  unfold moved
  rw [List.set_append_right _ _ (Nat.le_refl _), Nat.sub_self, List.set_cons_zero]

/-- The call between `f` and `b` goes on. -/
theorem run_advance {f b : List (GatherCall (Except E α))} {outcome : Except E α}
    {stage : CallStage} (outer : Option (Except E (List (Except E α))))
    (hready : m.ready (f ++ ⟨outcome, stage⟩ :: b) f.length stage = true) :
    ∃ outer', Run (takes m.step) ⟨f ++ ⟨outcome, stage⟩ :: b, outer, false⟩ [.advance f.length]
        ⟨f ++ ⟨outcome, stage.next⟩ :: b, outer', false⟩ ∧
      (m.return_exceptions = false → stage = .finished → (∃ e, outcome = .error e) →
        outer' ≠ none) := by
  have hcall : (f ++ ⟨outcome, stage⟩ :: b)[f.length]? = some ⟨outcome, stage⟩ := by
    rw [List.getElem?_append_right (Nat.le_refl _), Nat.sub_self, List.getElem?_cons_zero]
  have hstep := step_advance (g := ⟨f ++ ⟨outcome, stage⟩ :: b, outer, false⟩) hcall hready
  unfold advance at hstep
  dsimp only at hstep
  rw [moved_append] at hstep
  refine ⟨_, Run.start.step hstep, ?_⟩
  rintro hm hfinished ⟨e, he⟩ hnone
  rw [if_pos hfinished, he] at hnone
  cases outer with
  | none =>
    simp only [settle, hm] at hnone
    cases hnone
  | some result => cases hnone

theorem busy_append (f b : List (GatherCall R)) : busy (f ++ b) = busy f + busy b := by
  unfold busy
  exact List.countP_append

/-- A call that is next in the queue can be taken while a thread is free. -/
theorem ready_queued {f b : List (GatherCall R)} {outcome : R}
    (hbefore : ∀ call ∈ f, CallStage.queued.rank < call.stage.rank)
    (hfree : busy (f ++ ⟨outcome, .queued⟩ :: b) < m.max_workers) :
    m.ready (f ++ ⟨outcome, .queued⟩ :: b) f.length .queued = true := by
  rw [ready, in_turn, List.take_left, Bool.and_eq_true, decide_eq_true hfree, Bool.or_eq_true,
    List.all_eq_true]
  exact ⟨rfl, Or.inr fun call hcall => decide_eq_true (hbefore call hcall)⟩

/-- A call that is next in the queue goes through while a thread is free; if it raises, the
future of the gather has its result. -/
theorem run_serve {f b : List (GatherCall (Except E α))} {outcome : Except E α}
    (outer : Option (Except E (List (Except E α))))
    (hbefore : ∀ call ∈ f, CallStage.queued.rank < call.stage.rank)
    (hfree : busy (f ++ ⟨outcome, .queued⟩ :: b) < m.max_workers) :
    ∃ as outer', Run (takes m.step) ⟨f ++ ⟨outcome, .queued⟩ :: b, outer, false⟩ as
        ⟨f ++ ⟨outcome, .delivered⟩ :: b, outer', false⟩ ∧
      (m.return_exceptions = false → (∃ e, outcome = .error e) → outer' ≠ none) := by
  obtain ⟨outer₁, htake, -⟩ := run_advance outer (ready_queued hbefore hfree)
  have hrunning : m.ready (f ++ ⟨outcome, .running⟩ :: b) f.length .running = true := rfl
  obtain ⟨outer₂, hfinish, -⟩ := run_advance outer₁ hrunning
  have hfinished : m.ready (f ++ ⟨outcome, .finished⟩ :: b) f.length .finished = true := rfl
  obtain ⟨outer₃, hdeliver, hraise⟩ := run_advance outer₂ hfinished
  exact ⟨_, outer₃, (htake.append hfinish).append hdeliver, fun hm he => hraise hm rfl he⟩

end GatherSetup
