/-
# Batched puts

`batched_put` of `connector.py` gathers the puts of all keys without `return_exceptions`, so
it raises as soon as the event loop sees the first exception, and the other puts go on.  They
may still be queued or running at that moment, and read their objects after the caller has
given them back.  It retains no object exactly if no put raises, or if there is one put, or if
there is one thread and only the last put raises (`batched_put_retains_nothing_iff`).
-/
import LmcacheAerospike.ConnectorGets

namespace RemoteConnector

variable {Exn Obj κ : Type} (conn : RemoteConnector)

/-- `gather(*(self.put(k, mo) for ...))`: the event loop submits all puts before it sees an
outcome, and the queue of the executor is first in, first out.  What other calls have in it
only delays a put. -/
def puts : GatherSetup where
  return_exceptions := false
  in_order := true
  max_workers := conn.cfg.executor_threads.toNat
  max_workers_pos := conn.executor_threads_pos
  semaphore := none
  semaphore_pos := fun n hn => absurd hn (Option.not_mem_none n)

/-- What the puts of `zip(keys, memory_objs)` end with; `put i k mo` is that of the pair at
`i`. -/
def put_outcomes (put : ℕ → κ → Obj → Except Exn Unit) (keys : List κ) (memory_objs : List Obj) :
    List (Except Exn Unit) :=
  (keys.zip memory_objs).mapIdx fun i pair => put i pair.1 pair.2

/-- `batched_put`, as it awaits the gather of its puts. -/
def batched_put (put : ℕ → κ → Obj → Except Exn Unit) (keys : List κ) (memory_objs : List Obj) :
    Gather Exn Unit :=
  conn.puts.start (put_outcomes put keys memory_objs)

/-- Whatever the schedule of the threads: when `batched_put` has returned or raised, no put is
queued or running. -/
def RetainsNothing (put : ℕ → κ → Obj → Except Exn Unit) (keys : List κ) (memory_objs : List Obj) :
    Prop :=
  ∀ (as : List GatherAction) (g : Gather Exn Unit),
    Run (takes conn.puts.step) (conn.batched_put put keys memory_objs) as g → g.returned = true →
      ∀ call ∈ g.calls, call.stage = .finished ∨ call.stage = .delivered

/-- **The condition**: a put raises only as the last one, and then it is the only one or there
is only one thread. -/
def RaisesLast (put : ℕ → κ → Obj → Except Exn Unit) (keys : List κ) (memory_objs : List Obj) :
    Prop :=
  ∀ i e, (put_outcomes put keys memory_objs)[i]? = some (.error e) →
    i + 1 = (put_outcomes put keys memory_objs).length ∧
      (conn.cfg.executor_threads = 1 ∨ (put_outcomes put keys memory_objs).length = 1)

/-! ## Nothing is retained -/

variable {conn} {outcomes : List (Except Exn Unit)} {as : List GatherAction} {g : Gather Exn Unit}

theorem puts_workers_eq_one (h : conn.cfg.executor_threads = 1) : conn.puts.max_workers = 1 := by
  show conn.cfg.executor_threads.toNat = 1
  rw [h]
  rfl

/-- A gather that raises has seen the exception of some put. -/
theorem raised_at (h : Run (takes conn.puts.step) (conn.puts.start outcomes) as g) {e : Exn}
    (houter : g.outer = some (.error e)) :
    ∃ (i : ℕ) (call : GatherCall (Except Exn Unit)), g.calls[i]? = some call ∧
      call.stage = .delivered ∧ outcomes[i]? = some (.error e) := by
  have hg := GatherSetup.gather_consistent h
  unfold GatherSetup.Consistent at hg
  rw [houter] at hg
  obtain ⟨-, call, hmem, hdelivered, houtcome⟩ := hg
  obtain ⟨i, hi⟩ := List.mem_iff_getElem?.mp hmem
  refine ⟨i, call, hi, hdelivered, ?_⟩
  rw [← GatherSetup.gather_outcomes h, List.getElem?_map, hi, Option.map_some, houtcome]

/-- Every put is over when the last one has raised. -/
theorem all_over_of_last (h : Run (takes conn.puts.step) (conn.puts.start outcomes) as g) {i : ℕ}
    {call : GatherCall (Except Exn Unit)} (hi : g.calls[i]? = some call)
    (hdelivered : call.stage = .delivered) (hlast : i + 1 = outcomes.length)
    (hone : conn.cfg.executor_threads = 1 ∨ outcomes.length = 1) :
    ∀ c ∈ g.calls, c.stage = .finished ∨ c.stage = .delivered := by
  intro c hc
  obtain ⟨j, hj⟩ := List.mem_iff_getElem?.mp hc
  have hlen : g.calls.length = outcomes.length := by
    rw [← GatherSetup.gather_outcomes h, List.length_map]
  have hlt : j < g.calls.length := (List.getElem?_eq_some_iff.mp hj).1
  by_cases hji : j = i
  · subst hji
    rw [hi] at hj
    cases hj
    exact Or.inr hdelivered
  · have hbefore : j < i := by omega
    have hworkers : conn.puts.max_workers = 1 := by
      rcases hone with hone | hone
      · exact puts_workers_eq_one hone
      · omega
    -- with one thread the last put has waited for all others
    have htaken : CallStage.queued.rank < call.stage.rank := by
      rw [hdelivered]
      decide
    exact CallStage.running_lt_iff.mp
      (GatherSetup.gather_one_at_a_time rfl hworkers h j i c call hbefore hj hi htaken)

/-- Nothing is retained if a put raises only as the last one. -/
theorem retains_nothing {put : ℕ → κ → Obj → Except Exn Unit} {keys : List κ}
    {memory_objs : List Obj} (hlast : conn.RaisesLast put keys memory_objs) :
    conn.RetainsNothing put keys memory_objs := by
  intro as g h hreturned
  have hg := GatherSetup.gather_consistent h
  have hset := hg.outer_ne_none hreturned
  cases houter : g.outer with
  | none => exact absurd houter hset
  | some result =>
    cases result with
    | error e =>
      obtain ⟨i, call, hi, hdelivered, herror⟩ := raised_at h houter
      obtain ⟨hend, hone⟩ := hlast i e herror
      exact all_over_of_last h hi hdelivered hend hone
    | ok results =>
      unfold GatherSetup.Consistent at hg
      rw [houter] at hg
      intro call hcall
      exact Or.inr (hg.1 call hcall)

/-! ## A put that is left -/

/-- The puts that are over. -/
def delivered_puts (done : List (Except Exn Unit)) : List (GatherCall (Except Exn Unit)) :=
  done.map fun outcome => ⟨outcome, .delivered⟩

theorem taken_of_mem_delivered_puts {done : List (Except Exn Unit)} :
    ∀ call ∈ delivered_puts done, CallStage.queued.rank < call.stage.rank := by
  intro call hcall
  obtain ⟨outcome, -, rfl⟩ := List.mem_map.mp hcall
  show CallStage.queued.rank < CallStage.delivered.rank
  decide

theorem busy_delivered_puts (done : List (Except Exn Unit)) : GatherSetup.busy (delivered_puts done) = 0 := by
  refine GatherSetup.countP_stage_eq_zero ?_
  rintro ⟨call, hcall, hstage⟩
  obtain ⟨outcome, -, rfl⟩ := List.mem_map.mp hcall
  cases hstage

/-- The puts that wait for a thread. -/
def queued_puts (rest : List (Except Exn Unit)) : List (GatherCall (Except Exn Unit)) :=
  rest.map fun outcome => ⟨outcome, .queued⟩

theorem busy_queued_puts (rest : List (Except Exn Unit)) : GatherSetup.busy (queued_puts rest) = 0 := by
  refine GatherSetup.countP_stage_eq_zero ?_
  rintro ⟨call, hcall, hstage⟩
  obtain ⟨outcome, -, rfl⟩ := List.mem_map.mp hcall
  cases hstage

/-- The put that is next is served. -/
theorem run_served_one (conn : RemoteConnector) (done : List (Except Exn Unit))
    (outcome : Except Exn Unit) (rest : List (Except Exn Unit))
    (outer : Option (Except Exn (List (Except Exn Unit)))) :
    ∃ as outer', Run (takes conn.puts.step) ⟨delivered_puts done ++ queued_puts (outcome :: rest), outer, false⟩
        as ⟨delivered_puts (done ++ [outcome]) ++ queued_puts rest, outer', false⟩ ∧
      ((∃ e, outcome = .error e) → outer' ≠ none) := by
  have hfree : GatherSetup.busy (delivered_puts done ++ queued_puts (outcome :: rest))
      < conn.puts.max_workers := by
    rw [GatherSetup.busy_append, busy_delivered_puts, busy_queued_puts]
    exact conn.puts.max_workers_pos
  obtain ⟨as, outer', hrun, hraise⟩ := GatherSetup.run_serve outer taken_of_mem_delivered_puts hfree
  refine ⟨as, outer', ?_, hraise rfl⟩
  have hover : delivered_puts (done ++ [outcome]) ++ queued_puts rest
      = delivered_puts done ++ ⟨outcome, .delivered⟩ :: queued_puts rest := by
    unfold delivered_puts
    rw [List.map_append, List.append_assoc]
    rfl
  rw [hover]
  exact hrun

/-- The puts are served one after the other. -/
theorem run_served (conn : RemoteConnector) (done before rest : List (Except Exn Unit))
    (outer : Option (Except Exn (List (Except Exn Unit)))) :
    ∃ as outer', Run (takes conn.puts.step)
        ⟨delivered_puts done ++ queued_puts (before ++ rest), outer, false⟩ as
        ⟨delivered_puts (done ++ before) ++ queued_puts rest, outer', false⟩ := by
  induction before generalizing done outer with
  | nil =>
    rw [List.append_nil]
    exact ⟨[], outer, Run.start⟩
  | cons outcome before ih =>
    obtain ⟨as, outer₁, hrun, -⟩ :=
      run_served_one conn done outcome (before ++ rest) outer
    obtain ⟨bs, outer₂, hrest⟩ := ih (done ++ [outcome]) outer₁
    rw [List.append_assoc, List.singleton_append] at hrest
    exact ⟨as ++ bs, outer₂, hrun.append hrest⟩

/-- From the start, the puts before some put are served. -/
theorem run_before (conn : RemoteConnector) (before rest : List (Except Exn Unit))
    (outcome : Except Exn Unit) :
    ∃ as outer, Run (takes conn.puts.step) (conn.puts.start (before ++ outcome :: rest)) as
      ⟨delivered_puts before ++ queued_puts (outcome :: rest), outer, false⟩ := by
  have hne : before ++ outcome :: rest ≠ [] :=
    List.append_ne_nil_of_right_ne_nil before (List.cons_ne_nil outcome rest)
  have hstart : conn.puts.start (before ++ outcome :: rest)
      = ⟨delivered_puts [] ++ queued_puts (before ++ outcome :: rest), none, false⟩ := by
    unfold GatherSetup.start
    rw [if_neg hne]
    rfl
  rw [hstart]
  exact run_served conn [] before (outcome :: rest) none

/-- In some run `batched_put` returns or raises with a put queued or running. -/
def Retains (conn : RemoteConnector) (outcomes : List (Except Exn Unit)) : Prop :=
  ∃ (as : List GatherAction) (g : Gather Exn Unit),
    Run (takes conn.puts.step) (conn.puts.start outcomes) as g ∧ g.returned = true ∧
      ∃ call ∈ g.calls, call.stage = .queued ∨ call.stage = .running

/-- The caller goes on when the future has its result. -/
theorem retains_of_run {calls : List (GatherCall (Except Exn Unit))}
    {outer : Option (Except Exn (List (Except Exn Unit)))}
    (h : Run (takes conn.puts.step) (conn.puts.start outcomes) as ⟨calls, outer, false⟩)
    (houter : outer ≠ none) {call : GatherCall (Except Exn Unit)} (hmem : call ∈ calls)
    (hstage : call.stage = .queued ∨ call.stage = .running) : conn.Retains outcomes := by
  cases outer with
  | none => exact absurd rfl houter
  | some result =>
    have hresume : conn.puts.step ⟨calls, some result, false⟩ .resume
        = some ⟨calls, some result, true⟩ := rfl
    exact ⟨_, _, h.step hresume, rfl, call, hmem, hstage⟩

/-- A put that comes after the one that raises is still queued. -/
theorem retains_after (before after : List (Except Exn Unit)) (e : Exn)
    (outcome : Except Exn Unit) : conn.Retains (before ++ .error e :: outcome :: after) := by
  obtain ⟨as, outer₁, hbefore⟩ :=
    run_before conn before (outcome :: after) (.error e)
  obtain ⟨bs, outer₂, hraise, hset⟩ :=
    run_served_one conn before (.error e) (outcome :: after) outer₁
  have hmem : ⟨outcome, .queued⟩ ∈ delivered_puts (before ++ [.error e]) ++ queued_puts (outcome :: after) :=
    List.mem_append_right _ List.mem_cons_self
  exact retains_of_run (hbefore.append hraise) (hset ⟨e, rfl⟩) hmem (Or.inl rfl)

/-- With two threads, the put before the last one is still running when the last one raises. -/
theorem retains_before (before : List (Except Exn Unit)) (e : Exn) (outcome : Except Exn Unit)
    (hworkers : conn.puts.max_workers ≠ 1) :
    conn.Retains (before ++ outcome :: [.error e]) := by
  have hpos := conn.puts.max_workers_pos
  obtain ⟨as, outer₁, hbefore⟩ := run_before conn before [.error e] outcome
  -- a thread takes the put before the last one and is slow
  have hidle : GatherSetup.busy (delivered_puts before ++ ⟨outcome, .queued⟩ :: queued_puts [.error e])
      < conn.puts.max_workers := by
    rw [GatherSetup.busy_append, busy_delivered_puts]
    show GatherSetup.busy (queued_puts [outcome, .error e]) < _
    rw [busy_queued_puts]
    exact hpos
  obtain ⟨outer₂, htake, -⟩ := GatherSetup.run_advance outer₁
    (GatherSetup.ready_queued taken_of_mem_delivered_puts hidle)
  have hslow : Run (takes conn.puts.step) (conn.puts.start (before ++ outcome :: [.error e]))
      (as ++ [.advance (delivered_puts before).length])
      ⟨delivered_puts before ++ [⟨outcome, .running⟩] ++ ⟨.error e, .queued⟩ :: [], outer₂, false⟩ := by
    rw [← List.append_cons]
    exact hbefore.append htake
  -- the other thread takes the last one
  have htaken : ∀ call ∈ delivered_puts before ++ [⟨outcome, .running⟩],
      CallStage.queued.rank < call.stage.rank := by
    intro call hcall
    rcases List.mem_append.mp hcall with hmem | hmem
    · exact taken_of_mem_delivered_puts call hmem
    · rw [List.mem_singleton.mp hmem]
      show CallStage.queued.rank < CallStage.running.rank
      decide
  have hfree : GatherSetup.busy (delivered_puts before ++ [⟨outcome, .running⟩] ++ ⟨.error e, .queued⟩ :: [])
      < conn.puts.max_workers := by
    rw [GatherSetup.busy_append, GatherSetup.busy_append, busy_delivered_puts]
    show 1 < _
    omega
  obtain ⟨bs, outer₃, hserve, hset⟩ := GatherSetup.run_serve outer₂ htaken hfree
  have hmem : ⟨outcome, .running⟩
      ∈ delivered_puts before ++ [⟨outcome, .running⟩] ++ [⟨.error e, .delivered⟩] :=
    List.mem_append_left _ (List.mem_append_right _ (List.mem_singleton_self _))
  exact retains_of_run (hslow.append hserve) (hset rfl ⟨e, rfl⟩) hmem
    (Or.inr rfl)

/-- A put that raises before the last one, or on one of two threads, leaves another one. -/
theorem retains_of_raise {i : ℕ} {e : Exn} (hi : outcomes[i]? = some (.error e))
    (hnot : ¬ (i + 1 = outcomes.length ∧
      (conn.cfg.executor_threads = 1 ∨ outcomes.length = 1))) : conn.Retains outcomes := by
  obtain ⟨hlt, hget⟩ := List.getElem?_eq_some_iff.mp hi
  have hsplit : outcomes = outcomes.take i ++ .error e :: outcomes.drop (i + 1) := by
    rw [← hget, ← List.drop_eq_getElem_cons hlt, List.take_append_drop]
  have hlen : (outcomes.take i).length = i := List.length_take_of_le (Nat.le_of_lt hlt)
  cases hafter : outcomes.drop (i + 1) with
  | cons outcome after =>
    rw [hsplit, hafter]
    exact retains_after _ after e outcome
  | nil =>
    have hend : i + 1 = outcomes.length := by
      have hle := List.drop_eq_nil_iff.mp hafter
      omega
    have hcond : conn.cfg.executor_threads ≠ 1 ∧ outcomes.length ≠ 1 := by
      rw [← not_or]
      exact fun hone => hnot ⟨hend, hone⟩
    have hworkers : conn.puts.max_workers ≠ 1 := by
      show conn.cfg.executor_threads.toNat ≠ 1
      have hne := hcond.1
      omega
    rcases List.eq_nil_or_concat (outcomes.take i) with hnil | ⟨before, outcome, hbefore⟩
    · rw [hnil] at hlen
      have hzero : 0 = i := hlen
      exact absurd (by omega) hcond.2
    · rw [hsplit, hafter, hbefore, List.concat_eq_append, List.append_assoc,
        List.singleton_append]
      exact retains_before before e outcome hworkers

/-- **A batched put retains nothing** exactly if a put raises only as the last one, alone or
with one thread. -/
theorem batched_put_retains_nothing_iff (conn : RemoteConnector)
    (put : ℕ → κ → Obj → Except Exn Unit) (keys : List κ) (memory_objs : List Obj) :
    conn.RetainsNothing put keys memory_objs ↔ conn.RaisesLast put keys memory_objs := by
  constructor
  · intro hnothing i e hi
    by_contra hnot
    obtain ⟨as, g, hrun, hreturned, call, hcall, hstage⟩ := retains_of_raise hi hnot
    rcases hnothing as g hrun hreturned call hcall with hover | hover
    · rw [hover] at hstage
      exact absurd hstage (by decide)
    · rw [hover] at hstage
      exact absurd hstage (by decide)
  · exact retains_nothing

/-- The first of two puts raises, and the second one is still queued. -/
theorem batched_put_retains_queued :
    ¬ plainConnector.RetainsNothing
      (fun i _ _ => if i = 0 then .error "timeout" else .ok ()) [10, 11] [0, 1] := by
  intro hnothing
  have hrun : Run (takes plainConnector.puts.step)
      (plainConnector.batched_put (fun i _ _ => if i = 0 then .error "timeout" else .ok ())
        [10, 11] [0, 1]) [.advance 0, .advance 0, .advance 0, .resume]
      ⟨[⟨.error "timeout", .delivered⟩, ⟨.ok (), .queued⟩], some (.error "timeout"), true⟩ :=
    run_of_execute rfl
  rcases hnothing _ _ hrun rfl ⟨.ok (), .queued⟩ (List.mem_cons_of_mem _ List.mem_cons_self)
    with hover | hover
  · cases hover
  · cases hover

end RemoteConnector
