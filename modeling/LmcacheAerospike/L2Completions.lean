/-
# Ids and results of the L2 plugin's tasks

`submit_store_task`, `submit_lookup_and_lock_task` and `submit_load_task` draw their ids from
one counter, the workers leave their results in three tables, and callers drain these: the
one table by swapping it for a new one, the other two an entry at a time.  Here is the machine
of these calls, a critical section under `_lock` being one step and everything between two
of them open to the others.

A step that hands results out moves them from a table to its answer (`Takes`), so what was
handed out for a task and what waits for it are together the result of its worker
(`L2Tables.Accounted`).
-/
import LmcacheAerospike.L2Close

/-- A call of one of the three submit methods, with its arguments. -/
inductive L2Job : Type where
  | store (keys : List ObjectKey) (objects : List MemoryObj)
  | lookup (keys : List ObjectKey)
  | load (keys : List ObjectKey) (objects : List MemoryObj)

/-- `_done_store`, `_done_lookup` and `_done_load`. -/
inductive DoneTable : Type where
  | store | lookup | load
  deriving DecidableEq, Repr

/-- An entry of a table of done tasks. -/
inductive L2Done : Type where
  | store (result : L2StoreResult)
  | lookup (bm : List Bool)
  | load (bm : List Bool)
  deriving DecidableEq, Repr

def L2Job.table : L2Job → DoneTable
  | .store _ _ => .store
  | .lookup _ => .lookup
  | .load _ _ => .load

def L2Done.table : L2Done → DoneTable
  | .store _ => .store
  | .lookup _ => .lookup
  | .load _ => .load

namespace L2Plugin

/-- The bitmap of `_lookup_sync`: an exception of `batched_exists_mask` makes all keys
misses. -/
def lookup_bitmap (keys : List ObjectKey) : Except PyExc (List Bool) → List Bool
  | .ok hits => set_hits (keys.map fun _ => false) 0 hits
  | .error _ => set_hits (keys.map fun _ => false) 0 (keys.map fun _ => false)

/-- What the completion block of `_store_sync`, `_lookup_sync` or `_load_sync` stores, when
the engine's answers have come to `r`. -/
def completion (plugin : L2Plugin) (job : L2Job) (r : Except PyExc (List Bool)) : L2Done :=
  match job with
  | .store keys objects =>
    let t := plugin.store_sync ⟨.store, keys, objects⟩ r
    .store ⟨t.ok, t.total⟩
  | .lookup keys => .lookup (lookup_bitmap keys r)
  | .load keys objects => .load (load_sync ⟨.load, keys, objects⟩ r)

theorem completion_table (plugin : L2Plugin) (job : L2Job) (r : Except PyExc (List Bool)) :
    (plugin.completion job r).table = job.table := by
  cases job <;> rfl

end L2Plugin

/-! ## The machine -/

/-- The task of a submit call: not yet passed to `_executor`, with its worker, or finished
with the entry that its worker stored. -/
inductive L2Worker : Type where
  | unsubmitted
  | submitted
  | finished (entry : L2Done)

def L2Worker.entry : L2Worker → Option L2Done
  | .finished entry => some entry
  | _ => none

/-- A submit call: its arguments, its local `tid` once `_alloc_id` has returned it (the id
that the call returns), and its task. -/
structure L2Submit : Type where
  job : L2Job
  tid : Option ℤ
  worker : L2Worker

/-- What a call of `pop_completed_store_tasks`, `query_lookup_and_lock_result` or
`query_load_result` has returned. -/
inductive L2Answer : Type where
  | popped (entries : ℤ → Option L2StoreResult)
  | lookup_result (task_id : ℤ) (bm : Option (List Bool))
  | load_result (task_id : ℤ) (bm : Option (List Bool))

/-- The result that an answer hands out for an id. -/
def L2Answer.handsOut : L2Answer → ℤ → Option L2Done
  | .popped entries, tid => (entries tid).map .store
  | .lookup_result task_id bm, tid => if tid = task_id then bm.map .lookup else none
  | .load_result task_id bm, tid => if tid = task_id then bm.map .load else none

/-- The submit calls, the shared fields, and the answers so far. -/
structure L2Tables : Type where
  submits : List L2Submit
  next_id : ℤ
  done_store : ℤ → Option L2StoreResult
  done_lookup : ℤ → Option (List Bool)
  done_load : ℤ → Option (List Bool)
  answers : List L2Answer

/-- The steps of the callers and of the workers; `c` is the number of a submit call. -/
inductive L2Call : Type where
  /-- A submit method is called. -/
  | submit (job : L2Job)
  /-- Its critical section. -/
  | alloc_id (c : ℕ)
  /-- Its `_executor.submit`. -/
  | executor_submit (c : ℕ)
  /-- The completion block of its worker; `r` is what the engine's answers came to. -/
  | complete (c : ℕ) (r : Except PyExc (List Bool))
  | pop_completed_store_tasks
  | query_lookup_and_lock_result (task_id : ℤ)
  | query_load_result (task_id : ℤ)

namespace L2Tables

def start : L2Tables := ⟨[], 0, fun _ => none, fun _ => none, fun _ => none, []⟩

/-- The table of one kind of tasks. -/
def table (s : L2Tables) : DoneTable → ℤ → Option L2Done
  | .store, tid => (s.done_store tid).map .store
  | .lookup, tid => (s.done_lookup tid).map .lookup
  | .load, tid => (s.done_load tid).map .load

/-- Store an entry under its id, in the table of its kind. -/
def put_done (s : L2Tables) (tid : ℤ) : L2Done → L2Tables
  | .store result => { s with done_store := Function.update s.done_store tid (some result) }
  | .lookup bm => { s with done_lookup := Function.update s.done_lookup tid (some bm) }
  | .load bm => { s with done_load := Function.update s.done_load tid (some bm) }

def step (plugin : L2Plugin) (s : L2Tables) : L2Call → Option L2Tables
  | .submit job => some { s with submits := s.submits ++ [⟨job, none, .unsubmitted⟩] }
  | .alloc_id c =>
    match s.submits[c]? with
    | some ⟨job, none, worker⟩ => some { s with
        submits := s.submits.set c ⟨job, some s.next_id, worker⟩
        next_id := s.next_id + 1 }
    | _ => none
  | .executor_submit c =>
    match s.submits[c]? with
    | some ⟨job, some tid, .unsubmitted⟩ =>
      some { s with submits := s.submits.set c ⟨job, some tid, .submitted⟩ }
    | _ => none
  | .complete c r =>
    match s.submits[c]? with
    | some ⟨job, some tid, .submitted⟩ =>
      some ({ s with
        submits := s.submits.set c ⟨job, some tid, .finished (plugin.completion job r)⟩
        }.put_done tid (plugin.completion job r))
    | _ => none
  | .pop_completed_store_tasks =>
    -- `_done_store` is another dict from here on, so no worker writes to the one returned
    some { s with
      done_store := fun _ => none
      answers := s.answers ++ [.popped s.done_store] }
  | .query_lookup_and_lock_result task_id =>
    some { s with
      done_lookup := Function.update s.done_lookup task_id none
      answers := s.answers ++ [.lookup_result task_id (s.done_lookup task_id)] }
  | .query_load_result task_id =>
    some { s with
      done_load := Function.update s.done_load task_id none
      answers := s.answers ++ [.load_result task_id (s.done_load task_id)] }

/-- What has been handed out for an id, one entry for each call that did. -/
def handouts (s : L2Tables) (tid : ℤ) : List L2Done :=
  s.answers.filterMap fun a => a.handsOut tid

/-! ## What the steps do to tables and answers -/

section Steps

variable {s : L2Tables}

theorem put_done_table (s : L2Tables) (tid : ℤ) (entry : L2Done) (t : DoneTable) (id : ℤ) :
    (s.put_done tid entry).table t id
      = if t = entry.table ∧ id = tid then some entry else s.table t id := by
  by_cases hid : id = tid
  · subst hid
    cases entry <;> cases t <;> simp [put_done, table, L2Done.table]
  · cases entry <;> cases t <;> simp [put_done, table, hid]

@[simp] theorem put_done_submits (s : L2Tables) (tid : ℤ) (entry : L2Done) :
    (s.put_done tid entry).submits = s.submits := by
  cases entry <;> rfl

@[simp] theorem put_done_next_id (s : L2Tables) (tid : ℤ) (entry : L2Done) :
    (s.put_done tid entry).next_id = s.next_id := by
  cases entry <;> rfl

@[simp] theorem put_done_handouts (s : L2Tables) (tid : ℤ) (entry : L2Done) (id : ℤ) :
    (s.put_done tid entry).handouts id = s.handouts id := by
  cases entry <;> rfl

/-- From `s` to `s'` the entries that `D` picks from the table `t` are moved to one more
answer. -/
structure Takes (t : DoneTable) (D : ℤ → Bool) (s s' : L2Tables) : Prop where
  submits : s'.submits = s.submits
  next_id : s'.next_id = s.next_id
  table : ∀ t' id, s'.table t' id = if t' = t ∧ D id then none else s.table t' id
  answer : ∃ a, s'.answers = s.answers ++ [a] ∧
    ∀ id, a.handsOut id = if D id then s.table t id else none

/-- What was handed out before stays, and the new answer comes after it. -/
theorem Takes.handouts {t : DoneTable} {D : ℤ → Bool} {s' : L2Tables} (h : Takes t D s s')
    (id : ℤ) :
    s'.handouts id = s.handouts id ++ if D id then (s.table t id).toList else [] := by
  obtain ⟨a, hanswers, ha⟩ := h.answer
  have hone : [a].filterMap (fun a => a.handsOut id)
      = if D id then (s.table t id).toList else [] := by
    rw [List.filterMap_cons, ha, List.filterMap_nil]
    by_cases hD : D id = true
    · rw [if_pos hD, if_pos hD]
      cases s.table t id <;> rfl
    · rw [if_neg hD, if_neg hD]
  rw [L2Tables.handouts, hanswers, List.filterMap_append, hone]
  rfl

/-- The swap hands out the whole table. -/
theorem takes_pop : Takes .store (fun _ => true) s
    { s with done_store := fun _ => none, answers := s.answers ++ [.popped s.done_store] } where
  submits := rfl
  next_id := rfl
  table := fun t' id => by cases t' <;> rfl
  answer := ⟨_, rfl, fun _ => rfl⟩

/-- A query hands out the entry of its id. -/
theorem takes_query_lookup (task_id : ℤ) : Takes .lookup (fun id => decide (id = task_id)) s
    { s with
      done_lookup := Function.update s.done_lookup task_id none
      answers := s.answers ++ [.lookup_result task_id (s.done_lookup task_id)] } where
  submits := rfl
  next_id := rfl
  table := fun t' id => by
    by_cases hid : id = task_id
    · subst hid
      cases t' <;> simp [L2Tables.table]
    · cases t' <;> simp [L2Tables.table, hid]
  answer := ⟨_, rfl, fun id => by
    by_cases hid : id = task_id
    · subst hid
      simp [L2Answer.handsOut, L2Tables.table]
    · simp [L2Answer.handsOut, hid]⟩

theorem takes_query_load (task_id : ℤ) : Takes .load (fun id => decide (id = task_id)) s
    { s with
      done_load := Function.update s.done_load task_id none
      answers := s.answers ++ [.load_result task_id (s.done_load task_id)] } where
  submits := rfl
  next_id := rfl
  table := fun t' id => by
    by_cases hid : id = task_id
    · subst hid
      cases t' <;> simp [L2Tables.table]
    · cases t' <;> simp [L2Tables.table, hid]
  answer := ⟨_, rfl, fun id => by
    by_cases hid : id = task_id
    · subst hid
      simp [L2Answer.handsOut, L2Tables.table]
    · simp [L2Answer.handsOut, hid]⟩

end Steps

/-! ## The account of every task -/

/-- Ids are drawn once, and for the task of each id what was handed out and what waits in its
own table are together the entry of its worker; nothing else was handed out or waits. -/
structure Accounted (s : L2Tables) : Prop where
  drawn : ∀ (c : ℕ) sub tid, s.submits[c]? = some sub → sub.tid = some tid → tid < s.next_id
  distinct : ∀ (c c' : ℕ) sub sub' tid, s.submits[c]? = some sub → s.submits[c']? = some sub' →
    sub.tid = some tid → sub'.tid = some tid → c = c'
  unsubmitted : ∀ (c : ℕ) sub, s.submits[c]? = some sub → sub.tid = none →
    sub.worker.entry = none
  own : ∀ (c : ℕ) sub entry, s.submits[c]? = some sub → sub.worker.entry = some entry →
    entry.table = sub.job.table
  account : ∀ (c : ℕ) sub tid, s.submits[c]? = some sub → sub.tid = some tid →
    s.handouts tid ++ (s.table sub.job.table tid).toList = sub.worker.entry.toList
  waiting : ∀ t tid, s.table t tid ≠ none →
    ∃ (c : ℕ) (sub : L2Submit), s.submits[c]? = some sub ∧ sub.tid = some tid ∧ sub.job.table = t
  handed : ∀ tid, s.handouts tid ≠ [] →
    ∃ (c : ℕ) (sub : L2Submit), s.submits[c]? = some sub ∧ sub.tid = some tid

theorem accounted_start : start.Accounted where
  drawn := fun c sub tid h => by simp [start] at h
  distinct := fun c c' sub sub' tid h => by simp [start] at h
  unsubmitted := fun c sub h => by simp [start] at h
  own := fun c sub entry h => by simp [start] at h
  account := fun c sub tid h => by simp [start] at h
  waiting := fun t tid h => absurd (by cases t <;> rfl) h
  handed := fun tid h => absurd rfl h

section Account

variable {s s' : L2Tables} {c : ℕ} {sub : L2Submit} {tid : ℤ}

/-- Nothing waits for a task outside its own table. -/
theorem Accounted.other_table (h : s.Accounted) (hc : s.submits[c]? = some sub)
    (htid : sub.tid = some tid) {t : DoneTable} (hne : sub.job.table ≠ t) :
    s.table t tid = none := by
  by_contra hsome
  obtain ⟨c', sub', hc', htid', ht⟩ := h.waiting t tid hsome
  obtain rfl := h.distinct c c' sub sub' tid hc hc' htid htid'
  rw [hc] at hc'
  cases hc'
  exact hne ht

/-- Nothing is known of the id that is drawn next. -/
theorem Accounted.fresh (h : s.Accounted) :
    s.handouts s.next_id = [] ∧ ∀ t, s.table t s.next_id = none := by
  constructor
  · by_contra hne
    obtain ⟨c, sub, hc, htid⟩ := h.handed _ hne
    exact lt_irrefl _ (h.drawn c sub _ hc htid)
  · intro t
    by_contra hne
    obtain ⟨c, sub, hc, htid, -⟩ := h.waiting t _ hne
    exact lt_irrefl _ (h.drawn c sub _ hc htid)

/-- A submit call begins. -/
theorem Accounted.submit (h : s.Accounted) (job : L2Job) :
    Accounted { s with submits := s.submits ++ [⟨job, none, .unsubmitted⟩] } := by
  have hold : ∀ {c : ℕ} {sub : L2Submit}, s.submits[c]? = some sub →
      (s.submits ++ [⟨job, none, .unsubmitted⟩])[c]? = some sub := by
    intro c sub hc
    have hlt := (List.getElem?_eq_some_iff.mp hc).1
    rwa [List.getElem?_append_left hlt]
  -- the new call has no id, and no entry either
  have hids : ∀ {c : ℕ} {sub : L2Submit},
      (s.submits ++ [⟨job, none, .unsubmitted⟩])[c]? = some sub →
      sub.tid = none ∧ sub.worker.entry = none ∨ s.submits[c]? = some sub := by
    intro c sub hc
    rcases getElem?_concat_iff.mp hc with ⟨-, rfl⟩ | ⟨-, hc⟩
    · exact Or.inl ⟨rfl, rfl⟩
    · exact Or.inr hc
  constructor
  · intro c sub tid hc htid
    rcases hids hc with ⟨hnone, -⟩ | hc
    · rw [hnone] at htid
      cases htid
    · exact h.drawn c sub tid hc htid
  · intro c c' sub sub' tid hc hc' htid htid'
    rcases hids hc with ⟨hnone, -⟩ | hc
    · rw [hnone] at htid
      cases htid
    · rcases hids hc' with ⟨hnone, -⟩ | hc'
      · rw [hnone] at htid'
        cases htid'
      · exact h.distinct c c' sub sub' tid hc hc' htid htid'
  · intro c sub hc htid
    rcases hids hc with ⟨-, hentry⟩ | hc
    · exact hentry
    · exact h.unsubmitted c sub hc htid
  · intro c sub entry hc hentry
    rcases hids hc with ⟨-, hnone⟩ | hc
    · rw [hnone] at hentry
      cases hentry
    · exact h.own c sub entry hc hentry
  · intro c sub tid hc htid
    rcases hids hc with ⟨hnone, -⟩ | hc
    · rw [hnone] at htid
      cases htid
    · exact h.account c sub tid hc htid
  · intro t tid hne
    obtain ⟨c, sub, hc, hrest⟩ := h.waiting t tid hne
    exact ⟨c, sub, hold hc, hrest⟩
  · intro tid hne
    obtain ⟨c, sub, hc, hrest⟩ := h.handed tid hne
    exact ⟨c, sub, hold hc, hrest⟩

/-- An id is drawn. -/
theorem Accounted.alloc_id (h : s.Accounted) (hc : s.submits[c]? = some sub)
    (htid : sub.tid = none) :
    Accounted { s with
      submits := s.submits.set c { sub with tid := some s.next_id }
      next_id := s.next_id + 1 } := by
  -- whoever has an id keeps it
  have hold : ∀ {c' : ℕ} {sub' : L2Submit} {tid : ℤ}, s.submits[c']? = some sub' →
      sub'.tid = some tid →
      (s.submits.set c { sub with tid := some s.next_id })[c']? = some sub' := by
    intro c' sub' tid hc' htid'
    refine (getElem?_set_iff hc).mpr (Or.inr ⟨?_, hc'⟩)
    rintro rfl
    rw [hc] at hc'
    cases hc'
    rw [htid] at htid'
    cases htid'
  constructor
  · intro c' sub' tid hc' htid'
    rcases (getElem?_set_iff hc).mp hc' with ⟨-, rfl⟩ | ⟨-, hc'⟩
    · cases htid'
      exact Int.lt_succ _
    · exact (h.drawn c' sub' tid hc' htid').trans (Int.lt_succ _)
  · intro c₁ c₂ sub₁ sub₂ tid hc₁ hc₂ htid₁ htid₂
    rcases (getElem?_set_iff hc).mp hc₁ with ⟨rfl, rfl⟩ | ⟨-, hold₁⟩
    · cases htid₁
      rcases (getElem?_set_iff hc).mp hc₂ with ⟨rfl, -⟩ | ⟨-, hold₂⟩
      · rfl
      · exact absurd (h.drawn c₂ sub₂ _ hold₂ htid₂) (lt_irrefl _)
    · rcases (getElem?_set_iff hc).mp hc₂ with ⟨rfl, rfl⟩ | ⟨-, hold₂⟩
      · cases htid₂
        exact absurd (h.drawn c₁ sub₁ _ hold₁ htid₁) (lt_irrefl _)
      · exact h.distinct c₁ c₂ sub₁ sub₂ tid hold₁ hold₂ htid₁ htid₂
  · intro c' sub' hc' htid'
    rcases (getElem?_set_iff hc).mp hc' with ⟨-, rfl⟩ | ⟨-, hc'⟩
    · cases htid'
    · exact h.unsubmitted c' sub' hc' htid'
  · intro c' sub' entry hc' hentry
    rcases (getElem?_set_iff hc).mp hc' with ⟨-, rfl⟩ | ⟨-, hc'⟩
    · exact h.own c sub entry hc hentry
    · exact h.own c' sub' entry hc' hentry
  · intro c' sub' tid hc' htid'
    rcases (getElem?_set_iff hc).mp hc' with ⟨-, rfl⟩ | ⟨-, hc'⟩
    · cases htid'
      show s.handouts s.next_id ++ (s.table sub.job.table s.next_id).toList
        = sub.worker.entry.toList
      rw [h.fresh.1, h.fresh.2, h.unsubmitted c sub hc htid]
      rfl
    · exact h.account c' sub' tid hc' htid'
  · intro t tid hne
    obtain ⟨c', sub', hc', htid', ht⟩ := h.waiting t tid hne
    exact ⟨c', sub', hold hc' htid', htid', ht⟩
  · intro tid hne
    obtain ⟨c', sub', hc', htid'⟩ := h.handed tid hne
    exact ⟨c', sub', hold hc' htid', htid'⟩

/-- Before a worker has its entry nothing is known of its id. -/
theorem Accounted.before (h : s.Accounted) (hc : s.submits[c]? = some sub)
    (htid : sub.tid = some tid) (hentry : sub.worker.entry = none) :
    s.handouts tid = [] ∧ s.table sub.job.table tid = none := by
  have haccount := h.account c sub tid hc htid
  rw [hentry, Option.toList_none, List.append_eq_nil_iff] at haccount
  exact ⟨haccount.1, Option.toList_eq_nil_iff.mp haccount.2⟩

/-- A task moves on, and its entry, if it has one now, waits in its table. -/
theorem Accounted.work {worker : L2Worker} (h : s.Accounted) (hc : s.submits[c]? = some sub)
    (htid : sub.tid = some tid) (hbefore : sub.worker.entry = none)
    (hown : ∀ entry, worker.entry = some entry → entry.table = sub.job.table)
    (hsubmits : s'.submits = s.submits.set c { sub with worker := worker })
    (hnext : s'.next_id = s.next_id) (hhandouts : ∀ id, s'.handouts id = s.handouts id)
    (htable : ∀ t id, s'.table t id
      = if t = sub.job.table ∧ id = tid then worker.entry else s.table t id) :
    s'.Accounted := by
  -- every call is still there, with its arguments and its id
  have hnew : ∀ {c' : ℕ} {sub' : L2Submit}, s.submits[c']? = some sub' →
      ∃ sub'', s'.submits[c']? = some sub'' ∧ sub''.tid = sub'.tid ∧ sub''.job = sub'.job := by
    intro c' sub' hc'
    rw [hsubmits]
    by_cases hcc : c' = c
    · subst hcc
      rw [hc] at hc'
      cases hc'
      exact ⟨_, getElem?_set_at hc, rfl, rfl⟩
    · exact ⟨sub', by rwa [List.getElem?_set_ne (Ne.symm hcc)], rfl, rfl⟩
  have hold : ∀ {c' : ℕ} {sub' : L2Submit}, s'.submits[c']? = some sub' →
      (c' = c ∧ sub' = { sub with worker := worker }) ∨
        (c' ≠ c ∧ s.submits[c']? = some sub') := by
    intro c' sub' hc'
    rw [hsubmits] at hc'
    exact (getElem?_set_iff hc).mp hc'
  have hids : ∀ {c' : ℕ} {sub' : L2Submit} {tid' : ℤ}, s'.submits[c']? = some sub' →
      sub'.tid = some tid' → ∃ sub'', s.submits[c']? = some sub'' ∧ sub''.tid = some tid' := by
    intro c' sub' tid' hc' htid'
    rcases hold hc' with ⟨rfl, rfl⟩ | ⟨-, hc'⟩
    · exact ⟨sub, hc, htid'⟩
    · exact ⟨sub', hc', htid'⟩
  constructor
  · intro c' sub' tid' hc' htid'
    obtain ⟨sub'', hc'', htid''⟩ := hids hc' htid'
    rw [hnext]
    exact h.drawn c' sub'' tid' hc'' htid''
  · intro c₁ c₂ sub₁ sub₂ tid' hc₁ hc₂ htid₁ htid₂
    obtain ⟨sub₁', hc₁', htid₁'⟩ := hids hc₁ htid₁
    obtain ⟨sub₂', hc₂', htid₂'⟩ := hids hc₂ htid₂
    exact h.distinct c₁ c₂ sub₁' sub₂' tid' hc₁' hc₂' htid₁' htid₂'
  · intro c' sub' hc' htid'
    rcases hold hc' with ⟨rfl, rfl⟩ | ⟨-, hc'⟩
    · rw [show sub.tid = none from htid'] at htid
      cases htid
    · exact h.unsubmitted c' sub' hc' htid'
  · intro c' sub' entry hc' hentry
    rcases hold hc' with ⟨rfl, rfl⟩ | ⟨-, hc'⟩
    · exact hown entry hentry
    · exact h.own c' sub' entry hc' hentry
  · intro c' sub' tid' hc' htid'
    rw [hhandouts, htable]
    rcases hold hc' with ⟨rfl, rfl⟩ | ⟨hne, hc'⟩
    · obtain rfl : tid = tid' := Option.some.inj (htid.symm.trans htid')
      rw [if_pos ⟨rfl, rfl⟩, (h.before hc htid hbefore).1, List.nil_append]
    · rw [if_neg]
      · exact h.account c' sub' tid' hc' htid'
      · rintro ⟨-, rfl⟩
        exact hne (h.distinct c' c sub' sub tid' hc' hc htid' htid)
  · intro t tid' hne
    rw [htable] at hne
    split_ifs at hne with hboth
    · obtain ⟨rfl, rfl⟩ := hboth
      obtain ⟨sub'', hc'', htid'', hjob⟩ := hnew hc
      exact ⟨c, sub'', hc'', htid''.trans htid, congrArg L2Job.table hjob⟩
    · obtain ⟨c', sub', hc', htid', ht⟩ := h.waiting t tid' hne
      obtain ⟨sub'', hc'', htid'', hjob⟩ := hnew hc'
      exact ⟨c', sub'', hc'', htid''.trans htid', (congrArg L2Job.table hjob).trans ht⟩
  · intro tid' hne
    rw [hhandouts] at hne
    obtain ⟨c', sub', hc', htid'⟩ := h.handed tid' hne
    obtain ⟨sub'', hc'', htid'', -⟩ := hnew hc'
    exact ⟨c', sub'', hc'', htid''.trans htid'⟩

/-- A task is passed to its executor. -/
theorem Accounted.executor_submit (h : s.Accounted) (hc : s.submits[c]? = some sub)
    (htid : sub.tid = some tid) (hworker : sub.worker = .unsubmitted) :
    Accounted { s with submits := s.submits.set c { sub with worker := .submitted } } := by
  have hbefore : sub.worker.entry = none := by rw [hworker]; rfl
  refine h.work hc htid hbefore (fun entry hentry => ?_) rfl rfl (fun _ => rfl) fun t id => ?_
  · cases hentry
  · split_ifs with hboth
    · obtain ⟨rfl, rfl⟩ := hboth
      exact (h.before hc htid hbefore).2
    · rfl

/-- A worker stores its entry. -/
theorem Accounted.complete (h : s.Accounted) (hc : s.submits[c]? = some sub)
    (htid : sub.tid = some tid) (hworker : sub.worker = .submitted) {entry : L2Done}
    (hentry : entry.table = sub.job.table) :
    Accounted ({ s with
      submits := s.submits.set c { sub with worker := .finished entry } }.put_done tid entry) := by
  have hbefore : sub.worker.entry = none := by rw [hworker]; rfl
  refine h.work hc htid hbefore (fun entry' hentry' => ?_) (put_done_submits _ _ _)
    (put_done_next_id _ _ _) (fun id => put_done_handouts _ _ _ id) fun t id => ?_
  · cases hentry'
    exact hentry
  · rw [put_done_table, hentry]
    rfl

/-- Entries are handed out. -/
theorem Accounted.takes {t : DoneTable} {D : ℤ → Bool} (h : s.Accounted)
    (ht : Takes t D s s') : s'.Accounted := by
  constructor
  · intro c sub tid hc htid
    rw [ht.submits] at hc
    rw [ht.next_id]
    exact h.drawn c sub tid hc htid
  · intro c c' sub sub' tid hc hc' htid htid'
    rw [ht.submits] at hc hc'
    exact h.distinct c c' sub sub' tid hc hc' htid htid'
  · intro c sub hc htid
    rw [ht.submits] at hc
    exact h.unsubmitted c sub hc htid
  · intro c sub entry hc hentry
    rw [ht.submits] at hc
    exact h.own c sub entry hc hentry
  · intro c sub tid hc htid
    rw [ht.submits] at hc
    rw [ht.handouts, ht.table, ← h.account c sub tid hc htid]
    by_cases hD : D tid = true
    · by_cases htable : sub.job.table = t
      · rw [if_pos hD, if_pos ⟨htable, hD⟩, htable, Option.toList_none, List.append_nil]
      · -- the id is one of another table, which has nothing for it
        rw [if_pos hD, if_neg fun hboth => htable hboth.1, h.other_table hc htid htable,
          Option.toList_none, List.append_nil]
    · rw [if_neg hD, if_neg fun hboth => hD hboth.2, List.append_nil]
  · intro t' tid hne
    rw [ht.submits]
    rw [ht.table] at hne
    split_ifs at hne with hboth
    · exact absurd rfl hne
    · exact h.waiting t' tid hne
  · intro tid hne
    rw [ht.submits]
    by_cases hbefore : s.handouts tid = []
    · rw [ht.handouts, hbefore, List.nil_append] at hne
      split_ifs at hne with hD
      · have hsome : s.table t tid ≠ none := by
          intro hnone
          rw [hnone] at hne
          exact hne rfl
        obtain ⟨c, sub, hc, htid, -⟩ := h.waiting t tid hsome
        exact ⟨c, sub, hc, htid⟩
      · exact absurd rfl hne
    · exact h.handed tid hbefore

/-- **Every step keeps the account.** -/
theorem accounted_step {plugin : L2Plugin} {call : L2Call} (h : s.Accounted)
    (hstep : s.step plugin call = some s') : s'.Accounted := by
  cases call with
  | submit job =>
    cases hstep
    exact h.submit job
  | alloc_id c =>
    dsimp only [step] at hstep
    split at hstep
    · next job worker hc =>
      cases hstep
      exact h.alloc_id hc rfl
    · cases hstep
  | executor_submit c =>
    dsimp only [step] at hstep
    split at hstep
    · next job tid hc =>
      cases hstep
      exact h.executor_submit hc rfl rfl
    · cases hstep
  | complete c r =>
    dsimp only [step] at hstep
    split at hstep
    · next job tid hc =>
      cases hstep
      exact h.complete hc rfl rfl (plugin.completion_table job r)
    · cases hstep
  | pop_completed_store_tasks =>
    cases hstep
    exact h.takes takes_pop
  | query_lookup_and_lock_result task_id =>
    cases hstep
    exact h.takes (takes_query_lookup task_id)
  | query_load_result task_id =>
    cases hstep
    exact h.takes (takes_query_load task_id)

theorem accounted_run {plugin : L2Plugin} {calls : List L2Call}
    (h : Run (takes (step plugin)) start calls s) : s.Accounted :=
  h.invariant accounted_start fun _ _ _ hinv hstep => accounted_step hinv hstep

end Account

end L2Tables

/-- **No completion is lost, duplicated or mixed up.**  In every run of the L2 plugin's
calls, workers and queries: no two submit calls have the same id; the entry of a finished
task, one of its own kind, either waits in its own table and no call has handed it out, or
it is gone from there and exactly one call has handed it out; and what a call hands out for an
id is the entry of a finished task with this id. -/
theorem l2_completions {plugin : L2Plugin} {calls : List L2Call} {s : L2Tables}
    (h : Run (takes (L2Tables.step plugin)) L2Tables.start calls s) :
    (∀ (c c' : ℕ) sub sub' tid, s.submits[c]? = some sub → s.submits[c']? = some sub' →
      sub.tid = some tid → sub'.tid = some tid → c = c') ∧
    (∀ (c : ℕ) job tid entry, s.submits[c]? = some ⟨job, some tid, .finished entry⟩ →
      entry.table = job.table ∧
        (s.table job.table tid = some entry ∧ s.handouts tid = [] ∨
          s.table job.table tid = none ∧ s.handouts tid = [entry])) ∧
    (∀ a ∈ s.answers, ∀ tid entry, a.handsOut tid = some entry →
      ∃ (c : ℕ) (job : L2Job), s.submits[c]? = some ⟨job, some tid, .finished entry⟩) := by
  have hinv := L2Tables.accounted_run h
  refine ⟨hinv.distinct, ?_, ?_⟩
  · intro c job tid entry hc
    have haccount := hinv.account c _ tid hc rfl
    refine ⟨hinv.own c _ entry hc rfl, ?_⟩
    cases hwaiting : s.table job.table tid with
    | none =>
      rw [hwaiting, Option.toList_none, List.append_nil] at haccount
      exact Or.inr ⟨rfl, haccount⟩
    | some entry' =>
      rw [hwaiting] at haccount
      obtain ⟨hnone, hone⟩ : s.handouts tid = [] ∧ entry' = entry := by
        simpa [L2Worker.entry, List.append_eq_singleton_iff] using haccount
      rw [hone]
      exact Or.inl ⟨rfl, hnone⟩
  · intro a ha tid entry hout
    have hmem : entry ∈ s.handouts tid := List.mem_filterMap.mpr ⟨a, ha, hout⟩
    obtain ⟨c, ⟨job, tid', worker⟩, hc, htid⟩ := hinv.handed tid (List.ne_nil_of_mem hmem)
    obtain rfl : tid' = some tid := htid
    have haccount := hinv.account c _ tid hc rfl
    have hentry : entry ∈ worker.entry.toList := by
      rw [← haccount]
      exact List.mem_append_left _ hmem
    cases worker with
    | unsubmitted => cases hentry
    | submitted => cases hentry
    | finished entry' =>
      obtain rfl : entry = entry' := List.mem_singleton.mp hentry
      exact ⟨c, job, hc⟩

/-- A store and a load whose ids are drawn in the other order, asked for by the wrong query
and then twice by the right one. -/
def crossedCalls : List L2Call :=
  [.submit (.store [⟨[1], "llama".toList, 0, []⟩] [{ byte_array := [1, 2] }]),
    .submit (.load [⟨[2], "llama".toList, 0, []⟩] [{ byte_array := [0, 0] }]),
    .alloc_id 1, .alloc_id 0, .executor_submit 0, .executor_submit 1,
    .complete 1 (.ok [true]), .query_lookup_and_lock_result 0, .query_load_result 0,
    .query_load_result 0, .complete 0 (.ok [true]), .pop_completed_store_tasks,
    .pop_completed_store_tasks]

theorem l2_completions_crossed :
    ∃ s, execute (L2Tables.step fakeL2Plugin) L2Tables.start crossedCalls = some s ∧
      (s.table .store 1 = some (.store ⟨true, 2⟩) ∧ s.handouts 1 = [] ∨
        s.table .store 1 = none ∧ s.handouts 1 = [.store ⟨true, 2⟩]) ∧
      s.handouts 0 = [.load [true]] ∧ s.answers.length = 5 := by
  have hrun : Run (takes (L2Tables.step fakeL2Plugin)) L2Tables.start crossedCalls _ :=
    run_of_execute rfl
  refine ⟨_, rfl, ?_, ?_, rfl⟩
  · exact ((l2_completions hrun).2.1 0 _ 1 _ rfl).2
  · rfl
