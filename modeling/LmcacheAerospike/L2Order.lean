/-
# Batches come back in order

The chunk calls of a task complete in any order, and what they answer is put together by the
index of the chunk; inside the engine a chunk is cut once more and put together by the
position of the item.  So the answer for an item stands at its own position
(`outcome_positions`), whatever the schedule: bit `i` of a load task is set exactly when item
`i` was loaded, and a store task counts the sizes of the objects whose own put succeeded
(`l2_batches_order_independent`).
-/
import LmcacheAerospike.BatchedLoad
import LmcacheAerospike.BatchedStore
import LmcacheAerospike.L2Close

namespace L2Executors

variable {ρ α : Type} {p : L2Executors ρ α} {s : L2State ρ}

/-! ## The outcome of a task by position -/

variable (p) in
/-- Call `idx` of the chunk function for the request is made with these items. -/
def Called (req : ρ) (idx : ℕ) (chunk : List α) : Prop :=
  if p.direct req = true then idx = 0 ∧ chunk = p.items req
  else (p.chunks req)[idx]? = some chunk

variable (p) in
/-- No chunk call of the task raises. -/
def Answered (tid : ℕ) (req : ρ) : Prop :=
  ∀ idx chunk, p.Called req idx chunk → ∃ flags, p.call tid idx chunk = .ok flags

/-- A task none of whose chunk calls raises has an outcome. -/
theorem outcome_of_answered {tid : ℕ} {req : ρ} (h : p.Answered tid req) :
    ∃ results, p.outcome tid req = some results := by
  unfold Answered Called at h
  unfold outcome
  by_cases hd : p.direct req = true
  · obtain ⟨flags, hflags⟩ := h 0 (p.items req) (by rw [if_pos hd]; exact ⟨rfl, rfl⟩)
    rw [if_pos hd, hflags]
    exact ⟨flags, rfl⟩
  · rw [if_neg hd]
    cases hall : gathered ((p.chunks req).mapIdx fun idx chunk =>
        (p.call tid idx chunk).toOption) with
    | some results => exact ⟨results, rfl⟩
    | none =>
      obtain ⟨idx, hidx⟩ := gathered_eq_none_iff.mp hall
      rw [List.getElem?_mapIdx] at hidx
      obtain ⟨chunk, hchunk, hnone⟩ := Option.map_eq_some_iff.mp hidx
      obtain ⟨flags, hflags⟩ := h idx chunk (by rw [if_neg hd]; exact hchunk)
      rw [hflags] at hnone
      cases hnone

/-- One more chunk. -/
theorem gathered_cons (part : Option (List Bool)) (ordered : List (Option (List Bool))) :
    gathered (part :: ordered)
      = part.bind fun first => (gathered ordered).map fun rest => first ++ rest := by
  cases part with
  | none => rfl
  | some first =>
    unfold gathered
    rw [List.all_cons]
    by_cases hall : ordered.all Option.isSome = true
    · rw [hall]
      rfl
    · rw [Bool.not_eq_true] at hall
      rw [hall]
      rfl

/-- The answers of all chunks, put together by their index. -/
theorem gathered_chunks {f : ℕ → α → Bool} (call : ℕ → List α → Option (List Bool))
    (hcall : ∀ idx chunk flags, call idx chunk = some flags → flags = chunk.map (f idx))
    (chunks : List (List α)) {results : List Bool}
    (h : gathered (chunks.mapIdx call) = some results) :
    results = (chunks.mapIdx fun idx chunk => chunk.map (f idx)).flatten := by
  induction chunks generalizing f call results with
  | nil =>
    cases h
    rfl
  | cons chunk chunks ih =>
    rw [List.mapIdx_cons, gathered_cons] at h
    obtain ⟨first, hfirst, hmap⟩ := Option.bind_eq_some_iff.mp h
    obtain ⟨rest, hrest, rfl⟩ := Option.map_eq_some_iff.mp hmap
    have hih := ih (f := fun idx => f (idx + 1)) (fun idx => call (idx + 1))
      (fun idx => hcall (idx + 1)) hrest
    rw [List.mapIdx_cons, List.flatten_cons, ← hcall 0 chunk first hfirst, hih]

/-- The chunks put together, each changed by a function of its index. -/
theorem flatten_mapIdx_chunked {β : Type} {n : ℕ} (hn : 0 < n) (f : ℕ → α → β) (l : List α) :
    ((Engine.chunked l n).mapIdx fun idx chunk => chunk.map (f idx)).flatten
      = l.mapIdx fun i a => f (i / n) a := by
  have hreach : (l.mapIdx fun i a => f (i / n) a).length ≤ l.length ⌈/⌉ n * n := by
    rw [List.length_mapIdx, Nat.mul_comm]
    exact le_smul_ceilDiv hn
  rw [← flatMap_slice_of_le n _ _ hreach]
  simp only [slice_mapIdx hn]
  rw [List.flatMap_def]
  congr 1
  apply List.ext_getElem?
  intro idx
  rw [List.getElem?_mapIdx, Engine.chunked, List.getElem?_map, List.getElem?_map,
    Option.map_map]
  cases hidx : (List.range (l.length ⌈/⌉ n))[idx]? with
  | none => rfl
  | some j =>
    obtain ⟨hlt, hj⟩ := List.getElem?_eq_some_iff.mp hidx
    rw [List.getElem_range] at hj
    subst hj
    rfl

/-- Items that are passed on as they are lie in the first chunk. -/
theorem div_eq_zero_of_direct {req : ρ} (h : p.direct req = true) {i : ℕ}
    (hi : i < (p.items req).length) : i / p.chunk_size = 0 := by
  have hpos := p.chunk_size_pos
  have hle : (p.items req).length ≤ p.chunk_size := by
    unfold direct at h
    rw [Bool.or_eq_true, decide_eq_true_iff, decide_eq_true_iff] at h
    rcases h with hle | hone
    · exact hle
    · unfold chunks Engine.chunked at hone
      rw [List.length_map, List.length_range] at hone
      have hmul := (ceilDiv_le_iff_le_mul hpos).mp (Nat.le_of_eq hone)
      omega
  exact Nat.div_eq_of_lt (by omega)

/-- **The answer for an item stands at its position**, when each chunk call answers for its
items one by one. -/
theorem outcome_positions {tid : ℕ} {req : ρ} {f : ℕ → α → Bool}
    (hcall : ∀ idx chunk flags, p.call tid idx chunk = .ok flags → flags = chunk.map (f idx))
    {results : List Bool} (h : p.outcome tid req = some results) :
    results = (p.items req).mapIdx fun i a => f (i / p.chunk_size) a := by
  have hsome : ∀ idx chunk flags, (p.call tid idx chunk).toOption = some flags →
      flags = chunk.map (f idx) := by
    intro idx chunk flags hflags
    cases hc : p.call tid idx chunk with
    | error e =>
      rw [hc] at hflags
      cases hflags
    | ok flags' =>
      rw [hc] at hflags
      cases hflags
      exact hcall idx chunk _ hc
  unfold outcome at h
  by_cases hd : p.direct req = true
  · rw [if_pos hd] at h
    rw [hsome 0 _ _ h]
    apply List.ext_getElem?
    intro i
    rw [List.getElem?_map, List.getElem?_mapIdx]
    cases hi : (p.items req)[i]? with
    | none => rfl
    | some a =>
      rw [div_eq_zero_of_direct hd (List.getElem?_eq_some_iff.mp hi).1]
  · rw [if_neg hd] at h
    rw [gathered_chunks _ hsome _ h]
    exact flatten_mapIdx_chunked p.chunk_size_pos f (p.items req)

/-- `close()` is not called. -/
def NoClose (_ : L2State ρ) (a : L2Action ρ) : Prop := a ≠ .close

/-- Without `close()` both executors stay open. -/
theorem closing_of_noClose (ha : NoClose s a) (hstep : p.step s a = some s') :
    s'.closing = s.closing := by
  rcases step_cases hstep with ⟨req, -, -, rfl⟩ | ⟨closing, hclose, -, -⟩ |
    ⟨tid, task, task', -, -, rfl⟩
  · rfl
  · exact absurd hclose ha
  · rfl

theorem acceptsBefore_of_open (h : s.closing = .open_) (a : L2Action ρ) : AcceptsBefore s a := by
  unfold AcceptsBefore
  split
  · exact h
  · trivial

theorem closesSubmitted_of_noClose (ha : NoClose s a) : p.ClosesSubmitted s a := by
  unfold ClosesSubmitted
  split
  · exact absurd rfl ha
  · trivial

/-- Without `close()` every task comes to its outcome. -/
theorem undisturbed_of_noClose {as : List (L2Action ρ)}
    (h : Run (guarded NoClose (takes p.step)) L2State.empty as s) : p.Undisturbed s := by
  have hinv : s.closing = .open_ ∧ p.Undisturbed s := by
    induction h with
    | start => exact ⟨rfl, undisturbed_empty⟩
    | @step _ s₁ s₂ a _ hstep ih =>
      obtain ⟨hopen, hundisturbed⟩ := ih
      exact ⟨(closing_of_noClose hstep.1 hstep.2).trans hopen, hundisturbed.step
        (acceptsBefore_of_open hopen a) (closesSubmitted_of_noClose hstep.1) hstep.2⟩
  exact hinv.2

/-- **What a task is done with**, when none of its chunk calls raises. -/
theorem done_positions {as : List (L2Action ρ)}
    (h : Run (guarded NoClose (takes p.step)) L2State.empty as s) {tid : ℕ} {task : L2Task ρ}
    {r : Except PyExc (List Bool)} (htask : s.tasks[tid]? = some task)
    (hr : task.stage = .done r) (hanswered : p.Answered tid task.req) {f : ℕ → α → Bool}
    (hcall : ∀ idx chunk flags, p.call tid idx chunk = .ok flags → flags = chunk.map (f idx)) :
    r = .ok ((p.items task.req).mapIdx fun i a => f (i / p.chunk_size) a) := by
  have hdone := (undisturbed_of_noClose h).doneOk tid task htask r hr
  obtain ⟨results, hresults⟩ := outcome_of_answered hanswered
  rw [hresults] at hdone
  cases r with
  | error e => cases hdone
  | ok results' =>
    cases hdone
    rw [outcome_positions hcall hresults]

end L2Executors

/-! ## The engine's answers -/

namespace L2Plugin

variable (plugin : L2Plugin)

/-- Chunk call `idx` of a load task, made on the store `σ idx` that refuses the operations in
`R idx`. -/
def load_call (R : ℕ → Refusals) (σ : ℕ → World) (idx : ℕ) (chunk : List (Text × MemoryObj)) :
    Except PyExc (List Bool) :=
  ((plugin.engine.batched_get_preallocated chunk).run (R idx).call (σ idx)).1.map
    fun results => results.map Option.isSome

/-- Chunk call `idx` of a store task. -/
def store_call (R : ℕ → Refusals) (σ : ℕ → World) (idx : ℕ) (chunk : List (Text × MemoryObj)) :
    Except PyExc (List Bool) :=
  ((plugin.engine.batched_put chunk false).run (R idx).call (σ idx)).1

variable {plugin} {R : ℕ → Refusals} {σ : ℕ → World}

/-- A chunk of loads is answered item by item. -/
theorem load_call_flags (htorch : plugin.engine.TorchRaises) {idx : ℕ}
    {chunk : List (Text × MemoryObj)} {flags : List Bool}
    (h : plugin.load_call R σ idx chunk = .ok flags) :
    flags = chunk.map fun item => ((R idx).loads plugin.engine (σ idx) item.1 item.2).isSome := by
  unfold load_call at h
  rcases hrun : (plugin.engine.batched_get_preallocated chunk).run (R idx).call (σ idx) with
    ⟨r, w⟩
  rw [hrun] at h
  cases r with
  | error e => cases h
  | ok results =>
    cases h
    dsimp only
    rw [(run_batched_get htorch hrun).2, List.map_map]
    rfl

/-- A chunk of stores is answered item by item. -/
theorem store_call_flags {idx : ℕ} {chunk : List (Text × MemoryObj)} {flags : List Bool}
    (h : plugin.store_call R σ idx chunk = .ok flags) :
    flags = chunk.map ((R idx).puts plugin.engine false (σ idx).now) := by
  have hends : BatchEnds (R idx) plugin.engine false chunk (σ idx)
      ((plugin.engine.batched_put chunk false).run (R idx).call (σ idx)) :=
    run_batched_put chunk (σ idx)
  obtain ⟨stored, -, -, hflags, -⟩ := hends
  exact (hflags flags h).1

/-- The pairs that succeeded, summed over all pairs. -/
theorem sum_succeeded (size : ObjectKey × MemoryObj → ℕ) (pairs : List (ObjectKey × MemoryObj))
    (flag : ℕ → ObjectKey × MemoryObj → Bool) :
    ((succeeded pairs (pairs.mapIdx flag)).map size).sum
      = (pairs.mapIdx fun i pair => if flag i pair then size pair else 0).sum := by
  induction pairs generalizing flag with
  | nil => rfl
  | cons pair pairs ih =>
    have hrest := ih fun i => flag (i + 1)
    unfold succeeded at hrest ⊢
    rw [List.mapIdx_cons, List.mapIdx_cons, List.zip_cons_cons, List.sum_cons, ← hrest]
    cases hflag : flag 0 pair with
    | true => simp
    | false => simp

/-- **The bitmap of a load task** whose answers stand at their positions. -/
theorem load_sync_positions {req : L2Request} (hlen : req.keys.length = req.objects.length)
    {f : ℕ → Text × MemoryObj → Bool} {i : ℕ} {key : ObjectKey} {mo : MemoryObj}
    (hkey : req.keys[i]? = some key) (hmo : req.objects[i]? = some mo) :
    (load_sync req (.ok ((plugin.items req).mapIdx f)))[i]?
      = some (f i (plugin.to_ck key, mo)) := by
  unfold load_sync
  dsimp only
  rw [set_hits_zeros]
  · have hpair : (req.keys.zip req.objects)[i]? = some (key, mo) :=
      List.getElem?_zip_eq_some.mpr ⟨hkey, hmo⟩
    rw [List.getElem?_mapIdx, items, List.getElem?_map, hpair]
    rfl
  · rw [List.length_mapIdx, items, List.length_map, List.length_zip, hlen, Nat.min_self]

/-- **The total of a store task** whose answers stand at their positions. -/
theorem store_sync_positions {req : L2Request} (f : ℕ → Text × MemoryObj → Bool) :
    (plugin.store_sync req (.ok ((plugin.items req).mapIdx f))).total
      = ((req.keys.zip req.objects).mapIdx fun i pair =>
          if f i (plugin.to_ck pair.1, pair.2) then plugin.get_size pair.2 else 0).sum := by
  unfold store_sync
  dsimp only
  rw [tally_eq]
  dsimp only
  have hitems : (plugin.items req).mapIdx f
      = (req.keys.zip req.objects).mapIdx fun i pair => f i (plugin.to_ck pair.1, pair.2) := by
    apply List.ext_getElem?
    intro i
    rw [List.getElem?_mapIdx, List.getElem?_mapIdx, items, List.getElem?_map, Option.map_map]
    rfl
  rw [hitems, Nat.zero_add, sum_succeeded]

end L2Plugin

/-- **Parallel batches are independent of the order** in which their chunk calls complete.  For
a chunk function that, when it returns, has an answer for each item that the item determines, a
task none of whose chunk calls raises is done with the answers of its items in their order; and
every task comes to its end.  With the engine's calls, each made on a store and under refusals
of its own, bit `i` of a load task is set exactly when `get` loads item `i`, and a store task
counts the sizes of the objects whose own put succeeds. -/
theorem l2_batches_order_independent :
    (∀ {ρ α : Type} (p : L2Executors ρ α) (f : α → Bool) (as : List (L2Action ρ))
      (s : L2State ρ),
      (∀ tid idx chunk flags, p.call tid idx chunk = .ok flags → flags = chunk.map f) →
      Run (guarded L2Executors.NoClose (takes p.step)) L2State.empty as s →
        p.Completes s ∧
          ∀ (tid : ℕ) (task : L2Task ρ) (r : Except PyExc (List Bool)),
            s.tasks[tid]? = some task → task.stage = .done r → p.Answered tid task.req →
              r = .ok ((p.items task.req).map f)) ∧
    ∀ (plugin : L2Plugin) (p : L2Executors L2Request (Text × MemoryObj)) (R : ℕ → Refusals)
      (σ : ℕ → World) (as : List (L2Action L2Request)) (s : L2State L2Request) (tid : ℕ)
      (task : L2Task L2Request) (r : Except PyExc (List Bool)),
      plugin.engine.TorchRaises → p.items = plugin.items →
      Run (guarded L2Executors.NoClose (takes p.step)) L2State.empty as s →
      s.tasks[tid]? = some task → task.stage = .done r → p.Answered tid task.req →
      task.req.keys.length = task.req.objects.length →
        (task.req.kind = .load →
          (∀ idx chunk, p.call tid idx chunk = plugin.load_call R σ idx chunk) →
          ∃ bm, plugin.result task.req r = .loaded bm ∧
            ∀ (i : ℕ) (key : ObjectKey) (mo : MemoryObj),
              task.req.keys[i]? = some key → task.req.objects[i]? = some mo →
                bm[i]? = some ((R (i / p.chunk_size)).loads plugin.engine
                  (σ (i / p.chunk_size)) (plugin.to_ck key) mo).isSome) ∧
        (task.req.kind = .store →
          (∀ idx chunk, p.call tid idx chunk = plugin.store_call R σ idx chunk) →
          ∃ result, plugin.result task.req r = .stored result ∧
            result.total = ((task.req.keys.zip task.req.objects).mapIdx fun i pair =>
              if (R (i / p.chunk_size)).puts plugin.engine false (σ (i / p.chunk_size)).now
                (plugin.to_ck pair.1, pair.2) then plugin.get_size pair.2 else 0).sum) := by
  constructor
  · intro ρ α p f as s hcall h
    refine ⟨L2Executors.completes_of_taskOk (L2Executors.taskOk_of_run h.unguarded), ?_⟩
    intro tid task r htask hr hanswered
    rw [L2Executors.done_positions (f := fun _ => f) h htask hr hanswered
      fun idx chunk flags => hcall tid idx chunk flags]
    congr 1
    apply List.ext_getElem?
    intro i
    rw [List.getElem?_mapIdx, List.getElem?_map]
  · intro plugin p R σ as s tid task r htorch hitems h htask hr hanswered hlen
    constructor
    · intro hkind hcall
      have hr' := L2Executors.done_positions h htask hr hanswered
        fun idx chunk flags hflags =>
          L2Plugin.load_call_flags htorch ((hcall idx chunk).symm.trans hflags)
      subst hr'
      refine ⟨_, by rw [L2Plugin.result, hkind], fun i key mo hkey hmo => ?_⟩
      rw [hitems]
      exact L2Plugin.load_sync_positions hlen hkey hmo
    · intro hkind hcall
      have hr' := L2Executors.done_positions h htask hr hanswered
        fun idx chunk flags hflags =>
          L2Plugin.store_call_flags ((hcall idx chunk).symm.trans hflags)
      subst hr'
      refine ⟨_, by rw [L2Plugin.result, hkind], ?_⟩
      dsimp only
      rw [hitems]
      exact L2Plugin.store_sync_positions _

/-- The executors of a plugin whose client refuses nothing. -/
def acceptingExecutors : L2Executors L2Request (Text × MemoryObj) :=
  fakeL2Plugin.executors fun _ => fakeL2Plugin.store_call (fun _ => .nothing) fun _ => World.empty

/-- The two chunk calls of a task of 33 items complete in the other order; and a store of one
object of two bytes. -/
theorem l2_batches_order_independent_two_chunks :
    fakeL2Executors.Completes (storeDone .open_) ∧
      Except.ok (List.replicate 33 true)
        = (.ok ((fakeL2Plugin.items (storeRequest 33)).map fun _ => true) :
          Except PyExc (List Bool)) ∧
      ∃ result, fakeL2Plugin.result (storeRequest 1) (.ok [true]) = .stored result ∧
        result.total = 2 := by
  have hrun : Run (guarded L2Executors.NoClose (takes fakeL2Executors.step)) L2State.empty
      [.submit (storeRequest 33), .start 0, .submit_chunk 0, .submit_chunk 0,
        .start_chunk 0 0, .start_chunk 0 1, .finish_chunk 0 1, .finish_chunk 0 0,
        .gather 0 1, .gather 0 0] (storeDone .open_) :=
    guarded_run_of_execute rfl (by simp [L2Executors.NoClose])
  obtain ⟨hcompletes, hdone⟩ := l2_batches_order_independent.1 fakeL2Executors (fun _ => true) _ _
    (fun tid idx chunk flags h => by cases h; rfl) hrun
  have hrun' : Run (guarded L2Executors.NoClose (takes acceptingExecutors.step)) L2State.empty
      [.submit (storeRequest 1), .start 0, .answer 0]
      ⟨[⟨storeRequest 1, .done (.ok [true]), []⟩], .open_⟩ :=
    guarded_run_of_execute rfl (by simp [L2Executors.NoClose])
  have hanswered : acceptingExecutors.Answered 0 (storeRequest 1) := by
    intro idx chunk hcalled
    obtain ⟨rfl, rfl⟩ := hcalled
    exact ⟨[true], rfl⟩
  obtain ⟨-, hstore⟩ := l2_batches_order_independent.2 fakeL2Plugin acceptingExecutors
    (fun _ => .nothing) (fun _ => World.empty) _ _ 0 _ _
    (fun bytes exc h => by
      have h' : fakeFrombuffer bytes = .error (.aerospike exc) := h
      unfold fakeFrombuffer at h'
      split_ifs at h'
      cases h') rfl hrun' rfl rfl hanswered rfl
  obtain ⟨result, hresult, htotal⟩ := hstore rfl fun _ _ => rfl
  refine ⟨hcompletes, hdone 0 _ _ rfl rfl (fun idx chunk _ => ⟨_, rfl⟩), result, hresult, ?_⟩
  rw [htotal]
  rfl
