/-
# Batched gets

`batched_get` and `batched_get_non_blocking` of `connector.py`, and
`batched_get_non_blocking` of `storage_plugin.py`.  All three hand out the objects of `get`,
each with one reference, and what they do not hand out they have to give back.

The connector's non-blocking get gathers the gets of all keys and does give back what comes
after the first failure, in any order of the gets (`non_blocking_get_exact`).  The
storage plugin gets one key after the other; an exception leaves the loop with the objects
that it has (`plugin_get_honours_contract_iff`).  So it is with `batched_get`, which moreover
hands out the one object of a repeated key at each of its positions
(`batched_get_balanced_iff`).
-/
import Mathlib.Data.List.Nodup
import Mathlib.Data.List.Perm.Basic
import Mathlib.Data.List.ReduceOption
import LmcacheAerospike.Gather
import LmcacheAerospike.ConfigParsing

/-! ## Outcomes and references -/

/-- What `get` ends with: an object, with one reference, or `None`, or an exception. -/
abbrev GetOutcome (Exn Obj : Type) : Type := Except Exn (Option Obj)

/-- The object that a `get` has obtained. -/
def hit {Exn Obj : Type} : GetOutcome Exn Obj → Option Obj
  | .ok result => result
  | .error _ => none

/-- `isinstance(result, MemoryObj)`. -/
def is_hit {Exn Obj : Type} (outcome : GetOutcome Exn Obj) : Bool := (hit outcome).isSome

/-- The objects that a call has obtained, and those that it has called `ref_count_down` on. -/
structure References (Obj : Type) : Type where
  obtained : List Obj
  released : List Obj
  deriving DecidableEq, Repr

def References.obtain {Obj : Type} (refs : References Obj) (result : Option Obj) :
    References Obj :=
  { refs with obtained := refs.obtained ++ result.toList }

section Outcomes

variable {Exn Obj : Type} {outcome : GetOutcome Exn Obj} {outcomes : List (GetOutcome Exn Obj)}

@[simp] theorem hit_some (mo : Obj) : hit (.ok (some mo) : GetOutcome Exn Obj) = some mo := rfl

theorem exists_of_is_hit (h : is_hit outcome = true) : ∃ mo, outcome = .ok (some mo) := by
  rcases outcome with e | _ | mo
  · cases h
  · cases h
  · exact ⟨mo, rfl⟩

theorem not_hit_cases (h : is_hit outcome = false) :
    outcome = .ok none ∨ ∃ e, outcome = .error e := by
  rcases outcome with e | _ | mo
  · exact Or.inr ⟨e, rfl⟩
  · exact Or.inl rfl
  · cases h

theorem hit_eq_none (h : is_hit outcome = false) : hit outcome = none := by
  rcases not_hit_cases h with rfl | ⟨e, rfl⟩
  · rfl
  · rfl

/-- The hits before the first failure, and the hits after it. -/
theorem filterMap_hit_split (outcomes : List (GetOutcome Exn Obj)) :
    (outcomes.takeWhile is_hit).filterMap hit ++ (outcomes.dropWhile is_hit).filterMap hit
      = outcomes.filterMap hit := by
  rw [← List.filterMap_append, List.takeWhile_append_dropWhile]

end Outcomes

/-! ## The connector's non-blocking get -/

/-- The connector, with a configuration that was accepted (`from_extra_config_positive`). -/
structure RemoteConnector : Type where
  cfg : AerospikeConfig
  positive : cfg.Positive

/-- The locals of `batched_get_non_blocking`, and the objects that it has released. -/
structure PrefixWalk (Obj : Type) : Type where
  memory_objs : List Obj
  found_failure : Bool
  released : List Obj
  deriving DecidableEq, Repr

/-- What the walk is for: the objects of the longest prefix of hits are returned, and the
other ones released. -/
structure ReturnsHitPrefix {Exn Obj : Type} (outcomes : List (GetOutcome Exn Obj))
    (w : PrefixWalk Obj) : Prop where
  returned : w.memory_objs = (outcomes.takeWhile is_hit).filterMap hit
  released : w.released = (outcomes.dropWhile is_hit).filterMap hit

/-- Every object is returned or released, and none of them twice. -/
theorem ReturnsHitPrefix.conserves {Exn Obj : Type} {outcomes : List (GetOutcome Exn Obj)}
    {w : PrefixWalk Obj} (h : ReturnsHitPrefix outcomes w) :
    w.memory_objs ++ w.released = outcomes.filterMap hit := by
  rw [h.returned, h.released, filterMap_hit_split]

namespace RemoteConnector

variable {Exn Obj κ : Type} (conn : RemoteConnector)

theorem executor_threads_pos : 0 < conn.cfg.executor_threads.toNat := by
  have hpos := conn.positive.executor_threads
  omega

theorem batch_max_in_flight_pos : 0 < conn.cfg.batch_max_in_flight.toNat := by
  have hpos := conn.positive.batch_max_in_flight
  omega

/-- `gather(*(self._sem_get(k) for k in keys), return_exceptions=True)`, on the connector's
executor and under its semaphore.  What other calls hold of the two only delays a get. -/
def sem_gets : GatherSetup where
  return_exceptions := true
  in_order := false
  max_workers := conn.cfg.executor_threads.toNat
  max_workers_pos := conn.executor_threads_pos
  semaphore := some conn.cfg.batch_max_in_flight.toNat
  semaphore_pos := fun _ hn => Option.some.inj hn ▸ conn.batch_max_in_flight_pos

/-- The gather of the gets; `get i k` is what the `get` of the key at `i` will end with. -/
def start_gets (get : ℕ → κ → GetOutcome Exn Obj) (keys : List κ) : Gather Exn (Option Obj) :=
  conn.sem_gets.start (keys.mapIdx get)

/-- One turn of the loop over `results`. -/
def walk_step (w : PrefixWalk Obj) : GetOutcome Exn Obj → PrefixWalk Obj
  | .ok (some mo) =>
    if w.found_failure then { w with released := w.released ++ [mo] }
    else { w with memory_objs := w.memory_objs ++ [mo] }
  | .ok none | .error _ =>
    if w.found_failure then w else { w with found_failure := true }

def walk (results : List (GetOutcome Exn Obj)) : PrefixWalk Obj :=
  results.foldl walk_step ⟨[], false, []⟩

/-- `batched_get_non_blocking`, once its gather has returned: an exception of the gather, or
the walk. -/
def batched_get_non_blocking (g : Gather Exn (Option Obj)) : Option (Except Exn (PrefixWalk Obj)) :=
  if g.returned then g.outer.map fun result => result.map walk else none

/-! ### The walk -/

theorem walk_step_of_not_hit {result : GetOutcome Exn Obj} (h : is_hit result = false)
    (memory_objs released : List Obj) (found_failure : Bool) :
    walk_step ⟨memory_objs, found_failure, released⟩ result = ⟨memory_objs, true, released⟩ := by
  rcases not_hit_cases h with rfl | ⟨e, rfl⟩
  · cases found_failure <;> rfl
  · cases found_failure <;> rfl

theorem walk_after_failure (results : List (GetOutcome Exn Obj)) (memory_objs released : List Obj) :
    results.foldl walk_step ⟨memory_objs, true, released⟩
      = ⟨memory_objs, true, released ++ results.filterMap hit⟩ := by
  induction results generalizing released with
  | nil => rw [List.filterMap_nil, List.append_nil, List.foldl_nil]
  | cons result results ih =>
    rw [List.foldl_cons]
    cases hhit : is_hit result with
    | false => rw [walk_step_of_not_hit hhit, ih, List.filterMap_cons_none (hit_eq_none hhit)]
    | true =>
      obtain ⟨mo, rfl⟩ := exists_of_is_hit hhit
      rw [List.filterMap_cons_some (hit_some mo), List.append_cons]
      exact ih (released ++ [mo])

theorem walk_from (results : List (GetOutcome Exn Obj)) (memory_objs : List Obj) :
    let w := results.foldl walk_step ⟨memory_objs, false, []⟩
    w.memory_objs = memory_objs ++ (results.takeWhile is_hit).filterMap hit ∧
      w.released = (results.dropWhile is_hit).filterMap hit := by
  induction results generalizing memory_objs with
  | nil => exact ⟨(List.append_nil _).symm, rfl⟩
  | cons result results ih =>
    dsimp only at ih ⊢
    rw [List.foldl_cons]
    cases hhit : is_hit result with
    | false =>
      -- the first failure
      have hnot : ¬ is_hit result = true := Bool.eq_false_iff.mp hhit
      rw [List.takeWhile_cons_of_neg hnot, List.dropWhile_cons_of_neg hnot,
        walk_step_of_not_hit hhit, walk_after_failure,
        List.filterMap_cons_none (hit_eq_none hhit)]
      exact ⟨(List.append_nil _).symm, rfl⟩
    | true =>
      obtain ⟨mo, rfl⟩ := exists_of_is_hit hhit
      rw [List.takeWhile_cons_of_pos rfl, List.dropWhile_cons_of_pos rfl,
        List.filterMap_cons_some (hit_some mo), List.append_cons]
      exact ih (memory_objs ++ [mo])

theorem walk_returns_hit_prefix (results : List (GetOutcome Exn Obj)) :
    ReturnsHitPrefix results (walk results) where
  returned := (walk_from results []).1
  released := (walk_from results []).2

/-! ### Every order of the gets -/

variable {conn} {get : ℕ → κ → GetOutcome Exn Obj} {keys : List κ} {as : List GatherAction}
  {g : Gather Exn (Option Obj)}

/-- Whatever the order of the gets was, the results are walked. -/
theorem batched_get_non_blocking_eq
    (h : Run (takes conn.sem_gets.step) (conn.start_gets get keys) as g)
    (hreturned : g.returned = true) :
    batched_get_non_blocking g = some (.ok (walk (keys.mapIdx get))) ∧
      ∀ call ∈ g.calls, call.stage = .delivered := by
  obtain ⟨houter, hall⟩ :=
    (GatherSetup.gather_consistent h).outer_of_return_exceptions rfl hreturned
  rw [GatherSetup.gather_outcomes h] at houter
  refine ⟨?_, hall⟩
  unfold batched_get_non_blocking
  rw [if_pos hreturned, houter]
  rfl

theorem returned_of_some {r : Except Exn (PrefixWalk Obj)}
    (h : batched_get_non_blocking g = some r) : g.returned = true := by
  unfold batched_get_non_blocking at h
  split_ifs at h with hreturned
  exact hreturned

/-- **Every completion order of the gets**: `batched_get_non_blocking` comes to an end after
finitely many steps, when no get is in flight any more; it does not raise, it returns the
objects of the longest prefix of hits, and it releases every other object once. -/
theorem non_blocking_get_exact (conn : RemoteConnector)
    (get : ℕ → κ → GetOutcome Exn Obj) (keys : List κ)
    (h : Run (takes conn.sem_gets.step) (conn.start_gets get keys) as g) :
    (∀ r, batched_get_non_blocking g = some r →
      (∀ call ∈ g.calls, call.stage = .delivered) ∧
      ∃ w, r = .ok w ∧ ReturnsHitPrefix (keys.mapIdx get) w) ∧
    (∃ bs g' r, Run (takes conn.sem_gets.step) g bs g' ∧ batched_get_non_blocking g' = some r) ∧
    as.length + GatherSetup.work g ≤ GatherSetup.work (conn.start_gets get keys) := by
  refine ⟨fun r hr => ?_, ?_, ?_⟩
  · obtain ⟨heq, hall⟩ := batched_get_non_blocking_eq h (returned_of_some hr)
    rw [heq] at hr
    exact ⟨hall, _, (Option.some.inj hr).symm, walk_returns_hit_prefix _⟩
  · obtain ⟨bs, g', hrun, hreturned⟩ := GatherSetup.exists_run_returned rfl h
    exact ⟨bs, g', _, hrun, (batched_get_non_blocking_eq (h.append hrun) hreturned).1⟩
  · exact GatherSetup.schedule_le h

/-! ### Three gets that end in the opposite order -/

/-- The connector with the default configuration. -/
def plainConnector : RemoteConnector where
  cfg := { plugin_name := "aerospike".toList, hosts := [("localhost".toList, 3000)] }
  positive := by constructor <;> decide

/-- The second get raises. -/
def timeoutAmongHits (i : ℕ) (key : ℕ) : GetOutcome String ℕ :=
  if i = 1 then .error "timeout" else .ok (some key)

/-- The gets of the three keys are all started, and end in the opposite order. -/
def oppositeOrder : List GatherAction :=
  [0, 1, 2, 0, 1, 2, 2, 2, 1, 1, 0, 0].map .advance ++ [.resume]

/-- The gather after these steps. -/
def oppositeGather : Gather String (Option ℕ) where
  calls := [⟨.ok (some 10), .delivered⟩, ⟨.error "timeout", .delivered⟩,
    ⟨.ok (some 12), .delivered⟩]
  outer := some (.ok [.ok (some 10), .error "timeout", .ok (some 12)])
  returned := true

theorem oppositeGather_reached : Run (takes plainConnector.sem_gets.step)
    (plainConnector.start_gets timeoutAmongHits [10, 11, 12]) oppositeOrder oppositeGather :=
  run_of_execute rfl

theorem non_blocking_get_exact_crossed :
    ∃ w, batched_get_non_blocking oppositeGather = some (.ok w) ∧
      w = ⟨[10], true, [12]⟩ ∧
      ReturnsHitPrefix [.ok (some 10), .error "timeout", .ok (some 12)] w := by
  obtain ⟨-, w, hw, hprefix⟩ :=
    (non_blocking_get_exact plainConnector timeoutAmongHits [10, 11, 12]
      oppositeGather_reached).1 _ rfl
  cases hw
  exact ⟨_, rfl, rfl, hprefix⟩

end RemoteConnector

/-! ## The storage plugin's non-blocking get -/

namespace StoragePlugin

variable {Exn Obj κ : Type}

/-- The loop, with the objects so far: it asks for the outcomes one after the other. -/
def get_loop (memory_objs : List Obj) (refs : References Obj) :
    List (GetOutcome Exn Obj) → Except Exn (List Obj) × References Obj
  | [] => (.ok memory_objs, refs)
  | .error e :: _ => (.error e, refs)
  | .ok none :: _ => (.ok memory_objs, refs)
  | .ok (some mo) :: outcomes =>
    get_loop (memory_objs ++ [mo]) (refs.obtain (some mo)) outcomes

/-- `batched_get_non_blocking` of the plugin, with what it has obtained and released;
`get i k` is what the `get` of the key at `i` ends with. -/
def batched_get_non_blocking (get : ℕ → κ → GetOutcome Exn Obj) (keys : List κ) :
    Except Exn (List Obj) × References Obj :=
  get_loop [] ⟨[], []⟩ (keys.mapIdx get)

/-- What the connector's call returns for the same outcomes, in some run. -/
def ConnectorReturns (get : ℕ → κ → GetOutcome Exn Obj) (keys : List κ) (memory_objs : List Obj) :
    Prop :=
  ∃ (conn : RemoteConnector) (as : List GatherAction) (g : Gather Exn (Option Obj))
    (w : PrefixWalk Obj), Run (takes conn.sem_gets.step) (conn.start_gets get keys) as g ∧
      RemoteConnector.batched_get_non_blocking g = some (.ok w) ∧ w.memory_objs = memory_objs

/-- The contract: the list that the connector returns, and no object lost. -/
def HonoursContract (get : ℕ → κ → GetOutcome Exn Obj) (keys : List κ) : Prop :=
  ∃ memory_objs, (batched_get_non_blocking get keys).1 = .ok memory_objs ∧
    ConnectorReturns get keys memory_objs ∧
    (memory_objs ++ (batched_get_non_blocking get keys).2.released).Perm
      (batched_get_non_blocking get keys).2.obtained

/-- **The condition**: the first outcome that is not an object, if there is one, is no
exception. -/
def StopsAtMiss (outcomes : List (GetOutcome Exn Obj)) : Prop :=
  ∀ e, (outcomes.dropWhile is_hit).head? ≠ some (.error e)

/-- The loop keeps what it obtains, and lets an exception through. -/
theorem get_loop_eq (outcomes : List (GetOutcome Exn Obj)) (memory_objs : List Obj)
    (refs : References Obj) :
    get_loop memory_objs refs outcomes =
      ((match (outcomes.dropWhile is_hit).head? with
        | some (.error e) => .error e
        | _ => .ok (memory_objs ++ (outcomes.takeWhile is_hit).filterMap hit)),
        ⟨refs.obtained ++ (outcomes.takeWhile is_hit).filterMap hit, refs.released⟩) := by
  induction outcomes generalizing memory_objs refs with
  | nil =>
    simp only [List.takeWhile_nil, List.filterMap_nil, List.append_nil]
    rfl
  | cons outcome outcomes ih =>
    cases hhit : is_hit outcome with
    | false =>
      have hnot : ¬ is_hit outcome = true := Bool.eq_false_iff.mp hhit
      rw [List.takeWhile_cons_of_neg hnot, List.dropWhile_cons_of_neg hnot, List.filterMap_nil,
        List.append_nil, List.append_nil]
      rcases not_hit_cases hhit with rfl | ⟨e, rfl⟩
      · rfl
      · rfl
    | true =>
      obtain ⟨mo, rfl⟩ := exists_of_is_hit hhit
      have happend : ∀ mos : List Obj, mos ++ mo :: (outcomes.takeWhile is_hit).filterMap hit
          = mos ++ [mo] ++ (outcomes.takeWhile is_hit).filterMap hit :=
        fun mos => List.append_cons mos mo _
      rw [List.takeWhile_cons_of_pos rfl, List.dropWhile_cons_of_pos rfl,
        List.filterMap_cons_some (hit_some mo), get_loop, ih, happend, happend]
      rfl

/-- What the connector returns does not depend on the run, and there is one. -/
theorem connector_returns_iff (get : ℕ → κ → GetOutcome Exn Obj) (keys : List κ)
    (memory_objs : List Obj) : ConnectorReturns get keys memory_objs ↔
      memory_objs = ((keys.mapIdx get).takeWhile is_hit).filterMap hit := by
  have hwalk := RemoteConnector.walk_returns_hit_prefix (keys.mapIdx get)
  constructor
  · rintro ⟨conn, as, g, w, hrun, hw, rfl⟩
    obtain ⟨heq, -⟩ :=
      RemoteConnector.batched_get_non_blocking_eq hrun (RemoteConnector.returned_of_some hw)
    rw [heq] at hw
    cases hw
    exact hwalk.returned
  · rintro rfl
    have hstart : Run (takes RemoteConnector.plainConnector.sem_gets.step)
        (RemoteConnector.plainConnector.start_gets get keys) [] _ := Run.start
    obtain ⟨as, g, hrun, hreturned⟩ := GatherSetup.exists_run_returned rfl hstart
    exact ⟨_, as, g, _, hrun,
      (RemoteConnector.batched_get_non_blocking_eq hrun hreturned).1, hwalk.returned⟩

/-- **The plugin's non-blocking get honours the contract of the connector's** exactly if the
first outcome that is not an object is no exception. -/
theorem plugin_get_honours_contract_iff (get : ℕ → κ → GetOutcome Exn Obj) (keys : List κ) :
    HonoursContract get keys ↔ StopsAtMiss (keys.mapIdx get) := by
  unfold HonoursContract batched_get_non_blocking
  rw [get_loop_eq]
  constructor
  · rintro ⟨memory_objs, hresult, -, -⟩ e he
    rw [he] at hresult
    cases hresult
  · intro hmiss
    refine ⟨((keys.mapIdx get).takeWhile is_hit).filterMap hit, ?_,
      (connector_returns_iff get keys _).mpr rfl, ?_⟩
    · dsimp only
      split
      · rename_i e he
        exact absurd he (hmiss e)
      · rw [List.nil_append]
    · rw [List.append_nil, List.nil_append]

/-- After the first object the second `get` raises: the object is lost. -/
theorem plugin_get_loses_object :
    ¬ HonoursContract RemoteConnector.timeoutAmongHits [10, 11, 12] := by
  rintro ⟨memory_objs, hresult, -⟩
  cases hresult

end StoragePlugin

/-! ## The connector's batched get -/

section EraseDups

variable {κ : Type} [DecidableEq κ]

/-- The recursion of `eraseDups`. -/
theorem eraseDups_induction {P : List κ → Prop} (nil : P [])
    (cons : ∀ k keys, P (keys.filter fun j => !j == k) → P (k :: keys)) (keys : List κ) :
    P keys := by
  induction hn : keys.length using Nat.strongRecOn generalizing keys with
  | ind n ih =>
    cases keys with
    | nil => exact nil
    | cons k keys =>
      have hle := List.length_filter_le (fun j => !j == k) keys
      rw [List.length_cons] at hn
      exact cons k keys (ih _ (by omega) _ rfl)

theorem eraseDups_sublist (keys : List κ) : keys.eraseDups.Sublist keys := by
  induction keys using eraseDups_induction with
  | nil => exact List.Sublist.refl []
  | cons k keys ih =>
    rw [List.eraseDups_cons]
    exact (ih.trans List.filter_sublist).cons_cons k

theorem nodup_eraseDups (keys : List κ) : keys.eraseDups.Nodup := by
  induction keys using eraseDups_induction with
  | nil => exact List.nodup_nil
  | cons k keys ih =>
    rw [List.eraseDups_cons, List.nodup_cons]
    refine ⟨fun hmem => ?_, ih⟩
    rw [List.mem_eraseDups, List.mem_filter, beq_self_eq_true] at hmem
    exact absurd hmem.2 (by decide)

/-- The first occurrence of a key, and what comes before it. -/
theorem eraseDups_append_cons {before : List κ} {k : κ} (h : k ∉ before) (after : List κ) :
    ∃ rest, (before ++ k :: after).eraseDups = before.eraseDups ++ k :: rest := by
  rw [List.eraseDups_append, List.cons_removeAll, if_pos (by simpa using h), List.eraseDups_cons]
  exact ⟨_, rfl⟩

/-- Without the repeated keys nothing is missing exactly if every key that counts is there
once. -/
theorem filterMap_perm_eraseDups_iff {β : Type} (f : κ → Option β) (keys : List κ) :
    (keys.filterMap f).Perm (keys.eraseDups.filterMap f) ↔
      ∀ k ∈ keys, (f k).isSome = true → keys.count k = 1 := by
  have hnodup : (keys.filter fun k => (f k).isSome).Nodup ↔
      ∀ k ∈ keys, (f k).isSome = true → keys.count k = 1 := by
    rw [List.nodup_iff_count_eq_one]
    constructor
    · intro hcount k hk hf
      rw [← List.count_filter (p := fun k => (f k).isSome) hf]
      exact hcount k (List.mem_filter.mpr ⟨hk, hf⟩)
    · intro hcount k hk
      obtain ⟨hk, hf⟩ := List.mem_filter.mp hk
      rw [List.count_filter (p := fun k => (f k).isSome) hf]
      exact hcount k hk hf
  have hfilter : ∀ l : List κ, (l.filter fun k => (f k).isSome).filterMap f = l.filterMap f := by
    intro l
    rw [List.filterMap_filter]
    refine List.filterMap_congr fun k _ => ?_
    cases hf : f k with
    | none => rfl
    | some b => rfl
  rw [← hnodup]
  constructor
  · intro hperm
    have hlen := hperm.length_eq
    rw [List.length_filterMap_eq_countP, List.length_filterMap_eq_countP,
      List.countP_eq_length_filter, List.countP_eq_length_filter] at hlen
    have heq := ((eraseDups_sublist keys).filter fun k => (f k).isSome).eq_of_length hlen.symm
    rw [← heq]
    exact (nodup_eraseDups keys).filter _
  · intro hkeys
    rw [← hfilter keys, ← hfilter keys.eraseDups]
    refine List.Perm.filterMap f ?_
    rw [List.perm_ext_iff_of_nodup hkeys ((nodup_eraseDups keys).filter _)]
    intro k
    rw [List.mem_filter, List.mem_filter, List.mem_eraseDups]

end EraseDups

/-- What a batched get raises: what a `get` has raised, or the `KeyError` of the dict. -/
inductive BatchedGetError (Exn κ : Type) : Type where
  | raised (e : Exn)
  | KeyError (k : κ)
  deriving DecidableEq, Repr

namespace RemoteConnector

variable {Exn Obj κ : Type} [DecidableEq κ]

/-- `{k: await self.get(k) for k in unique}`, with the entries so far. -/
def fetch (get : κ → GetOutcome Exn Obj) (fetched : List (κ × Option Obj))
    (refs : References Obj) :
    List κ → Except (BatchedGetError Exn κ) (List (κ × Option Obj)) × References Obj
  | [] => (.ok fetched, refs)
  | k :: keys =>
    match get k with
    | .error e => (.error (.raised e), refs)
    | .ok result => fetch get (fetched ++ [(k, result)]) (refs.obtain result) keys

/-- `fetched[k]`. -/
def entry (fetched : List (κ × Option Obj)) (k : κ) :
    Except (BatchedGetError Exn κ) (Option Obj) :=
  match fetched.lookup k with
  | some result => .ok result
  | none => .error (.KeyError k)

/-- `batched_get`, with what it has obtained and released; `get k` is what the one `get` of
the key `k` ends with, and `list(dict.fromkeys(order))` keeps the first of equal keys. -/
def batched_get (get : κ → GetOutcome Exn Obj) (keys : List κ) :
    Except (BatchedGetError Exn κ) (List (Option Obj)) × References Obj :=
  match fetch get [] ⟨[], []⟩ keys.eraseDups with
  | (.error e, refs) => (.error e, refs)
  | (.ok fetched, refs) => (keys.mapM (entry fetched), refs)

/-- One reference for each entry that is an object, if `batched_get` returns, and none that is
left over, if it raises. -/
def Balanced (get : κ → GetOutcome Exn Obj) (keys : List κ) : Prop :=
  match batched_get get keys with
  | (.ok entries, refs) =>
    entries.length = keys.length ∧
      (∀ (i : ℕ) (k : κ), keys[i]? = some k →
        ∃ result, get k = .ok result ∧ entries[i]? = some result) ∧
      entries.reduceOption.length = refs.obtained.length ∧
      (entries.reduceOption ++ refs.released).Perm refs.obtained
  | (.error _, refs) => refs.released.Perm refs.obtained

/-- **The condition**: either no `get` raises, and a key whose `get` is a hit is there once; or
some `get` raises, and no key before its key is a hit. -/
def OneReferenceEach (get : κ → GetOutcome Exn Obj) (keys : List κ) : Prop :=
  ((∀ k ∈ keys, ∃ result, get k = .ok result) ∧
    ∀ k ∈ keys, is_hit (get k) = true → keys.count k = 1) ∨
  ∃ before k after e, keys = before ++ k :: after ∧ get k = .error e ∧
    ∀ j ∈ before, get j = .ok none

/-! ### The fetch -/

variable {get : κ → GetOutcome Exn Obj} {keys before after : List κ} {k : κ}

omit [DecidableEq κ] in
theorem filterMap_hit_cons {result : Option Obj} (hk : get k = .ok result) (keys : List κ) :
    (k :: keys).filterMap (fun j => hit (get j))
      = result.toList ++ keys.filterMap fun j => hit (get j) := by
  have hhit : hit (get k) = result := by
    rw [hk]
    rfl
  cases result with
  | none => exact List.filterMap_cons_none hhit
  | some mo => exact List.filterMap_cons_some hhit

omit [DecidableEq κ] in
/-- A run of the loop through keys whose `get` does not raise. -/
theorem fetch_append (hok : ∀ j ∈ before, ∃ result, get j = .ok result)
    (fetched : List (κ × Option Obj)) (refs : References Obj) (keys : List κ) :
    fetch get fetched refs (before ++ keys)
      = fetch get (fetched ++ before.map fun j => (j, hit (get j)))
          ⟨refs.obtained ++ before.filterMap fun j => hit (get j), refs.released⟩ keys := by
  induction before generalizing fetched refs with
  | nil =>
    rw [List.map_nil, List.filterMap_nil, List.append_nil, List.append_nil]
    rfl
  | cons j before ih =>
    rw [List.forall_mem_cons] at hok
    obtain ⟨⟨result, hj⟩, hok⟩ := hok
    rw [filterMap_hit_cons hj, List.map_cons, List.cons_append, fetch, hj]
    dsimp only
    rw [ih hok, References.obtain, List.append_assoc, List.append_assoc]
    rfl

omit [DecidableEq κ] in
/-- Either no `get` raises, or there is a first one that does. -/
theorem first_raise (get : κ → GetOutcome Exn Obj) (keys : List κ) :
    (∀ k ∈ keys, ∃ result, get k = .ok result) ∨
    ∃ before k after e, keys = before ++ k :: after ∧ get k = .error e ∧
      ∀ j ∈ before, ∃ result, get j = .ok result := by
  induction keys with
  | nil =>
    left
    intro k hk
    cases hk
  | cons j keys ih =>
    cases hj : get j with
    | error e =>
      right
      refine ⟨[], j, keys, e, rfl, hj, fun k hk => ?_⟩
      cases hk
    | ok result =>
      have hok : ∃ result, get j = .ok result := ⟨result, hj⟩
      rcases ih with hall | ⟨before, k, after, e, rfl, hk, hbefore⟩
      · exact Or.inl (List.forall_mem_cons.mpr ⟨hok, hall⟩)
      · exact Or.inr ⟨j :: before, k, after, e, rfl, hk, List.forall_mem_cons.mpr ⟨hok, hbefore⟩⟩

/-! ### Returning and raising -/

theorem mapM_entry (fetched : List (κ × Option Obj)) (f : κ → Option Obj)
    (h : ∀ k ∈ keys, fetched.lookup k = some (f k)) :
    keys.mapM (entry fetched) = (.ok (keys.map f) : Except (BatchedGetError Exn κ) _) := by
  induction keys with
  | nil => rfl
  | cons k keys ih =>
    rw [List.forall_mem_cons] at h
    have hentry : entry fetched k = (.ok (f k) : Except (BatchedGetError Exn κ) _) := by
      unfold entry
      rw [h.1]
    rw [List.mapM_cons, hentry, ih h.2]
    rfl

/-- When no `get` raises, each position has the outcome of its key. -/
theorem batched_get_of_ok (hok : ∀ k ∈ keys, ∃ result, get k = .ok result) :
    batched_get get keys =
      (.ok (keys.map fun k => hit (get k)),
        ⟨keys.eraseDups.filterMap fun k => hit (get k), []⟩) := by
  have hunique : ∀ k ∈ keys.eraseDups, ∃ result, get k = .ok result := fun k hk =>
    hok k (List.mem_eraseDups.mp hk)
  have hfetch := fetch_append hunique [] ⟨[], []⟩ []
  rw [List.append_nil, List.nil_append, List.nil_append] at hfetch
  unfold batched_get
  rw [hfetch]
  dsimp only [fetch]
  rw [mapM_entry]
  intro k hk
  exact List.lookup_graph (fun k => hit (get k)) (List.mem_eraseDups.mpr hk)

/-- When a `get` raises, what was obtained before it is lost. -/
theorem batched_get_of_raise {e : Exn} (hk : get k = .error e)
    (hok : ∀ j ∈ before, ∃ result, get j = .ok result) (after : List κ) :
    batched_get get (before ++ k :: after) =
      (.error (.raised e), ⟨before.eraseDups.filterMap fun j => hit (get j), []⟩) := by
  have hnot : k ∉ before := by
    intro hmem
    obtain ⟨result, hresult⟩ := hok k hmem
    rw [hk] at hresult
    cases hresult
  obtain ⟨rest, hrest⟩ := eraseDups_append_cons hnot after
  have hunique : ∀ j ∈ before.eraseDups, ∃ result, get j = .ok result := fun j hj =>
    hok j (List.mem_eraseDups.mp hj)
  unfold batched_get
  rw [hrest, fetch_append hunique, fetch, hk]
  rfl

theorem balanced_of_ok_iff (hok : ∀ k ∈ keys, ∃ result, get k = .ok result) :
    Balanced get keys ↔ ∀ k ∈ keys, is_hit (get k) = true → keys.count k = 1 := by
  have hreduce : (keys.map fun k => hit (get k)).reduceOption
      = keys.filterMap fun k => hit (get k) := by
    rw [List.reduceOption, List.filterMap_map]
    rfl
  rw [show (∀ k ∈ keys, is_hit (get k) = true → keys.count k = 1) ↔ _ from
    (filterMap_perm_eraseDups_iff (fun k => hit (get k)) keys).symm]
  unfold Balanced
  rw [batched_get_of_ok hok]
  dsimp only
  rw [hreduce, List.append_nil]
  constructor
  · rintro ⟨-, -, -, hperm⟩
    exact hperm
  · intro hperm
    refine ⟨List.length_map _, fun i k hi => ?_, hperm.length_eq, hperm⟩
    obtain ⟨result, hresult⟩ := hok k (List.mem_of_getElem? hi)
    refine ⟨result, hresult, ?_⟩
    rw [List.getElem?_map, hi, Option.map_some, hresult]
    rfl

theorem balanced_of_raise_iff {e : Exn} (hk : get k = .error e)
    (hok : ∀ j ∈ before, ∃ result, get j = .ok result) (after : List κ) :
    Balanced get (before ++ k :: after) ↔ ∀ j ∈ before, get j = .ok none := by
  unfold Balanced
  rw [batched_get_of_raise hk hok]
  dsimp only
  rw [List.nil_perm, List.filterMap_eq_nil_iff]
  constructor
  · intro hnone j hj
    obtain ⟨result, hresult⟩ := hok j hj
    have hhit := hnone j (List.mem_eraseDups.mpr hj)
    rw [hresult] at hhit ⊢
    exact congrArg Except.ok hhit
  · intro hnone j hj
    rw [hnone j (List.mem_eraseDups.mp hj)]
    rfl

/-- **Batched get hands out one reference per position** exactly if no `get` raises and no key
with a hit is repeated, or if there is no hit before the first `get` that raises. -/
theorem batched_get_balanced_iff (get : κ → GetOutcome Exn Obj) (keys : List κ) :
    Balanced get keys ↔ OneReferenceEach get keys := by
  rcases first_raise get keys with hok | ⟨before, k, after, e, rfl, hk, hok⟩
  · rw [balanced_of_ok_iff hok]
    constructor
    · intro honce
      exact Or.inl ⟨hok, honce⟩
    · rintro (⟨-, honce⟩ | ⟨before, k, after, e, rfl, hk, -⟩)
      · exact honce
      · obtain ⟨result, hresult⟩ := hok k (List.mem_append_right _ List.mem_cons_self)
        rw [hk] at hresult
        cases hresult
  · constructor
    · intro hbalanced
      exact Or.inr ⟨before, k, after, e, rfl, hk, (balanced_of_raise_iff hk hok after).mp hbalanced⟩
    · rintro (⟨hall, -⟩ | ⟨before', k', after', e', heq, hk', hmiss⟩)
      · obtain ⟨result, hresult⟩ := hall k (List.mem_append_right _ List.mem_cons_self)
        rw [hk] at hresult
        cases hresult
      · rw [heq]
        refine (balanced_of_raise_iff hk' (fun j hj => ⟨none, hmiss j hj⟩) after').mpr hmiss

/-- A repeated key is handed out twice and obtained once; and an object is lost when the `get`
of the next key raises. -/
theorem batched_get_unbalanced :
    ¬ Balanced (timeoutAmongHits 0) [10, 10] ∧
      ¬ Balanced (fun key => timeoutAmongHits (key - 10) key) [10, 11] := by
  constructor
  · rintro ⟨-, -, hlen, -⟩
    exact absurd hlen (by decide)
  · intro hperm
    exact absurd hperm.length_eq (by decide)

end RemoteConnector
