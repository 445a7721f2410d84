/-
# The tasks of the L2 plugin

What `_store_sync` and `_load_sync` make of the answers of the engine: the sizes and keys of
a store task are those of the objects whose put succeeded (`tally_eq`), and the bitmap of a
load task has the answer for each key (`set_hits_zeros`).  An exception leaves nothing of the
answers that the task may have had.
-/
import LmcacheAerospike.L2Executors
import LmcacheAerospike.NativeKeys

/-- The plugin: its engine, the dtype of its cache keys, and `MemoryObj.get_size()`. -/
structure L2Plugin : Type where
  engine : Engine
  dtype : Text
  get_size : MemoryObj → ℕ
  /-- Checked when the configuration is made. -/
  executor_threads_pos : 0 < engine.cfg.executor_threads

/-- `L2StoreResult`. -/
structure L2StoreResult : Type where
  ok : Bool
  total : ℕ
  deriving DecidableEq, Repr

/-- The locals of `_store_sync`. -/
structure StoreTally : Type where
  total : ℕ
  ok : Bool
  stored_keys : List ObjectKey
  stored_sizes : List ℕ

/-- The two kinds of tasks that run in chunks. -/
inductive L2Kind : Type where
  | store | load
  deriving DecidableEq, Repr

/-- The arguments of `submit_store_task` or `submit_load_task`. -/
structure L2Request : Type where
  kind : L2Kind
  keys : List ObjectKey
  objects : List MemoryObj

/-- What the table of done tasks has for a task. -/
inductive L2Result : Type where
  | stored (result : L2StoreResult)
  | loaded (bm : List Bool)
  deriving DecidableEq, Repr

namespace L2Plugin

variable (plugin : L2Plugin)

/-- `_to_ck`, as the text of the cache key. -/
def to_ck (key : ObjectKey) : Text :=
  (object_key_to_cache_engine_key key plugin.dtype).to_string

/-- `zip(keys, objects)` as the items of the engine. -/
def items (req : L2Request) : List (Text × MemoryObj) :=
  (req.keys.zip req.objects).map fun pair => (plugin.to_ck pair.1, pair.2)

/-- The two executors; `chunk_size` has its default. -/
def executors (call : ℕ → ℕ → List (Text × MemoryObj) → Except PyExc (List Bool)) :
    L2Executors L2Request (Text × MemoryObj) where
  items := plugin.items
  chunk_size := 32
  workers := plugin.engine.cfg.executor_threads.toNat
  batch_workers := batch_max_workers plugin.engine.cfg.executor_threads.toNat
  call := call
  chunk_size_pos := by decide
  workers_pos := by
    have hpos := plugin.executor_threads_pos
    omega
  batch_workers_pos := batch_max_workers_pos _

/-! ## Store tasks -/

/-- The loop over `zip(keys, objects, results)`. -/
def tally : List (ObjectKey × MemoryObj) → List Bool → StoreTally → StoreTally
  | (ok_key, obj) :: pairs, success :: results, t =>
    if success then
      tally pairs results
        { t with
          stored_keys := t.stored_keys ++ [ok_key]
          stored_sizes := t.stored_sizes ++ [plugin.get_size obj]
          total := t.total + plugin.get_size obj }
    else tally pairs results { t with ok := false }
  | _, _, t => t

/-- `_store_sync` after `_parallel_chunks`. -/
def store_sync (req : L2Request) : Except PyExc (List Bool) → StoreTally
  | .ok results => plugin.tally (req.keys.zip req.objects) results ⟨0, true, [], []⟩
  | .error _ => ⟨0, false, [], []⟩

/-- What `_notify_keys_stored` is called with. -/
def notified_stored (t : StoreTally) : Option (List ObjectKey × List ℕ) :=
  if t.ok ∧ t.stored_keys ≠ [] then some (t.stored_keys, t.stored_sizes) else none

/-! ## Load tasks -/

/-- The loop over `enumerate(hits)`, from index `i` on. -/
def set_hits (bm : List Bool) (i : ℕ) : List Bool → List Bool
  | [] => bm
  | hit :: hits => set_hits (if hit then bm.set i true else bm) (i + 1) hits

/-- `_load_sync` after `_parallel_chunks`; `_bitmap(len(keys))` has no bit set. -/
def load_sync (req : L2Request) : Except PyExc (List Bool) → List Bool
  | .ok hits => set_hits (req.keys.map fun _ => false) 0 hits
  | .error _ => req.keys.map fun _ => false

/-- The entry in the table of done tasks. -/
def result (req : L2Request) (r : Except PyExc (List Bool)) : L2Result :=
  match req.kind with
  | .store => .stored ⟨(plugin.store_sync req r).ok, (plugin.store_sync req r).total⟩
  | .load => .loaded (load_sync req r)

/-! ## What the loops compute -/

/-- Which exception it was makes no difference to the result. -/
theorem result_congr (req : L2Request) {r r' : Except PyExc (List Bool)}
    (h : r.toOption = r'.toOption) : plugin.result req r = plugin.result req r' := by
  cases r with
  | ok results =>
    cases r' with
    | ok results' =>
      obtain rfl : results = results' := Option.some.inj h
      rfl
    | error e => cases h
  | error e =>
    cases r' with
    | ok results => cases h
    | error e' => rfl

/-- The pairs whose put succeeded. -/
def succeeded (pairs : List (ObjectKey × MemoryObj)) (results : List Bool) :
    List (ObjectKey × MemoryObj) :=
  ((pairs.zip results).filter Prod.snd).map Prod.fst

/-- **The loop of a store task** adds the keys and sizes of the pairs whose put succeeded. -/
theorem tally_eq (pairs : List (ObjectKey × MemoryObj)) (results : List Bool)
    (t : StoreTally) :
    plugin.tally pairs results t =
      ⟨t.total + ((succeeded pairs results).map fun pair => plugin.get_size pair.2).sum,
        t.ok && (pairs.zip results).all Prod.snd,
        t.stored_keys ++ (succeeded pairs results).map Prod.fst,
        t.stored_sizes ++ (succeeded pairs results).map fun pair => plugin.get_size pair.2⟩ := by
  induction pairs generalizing results t with
  | nil => simp [tally, succeeded]
  | cons pair pairs ih =>
    obtain ⟨ok_key, obj⟩ := pair
    cases results with
    | nil => simp [tally, succeeded]
    | cons success results =>
      unfold tally
      cases success with
      | true =>
        rw [if_pos rfl, ih]
        simp [succeeded, Nat.add_assoc]
      | false =>
        rw [if_neg Bool.false_ne_true, ih]
        simp [succeeded]

/-- The bits after the loop of a load task. -/
theorem getElem?_set_hits (bm : List Bool) (i : ℕ) (hits : List Bool) (j : ℕ) :
    (set_hits bm i hits)[j]?
      = bm[j]?.map fun bit => bit || (decide (i ≤ j) && hits[j - i]?.getD false) := by
  induction hits generalizing bm i with
  | nil => simp [set_hits]
  | cons hit hits ih =>
    rw [set_hits, ih]
    rcases Nat.lt_trichotomy i j with hlt | rfl | hgt
    · have hbm : (if hit then bm.set i true else bm)[j]? = bm[j]? := by
        cases hit with
        | true => rw [if_pos rfl, List.getElem?_set_ne (by omega)]
        | false => rw [if_neg Bool.false_ne_true]
      have hidx : (hit :: hits)[j - i]? = hits[j - (i + 1)]? := by
        rw [show j - i = j - (i + 1) + 1 by omega, List.getElem?_cons_succ]
      rw [hbm, hidx, decide_eq_true (show i + 1 ≤ j by omega),
        decide_eq_true (show i ≤ j by omega)]
    · rw [Nat.sub_self, List.getElem?_cons_zero, decide_eq_true (Nat.le_refl i),
        decide_eq_false (show ¬ i + 1 ≤ i by omega)]
      cases hit with
      | true =>
        rw [if_pos rfl, List.getElem?_set_self']
        cases bm[i]? with
        | none => rfl
        | some bit => simp
      | false => simp
    · have hbm : (if hit then bm.set i true else bm)[j]? = bm[j]? := by
        cases hit with
        | true => rw [if_pos rfl, List.getElem?_set_ne (by omega)]
        | false => rw [if_neg Bool.false_ne_true]
      rw [hbm, decide_eq_false (show ¬ i + 1 ≤ j by omega),
        decide_eq_false (show ¬ i ≤ j by omega)]
      simp

/-- **The bitmap of a load task** that has an answer for every key. -/
theorem set_hits_zeros {keys : List ObjectKey} {hits : List Bool}
    (h : hits.length = keys.length) : set_hits (keys.map fun _ => false) 0 hits = hits := by
  apply List.ext_getElem?
  intro j
  rw [getElem?_set_hits, List.getElem?_map, Nat.sub_zero]
  by_cases hj : j < keys.length
  · have hhits : hits[j]? = some hits[j] := List.getElem?_eq_getElem (by omega)
    rw [List.getElem?_eq_getElem hj, hhits]
    simp
  · have hhits : hits[j]? = none := List.getElem?_eq_none (by omega)
    have hkeys : keys[j]? = none := List.getElem?_eq_none (by omega)
    rw [hkeys, hhits]
    rfl

end L2Plugin
