/-
# The locks of the L2 plugin

A lookup locks the keys that it finds and pins their meta records; an unlock takes one lock
away and unpins.  The table of locks counts exactly (`l2_locks`), but the pin bin of the meta
record does not follow it: `unpin` clears the bin while other locks are held, and a store of a
locked key writes it unset.  Where neither happens, every locked key is pinned.
-/
import LmcacheAerospike.Isolation
import LmcacheAerospike.L2Ledger

/-- `_locked`, a dict of counts. -/
abbrev LockTable := ObjectKey → Option ℕ

namespace LockTable

/-- `_locked[ok] += 1`, where an absent key counts zero. -/
def lock (locked : LockTable) (ok : ObjectKey) : LockTable :=
  Function.update locked ok (some ((locked ok).getD 0 + 1))

/-- `del _locked[ok]` or `_locked[ok] -= 1`. -/
def unlock (locked : LockTable) (ok : ObjectKey) : LockTable :=
  match locked ok with
  | none => locked
  | some n => Function.update locked ok (if n ≤ 1 then none else some (n - 1))

end LockTable

namespace L2Plugin

variable (plugin : L2Plugin)

/-! ## The tasks -/

/-- The hits of `_lookup_sync`; an exception makes them all misses. -/
def lookup_hits (keys : List ObjectKey) : EngineM (List Bool) :=
  (plugin.engine.batched_exists_mask (keys.map plugin.to_ck)).tryCatch
    fun _ => return keys.map fun _ => false

/-- The keys that were hit, in the order of the loop. -/
def hit_keys (keys : List ObjectKey) (hits : List Bool) : List ObjectKey :=
  ((keys.zip hits).filter Prod.snd).map Prod.fst

/-- `_lookup_sync`: the bitmap, and the table of locks. -/
def lookup_sync (keys : List ObjectKey) (locked : LockTable) :
    EngineM (List Bool × LockTable) := do
  let hits ← plugin.lookup_hits keys
  let hit_cks := (hit_keys keys hits).map plugin.to_ck
  if hit_cks ≠ [] then plugin.engine.pin_keys hit_cks
  return (set_hits (keys.map fun _ => false) 0 hits,
    (hit_keys keys hits).foldl LockTable.lock locked)

/-- `_unlock_sync`. -/
def unlock_sync : List ObjectKey → LockTable → EngineM LockTable
  | [], locked => return locked
  | ok :: keys, locked =>
    match locked ok with
    | none => unlock_sync keys locked
    | some _ => do
      let _ ← plugin.engine.unpin (plugin.to_ck ok)
      unlock_sync keys (locked.unlock ok)

/-- The store after a chunk call of a load task. -/
abbrev get_chunk (chunk : List (Text × MemoryObj)) (w : World) : World :=
  ((plugin.engine.batched_get_preallocated chunk).run Refusals.nothing.call w).2

/-- **A load task from start to end**, its chunk calls made in any order. -/
inductive LoadRun (req : L2Request) (w : World) : World → Prop
  | intro {σ : ℕ → World} {calls : List (ℕ × List (Text × MemoryObj))} {w' : World} :
      calls.Nodup →
      (∀ idx chunk, (idx, chunk) ∈ calls ↔ (plugin.storers .nothing σ).Called req idx chunk) →
      ChunkCalls plugin.get_chunk σ calls w w' → LoadRun req w w'

end L2Plugin

/-! ## The system -/

/-- What callers have seen of a key: a lookup hit, or an unlock that they asked for. -/
inductive LockEvent : Type where
  | hit (ok : ObjectKey)
  | unlock (ok : ObjectKey)

inductive LockTask : Type where
  | lookup (keys : List ObjectKey)
  | unlock (keys : List ObjectKey)
  | store (req : L2Request)
  | load (req : L2Request)

/-- The store, the table of locks, and what callers have seen. -/
structure L2Locks : Type where
  w : World
  locked : LockTable
  events : List LockEvent

namespace L2Locks

/-- A plugin that has just been made, over any store. -/
def start (w : World) : L2Locks := ⟨w, fun _ => none, []⟩

/-- A task from start to end. -/
inductive Step (plugin : L2Plugin) : L2Locks → LockTask → L2Locks → Prop
  | lookup {s : L2Locks} {keys : List ObjectKey} {bm : List Bool} {locked : LockTable}
      {w' : World} :
      (plugin.lookup_sync keys s.locked).run Op.perform s.w = (.ok (bm, locked), w') →
      Step plugin s (.lookup keys)
        ⟨w', locked, s.events ++ (L2Plugin.hit_keys keys bm).map .hit⟩
  | unlock {s : L2Locks} {keys : List ObjectKey} {locked : LockTable} {w' : World} :
      (plugin.unlock_sync keys s.locked).run Op.perform s.w = (.ok locked, w') →
      Step plugin s (.unlock keys) ⟨w', locked, s.events ++ keys.map .unlock⟩
  | store {s : L2Locks} {req : L2Request} {r : Except PyExc (List Bool)} {w' : World} :
      plugin.StoreRun .nothing req s.w r w' → Step plugin s (.store req) { s with w := w' }
  | load {s : L2Locks} {req : L2Request} {w' : World} :
      plugin.LoadRun req s.w w' → Step plugin s (.load req) { s with w := w' }

/-- The lookup hits on a key and the unlocks applied while it was locked. -/
def tally (ok : ObjectKey) (events : List LockEvent) : ℕ × ℕ :=
  events.foldl (fun (hits, unlocks) event =>
    match event with
    | .hit ok' => if ok' = ok then (hits + 1, unlocks) else (hits, unlocks)
    | .unlock ok' =>
      if ok' = ok ∧ unlocks < hits then (hits, unlocks + 1) else (hits, unlocks)) (0, 0)

/-- **The table counts** the hits less the unlocks, and has no entry for zero. -/
def Counted (s : L2Locks) : Prop :=
  ∀ ok, (tally ok s.events).2 ≤ (tally ok s.events).1 ∧
    s.locked ok = if (tally ok s.events).1 - (tally ok s.events).2 = 0 then none
      else some ((tally ok s.events).1 - (tally ok s.events).2)

/-- **Every locked key is pinned**: its meta record is there, and its pin bin is `True`. -/
def Pinned (plugin : L2Plugin) (s : L2Locks) : Prop :=
  ∀ ok n, s.locked ok = some n → ∃ r,
    s.w.records (plugin.engine.metaKey (plugin.to_ck ok)) = some r ∧
      r.bins .pin = some (.bool true)

/-- **The condition**: an unlock of a locked key leaves no lock on any key with its cache key,
and no store writes a locked key.  A payload that the planner refuses is not written. -/
def Releases (plugin : L2Plugin) (s : L2Locks) : LockTask → Prop
  | .unlock keys => ∀ ok ∈ keys, s.locked ok ≠ none →
      ∀ ok' n, plugin.to_ck ok' = plugin.to_ck ok → s.locked ok' = some n → n ≤ keys.count ok'
  | .store req => ∀ item ∈ plugin.items req,
      (∃ p, plugin.engine.resolved.shard_plan item.2.byte_array.length = .ok p) →
        ∀ ok, s.locked ok ≠ none → plugin.to_ck ok ≠ item.1
  | .lookup _ | .load _ => True

end L2Locks

/-! ## The table of locks -/

namespace LockTable

variable {locked : LockTable} {ok ok' : ObjectKey}

theorem lock_self : locked.lock ok ok = some ((locked ok).getD 0 + 1) := Function.update_self ..

theorem lock_of_ne (h : ok' ≠ ok) : locked.lock ok ok' = locked ok' := Function.update_of_ne h ..

theorem unlock_none (h : locked ok = none) : locked.unlock ok = locked := by
  unfold unlock
  rw [h]

theorem unlock_self {n : ℕ} (h : locked ok = some n) :
    locked.unlock ok ok = if n ≤ 1 then none else some (n - 1) := by
  unfold unlock
  rw [h]
  exact Function.update_self ..

theorem unlock_of_ne (h : ok' ≠ ok) : locked.unlock ok ok' = locked ok' := by
  unfold unlock
  cases locked ok with
  | none => rfl
  | some n => exact Function.update_of_ne h ..

/-- A lock that is there after a lock was there before, or is the new one. -/
theorem lock_ne_none (h : locked.lock ok ok' ≠ none) : locked ok' ≠ none ∨ ok' = ok := by
  by_cases heq : ok' = ok
  · exact Or.inr heq
  · rw [lock_of_ne heq] at h
    exact Or.inl h

theorem foldl_lock_ne_none {keys : List ObjectKey} (h : keys.foldl lock locked ok' ≠ none) :
    locked ok' ≠ none ∨ ok' ∈ keys := by
  induction keys generalizing locked with
  | nil => exact Or.inl h
  | cons ok keys ih =>
    rcases ih h with hlock | hmem
    · rcases lock_ne_none hlock with hold | rfl
      · exact Or.inl hold
      · exact Or.inr List.mem_cons_self
    · exact Or.inr (List.mem_cons_of_mem _ hmem)

/-- Unlocking takes no lock. -/
theorem unlock_ne_none (h : locked.unlock ok ok' ≠ none) : locked ok' ≠ none := by
  intro hnone
  apply h
  by_cases heq : ok' = ok
  · subst heq
    rw [unlock_none hnone, hnone]
  · rw [unlock_of_ne heq, hnone]

theorem foldl_unlock_ne_none {keys : List ObjectKey} (h : keys.foldl unlock locked ok' ≠ none) :
    locked ok' ≠ none := by
  induction keys generalizing locked with
  | nil => exact h
  | cons ok keys ih => exact unlock_ne_none (ih h)

/-- **A key is free** after as many unlocks as it has locks. -/
theorem foldl_unlock_eq_none {keys : List ObjectKey} {n : ℕ} (hpos : 0 < n)
    (hn : locked ok = some n) (hcount : n ≤ keys.count ok) :
    keys.foldl unlock locked ok = none := by
  induction keys generalizing locked n with
  | nil =>
    rw [List.count_nil] at hcount
    omega
  | cons ok' keys ih =>
    rw [List.foldl_cons]
    by_cases heq : ok' = ok
    · subst heq
      rw [List.count_cons_self] at hcount
      have hself := unlock_self hn
      by_cases hone : n ≤ 1
      · rw [if_pos hone] at hself
        by_contra hlocked
        exact foldl_unlock_ne_none hlocked hself
      · rw [if_neg hone] at hself
        exact ih (by omega) hself (by omega)
    · rw [List.count_cons_of_ne heq] at hcount
      exact ih hpos ((unlock_of_ne (Ne.symm heq)).trans hn) hcount

end LockTable

namespace L2Locks

variable {plugin : L2Plugin} {s s' : L2Locks} {w w' : World}

/-! ### The count -/

/-- The entry for so many hits and unlocks. -/
def entry (counts : ℕ × ℕ) : Option ℕ :=
  if counts.1 - counts.2 = 0 then none else some (counts.1 - counts.2)

theorem entry_of_lt {hits unlocks : ℕ} (h : unlocks < hits) :
    entry (hits, unlocks) = some (hits - unlocks) := by
  unfold entry
  exact if_neg (by dsimp only; omega)

theorem entry_of_le {hits unlocks : ℕ} (h : hits ≤ unlocks) : entry (hits, unlocks) = none := by
  unfold entry
  exact if_pos (Nat.sub_eq_zero_of_le h)

/-- What an event does to the table. -/
def bump (locked : LockTable) : LockEvent → LockTable
  | .hit ok => locked.lock ok
  | .unlock ok => locked.unlock ok

/-- The table agrees with the events. -/
def Agrees (locked : LockTable) (events : List LockEvent) : Prop :=
  ∀ ok, (tally ok events).2 ≤ (tally ok events).1 ∧ locked ok = entry (tally ok events)

theorem agrees_hit {locked : LockTable} {events : List LockEvent} (h : Agrees locked events)
    (ok : ObjectKey) : Agrees (locked.lock ok) (events ++ [.hit ok]) := by
  intro ok'
  obtain ⟨hle, hentry⟩ := h ok'
  unfold tally at hle hentry ⊢
  rw [List.foldl_append, List.foldl_cons, List.foldl_nil]
  revert hle hentry
  generalize List.foldl _ (0, 0) events = counts
  obtain ⟨hits, unlocks⟩ := counts
  dsimp only
  intro hle hentry
  by_cases heq : ok = ok'
  · subst heq
    rw [if_pos rfl, LockTable.lock_self, hentry,
      entry_of_lt (show unlocks < hits + 1 by omega)]
    refine ⟨by omega, ?_⟩
    rcases Nat.lt_or_ge unlocks hits with hlt | hge
    · rw [entry_of_lt hlt, Option.getD_some]
      congr 1
      omega
    · rw [entry_of_le hge, Option.getD_none]
      congr 1
      omega
  · rw [if_neg heq, LockTable.lock_of_ne (Ne.symm heq)]
    exact ⟨hle, hentry⟩

theorem agrees_unlock {locked : LockTable} {events : List LockEvent} (h : Agrees locked events)
    (ok : ObjectKey) : Agrees (locked.unlock ok) (events ++ [.unlock ok]) := by
  intro ok'
  obtain ⟨hle, hentry⟩ := h ok'
  unfold tally at hle hentry ⊢
  rw [List.foldl_append, List.foldl_cons, List.foldl_nil]
  revert hle hentry
  generalize List.foldl _ (0, 0) events = counts
  obtain ⟨hits, unlocks⟩ := counts
  dsimp only
  intro hle hentry
  by_cases heq : ok = ok'
  · subst heq
    rcases Nat.lt_or_ge unlocks hits with hlt | hge
    · rw [if_pos ⟨rfl, hlt⟩]
      rw [entry_of_lt hlt] at hentry
      refine ⟨hlt, ?_⟩
      rw [LockTable.unlock_self hentry]
      by_cases hone : hits - unlocks ≤ 1
      · rw [if_pos hone, entry_of_le (by omega)]
      · rw [if_neg hone, entry_of_lt (by omega)]
        congr 1
    · rw [if_neg fun hand => absurd hand.2 (by omega)]
      refine ⟨hle, ?_⟩
      rw [entry_of_le hge] at hentry ⊢
      rw [LockTable.unlock_none hentry, hentry]
  · rw [if_neg fun hand => heq hand.1, LockTable.unlock_of_ne (Ne.symm heq)]
    exact ⟨hle, hentry⟩

/-- **The table agrees with the events** after any of them. -/
theorem agrees_foldl {locked : LockTable} {events : List LockEvent} (h : Agrees locked events)
    (new : List LockEvent) : Agrees (new.foldl bump locked) (events ++ new) := by
  induction new generalizing locked events with
  | nil => rwa [List.append_nil]
  | cons event new ih =>
    rw [List.foldl_cons, List.append_cons]
    cases event with
    | hit ok => exact ih (agrees_hit h ok)
    | unlock ok => exact ih (agrees_unlock h ok)

/-! ### Pins -/

/-- The meta record of the cache key is there, and its pin bin is `True`. -/
def PinnedAt (eng : Engine) (w : World) (ck : Text) : Prop :=
  ∃ r, w.records (eng.metaKey ck) = some r ∧ r.bins .pin = some (.bool true)

theorem PinnedAt.congr {eng : Engine} {ck : Text} (h : PinnedAt eng w ck)
    (hsame : w'.records (eng.metaKey ck) = w.records (eng.metaKey ck)) : PinnedAt eng w' ck := by
  unfold PinnedAt
  rw [hsame]
  exact h

/-- A pin write pins its key, and unpins none. -/
theorem pinnedAt_pin_write {eng : Engine} {ck ck' : Text} (ttl : ℤ)
    (h : ck' = ck ∨ PinnedAt eng w ck') :
    PinnedAt eng (w.applyWrite (eng.pin_write ck true ttl)) ck' := by
  by_cases heq : ck' = ck
  · subst heq
    exact ⟨_, World.applyWrite_self w (eng.pin_write ck' true ttl), pin_write_pin⟩
  · exact (h.resolve_left heq).congr (World.applyWrite_of_ne w fun hkey => heq (meta_key_inj hkey))

theorem pinnedAt_afterPins {eng : Engine} {ck : Text} {cks : List Text}
    (h : ck ∈ cks ∨ PinnedAt eng w ck) : PinnedAt eng (eng.afterPins cks w) ck := by
  induction cks generalizing w with
  | nil => exact h.resolve_left List.not_mem_nil
  | cons ck' cks ih =>
    apply ih
    rcases h with hmem | hpinned
    · rcases List.mem_cons.mp hmem with rfl | hrest
      · exact Or.inr (pinnedAt_pin_write _ (Or.inl rfl))
      · exact Or.inl hrest
    · exact Or.inr (pinnedAt_pin_write _ (Or.inr hpinned))

/-! ### What each task does -/

/-- **A lookup** answers whether each meta record is there, locks the keys that were hit, and
pins their records. -/
theorem run_lookup (plugin : L2Plugin) (keys : List ObjectKey) (locked : LockTable) (w : World)
    {hits : List Bool} (hhits : hits = (keys.map plugin.to_ck).map
      (w.hasMeta plugin.engine.cfg.ns plugin.engine.cfg.set_name)) :
    (plugin.lookup_sync keys locked).run Op.perform w
      = (.ok (hits, (L2Plugin.hit_keys keys hits).foldl LockTable.lock locked),
          plugin.engine.afterPins ((L2Plugin.hit_keys keys hits).map plugin.to_ck) w) := by
  have hlookup : (plugin.lookup_hits keys).run Op.perform w = (.ok hits, w) := by
    unfold L2Plugin.lookup_hits
    rw [Prog.run_tryCatch, run_batched_exists_mask, ← hhits]
    rfl
  have hbm : L2Plugin.set_hits (keys.map fun _ => false) 0 hits = hits :=
    L2Plugin.set_hits_zeros (by rw [hhits, List.length_map, List.length_map])
  unfold L2Plugin.lookup_sync
  rw [Prog.bind_eq, Prog.run_bind, hlookup, Prog.andThen_ok, hbm]
  dsimp only
  by_cases hnil : (L2Plugin.hit_keys keys hits).map plugin.to_ck = []
  · rw [if_neg (not_not.mpr hnil), hnil]
    rfl
  · rw [if_pos hnil, Prog.bind_eq, Prog.run_bind, run_pin_keys]
    rfl

/-- An `unpin` touches no record but the meta record of its key. -/
theorem run_unpin_frame (eng : Engine) (ck : Text) (w : World) :
    ∃ v w', (eng.unpin ck).run Op.perform w = (.ok v, w') ∧
      ∀ key, key ≠ eng.metaKey ck → w'.records key = w.records key := by
  cases hr : w.records (eng.metaKey ck) with
  | none => exact ⟨false, w, run_unpin_absent eng w hr, fun _ _ => rfl⟩
  | some r =>
    refine ⟨true, _, run_unpin_found eng w hr, fun key hkey => ?_⟩
    rw [World.applyWrite_of_ne _ hkey, World.setRecord_of_ne w hkey]

/-- **An unlock** takes one lock of each of its keys away; the records of keys that it has not
unlocked are as they were. -/
theorem run_unlock (plugin : L2Plugin) (keys : List ObjectKey) (locked : LockTable) (w : World) :
    ∃ w', (plugin.unlock_sync keys locked).run Op.perform w
        = (.ok (keys.foldl LockTable.unlock locked), w') ∧
      ∀ ck, (∀ ok ∈ keys, locked ok ≠ none → plugin.to_ck ok ≠ ck) →
        w'.records (plugin.engine.metaKey ck) = w.records (plugin.engine.metaKey ck) := by
  induction keys generalizing locked w with
  | nil => exact ⟨w, rfl, fun _ _ => rfl⟩
  | cons ok keys ih =>
    unfold L2Plugin.unlock_sync
    cases hok : locked ok with
    | none =>
      obtain ⟨w', hrun, hframe⟩ := ih locked w
      refine ⟨w', ?_, fun ck hck => hframe ck fun ok' hmem => hck ok' (List.mem_cons_of_mem _ hmem)⟩
      rw [List.foldl_cons, LockTable.unlock_none hok]
      exact hrun
    | some n =>
      obtain ⟨v, w₁, hunpin, hsame⟩ := run_unpin_frame plugin.engine (plugin.to_ck ok) w
      obtain ⟨w', hrun, hframe⟩ := ih (locked.unlock ok) w₁
      refine ⟨w', ?_, fun ck hck => ?_⟩
      · dsimp only
        rw [Prog.bind_eq, Prog.run_bind, hunpin, Prog.andThen_ok, hrun]
        rfl
      · have hne : plugin.engine.metaKey ck ≠ plugin.engine.metaKey (plugin.to_ck ok) := by
          intro hkey
          refine hck ok List.mem_cons_self (by rw [hok]; exact fun h => by cases h) ?_
          exact (meta_key_inj hkey).symm
        rw [← hsame _ hne]
        refine hframe ck fun ok' hmem hlocked => hck ok' (List.mem_cons_of_mem _ hmem) ?_
        exact LockTable.unlock_ne_none hlocked

/-- A chunk of puts leaves the meta record of a key as it is, if the planner refuses whatever it
puts under the key. -/
theorem put_chunk_frame {R : Refusals} {chunk : List (Text × MemoryObj)} {ck : Text}
    (h : ∀ item ∈ chunk,
      (∃ p, plugin.engine.resolved.shard_plan item.2.byte_array.length = .ok p) → item.1 ≠ ck)
    (w : World) :
    (plugin.put_chunk R chunk w).records (plugin.engine.metaKey ck)
      = w.records (plugin.engine.metaKey ck) := by
  have hcalls : (plugin.engine.batched_put chunk false).AllCalls
      (EngineCall plugin.engine (fun _ => False) fun ck' mo =>
        (∃ p, plugin.engine.resolved.shard_plan mo.byte_array.length = .ok p) → ck' ≠ ck) :=
    batched_put_calls chunk false h
  have hsafe : (frameProtocol (fun key => key = plugin.engine.metaKey ck) w).Safe (fun _ => True)
      (plugin.engine.batched_put chunk false) := by
    refine Protocol.safe_of_allCalls _ (fun _ => trivial) _ ?_
    refine Prog.allCalls_mono (fun o ho i hi key hkey ht => ?_) _ hcalls
    subst hkey
    cases ho i hi with
    | of_read hread =>
      cases hread with
      | read_meta hk => exact hk
      | read_segment hk => exact hk
      | ref_count_down => cases ht
    | write_segment hp =>
      exact meta_key_ne_segment_key _ _ _ _ _ _ _ (Option.some.inj ht).symm
    | write_meta hp hplan => exact hp ⟨_, hplan⟩ (meta_key_inj (Option.some.inj ht))
    | write_pin hk => exact hk
    | touch_meta hk => exact hk
    | remove_meta hk => exact hk
    | remove_segment hk => exact hk
    | clock => cases ht
  exact ((frameProtocol _ w).exec_ok hsafe (exec_run_refusing (R := R) _ w)
    fun _ _ => rfl).1 _ rfl

/-- A chunk of gets leaves all records as they are. -/
theorem get_chunk_records (chunk : List (Text × MemoryObj)) (w : World) :
    (plugin.get_chunk chunk w).records = w.records :=
  Prog.run_keeps (I := fun w' => w'.records = w.records)
    (fun _ w' ho hw => (call_keeps_records ho w').trans hw) _
    (batched_get_preallocated_calls chunk) rfl

/-- What each chunk call keeps, all of them keep. -/
theorem chunkCalls_keep {β : Type} {f : World → β}
    {next : List (Text × MemoryObj) → World → World} {σ : ℕ → World}
    {calls : List (ℕ × List (Text × MemoryObj))}
    (h : L2Plugin.ChunkCalls next σ calls w w')
    (hnext : ∀ idx chunk, (idx, chunk) ∈ calls → ∀ w, f (next chunk w) = f w) : f w' = f w := by
  induction h with
  | nil w => rfl
  | @cons idx chunk calls w' _ ih =>
    rw [ih fun i c hmem => hnext i c (List.mem_cons_of_mem _ hmem)]
    exact hnext idx chunk List.mem_cons_self _

/-- **A store task** leaves the meta record of a key as it is, if the planner refuses whatever it
stores under the key. -/
theorem storeRun_frame {R : Refusals} {req : L2Request} {r : Except PyExc (List Bool)}
    (h : plugin.StoreRun R req w r w') {ck : Text}
    (hck : ∀ item ∈ plugin.items req,
      (∃ p, plugin.engine.resolved.shard_plan item.2.byte_array.length = .ok p) → item.1 ≠ ck) :
    w'.records (plugin.engine.metaKey ck) = w.records (plugin.engine.metaKey ck) := by
  obtain @⟨σ, calls, r, w', -, -, hcalls, hputs, -⟩ := h
  refine chunkCalls_keep (f := fun w => w.records (plugin.engine.metaKey ck)) hputs
    fun idx chunk hmem w => put_chunk_frame (fun item hitem => ?_) w
  exact hck item (L2Plugin.mem_items_of_called ((hcalls idx chunk).mp hmem) hitem)

/-- **A load task** leaves all records as they are. -/
theorem loadRun_records {req : L2Request} (h : plugin.LoadRun req w w') :
    w'.records = w.records := by
  obtain @⟨σ, calls, w', -, -, hgets⟩ := h
  exact chunkCalls_keep (f := World.records) hgets fun _ chunk _ w => get_chunk_records chunk w

/-- What a lookup has done. -/
theorem lookup_done {keys : List ObjectKey} {hits : List Bool} {locked locked' : LockTable}
    (h : (plugin.lookup_sync keys locked).run Op.perform w = (.ok (hits, locked'), w')) :
    locked' = (L2Plugin.hit_keys keys hits).foldl LockTable.lock locked ∧
      w' = plugin.engine.afterPins ((L2Plugin.hit_keys keys hits).map plugin.to_ck) w := by
  rw [run_lookup plugin keys locked w rfl] at h
  obtain ⟨hans, rfl⟩ := Prod.mk.inj h
  obtain ⟨rfl, rfl⟩ := Prod.mk.inj (Except.ok.inj hans)
  exact ⟨rfl, rfl⟩

/-- What an unlock has done. -/
theorem unlock_done {keys : List ObjectKey} {locked locked' : LockTable}
    (h : (plugin.unlock_sync keys locked).run Op.perform w = (.ok locked', w')) :
    locked' = keys.foldl LockTable.unlock locked ∧
      ∀ ck, (∀ ok ∈ keys, locked ok ≠ none → plugin.to_ck ok ≠ ck) →
        w'.records (plugin.engine.metaKey ck) = w.records (plugin.engine.metaKey ck) := by
  obtain ⟨w'', hunlock, hframe⟩ := run_unlock plugin keys locked w
  rw [hunlock] at h
  obtain ⟨hans, rfl⟩ := Prod.mk.inj h
  exact ⟨(Except.ok.inj hans).symm, hframe⟩

/-! ## The main result -/

/-- **Every task keeps the count.** -/
theorem Step.counted {task : LockTask} (h : Step plugin s task s') (hs : Counted s) :
    Counted s' := by
  have hagrees : Agrees s.locked s.events := hs
  cases h with
  | @lookup keys hits locked w' hrun =>
    obtain ⟨rfl, -⟩ := lookup_done hrun
    have hafter := agrees_foldl hagrees ((L2Plugin.hit_keys keys hits).map .hit)
    rwa [List.foldl_map] at hafter
  | @unlock keys locked w' hrun =>
    obtain ⟨rfl, -⟩ := unlock_done hrun
    have hafter := agrees_foldl hagrees (keys.map .unlock)
    rwa [List.foldl_map] at hafter
  | store _ => exact hs
  | load _ => exact hs

/-- A lock in a table that counts is a positive number. -/
theorem Counted.pos (hs : Counted s) {ok : ObjectKey} {n : ℕ} (h : s.locked ok = some n) :
    0 < n := by
  have hentry := (hs ok).2
  rw [h] at hentry
  split_ifs at hentry with hzero
  obtain rfl := Option.some.inj hentry
  exact Nat.pos_of_ne_zero hzero

/-- **A task under the condition keeps locked keys pinned.** -/
theorem Step.pinned {task : LockTask} (h : Step plugin s task s') (hok : Releases plugin s task)
    (hcounted : Counted s) (hs : Pinned plugin s) : Pinned plugin s' := by
  intro ok n hlocked
  have hsome : s'.locked ok ≠ none := Option.ne_none_iff_exists'.mpr ⟨n, hlocked⟩
  cases h with
  | @lookup keys hits locked w' hrun =>
    obtain ⟨rfl, rfl⟩ := lookup_done hrun
    apply pinnedAt_afterPins
    rcases LockTable.foldl_lock_ne_none hsome with hold | hnew
    · obtain ⟨m, hm⟩ := Option.ne_none_iff_exists'.mp hold
      exact Or.inr (hs ok m hm)
    · exact Or.inl (List.mem_map_of_mem hnew)
  | @unlock keys locked w' hrun =>
    obtain ⟨rfl, hframe⟩ := unlock_done hrun
    -- a lock that is left was there before, so no key of the task shares its cache key
    obtain ⟨m, hm⟩ := Option.ne_none_iff_exists'.mp (LockTable.foldl_unlock_ne_none hsome)
    refine PinnedAt.congr (hs ok m hm) (hframe _ fun ok' hmem hok' hck => hsome ?_)
    exact LockTable.foldl_unlock_eq_none (hcounted.pos hm) hm (hok ok' hmem hok' ok m hck.symm hm)
  | @store req r w' hrun =>
    refine PinnedAt.congr (hs ok n hlocked) (storeRun_frame hrun fun item hitem hplan hck => ?_)
    exact hok item hitem hplan ok hsome hck.symm
  | @load req w' hrun =>
    exact PinnedAt.congr (hs ok n hlocked) (congrFun (loadRun_records hrun) _)

/-- Every task under the condition keeps both. -/
theorem Step.kept {task : LockTask} (h : guarded (Releases plugin) (Step plugin) s task s')
    (hs : Counted s ∧ Pinned plugin s) : Counted s' ∧ Pinned plugin s' :=
  ⟨h.2.counted hs.1, h.2.pinned h.1 hs.1 hs.2⟩

theorem counted_start (w : World) : Counted (start w) := fun _ => ⟨le_refl _, rfl⟩

theorem pinned_start (w : World) : Pinned plugin (start w) := by
  intro ok n hlocked
  cases hlocked

end L2Locks

/-- **The locks of the L2 plugin.**  After any tasks the table counts the lookup hits on each
key less the unlocks of it.  When no unlock of a locked key leaves a lock on its cache key, and
no store writes a locked key with a payload that the planner accepts, every locked key is
pinned. -/
theorem l2_locks (plugin : L2Plugin) (w : World) :
    (∀ tasks s, Run (L2Locks.Step plugin) (L2Locks.start w) tasks s → s.Counted) ∧
    ∀ tasks s, Run (guarded (L2Locks.Releases plugin) (L2Locks.Step plugin)) (L2Locks.start w)
      tasks s → s.Pinned plugin := by
  constructor
  · intro tasks s h
    exact h.invariant (L2Locks.counted_start w) fun _ _ _ hs hstep => hstep.counted hs
  · intro tasks s h
    have hinv : s.Counted ∧ s.Pinned plugin :=
      h.invariant ⟨L2Locks.counted_start w, L2Locks.pinned_start w⟩
        fun _ _ _ hs hstep => L2Locks.Step.kept hstep hs
    exact hinv.2

/-! ## Two runs -/

/-- The key of `storeRequest 1`. -/
def lockedKey : ObjectKey := ⟨[0], "llama".toList, 0, []⟩

/-- A key that is stored, locked and unlocked, and then locked twice, has two locks and is
pinned. -/
theorem l2_locks_held : ∃ s : L2Locks, s.locked lockedKey = some 2 ∧ s.Counted ∧
    s.Pinned fakeL2Plugin := by
  have hlocked : Run (guarded (L2Locks.Releases fakeL2Plugin) (L2Locks.Step fakeL2Plugin))
      (L2Locks.start World.empty) [.store (storeRequest 1), .lookup [lockedKey]] _ :=
    (Run.start.step ⟨fun _ _ _ _ hnone => absurd rfl hnone, .store (storeRun_direct fakeL2Plugin
      .nothing (storeRequest 1) World.empty (by decide))⟩).step ⟨trivial, .lookup rfl⟩
  have hone : ∀ w events, L2Locks.Releases fakeL2Plugin
      ⟨w, LockTable.lock (fun _ => none) lockedKey, events⟩ (.unlock [lockedKey]) := by
    intro w events ok hok _ ok' n _ hn
    dsimp only at hn
    by_cases heq : ok' = lockedKey
    · rw [heq, LockTable.lock_self] at hn
      obtain rfl := Option.some.inj hn
      rw [heq]
      decide
    · rw [LockTable.lock_of_ne heq] at hn
      cases hn
  have hrun := (hlocked.step ⟨hone _ _, .unlock rfl⟩).step
    (a := LockTask.lookup [lockedKey, lockedKey]) ⟨trivial, .lookup rfl⟩
  exact ⟨_, rfl, (l2_locks fakeL2Plugin World.empty).1 _ _ hrun.unguarded,
    (l2_locks fakeL2Plugin World.empty).2 _ _ hrun⟩

/-- **The pin bin does not follow the count**: a key that is locked twice and unlocked once is
still locked, and so is a key that is locked and then stored, but neither is pinned. -/
theorem l2_locks_unpinned :
    (∃ s : L2Locks, Run (L2Locks.Step fakeL2Plugin) (L2Locks.start World.empty)
        [.store (storeRequest 1), .lookup [lockedKey], .lookup [lockedKey],
          .unlock [lockedKey]] s ∧
      s.locked lockedKey = some 1 ∧ ∃ r, s.w.records
        (fakeL2Plugin.engine.metaKey (fakeL2Plugin.to_ck lockedKey)) = some r ∧
        r.bins .pin = some (.bool false)) ∧
    ∃ s : L2Locks, Run (L2Locks.Step fakeL2Plugin) (L2Locks.start World.empty)
        [.store (storeRequest 1), .lookup [lockedKey], .store (storeRequest 1)] s ∧
      s.locked lockedKey = some 1 ∧ ∃ r, s.w.records
        (fakeL2Plugin.engine.metaKey (fakeL2Plugin.to_ck lockedKey)) = some r ∧
        r.bins .pin = some (.bool false) := by
  have hstore : ∀ w, fakeL2Plugin.StoreRun .nothing (storeRequest 1) w _ _ := fun w =>
    storeRun_direct fakeL2Plugin .nothing (storeRequest 1) w (by decide)
  constructor
  · exact ⟨_, (((Run.start.step (.store (hstore _))).step (.lookup rfl)).step
      (.lookup rfl)).step (.unlock rfl), rfl, _, rfl, rfl⟩
  · exact ⟨_, ((Run.start.step (.store (hstore _))).step (.lookup rfl)).step
      (.store (hstore _)), rfl, _, rfl, rfl⟩
