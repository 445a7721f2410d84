/-
# The ledger of the L2 plugin

LMCache's capacity and eviction logic sees what the L2 plugin holds only through its
notifications: the sizes of stored and of deleted keys.  A store task notifies only if the
puts of all its keys succeeded, and a deletion notifies the size 0 for each of its keys.  So
the ledger agrees with what is stored as long as the keys of a task succeed or fail together
and no object that has a size is deleted (`ledger_balanced`).
-/
import LmcacheAerospike.HitReadable
import LmcacheAerospike.L2Order

namespace L2Plugin

variable (plugin : L2Plugin)

/-! ## The tasks -/

/-- `delete`: the loop over the keys, and the `sizes` of `_notify_keys_deleted`. -/
def delete : List ObjectKey → EngineM (List ℕ)
  | [] => return []
  | key :: keys => do
    let _ ← plugin.engine.remove (plugin.to_ck key)
    let sizes ← delete keys
    return 0 :: sizes

/-- Chunk calls of a task, made one after the other: each takes the store on to `next`, and
`σ idx` is the store that call `idx` is made on. -/
inductive ChunkCalls (next : List (Text × MemoryObj) → World → World) (σ : ℕ → World) :
    List (ℕ × List (Text × MemoryObj)) → World → World → Prop
  | nil (w : World) : ChunkCalls next σ [] w w
  | cons {idx : ℕ} {chunk : List (Text × MemoryObj)}
      {calls : List (ℕ × List (Text × MemoryObj))} {w' : World} :
      ChunkCalls next σ calls (next chunk (σ idx)) w' →
      ChunkCalls next σ ((idx, chunk) :: calls) (σ idx) w'

/-- The store after a chunk call of a store task. -/
abbrev put_chunk (R : Refusals) (chunk : List (Text × MemoryObj)) (w : World) : World :=
  ((plugin.engine.batched_put chunk false).run R.call w).2

/-- The executors of a store task whose chunk calls are made on the stores `σ`. -/
abbrev storers (R : Refusals) (σ : ℕ → World) : L2Executors L2Request (Text × MemoryObj) :=
  plugin.executors fun _ => plugin.store_call (fun _ => R) σ

/-- **A store task from start to end**, while the server refuses the operations in `R`: its
chunk calls are made in any order, and `_parallel_chunks` comes to `r`. -/
inductive StoreRun (R : Refusals) (req : L2Request) (w : World) :
    Except PyExc (List Bool) → World → Prop
  | intro {σ : ℕ → World} {calls : List (ℕ × List (Text × MemoryObj))}
      {r : Except PyExc (List Bool)} {w' : World} :
      (∀ idx, (σ idx).now = w.now) → calls.Nodup →
      (∀ idx chunk, (idx, chunk) ∈ calls ↔ (plugin.storers R σ).Called req idx chunk) →
      ChunkCalls (plugin.put_chunk R) σ calls w w' →
      r.toOption = (plugin.storers R σ).outcome 0 req → StoreRun R req w r w'

/-- The pairs whose key has a meta record. -/
def present (w : World) (pairs : List (ObjectKey × MemoryObj)) : List (ObjectKey × MemoryObj) :=
  pairs.filter fun pair =>
    w.hasMeta plugin.engine.cfg.ns plugin.engine.cfg.set_name (plugin.to_ck pair.1)

/-- One more object stored, in the place of one under the same cache key. -/
def record (stored : List (ObjectKey × MemoryObj)) (pair : ObjectKey × MemoryObj) :
    List (ObjectKey × MemoryObj) :=
  stored.filter (fun old => plugin.to_ck old.1 ≠ plugin.to_ck pair.1) ++ [pair]

end L2Plugin

/-! ## The ledger -/

/-- The store, the objects that are stored through the plugin, and the notifications. -/
structure L2Ledger : Type where
  w : World
  stored : List (ObjectKey × MemoryObj)
  notified_stored : List (List ObjectKey × List ℕ)
  notified_deleted : List (List ObjectKey × List ℕ)

/-- The tasks that write to the ledger. -/
inductive LedgerTask : Type where
  | store (R : Refusals) (req : L2Request)
  | delete (keys : List ObjectKey)

namespace L2Ledger

/-- An empty store, and nothing notified. -/
def empty : L2Ledger := ⟨World.empty, [], [], []⟩

/-- A task from start to end. -/
inductive Step (plugin : L2Plugin) : L2Ledger → LedgerTask → L2Ledger → Prop
  | store {s : L2Ledger} {R : Refusals} {req : L2Request} {r : Except PyExc (List Bool)}
      {w' : World} : plugin.StoreRun R req s.w r w' →
      Step plugin s (.store R req)
        ⟨w', (plugin.present w' (req.keys.zip req.objects)).foldl plugin.record s.stored,
          s.notified_stored ++ (L2Plugin.notified_stored (plugin.store_sync req r)).toList,
          s.notified_deleted⟩
  | delete {s : L2Ledger} {keys : List ObjectKey} {sizes : List ℕ} {w' : World} :
      (plugin.delete keys).run Op.perform s.w = (.ok sizes, w') →
      Step plugin s (.delete keys)
        ⟨w', plugin.present w' s.stored, s.notified_stored, s.notified_deleted ++ [(keys, sizes)]⟩

variable (plugin : L2Plugin)

/-- The keys of a store are not stored yet. -/
def Fresh (s : L2Ledger) : LedgerTask → Prop
  | .store _ req => ∀ item ∈ plugin.items req, ∀ pair ∈ s.stored, plugin.to_ck pair.1 ≠ item.1
  | .delete _ => True

/-- **The condition**: the keys of a store are different, and their puts succeed or fail
together; and a deletion takes away no object that has a size. -/
def Together (s : L2Ledger) : LedgerTask → Prop
  | .store R req => ((plugin.items req).map Prod.fst).Nodup ∧
      ((∀ item ∈ plugin.items req, R.puts plugin.engine false s.w.now item = true) ∨
        ∀ item ∈ plugin.items req, R.puts plugin.engine false s.w.now item = false)
  | .delete keys => ∀ pair ∈ s.stored, plugin.to_ck pair.1 ∈ keys.map plugin.to_ck →
      plugin.get_size pair.2 = 0

/-- The objects that are stored are those whose key has a meta record. -/
def Linked (s : L2Ledger) : Prop :=
  ∀ ck, s.w.hasMeta plugin.engine.cfg.ns plugin.engine.cfg.set_name ck = true ↔
    ∃ pair ∈ s.stored, plugin.to_ck pair.1 = ck

/-- The sizes of some notifications. -/
def total (calls : List (List ObjectKey × List ℕ)) : ℕ := (calls.map fun call => call.2.sum).sum

/-- The bytes that are stored. -/
def bytes (s : L2Ledger) : ℕ := (s.stored.map fun pair => plugin.get_size pair.2).sum

/-- **The ledger agrees with what is stored.** -/
structure Balanced (s : L2Ledger) : Prop where
  bytes : (total s.notified_stored : ℤ) - total s.notified_deleted = s.bytes plugin
  reported : ∀ pair ∈ s.stored, ∃ call ∈ s.notified_stored, pair.1 ∈ call.1

end L2Ledger

/-! ## What a store task comes to -/

namespace L2Plugin

variable {plugin : L2Plugin} {R : Refusals} {σ : ℕ → World} {req : L2Request} {w w' : World}

/-- The chunk calls of a store task: the meta records of some of their items are there; each
call that returns has stored all of its items whose put succeeds, and a call raises only if the
put of one does not. -/
theorem chunkPuts_ends {calls : List (ℕ × List (Text × MemoryObj))}
    (h : ChunkCalls (plugin.put_chunk R) σ calls w w') (hclock : ∀ idx, (σ idx).now = w.now) :
    ∃ stored : List (Text × MemoryObj),
      (∀ item ∈ stored, (∃ idx chunk, (idx, chunk) ∈ calls ∧ item ∈ chunk) ∧
        R.puts plugin.engine false w.now item = true) ∧
      plugin.engine.MetasAdded (stored.map Prod.fst) w w' ∧
      ∀ idx chunk, (idx, chunk) ∈ calls →
        (∀ flags, plugin.store_call (fun _ => R) σ idx chunk = .ok flags →
          ∀ item ∈ chunk, R.puts plugin.engine false w.now item = true → item ∈ stored) ∧
        ∀ e, plugin.store_call (fun _ => R) σ idx chunk = .error e →
          ∃ item ∈ chunk, R.puts plugin.engine false w.now item = false := by
  induction h with
  | nil w =>
    have hsame : plugin.engine.SameMetas w w := fun _ => rfl
    exact ⟨[], by simp, hsame.added, fun idx chunk hmem => by cases hmem⟩
  | @cons idx chunk calls w' _ ih =>
    have hnow := run_now (R := R) (plugin.engine.batched_put chunk false) (σ idx)
    obtain ⟨stored, hputs, hadded, hcalls⟩ := ih fun i => (hclock i).trans hnow.symm
    rw [hnow] at hputs hcalls
    have hends : BatchEnds R plugin.engine false chunk (σ idx)
        ((plugin.engine.batched_put chunk false).run R.call (σ idx)) :=
      run_batched_put chunk (σ idx)
    obtain ⟨first, hfirst, haddedFirst, hflags, herror⟩ := hends
    refine ⟨first ++ stored, fun item hitem => ?_, ?_, fun i c hmem => ?_⟩
    · rcases List.mem_append.mp hitem with hi | hi
      · exact ⟨⟨idx, chunk, List.mem_cons_self, (hfirst item hi).1⟩, (hfirst item hi).2⟩
      · obtain ⟨⟨i, c, hmem, hic⟩, hp⟩ := hputs item hi
        exact ⟨⟨i, c, List.mem_cons_of_mem _ hmem, hic⟩, hp⟩
    · rw [List.map_append]
      exact haddedFirst.trans hadded
    · rcases List.mem_cons.mp hmem with heq | hrest
      · cases heq
        refine ⟨fun flags hok item hitem hp => ?_, herror⟩
        rw [(hflags flags hok).2]
        exact List.mem_append_left _ (List.mem_filter.mpr ⟨hitem, hp⟩)
      · obtain ⟨hok, herr⟩ := hcalls i c hrest
        exact ⟨fun flags hf item hitem hp => List.mem_append_right _ (hok flags hf item hitem hp),
          herr⟩

/-- The items of a chunk call are items of the task. -/
theorem mem_items_of_called {idx : ℕ} {chunk : List (Text × MemoryObj)}
    (h : (plugin.storers R σ).Called req idx chunk) {item : Text × MemoryObj}
    (hitem : item ∈ chunk) : item ∈ plugin.items req := by
  unfold L2Executors.Called at h
  split_ifs at h
  · rw [h.2] at hitem
    exact hitem
  · have hflat : item ∈ ((plugin.storers R σ).chunks req).flatten :=
      List.mem_flatten.mpr ⟨chunk, List.mem_of_getElem? h, hitem⟩
    unfold L2Executors.chunks at hflat
    rwa [flatten_chunked _ (plugin.storers R σ).chunk_size_pos] at hflat

/-- Every item of the task is in some chunk call. -/
theorem called_of_mem_items {item : Text × MemoryObj} (hitem : item ∈ plugin.items req) :
    ∃ idx chunk, (plugin.storers R σ).Called req idx chunk ∧ item ∈ chunk := by
  unfold L2Executors.Called
  by_cases hd : (plugin.storers R σ).direct req = true
  · exact ⟨0, plugin.items req, by rw [if_pos hd]; exact ⟨rfl, rfl⟩, hitem⟩
  · have hflat : item ∈ ((plugin.storers R σ).chunks req).flatten := by
      unfold L2Executors.chunks
      rw [flatten_chunked _ (plugin.storers R σ).chunk_size_pos]
      exact hitem
    obtain ⟨chunk, hchunk, hmem⟩ := List.mem_flatten.mp hflat
    obtain ⟨idx, hidx⟩ := List.mem_iff_getElem?.mp hchunk
    exact ⟨idx, chunk, by rw [if_neg hd]; exact hidx, hmem⟩

/-- What a store task has answered, if it has not raised. -/
theorem outcome_puts (hclock : ∀ idx, (σ idx).now = w.now) {results : List Bool}
    (h : (plugin.storers R σ).outcome 0 req = some results) :
    results = (plugin.items req).map (R.puts plugin.engine false w.now) := by
  have hpositions := L2Executors.outcome_positions
    (f := fun _ => R.puts plugin.engine false w.now) (fun idx chunk flags hflags => by
      have hanswer := store_call_flags (R := fun _ => R) hflags
      rwa [hclock idx] at hanswer) h
  rw [hpositions]
  apply List.ext_getElem?
  intro i
  rw [List.getElem?_mapIdx, List.getElem?_map]
  rfl

/-- **A store task all of whose puts succeed** has stored all of its keys. -/
theorem StoreRun.all_stored {r : Except PyExc (List Bool)} (h : plugin.StoreRun R req w r w')
    (hall : ∀ item ∈ plugin.items req, R.puts plugin.engine false w.now item = true) :
    r = .ok ((plugin.items req).map fun _ => true) ∧
      plugin.engine.MetasAdded ((plugin.items req).map Prod.fst) w w' := by
  obtain @⟨σ, calls, r, w', hclock, -, hcalls, hputs, hr⟩ := h
  obtain ⟨stored, hstored, hadded, hends⟩ := chunkPuts_ends hputs hclock
  -- no call has raised, since a put would not have succeeded
  have hanswered : (plugin.storers R σ).Answered 0 req := by
    intro idx chunk hcalled
    cases hc : plugin.store_call (fun _ => R) σ idx chunk with
    | ok flags => exact ⟨flags, hc⟩
    | error e =>
      obtain ⟨item, hitem, hfalse⟩ := (hends idx chunk ((hcalls idx chunk).mpr hcalled)).2 e hc
      rw [hall item (mem_items_of_called hcalled hitem)] at hfalse
      cases hfalse
  constructor
  · obtain ⟨results, hresults⟩ := L2Executors.outcome_of_answered hanswered
    rw [hresults] at hr
    cases r with
    | error e => cases hr
    | ok results' =>
      cases hr
      rw [outcome_puts hclock hresults]
      congr 1
      exact List.map_congr_left hall
  · have hmem : ∀ item, item ∈ stored ↔ item ∈ plugin.items req := by
      intro item
      constructor
      · intro hitem
        obtain ⟨⟨idx, chunk, hcall, hic⟩, -⟩ := hstored item hitem
        exact mem_items_of_called ((hcalls idx chunk).mp hcall) hic
      · intro hitem
        obtain ⟨idx, chunk, hcalled, hic⟩ := called_of_mem_items hitem
        obtain ⟨flags, hflags⟩ := hanswered idx chunk hcalled
        exact (hends idx chunk ((hcalls idx chunk).mpr hcalled)).1 flags hflags item hic
          (hall item hitem)
    intro ck
    rw [hadded ck, List.mem_map, List.mem_map]
    simp only [hmem]

/-- **A store task none of whose puts succeeds** has stored nothing, and says so. -/
theorem StoreRun.none_stored {r : Except PyExc (List Bool)} (h : plugin.StoreRun R req w r w')
    (hnone : ∀ item ∈ plugin.items req, R.puts plugin.engine false w.now item = false) :
    (∀ results, r = .ok results → results = (plugin.items req).map fun _ => false) ∧
      plugin.engine.MetasAdded [] w w' := by
  obtain @⟨σ, calls, r, w', hclock, -, hcalls, hputs, hr⟩ := h
  obtain ⟨stored, hstored, hadded, -⟩ := chunkPuts_ends hputs hclock
  constructor
  · intro results hok
    rw [hok] at hr
    rw [outcome_puts hclock hr.symm]
    exact List.map_congr_left hnone
  · have hnil : stored = [] := by
      rw [List.eq_nil_iff_forall_not_mem]
      intro item hitem
      obtain ⟨⟨idx, chunk, hcall, hic⟩, hp⟩ := hstored item hitem
      rw [hnone item (mem_items_of_called ((hcalls idx chunk).mp hcall) hic)] at hp
      cases hp
    rwa [hnil] at hadded

/-! ### The notification -/

/-- The puts of the task succeeded together or not at all. -/
theorem succeeded_together (pairs : List (ObjectKey × MemoryObj)) (success : Bool) :
    succeeded pairs (pairs.map fun _ => success) = if success then pairs else [] := by
  unfold succeeded
  induction pairs with
  | nil =>
    cases success with
    | true => rfl
    | false => rfl
  | cons pair pairs ih =>
    cases success with
    | true => simpa using ih
    | false => simpa using ih

/-- Every put of the task succeeded: the notification has all keys and their sizes. -/
theorem notified_all (pairs : List (ObjectKey × MemoryObj)) (t : StoreTally)
    (ht : t = plugin.tally pairs (pairs.map fun _ => true) ⟨0, true, [], []⟩) :
    L2Ledger.total (notified_stored t).toList
        = (pairs.map fun pair => plugin.get_size pair.2).sum ∧
      ∀ pair ∈ pairs, ∃ call ∈ (notified_stored t).toList, pair.1 ∈ call.1 := by
  have hsucceeded : succeeded pairs (pairs.map fun _ => true) = pairs :=
    succeeded_together pairs true
  have hall : (pairs.zip (pairs.map fun _ => true)).all Prod.snd = true := by
    rw [List.all_eq_true]
    rintro ⟨pair, flag⟩ hmem
    obtain ⟨-, hflag⟩ := List.of_mem_zip hmem
    obtain ⟨_, -, rfl⟩ := List.mem_map.mp hflag
    rfl
  rw [tally_eq, hsucceeded, hall, List.nil_append, List.nil_append] at ht
  subst ht
  unfold notified_stored
  cases pairs with
  | nil => exact ⟨rfl, by simp⟩
  | cons pair pairs =>
    dsimp only
    rw [if_pos ⟨rfl, by simp⟩]
    refine ⟨by simp [L2Ledger.total], fun p hp => ⟨_, List.mem_singleton_self _, ?_⟩⟩
    exact List.mem_map_of_mem hp

/-- No put of the task succeeded: there is no notification. -/
theorem notified_none (pairs : List (ObjectKey × MemoryObj)) :
    notified_stored (plugin.tally pairs (pairs.map fun _ => false) ⟨0, true, [], []⟩) = none := by
  have hsucceeded : succeeded pairs (pairs.map fun _ => false) = [] :=
    succeeded_together pairs false
  rw [tally_eq, hsucceeded]
  unfold notified_stored
  rw [if_neg]
  rintro ⟨-, hne⟩
  exact hne rfl

/-! ## What a deletion comes to -/

/-- A removal that completes leaves no meta record of its key, and the others as they are. -/
theorem run_remove_metas {eng : Engine} {ck : Text} {removed : Bool}
    (h : (eng.remove ck).run Op.perform w = (.ok removed, w')) (ck' : Text) :
    w'.hasMeta eng.cfg.ns eng.cfg.set_name ck' = true ↔
      w.hasMeta eng.cfg.ns eng.cfg.set_name ck' = true ∧ ck' ≠ ck := by
  rcases run_remove_ok h with ⟨habsent, -, rfl⟩ | ⟨-, n, rfl⟩
  · rw [and_iff_left_of_imp]
    rintro hmeta rfl
    unfold World.hasMeta at hmeta
    rw [habsent] at hmeta
    cases hmeta
  · by_cases hck : ck' = ck
    · subst hck
      unfold World.hasMeta
      rw [show meta_key eng.cfg.ns eng.cfg.set_name ck' = eng.metaKey ck' from rfl, meta_removed n]
      simp
    · have hne : meta_key eng.cfg.ns eng.cfg.set_name ck' ≠ eng.metaKey ck :=
        fun heq => hck (meta_key_inj heq)
      unfold World.hasMeta
      rw [(sameFor_remove n hne).1, and_iff_left hck]

/-- **A deletion that completes** leaves no meta record of its keys, and notifies no bytes. -/
theorem run_delete {keys : List ObjectKey} {sizes : List ℕ}
    (h : (plugin.delete keys).run Op.perform w = (.ok sizes, w')) :
    sizes = keys.map (fun _ => 0) ∧
      ∀ ck, w'.hasMeta plugin.engine.cfg.ns plugin.engine.cfg.set_name ck = true ↔
        w.hasMeta plugin.engine.cfg.ns plugin.engine.cfg.set_name ck = true ∧
          ck ∉ keys.map plugin.to_ck := by
  induction keys generalizing w sizes with
  | nil =>
    cases h
    exact ⟨rfl, fun ck => by simp⟩
  | cons key keys ih =>
    unfold delete at h
    rw [Prog.bind_eq, Prog.run_bind] at h
    rcases hremove : (plugin.engine.remove (plugin.to_ck key)).run Op.perform w with ⟨r, w₁⟩
    rw [hremove] at h
    cases r with
    | error e => cases h
    | ok removed =>
      rw [Prog.andThen_ok, Prog.bind_eq, Prog.run_bind] at h
      rcases hrest : (plugin.delete keys).run Op.perform w₁ with ⟨r, w₂⟩
      rw [hrest] at h
      cases r with
      | error e => cases h
      | ok rest =>
        cases h
        obtain ⟨hsizes, hmetas⟩ := ih hrest
        refine ⟨by rw [hsizes]; rfl, fun ck => ?_⟩
        rw [hmetas ck, run_remove_metas hremove ck, List.map_cons, List.mem_cons, not_or,
          and_assoc]

end L2Plugin

/-! ## The invariant -/

/-- Dropping elements that count nothing. -/
theorem sum_filter_of_zero {α : Type} {f : α → ℕ} {p : α → Bool} {l : List α}
    (h : ∀ a ∈ l, p a = false → f a = 0) : ((l.filter p).map f).sum = (l.map f).sum := by
  induction l with
  | nil => rfl
  | cons a l ih =>
    rw [List.forall_mem_cons] at h
    rw [List.map_cons, List.sum_cons, ← ih h.2]
    by_cases hp : p a = true
    · rw [List.filter_cons_of_pos hp, List.map_cons, List.sum_cons]
    · rw [List.filter_cons_of_neg hp, h.1 (Bool.not_eq_true _ ▸ hp), Nat.zero_add]

namespace L2Ledger

variable {plugin : L2Plugin} {s s' : L2Ledger}

theorem total_append (calls calls' : List (List ObjectKey × List ℕ)) :
    total (calls ++ calls') = total calls + total calls' := by
  unfold total
  rw [List.map_append, List.sum_append]

/-- New objects under different keys are added to those that are stored. -/
theorem foldl_record_new {stored pairs : List (ObjectKey × MemoryObj)}
    (hnodup : (pairs.map fun pair => plugin.to_ck pair.1).Nodup)
    (hnew : ∀ pair ∈ pairs, ∀ old ∈ stored, plugin.to_ck old.1 ≠ plugin.to_ck pair.1) :
    pairs.foldl plugin.record stored = stored ++ pairs := by
  induction pairs generalizing stored with
  | nil => rw [List.foldl_nil, List.append_nil]
  | cons pair pairs ih =>
    rw [List.map_cons, List.nodup_cons] at hnodup
    rw [List.forall_mem_cons] at hnew
    have hkept : plugin.record stored pair = stored ++ [pair] := by
      unfold L2Plugin.record
      rw [List.filter_eq_self.mpr fun old hold => decide_eq_true (hnew.1 old hold)]
    rw [List.foldl_cons, hkept, ih hnodup.2, List.append_assoc, List.singleton_append]
    intro other hother old hold
    rcases List.mem_append.mp hold with hs | hp
    · exact hnew.2 other hother old hs
    · rw [List.mem_singleton.mp hp]
      intro heq
      exact hnodup.1 (List.mem_map.mpr ⟨other, hother, heq.symm⟩)

/-- The meta records after a store task whose keys were all stored. -/
theorem Linked.add {pairs : List (ObjectKey × MemoryObj)} {w' : World} (h : s.Linked plugin)
    (hadded : plugin.engine.MetasAdded (pairs.map fun pair => plugin.to_ck pair.1) s.w w')
    (notified_stored notified_deleted : List (List ObjectKey × List ℕ)) :
    Linked plugin ⟨w', s.stored ++ pairs, notified_stored, notified_deleted⟩ := by
  intro ck
  show w'.hasMeta _ _ ck = true ↔ ∃ pair ∈ s.stored ++ pairs, plugin.to_ck pair.1 = ck
  rw [hadded ck, h ck, List.mem_map]
  simp only [List.mem_append]
  constructor
  · rintro (⟨pair, hpair, hck⟩ | ⟨pair, hpair, hck⟩)
    · exact ⟨pair, Or.inl hpair, hck⟩
    · exact ⟨pair, Or.inr hpair, hck⟩
  · rintro ⟨pair, hpair | hpair, hck⟩
    · exact Or.inl ⟨pair, hpair, hck⟩
    · exact Or.inr ⟨pair, hpair, hck⟩

/-- **A store task whose puts all succeed.** -/
theorem store_all {R : Refusals} {req : L2Request} {r : Except PyExc (List Bool)} {w' : World}
    (hlinked : s.Linked plugin) (hbalanced : s.Balanced plugin)
    (hfresh : s.Fresh plugin (.store R req))
    (hnodup : ((plugin.items req).map Prod.fst).Nodup)
    (hrun : plugin.StoreRun R req s.w r w')
    (hall : ∀ item ∈ plugin.items req, R.puts plugin.engine false s.w.now item = true) :
    Linked plugin ⟨w', (plugin.present w' (req.keys.zip req.objects)).foldl plugin.record s.stored,
        s.notified_stored ++ (L2Plugin.notified_stored (plugin.store_sync req r)).toList,
        s.notified_deleted⟩ ∧
      Balanced plugin ⟨w',
        (plugin.present w' (req.keys.zip req.objects)).foldl plugin.record s.stored,
        s.notified_stored ++ (L2Plugin.notified_stored (plugin.store_sync req r)).toList,
        s.notified_deleted⟩ := by
  obtain ⟨rfl, hadded⟩ := hrun.all_stored hall
  have hkeys : (plugin.items req).map Prod.fst
      = (req.keys.zip req.objects).map fun pair => plugin.to_ck pair.1 := by
    unfold L2Plugin.items
    rw [List.map_map]
    rfl
  rw [hkeys] at hnodup hadded
  have hpresent : plugin.present w' (req.keys.zip req.objects) = req.keys.zip req.objects :=
    List.filter_eq_self.mpr fun pair hpair =>
      (hadded _).mpr (Or.inr (List.mem_map.mpr ⟨pair, hpair, rfl⟩))
  rw [hpresent, foldl_record_new hnodup fun pair hpair old hold =>
    hfresh _ (List.mem_map_of_mem hpair) old hold]
  have hflags : plugin.store_sync req (.ok ((plugin.items req).map fun _ => true))
      = plugin.tally (req.keys.zip req.objects) ((req.keys.zip req.objects).map fun _ => true)
          ⟨0, true, [], []⟩ := by
    unfold L2Plugin.items
    rw [List.map_map]
    rfl
  obtain ⟨htotal, hreported⟩ := L2Plugin.notified_all _ _ hflags
  refine ⟨hlinked.add hadded _ _, ?_, ?_⟩
  · have hbytes := hbalanced.bytes
    unfold L2Ledger.bytes at hbytes ⊢
    dsimp only
    rw [total_append, htotal, List.map_append, List.sum_append]
    rw [Nat.cast_add, Nat.cast_add]
    omega
  · intro pair hpair
    rcases List.mem_append.mp hpair with hold | hnew
    · obtain ⟨call, hcall, hkey⟩ := hbalanced.reported pair hold
      exact ⟨call, List.mem_append_left _ hcall, hkey⟩
    · obtain ⟨call, hcall, hkey⟩ := hreported pair hnew
      exact ⟨call, List.mem_append_right _ hcall, hkey⟩

/-- **A store task none of whose puts succeeds** changes nothing. -/
theorem store_none {R : Refusals} {req : L2Request} {r : Except PyExc (List Bool)} {w' : World}
    (hlinked : s.Linked plugin) (hfresh : s.Fresh plugin (.store R req))
    (hrun : plugin.StoreRun R req s.w r w')
    (hnone : ∀ item ∈ plugin.items req, R.puts plugin.engine false s.w.now item = false) :
    plugin.present w' (req.keys.zip req.objects) = [] ∧
      L2Plugin.notified_stored (plugin.store_sync req r) = none ∧
      plugin.engine.MetasAdded [] s.w w' := by
  obtain ⟨hresults, hadded⟩ := hrun.none_stored hnone
  refine ⟨?_, ?_, hadded⟩
  · unfold L2Plugin.present
    rw [List.filter_eq_nil_iff]
    intro pair hpair hmeta
    rcases (hadded _).mp hmeta with hold | hnew
    · obtain ⟨old, hold, hck⟩ := (hlinked _).mp hold
      exact hfresh _ (List.mem_map_of_mem hpair) old hold hck
    · cases hnew
  · cases r with
    | error e => rfl
    | ok results =>
      rw [hresults results rfl]
      have hflags : plugin.store_sync req (.ok ((plugin.items req).map fun _ => false))
          = plugin.tally (req.keys.zip req.objects)
              ((req.keys.zip req.objects).map fun _ => false) ⟨0, true, [], []⟩ := by
        unfold L2Plugin.items
        rw [List.map_map]
        rfl
      rw [hflags]
      exact L2Plugin.notified_none _

/-- **A deletion** of objects without a size. -/
theorem delete_sizeless {keys : List ObjectKey} {sizes : List ℕ} {w' : World}
    (hlinked : s.Linked plugin) (hbalanced : s.Balanced plugin)
    (hsizes : s.Together plugin (.delete keys))
    (hrun : (plugin.delete keys).run Op.perform s.w = (.ok sizes, w')) :
    Linked plugin ⟨w', plugin.present w' s.stored, s.notified_stored,
        s.notified_deleted ++ [(keys, sizes)]⟩ ∧
      Balanced plugin ⟨w', plugin.present w' s.stored, s.notified_stored,
        s.notified_deleted ++ [(keys, sizes)]⟩ := by
  obtain ⟨rfl, hmetas⟩ := L2Plugin.run_delete hrun
  refine ⟨fun ck => ?_, ?_,
    fun pair hpair => hbalanced.reported pair (List.mem_of_mem_filter hpair)⟩
  · show w'.hasMeta _ _ ck = true ↔ ∃ pair ∈ plugin.present w' s.stored, plugin.to_ck pair.1 = ck
    unfold L2Plugin.present
    simp only [List.mem_filter]
    constructor
    · intro hmeta
      obtain ⟨pair, hpair, rfl⟩ := (hlinked ck).mp ((hmetas ck).mp hmeta).1
      exact ⟨pair, ⟨hpair, hmeta⟩, rfl⟩
    · rintro ⟨pair, ⟨-, hmeta⟩, rfl⟩
      exact hmeta
  · have hbytes := hbalanced.bytes
    have hzero : (keys.map fun _ => (0 : ℕ)).sum = 0 := by simp
    have hsum : ((plugin.present w' s.stored).map fun pair => plugin.get_size pair.2).sum
        = (s.stored.map fun pair => plugin.get_size pair.2).sum := by
      refine sum_filter_of_zero fun pair hpair hgone => hsizes pair hpair ?_
      -- the key is gone although it was there
      by_contra hkept
      have hmeta := (hmetas (plugin.to_ck pair.1)).mpr
        ⟨(hlinked _).mpr ⟨pair, hpair, rfl⟩, hkept⟩
      rw [hmeta] at hgone
      cases hgone
    unfold L2Ledger.bytes at hbytes ⊢
    dsimp only
    rw [total_append, hsum]
    simp only [total, List.map_cons, List.map_nil, List.sum_cons, List.sum_nil, hzero] at hbytes ⊢
    omega

/-- **The step lemma.** -/
theorem balanced_step {a : LedgerTask} (h : s.Linked plugin ∧ s.Balanced plugin)
    (hfresh : s.Fresh plugin a) (htogether : s.Together plugin a) (hstep : Step plugin s a s') :
    s'.Linked plugin ∧ s'.Balanced plugin := by
  obtain ⟨hlinked, hbalanced⟩ := h
  cases hstep with
  | @store R req r w' hrun =>
    rcases htogether.2 with hall | hnone
    · exact store_all hlinked hbalanced hfresh htogether.1 hrun hall
    · obtain ⟨hpresent, hnotified, hadded⟩ := store_none hlinked hfresh hrun hnone
      rw [hpresent, hnotified, Option.toList_none, List.append_nil, List.foldl_nil]
      refine ⟨?_, hbalanced.bytes, hbalanced.reported⟩
      have hsame : Linked plugin ⟨w', s.stored ++ [], s.notified_stored, s.notified_deleted⟩ :=
        @Linked.add plugin s [] w' hlinked hadded s.notified_stored s.notified_deleted
      rwa [List.append_nil] at hsame
  | delete hrun => exact delete_sizeless hlinked hbalanced htogether hrun

theorem balanced_empty : empty.Linked plugin ∧ empty.Balanced plugin := by
  refine ⟨fun ck => ?_, rfl, fun pair hpair => by cases hpair⟩
  simp [empty, World.hasMeta, World.empty]

end L2Ledger

/-- **The ledger agrees with what is stored** after any stores of keys that were not stored and
any deletions, when the keys of each store are different and succeed or fail together and no
object that has a size is deleted: the notified bytes are those of the objects stored under
the meta records that are there, and each of these has been notified. -/
theorem ledger_balanced (plugin : L2Plugin) {as : List LedgerTask} {s : L2Ledger}
    (h : Run (guarded (fun s a => L2Ledger.Fresh plugin s a ∧ L2Ledger.Together plugin s a)
      (L2Ledger.Step plugin)) L2Ledger.empty as s) :
    s.Linked plugin ∧ s.Balanced plugin :=
  h.invariant L2Ledger.balanced_empty fun _ _ _ hinv hstep =>
    L2Ledger.balanced_step hinv hstep.1.1 hstep.1.2 hstep.2

/-! ## Three ledgers -/

/-- A store task of one chunk. -/
theorem storeRun_direct (plugin : L2Plugin) (R : Refusals) (req : L2Request) (w : World)
    (h : (plugin.items req).length ≤ 32) :
    plugin.StoreRun R req w
      ((plugin.engine.batched_put (plugin.items req) false).run R.call w).1
      ((plugin.engine.batched_put (plugin.items req) false).run R.call w).2 := by
  have hdirect : ∀ σ, (plugin.storers R σ).direct req = true := by
    intro σ
    unfold L2Executors.direct
    rw [Bool.or_eq_true]
    exact Or.inl (decide_eq_true h)
  have hone : [(0, plugin.items req)].Nodup := List.nodup_singleton _
  refine .intro (σ := fun _ => w) (fun _ => rfl) hone (fun idx chunk => ?_) (.cons (.nil _)) ?_
  · unfold L2Executors.Called
    rw [if_pos (hdirect _), List.mem_singleton, Prod.mk.injEq]
    rfl
  · unfold L2Executors.outcome
    rw [if_pos (hdirect _)]
    rfl

/-- A key that is in no request of the examples. -/
def absentKey : ObjectKey := ⟨[7], "llama".toList, 0, []⟩

/-- Two objects of two bytes are stored, and a key that is not there is deleted. -/
theorem ledger_balanced_two_objects : ∃ s : L2Ledger, s.Balanced fakeL2Plugin ∧
    s.bytes fakeL2Plugin = 4 ∧ s.notified_deleted = [([absentKey], [0])] := by
  have hstore : Run (guarded (fun s a => L2Ledger.Fresh fakeL2Plugin s a ∧
      L2Ledger.Together fakeL2Plugin s a) (L2Ledger.Step fakeL2Plugin)) L2Ledger.empty
      [LedgerTask.store .nothing (storeRequest 2)] _ :=
    Run.start.step ⟨⟨fun _ _ pair hpair => (by cases hpair),
      (by decide), Or.inl (List.all_eq_true.mp rfl)⟩,
      .store (storeRun_direct fakeL2Plugin .nothing (storeRequest 2) World.empty (by decide))⟩
  have hother : ∀ pair ∈ (storeRequest 2).keys.zip (storeRequest 2).objects,
      fakeL2Plugin.to_ck pair.1 ∉ [absentKey].map fakeL2Plugin.to_ck := by decide
  have hdelete : Run (guarded (fun s a => L2Ledger.Fresh fakeL2Plugin s a ∧
      L2Ledger.Together fakeL2Plugin s a) (L2Ledger.Step fakeL2Plugin)) L2Ledger.empty
      [LedgerTask.store .nothing (storeRequest 2), LedgerTask.delete [absentKey]] _ :=
    hstore.step ⟨⟨trivial, fun pair hpair hmem => absurd hmem (hother pair hpair)⟩, .delete rfl⟩
  exact ⟨_, (ledger_balanced fakeL2Plugin hdelete).2, rfl, rfl⟩

/-- A server that refuses to write the meta record of the second key of a request. -/
def refusesSecond : Refusals where
  read := fun _ => none
  write := fun wr =>
    if wr.key = fakeL2Plugin.engine.metaKey (fakeL2Plugin.to_ck ⟨[1], "llama".toList, 0, []⟩)
    then some ⟨.unexpected, -1, by decide⟩ else none

/-- Of two objects of two bytes one is stored: it is there and nothing is notified.  And an
object of two bytes is stored and deleted: nothing is there, and the notified sizes say that
two bytes are. -/
theorem ledger_drifts :
    (∃ s : L2Ledger, Run (guarded (L2Ledger.Fresh fakeL2Plugin) (L2Ledger.Step fakeL2Plugin))
        L2Ledger.empty [.store refusesSecond (storeRequest 2)] s ∧
      s.bytes fakeL2Plugin = 2 ∧ s.notified_stored = [] ∧ s.notified_deleted = [] ∧
      ¬ s.Balanced fakeL2Plugin) ∧
    ∃ s : L2Ledger, Run (guarded (L2Ledger.Fresh fakeL2Plugin) (L2Ledger.Step fakeL2Plugin))
        L2Ledger.empty [.store .nothing (storeRequest 1), .delete (storeRequest 1).keys] s ∧
      s.stored = [] ∧ L2Ledger.total s.notified_stored = 2 ∧
      L2Ledger.total s.notified_deleted = 0 ∧ ¬ s.Balanced fakeL2Plugin := by
  constructor
  · refine ⟨_, Run.start.step ⟨fun _ _ pair hpair => (by cases hpair), .store (storeRun_direct
      fakeL2Plugin refusesSecond (storeRequest 2) World.empty (by decide))⟩, rfl, rfl, rfl, ?_⟩
    intro h
    exact absurd h.bytes (by decide)
  · refine ⟨_, (Run.start.step ⟨fun _ _ pair hpair => (by cases hpair), .store (storeRun_direct
      fakeL2Plugin .nothing (storeRequest 1) World.empty (by decide))⟩).step ⟨trivial,
        .delete rfl⟩, rfl, rfl, rfl, ?_⟩
    intro h
    exact absurd h.bytes (by decide)
