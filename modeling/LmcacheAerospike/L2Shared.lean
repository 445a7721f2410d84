/-
# L2 adapters on a shared store

The adapters of several processes store, look up and load on one store, together with Python
engines and native connectors.  The chunk calls of a task are programs of their own, open to any
interleaving.  While reads are answered, and for a key that nobody removes, whose records do not
expire and whose cuts agree: once a store task has reported the key as stored, or a load task has
set its bit, every lookup that is begun later finds it, and every load task that is begun later
sets its bit, if none of its chunk calls raises (`l2_tasks_served`).
-/
import LmcacheAerospike.FleetMonotone
import LmcacheAerospike.GetExits
import LmcacheAerospike.L2Locks

/-! ## Answers of chunk calls, item by item -/

namespace L2Executors

variable {ρ α : Type} {p : L2Executors ρ α} {R : α → Bool → Prop}

/-- The answers of all chunks are put together as their items are. -/
theorem gathered_forall₂ {chunks : List (List α)} {call : ℕ → List α → Option (List Bool)}
    (hcall : ∀ idx chunk flags, chunks[idx]? = some chunk → call idx chunk = some flags →
      List.Forall₂ R chunk flags) {results : List Bool}
    (h : gathered (chunks.mapIdx call) = some results) : List.Forall₂ R chunks.flatten results := by
  induction chunks generalizing call results with
  | nil =>
    cases h
    exact .nil
  | cons chunk chunks ih =>
    rw [List.mapIdx_cons, gathered_cons] at h
    obtain ⟨first, hfirst, hmap⟩ := Option.bind_eq_some_iff.mp h
    obtain ⟨rest, hrest, rfl⟩ := Option.map_eq_some_iff.mp hmap
    rw [List.flatten_cons]
    apply List.rel_append
    · exact hcall 0 chunk first rfl hfirst
    · exact ih (fun idx chunk' flags hidx => hcall (idx + 1) chunk' flags (by simpa using hidx))
        hrest

/-- **What each chunk call answers for its items**, the task has for its items. -/
theorem outcome_forall₂ {tid : ℕ} {req : ρ}
    (hcall : ∀ idx chunk flags, p.Called req idx chunk → p.call tid idx chunk = .ok flags →
      List.Forall₂ R chunk flags) {results : List Bool} (h : p.outcome tid req = some results) :
    List.Forall₂ R (p.items req) results := by
  have hsome : ∀ idx chunk flags, p.Called req idx chunk →
      (p.call tid idx chunk).toOption = some flags → List.Forall₂ R chunk flags := by
    intro idx chunk flags hcalled hflags
    rcases hc : p.call tid idx chunk with e | flags'
    · rw [hc] at hflags
      cases hflags
    · rw [hc] at hflags
      cases hflags
      exact hcall idx chunk _ hcalled hc
  unfold Called at hsome
  unfold outcome at h
  split_ifs at h with hd
  · exact hsome 0 _ _ (by rw [if_pos hd]; exact ⟨rfl, rfl⟩) h
  · rw [← flatten_chunked (p.items req) p.chunk_size_pos]
    refine gathered_forall₂ (fun idx chunk flags hidx => ?_) h
    exact hsome idx chunk flags (by rw [if_neg hd]; exact hidx)

end L2Executors

/-! ## The operations -/

/-- An operation of the clients: those of a fleet, and the lookups of L2 adapters, whatever they
have locked. -/
inductive AdapterOp : Type where
  | fleet (op : FleetOp)
  | lookup (plugin : L2Plugin) (keys : List ObjectKey) (locked : LockTable)

/-- The program of an operation. -/
def AdapterOp.prog : AdapterOp → FleetM FleetResult
  | .fleet op => op.prog
  | .lookup plugin keys locked =>
    ((plugin.lookup_sync keys locked).mapError .python).bind fun r => .ret (.python (.flags r.1))

/-- The operations that may be started: all but removals of the key. -/
def AdapterOp.Allowed (F : Fleet) (ns set_name k : Text) : AdapterOp → Prop
  | .fleet op => F.Allows op ∧ ¬ op.Removes ns set_name k
  | .lookup _ _ _ => True

/-- Operations with tickets. -/
abbrev AdapterTicket : Type := ℕ × AdapterOp

/-- What has become of the programs. -/
abbrev AdapterThread : Type := Thread answering AdapterTicket FleetExc FleetResult

/-- The operation has been served. -/
def AdapterOp.Served (F : Fleet) (ns set_name k : Text) :
    AdapterOp → Except FleetExc FleetResult → Prop
  | .fleet op, r => op.Served F ns set_name k r
  | .lookup plugin keys _, r => ∃ bm, r = .ok (.python (.flags bm)) ∧
      List.Forall₂ (fun key bit => plugin.engine.metaKey (plugin.to_ck key)
        = meta_key ns set_name k → bit = true) keys bm

namespace L2Plugin

/-- The chunk call with the ticket `n` has returned, and these are its flags. -/
def ChunkEnded (plugin : L2Plugin) (threads : List AdapterThread) (n : ℕ)
    (chunk : List (Text × MemoryObj)) (flags : List Bool) : L2Kind → Prop
  | .store => Thread.at (n, .fleet (.python (.batched_put plugin.engine chunk false)))
      (.ret (.python (.flags flags))) ∈ threads
  | .load => ∃ results, Thread.at (n, .fleet (.load plugin.engine chunk)) (.ret (.loaded results))
      ∈ threads ∧ flags = results.map Option.isSome

/-- A chunk call of a load task has loaded this for an item. -/
def Loaded (plugin : L2Plugin) (threads : List AdapterThread) (ticket : ℕ → ℕ)
    (item : Text × MemoryObj) (loaded : Option MemoryObj) : Prop :=
  ∃ (idx j : ℕ) (chunk : List (Text × MemoryObj)) (results : List (Option MemoryObj)),
    Thread.at (ticket idx, .fleet (.load plugin.engine chunk)) (.ret (.loaded results)) ∈ threads ∧
      chunk[j]? = some item ∧ results[j]? = some loaded

/-- The chunk calls of a task have returned, under the tickets of their indices, and the task
has put their flags together. -/
def TaskEnded (plugin : L2Plugin) (threads : List AdapterThread) (req : L2Request)
    (ticket : ℕ → ℕ) (results : List Bool) : Prop :=
  ∃ call : ℕ → List (Text × MemoryObj) → Except PyExc (List Bool),
    (∀ idx chunk flags, (plugin.executors fun _ => call).Called req idx chunk →
      call idx chunk = .ok flags →
        plugin.ChunkEnded threads (ticket idx) chunk flags req.kind) ∧
    (plugin.executors fun _ => call).outcome 0 req = some results

end L2Plugin

/-! ## Lookups -/

section Lookup

variable {F : Fleet} {plugin : L2Plugin} {ns set_name k : Text} {w : World}

/-- Lookups read meta records and pin. -/
theorem lookup_sync_quiet (plugin : L2Plugin) (keys : List ObjectKey) (locked : LockTable) :
    (plugin.lookup_sync keys locked).AllCalls (F.QuietCall ns set_name k) := by
  apply Prog.allCalls_bind
  · apply Prog.allCalls_tryCatch
    · unfold Engine.batched_exists_mask
      split_ifs
      · trivial
      · refine ⟨fun i hi => quiet_read (engineCall_read_metas (K := fun _ => True)
          (fun _ _ => trivial) i hi), fun x => ?_⟩
        rcases x with e | recs <;> trivial
    · exact fun _ => trivial
  · intro hits
    dsimp only
    split_ifs
    · exact Prog.allCalls_bind _ _ (pin_keys_quiet _ _) fun _ => trivial
    · trivial

variable {hagree : F.CutsAgree ns set_name k}

/-- The mask of a committed key. -/
theorem batched_exists_mask_served {eng : Engine} (hcommitted : KeyCommitted ns set_name k w)
    (keys : List Text) :
    (answeringProtocol hagree).Safe (fun _ r => ∃ hits, r = .ok hits ∧
      List.Forall₂ (fun ck hit => eng.metaKey ck = meta_key ns set_name k → hit = true) keys hits)
      w (eng.batched_exists_mask keys) := by
  unfold Engine.batched_exists_mask
  split_ifs with hnil
  · subst hnil
    exact fun _ _ => ⟨[], rfl, .nil⟩
  · refine ⟨answering_good_read (engineCall_read_metas fun _ _ => trivial), fun w₁ x _ hx => ?_⟩
    obtain ⟨recs, rfl, hrecs⟩ := answered_batch hx
    rw [List.forall₂_map_left_iff] at hrecs
    refine fun _ _ => ⟨_, rfl, ?_⟩
    rw [List.forall₂_map_right_iff]
    apply hrecs.imp
    rintro ck rec ⟨r, htold, rfl⟩ hsame
    obtain ⟨pl, bins, -, rfl, -⟩ := htold.found (some []) (by rw [hsame]) hcommitted
    rfl

/-- **A lookup finds a committed key.** -/
theorem lookup_sync_served (hcommitted : KeyCommitted ns set_name k w) (keys : List ObjectKey)
    (locked : LockTable) :
    (answeringProtocol hagree).Safe (fun _ r => ∃ bm locked', r = .ok (bm, locked') ∧
      List.Forall₂ (fun key bit => plugin.engine.metaKey (plugin.to_ck key)
        = meta_key ns set_name k → bit = true) keys bm) w
      (plugin.lookup_sync keys locked) := by
  have hhits : (answeringProtocol hagree).Safe (fun _ r => ∃ hits, r = .ok hits ∧
      List.Forall₂ (fun key hit => plugin.engine.metaKey (plugin.to_ck key)
        = meta_key ns set_name k → hit = true) keys hits) w
      (plugin.lookup_hits keys) := by
    apply LastingProtocol.safe_tryCatch _ _ _ (batched_exists_mask_served hcommitted _)
    · rintro w₁ hits _ ⟨_, heq, hfound⟩
      cases heq
      rw [List.forall₂_map_left_iff] at hfound
      exact ⟨hits, rfl, hfound⟩
    · rintro w₁ e _ ⟨hits, heq, -⟩
      cases heq
  apply LastingProtocol.safe_bind _ _ _ hhits
  · rintro w₁ hits _ ⟨_, heq, hfound⟩
    cases heq
    have hbm : L2Plugin.set_hits (keys.map fun _ => false) 0 hits = hits :=
      L2Plugin.set_hits_zeros hfound.length_eq.symm
    dsimp only
    rw [hbm]
    split_ifs
    · apply LastingProtocol.safe_bind _ _ _ (pin_keys_served _)
      · exact fun _ _ _ _ _ _ => ⟨hits, _, rfl, hfound⟩
      · intro w₂ e _ he
        cases he
    · exact fun _ _ => ⟨hits, _, rfl, hfound⟩
  · rintro w₁ e _ ⟨hits, heq, -⟩
    cases heq

end Lookup

/-! ## Chunk calls -/

section Chunks

variable {F : Fleet} {ns set_name k : Text} {hagree : F.CutsAgree ns set_name k} {w : World}

/-- What the chunk calls of tasks tell of the key, item by item. -/
def ChunkPost (ns set_name k : Text) (w : World) :
    AdapterOp → Except FleetExc FleetResult → Prop
  | .fleet (.python (.batched_put eng items _)), r => ∀ flags, r = .ok (.python (.flags flags)) →
      List.Forall₂ (fun item flag => flag = true → eng.metaKey item.1 = meta_key ns set_name k →
        KeyCommitted ns set_name k w) items flags
  | .fleet (.load eng items), r => eng.cfg.ns = ns → eng.cfg.set_name = set_name →
      eng.TorchReads → eng.TorchRaises → ∀ results, r = .ok (.loaded results) →
        List.Forall₂ (fun item result => Option.isSome result = true → item.1 = k →
          KeyCommitted ns set_name k w) items results
  | _, _ => True

theorem chunk_batched_put {eng : Engine} {items : List (Text × MemoryObj)} {pinned : Bool}
    (hop : F.Allows (.python (.batched_put eng items pinned))) :
    (answeringProtocol hagree).Safe
      (fun w r => ChunkPost ns set_name k w (.fleet (.python (.batched_put eng items pinned))) r) w
      (FleetOp.prog (.python (.batched_put eng items pinned))) := by
  apply python_safe rfl
  refine LastingProtocol.safe_mono _ (fun w r hr flags heq => ?_) _
    (answering_safe (batched_put_lasts hop.2))
  rcases r with e | flags'
  · cases heq
  · cases heq
    exact hr flags rfl

theorem chunk_load {eng : Engine} {items : List (Text × MemoryObj)} (htorch : eng.TorchReads)
    (hraises : eng.TorchRaises) (hns : eng.cfg.ns = ns) (hset : eng.cfg.set_name = set_name) :
    (answeringProtocol hagree).Safe
      (fun w r => ChunkPost ns set_name k w (.fleet (.load eng items)) r) w
      (FleetOp.prog (.load eng items)) := by
  subst hns hset
  apply LastingProtocol.safe_map
  apply LastingProtocol.safe_mapError
  refine LastingProtocol.safe_mono _ (fun w r hr _ _ _ _ results heq => ?_) _
    (batched_get_preallocated_key htorch hraises False.elim)
  rcases r with e | results'
  · cases heq
  · cases heq
    have hloads := hr results rfl
    refine List.forall₂_iff_get.mpr ⟨hloads.length.symm, fun i hi hi' hsome hkey => ?_⟩
    obtain ⟨filled, hfilled⟩ := Option.isSome_iff_exists.mp hsome
    apply hloads.shows i (items.get ⟨i, hi⟩).2 filled
    · rw [← hkey]
      exact List.getElem?_eq_getElem hi
    · rw [← hfilled]
      exact List.getElem?_eq_getElem hi'

/-- Lookups, for what is always true. -/
theorem adapter_safe {op : AdapterOp} (hop : op.Allowed F ns set_name k)
    {Post : World → Except FleetExc FleetResult → Prop} (hpost : ∀ w r, Post w r) :
    (answeringProtocol hagree).Safe Post w op.prog := by
  rcases op with op | ⟨plugin, keys, locked⟩
  · exact operation_safe hop hpost
  · apply LastingProtocol.safe_of_allCalls _ (fun w' _ r => hpost w' r)
      (fun _ _ h => answering_good h _) _
    exact Prog.allCalls_bind _ _ (Prog.allCalls_mapError _ _ (lookup_sync_quiet plugin keys locked))
      fun _ => trivial

theorem chunk_safe (op : AdapterOp) (hop : op.Allowed F ns set_name k) :
    (answeringProtocol hagree).Safe (fun w r => ChunkPost ns set_name k w op r) w op.prog := by
  by_cases hall : ∀ w r, ChunkPost ns set_name k w op r
  · exact adapter_safe hop hall
  · rcases op with (op | ⟨eng, items⟩ | _ | _ | _ | _) | _
    case fleet.python =>
      rcases op with _ | _ | ⟨eng, items, pinned⟩ | _ | _ | _ | _ | _ | _ | _
      case batched_put => exact chunk_batched_put hop.1
      all_goals exact absurd (fun _ _ => trivial) hall
    case fleet.load =>
      by_cases hserved : eng.cfg.ns = ns ∧ eng.cfg.set_name = set_name ∧ eng.TorchReads ∧
          eng.TorchRaises
      · obtain ⟨hns, hset, htorch, hraises⟩ := hserved
        exact chunk_load htorch hraises hns hset
      · exact adapter_safe hop fun _ _ h₁ h₂ h₃ h₄ => absurd ⟨h₁, h₂, h₃, h₄⟩ hserved
    all_goals exact absurd (fun _ _ => trivial) hall

/-- What holds from where an operation has ended: what it has written or read is committed. -/
def ShownPost (ns set_name k : Text) (op : AdapterOp) (w : World)
    (r : Except FleetExc FleetResult) : Prop :=
  ChunkPost ns set_name k w op r ∧ ∀ op', op = .fleet op' → ∀ x, r = .ok x →
    op'.Wrote ns set_name k x ∨ op'.Hit ns set_name k x → KeyCommitted ns set_name k w

/-- **An operation that has written or read the key** shows that it is committed. -/
theorem shown_safe (op : AdapterOp) (hop : op.Allowed F ns set_name k) :
    (answeringProtocol hagree).Safe (ShownPost ns set_name k op) w op.prog := by
  apply LastingProtocol.safe_and _ _ (chunk_safe op hop)
  rcases op with op | ⟨plugin, keys, locked⟩
  · have hwrote : (storedProtocol hagree).Safe (DurablePost ns set_name k op) w op.prog :=
      durable_safe op w hop
    refine LastingProtocol.safe_mono _ (fun w r hr op' heq x hx hthere => ?_) _
      (LastingProtocol.safe_and _ _ (answering_safe hwrote) (hit_safe op hop))
    cases heq
    exact hthere.elim (hr.1 x hx) (hr.2 x hx)
  · apply adapter_safe hop
    intro w r op' heq
    cases heq

/-- **An operation on a committed key** is served. -/
theorem adapter_served (op : AdapterOp) (hop : op.Allowed F ns set_name k)
    (hcommitted : KeyCommitted ns set_name k w) :
    (answeringProtocol hagree).Safe (fun _ r => op.Served F ns set_name k r) w op.prog := by
  rcases op with op | ⟨plugin, keys, locked⟩
  · exact served_safe op hop hcommitted
  · apply LastingProtocol.safe_map
    apply LastingProtocol.safe_mapError
    refine LastingProtocol.safe_mono _ (fun w r hr => ?_) _
      (lookup_sync_served hcommitted keys locked)
    obtain ⟨bm, locked', rfl, hfound⟩ := hr
    exact ⟨bm, rfl, hfound⟩

end Chunks

/-! ## Tasks -/

/-- What has ended shows the key to be there: an operation that has written or read it, a store
task that has reported it as stored, or a load task that has set its bit. -/
inductive ShowsKey (ns set_name k : Text) (threads : List AdapterThread) : Prop
  | operation (n : ℕ) (op : FleetOp) (x : FleetResult) :
      Thread.at (n, .fleet op) (.ret x) ∈ threads →
      op.Wrote ns set_name k x ∨ op.Hit ns set_name k x → ShowsKey ns set_name k threads
  | store_task (plugin : L2Plugin) (req : L2Request) (ticket : ℕ → ℕ) (results : List Bool)
      (total i : ℕ) (key : ObjectKey) (mo : MemoryObj) :
      plugin.TaskEnded threads req ticket results →
      plugin.result req (.ok results) = .stored ⟨true, total⟩ →
      req.keys[i]? = some key → req.objects[i]? = some mo →
      plugin.engine.metaKey (plugin.to_ck key) = meta_key ns set_name k →
      ShowsKey ns set_name k threads
  | load_task (plugin : L2Plugin) (req : L2Request) (ticket : ℕ → ℕ) (results bm : List Bool)
      (i : ℕ) (key : ObjectKey) (mo : MemoryObj) : plugin.engine.TorchReads →
      plugin.engine.TorchRaises → plugin.TaskEnded threads req ticket results →
      plugin.result req (.ok results) = .loaded bm →
      req.keys[i]? = some key → req.objects[i]? = some mo →
      plugin.engine.metaKey (plugin.to_ck key) = meta_key ns set_name k → bm[i]? = some true →
      ShowsKey ns set_name k threads

namespace L2Plugin

section Tasks

variable {plugin : L2Plugin} {threads : List AdapterThread} {req : L2Request} {ticket : ℕ → ℕ}
  {results : List Bool} {i : ℕ} {key : ObjectKey} {mo : MemoryObj}

/-- The item of a key. -/
theorem items_getElem? (hkey : req.keys[i]? = some key) (hmo : req.objects[i]? = some mo) :
    (plugin.items req)[i]? = some (plugin.to_ck key, mo) := by
  have hpair : (req.keys.zip req.objects)[i]? = some (key, mo) :=
    List.getElem?_zip_eq_some.mpr ⟨hkey, hmo⟩
  rw [items, List.getElem?_map, hpair]
  rfl

/-- What holds of the items and flags of all chunk calls holds of those of the task. -/
theorem TaskEnded.forall₂ (h : plugin.TaskEnded threads req ticket results)
    {R : Text × MemoryObj → Bool → Prop}
    (hchunk : ∀ idx chunk flags, plugin.ChunkEnded threads (ticket idx) chunk flags req.kind →
      List.Forall₂ R chunk flags) : List.Forall₂ R (plugin.items req) results := by
  obtain ⟨call, hcalls, houtcome⟩ := h
  exact L2Executors.outcome_forall₂
    (fun idx chunk flags hcalled hflags =>
      hchunk idx chunk flags (hcalls idx chunk flags hcalled hflags)) houtcome

/-- A task of one chunk. -/
theorem taskEnded_single (hlen : (plugin.items req).length ≤ 32)
    (h : plugin.ChunkEnded threads (ticket 0) (plugin.items req) results req.kind) :
    plugin.TaskEnded threads req ticket results := by
  have hdirect : (plugin.executors fun _ _ _ => .ok results).direct req = true :=
    Bool.or_eq_true_iff.mpr (Or.inl (decide_eq_true hlen))
  refine ⟨fun _ _ => .ok results, fun idx chunk flags hcalled hflags => ?_, ?_⟩
  · unfold L2Executors.Called at hcalled
    rw [if_pos hdirect] at hcalled
    obtain ⟨rfl, rfl⟩ := hcalled
    cases hflags
    exact h
  · unfold L2Executors.outcome
    rw [if_pos hdirect]
    rfl

/-- The flag of a key, when the task has put flags together for its items. -/
theorem exists_flag {R : Text × MemoryObj → Bool → Prop}
    (h : List.Forall₂ R (plugin.items req) results) (hkey : req.keys[i]? = some key)
    (hmo : req.objects[i]? = some mo) :
    ∃ flag, results[i]? = some flag ∧ R (plugin.to_ck key, mo) flag := by
  have hmem : (plugin.items req)[i]? = some (plugin.to_ck key, mo) := items_getElem? hkey hmo
  obtain ⟨hi, hitem⟩ := List.getElem?_eq_some_iff.mp hmem
  have hi' : i < results.length := h.length_eq ▸ hi
  refine ⟨results[i], List.getElem?_eq_getElem hi', ?_⟩
  have hflag := h.get hi hi'
  rwa [List.get_eq_getElem, List.get_eq_getElem, hitem] at hflag

theorem kind_of_stored {r : Except PyExc (List Bool)} {result : L2StoreResult}
    (h : plugin.result req r = .stored result) : req.kind = .store := by
  unfold L2Plugin.result at h
  split at h
  · assumption
  · cases h

theorem kind_of_loaded {r : Except PyExc (List Bool)} {bm : List Bool}
    (h : plugin.result req r = .loaded bm) : req.kind = .load := by
  unfold L2Plugin.result at h
  split at h
  · cases h
  · assumption

/-- A store task reports success only when every flag is set. -/
theorem flag_of_stored {total : ℕ} (h : plugin.result req (.ok results) = .stored ⟨true, total⟩)
    (hkey : req.keys[i]? = some key) (hmo : req.objects[i]? = some mo) {flag : Bool}
    (hflag : results[i]? = some flag) : flag = true := by
  unfold result at h
  split at h
  · have hok : (plugin.store_sync req (.ok results)).ok = true := by
      rw [L2Result.stored.injEq, L2StoreResult.mk.injEq] at h
      exact h.1
    unfold store_sync at hok
    dsimp only at hok
    rw [tally_eq] at hok
    dsimp only at hok
    rw [Bool.true_and, List.all_eq_true] at hok
    refine hok ((key, mo), flag) (List.mem_of_getElem? (i := i) ?_)
    exact List.getElem?_zip_eq_some.mpr
      ⟨List.getElem?_zip_eq_some.mpr ⟨hkey, hmo⟩, hflag⟩
  · cases h

/-- The bit of a key in the bitmap of a load task. -/
theorem bit_of_loaded {bm : List Bool} (h : plugin.result req (.ok results) = .loaded bm)
    (hkey : req.keys[i]? = some key) {flag : Bool} (hflag : results[i]? = some flag) :
    bm[i]? = some flag := by
  unfold result at h
  split at h
  · cases h
  · cases h
    unfold load_sync
    dsimp only
    rw [getElem?_set_hits, List.getElem?_map, hkey, Nat.sub_zero, hflag]
    simp

end Tasks

end L2Plugin

section Shared

variable {F : Fleet} {ns set_name k : Text} {w : World} {threads : List AdapterThread}

/-- **What has ended shows the key to be there** only when it is committed. -/
theorem ShowsKey.committed (h : ShowsKey ns set_name k threads)
    (hended : ∀ (l : AdapterTicket) (x : FleetResult), Thread.at l (.ret x) ∈ threads →
      ShownPost ns set_name k l.2 w (.ok x)) : KeyCommitted ns set_name k w := by
  cases h with
  | operation n op x hmem hthere => exact (hended _ x hmem).2 op rfl x rfl hthere
  | store_task plugin req ticket results total i key mo htask hresult hkey hmo hsame =>
    have hflags : List.Forall₂ (fun item flag => flag = true →
        plugin.engine.metaKey item.1 = meta_key ns set_name k → KeyCommitted ns set_name k w)
        (plugin.items req) results := by
      refine htask.forall₂ fun idx chunk flags hchunk => ?_
      rw [L2Plugin.kind_of_stored hresult] at hchunk
      exact (hended _ _ hchunk).1 flags rfl
    obtain ⟨flag, hflag, hcommitted⟩ := L2Plugin.exists_flag hflags hkey hmo
    exact hcommitted (L2Plugin.flag_of_stored hresult hkey hmo hflag) hsame
  | load_task plugin req ticket results bm i key mo htorch hraises htask hresult hkey hmo hsame
      hbit =>
    obtain ⟨hns, hset, hk⟩ := engine_key_eq hsame
    have hflags : List.Forall₂ (fun item flag => flag = true → item.1 = k →
        KeyCommitted ns set_name k w) (plugin.items req) results := by
      refine htask.forall₂ fun idx chunk flags hchunk => ?_
      rw [L2Plugin.kind_of_loaded hresult] at hchunk
      obtain ⟨loaded, hmem, rfl⟩ := hchunk
      rw [List.forall₂_map_right_iff]
      exact (hended _ _ hmem).1 hns hset htorch hraises loaded rfl
    obtain ⟨flag, hflag, hcommitted⟩ := L2Plugin.exists_flag hflags hkey hmo
    rw [L2Plugin.bit_of_loaded hresult hkey hflag, Option.some.injEq] at hbit
    exact hcommitted hbit hk

/-- A load task whose chunk calls are served sets the bits of the key, and fills its buffers. -/
theorem L2Plugin.bit_of_served {plugin : L2Plugin} {req : L2Request} {ticket : ℕ → ℕ}
    {results bm : List Bool} {i : ℕ} {key : ObjectKey} {mo : MemoryObj}
    (htorch : plugin.engine.TorchReads) (hraises : plugin.engine.TorchRaises)
    (htask : plugin.TaskEnded threads req ticket results)
    (hresult : plugin.result req (.ok results) = .loaded bm) (hkey : req.keys[i]? = some key)
    (hmo : req.objects[i]? = some mo)
    (hsame : plugin.engine.metaKey (plugin.to_ck key) = meta_key ns set_name k)
    (hfits : mo.Fits (F.payload k))
    (hended : ∀ (l : AdapterTicket) (x : FleetResult), Thread.at l (.ret x) ∈ threads →
      ShownPost ns set_name k l.2 w (.ok x))
    (hserved : ∀ (idx : ℕ) (op : AdapterOp) (x : FleetResult),
      Thread.at (ticket idx, op) (.ret x) ∈ threads → op.Served F ns set_name k (.ok x)) :
    bm[i]? = some true ∧
      plugin.Loaded threads ticket (k, mo) (some (mo.filledWith (F.payload k))) := by
  obtain ⟨hns, hset, rfl⟩ := engine_key_eq hsame
  have hflags : List.Forall₂ (fun item flag => item.1 = plugin.to_ck key →
      item.2.Fits (F.payload (plugin.to_ck key)) → flag = true ∧ plugin.Loaded threads ticket item
        (some (item.2.filledWith (F.payload (plugin.to_ck key)))))
      (plugin.items req) results := by
    refine htask.forall₂ fun idx chunk flags hchunk => ?_
    rw [L2Plugin.kind_of_loaded hresult] at hchunk
    obtain ⟨loaded, hmem, rfl⟩ := hchunk
    have hlength := ((hended _ _ hmem).1 hns hset htorch hraises loaded rfl).length_eq
    have hfills := hserved idx _ _ hmem hns hset htorch hraises loaded rfl
    rw [List.forall₂_map_right_iff]
    refine List.forall₂_iff_get.mpr ⟨hlength, fun j hj hj' hitem hfits' => ?_⟩
    have hchunk : chunk[j]? = some (chunk.get ⟨j, hj⟩) := List.getElem?_eq_getElem hj
    have hfilled := hfills j (chunk.get ⟨j, hj⟩).2 (by rw [hchunk, ← hitem]) hfits'
    refine ⟨?_, idx, j, chunk, loaded, hmem, hchunk, hfilled⟩
    rw [List.getElem?_eq_getElem hj', Option.some.injEq] at hfilled
    rw [List.get_eq_getElem, hfilled]
    rfl
  obtain ⟨flag, hflag, hitem⟩ := L2Plugin.exists_flag hflags hkey hmo
  obtain ⟨rfl, hloaded⟩ := hitem rfl hfits
  exact ⟨L2Plugin.bit_of_loaded hresult hkey hflag, hloaded⟩

end Shared

/-! ## Runs -/

/-- **What is stored, L2 adapters find and load.**  The adapters of any number of processes,
Python engines and native connectors work on one store, under any interleaving of the
single-record steps of their calls, any write failing or being applied in part and any client
stopping at any moment, while reads are answered; nobody removes the key `k` and its records do
not expire, and all writers cut its payload into several pieces in one way only.  When, in the
pool `c`, a store task has reported the key as stored, a load task has set its bit, or another
operation has written or read it, then in every later pool `c'` each lookup begun since then has
set the bits of the key, and each load task all of whose chunk calls were begun since then and
have returned has set its bits, and filled its buffers with the payload, where they fit. -/
theorem l2_tasks_served (F : Fleet) (ns set_name k : Text) (hagree : F.CutsAgree ns set_name k)
    (c c' : Pool answering AdapterTicket FleetExc FleetResult)
    (hc : Pool.Reachable (KeyKept ns set_name k) (fun l => l.2.prog)
      (fun l => l.2.Allowed F ns set_name k) World.empty c)
    (hc' : Relation.ReflTransGen (Pool.Step (KeyKept ns set_name k) (fun l => l.2.prog)
      (fun l => l.2.Allowed F ns set_name k)) c c')
    (hshows : ShowsKey ns set_name k c.threads) :
    (∀ (n : ℕ) (plugin : L2Plugin) (keys : List ObjectKey) (locked : LockTable)
      (r : Except FleetExc FleetResult),
      Thread.at (n, .lookup plugin keys locked) (Prog.ofExcept r) ∈ c'.threads →
      (∀ t ∈ c.threads, (LastingProtocol.threadLabel t).1 ≠ n) →
      ∃ bm, r = .ok (.python (.flags bm)) ∧ bm.length = keys.length ∧
        ∀ (i : ℕ) (key : ObjectKey), keys[i]? = some key →
          plugin.engine.metaKey (plugin.to_ck key) = meta_key ns set_name k →
          bm[i]? = some true) ∧
    ∀ (plugin : L2Plugin) (req : L2Request) (ticket : ℕ → ℕ) (results bm : List Bool),
      plugin.TaskEnded c'.threads req ticket results →
      plugin.result req (.ok results) = .loaded bm →
      (∀ idx, ∀ t ∈ c.threads, (LastingProtocol.threadLabel t).1 ≠ ticket idx) →
      plugin.engine.TorchReads → plugin.engine.TorchRaises →
      ∀ (i : ℕ) (key : ObjectKey) (mo : MemoryObj), req.keys[i]? = some key →
        req.objects[i]? = some mo →
        plugin.engine.metaKey (plugin.to_ck key) = meta_key ns set_name k →
        mo.Fits (F.payload k) → bm[i]? = some true ∧
          plugin.Loaded c'.threads ticket (k, mo) (some (mo.filledWith (F.payload k))) := by
  have hempty : World.empty.Each (FleetRecord F) ∧ F.Whole ns set_name k World.empty :=
    ⟨World.each_empty _, fun r pl hr => by cases hr⟩
  have hsafe : ∀ (l : AdapterTicket) (w : World), l.2.Allowed F ns set_name k →
      (answeringProtocol hagree).Safe (ShownPost ns set_name k l.2) w l.2.prog :=
    fun l w hl => shown_safe l.2 hl
  -- up to the pool `c`: the key is committed
  obtain ⟨hinv, hthreads⟩ := (answeringProtocol hagree).reachable hsafe hempty hc
  have hcommitted : KeyCommitted ns set_name k c.state :=
    hshows.committed fun l x hended => hthreads _ hended c.state (Fleet.Lasts.refl _)
  -- from there on: the operations that begin are served
  have hserved : ∀ (l : AdapterTicket) (r : Except FleetExc FleetResult),
      Thread.at l (Prog.ofExcept r) ∈ c'.threads →
      (∀ t ∈ c.threads, (LastingProtocol.threadLabel t).1 ≠ l.1) → l.2.Served F ns set_name k r :=
    fun l r hended hbegun => (answeringProtocol hagree).begun_later
      (fun l w hlasts hl => adapter_served l.2 hl (hlasts.committed hcommitted)) hc' hinv hthreads
      hended fun t ht heq => hbegun t ht (congrArg Prod.fst heq)
  constructor
  · intro n plugin keys locked r hended hbegun
    obtain ⟨bm, hr, hfound⟩ := hserved (n, .lookup plugin keys locked) r hended hbegun
    refine ⟨bm, hr, hfound.length_eq.symm, fun i key hkey hsame => ?_⟩
    obtain ⟨hi, rfl⟩ := List.getElem?_eq_some_iff.mp hkey
    have hi' : i < bm.length := hfound.length_eq ▸ hi
    rw [List.getElem?_eq_getElem hi', Option.some.injEq]
    exact hfound.get hi hi' hsame
  · intro plugin req ticket results bm htask hresult hbegun htorch hraises i key mo hkey hmo hsame
      hfits
    obtain ⟨-, hshown⟩ := (answeringProtocol hagree).reachable hsafe hempty (hc.trans hc')
    apply L2Plugin.bit_of_served htorch hraises htask hresult hkey hmo hsame hfits
    · exact fun l x hended => hshown _ hended c'.state (Fleet.Lasts.refl _)
    · exact fun idx op x hended => hserved _ (.ok x) hended (hbegun idx)

/-- An adapter with segments of two bytes, and one with segments of eight. -/
def smallStorer : L2Plugin where
  engine := fakeEngine (.ofTarget 2) true true 8
  dtype := "float16".toList
  get_size := fun mo => mo.byte_array.length
  executor_threads_pos := by decide

@[inherit_doc smallStorer]
def smallLoader : L2Plugin where
  engine := fakeEngine (.ofTarget 8) true false 4
  dtype := "float16".toList
  get_size := fun mo => mo.byte_array.length
  executor_threads_pos := by decide

/-- A key, which both adapters store under one cache key. -/
def smallObjectKey : ObjectKey := ⟨[7], "llama".toList, 0, []⟩

/-- A store of three bytes, then a lookup, and then the chunk calls of a load task. -/
def smallPut : AdapterOp := .fleet (.python (.batched_put smallStorer.engine
  [(smallStorer.to_ck smallObjectKey, { byte_array := [1, 2, 3] })] false))

@[inherit_doc smallPut]
def smallLookup : AdapterOp := .lookup smallLoader [smallObjectKey] fun _ => none

@[inherit_doc smallPut]
def smallLoad (n : ℕ) : AdapterOp := .fleet (.load smallLoader.engine
  (List.replicate n (smallLoader.to_ck smallObjectKey, { byte_array := [0, 0, 0, 9] })))

/-- A load of one key into 33 buffers, which takes two chunk calls. -/
def smallLoads : L2Request :=
  ⟨.load, List.replicate 33 smallObjectKey, List.replicate 33 { byte_array := [0, 0, 0, 9] }⟩

/-- The two chunk calls have ended, and so has the task. -/
theorem smallLoads_ended {threads : List AdapterThread}
    (hfirst : Thread.at (2, smallLoad 32)
      (.ret (.loaded (List.replicate 32 (some { byte_array := [1, 2, 3, 9] })))) ∈ threads)
    (hsecond : Thread.at (3, smallLoad 1)
      (.ret (.loaded (List.replicate 1 (some { byte_array := [1, 2, 3, 9] })))) ∈ threads) :
    smallLoader.TaskEnded threads smallLoads (fun idx => idx + 2) (List.replicate 33 true) := by
  refine ⟨fun idx _ => .ok (List.replicate (if idx = 0 then 32 else 1) true),
    fun idx chunk flags hcalled hflags => ?_, rfl⟩
  cases hflags
  have hchunk : [List.replicate 32 (smallLoader.to_ck smallObjectKey,
      ({ byte_array := [0, 0, 0, 9] } : MemoryObj)), List.replicate 1 (smallLoader.to_ck
        smallObjectKey, { byte_array := [0, 0, 0, 9] })][idx]? = some chunk := hcalled
  rcases idx with _ | _ | idx
  · cases hchunk
    exact ⟨_, hfirst, rfl⟩
  · cases hchunk
    exact ⟨_, hsecond, rfl⟩
  · cases hchunk

/-- Any of them run alone to its end. -/
theorem smallSteps (l : AdapterTicket) (w : World) (ts : List AdapterThread)
    (hl : l.2.Allowed smallFleet "lmcache".toList "kv_chunks".toList
      (smallStorer.to_ck smallObjectKey)) {r : Except FleetExc FleetResult}
    (hr : (l.2.prog.run Op.perform w).1 = r) :
    Relation.ReflTransGen (Pool.Step (KeyKept "lmcache".toList "kv_chunks".toList
        (smallStorer.to_ck smallObjectKey)) (fun l : AdapterTicket => l.2.prog)
        (fun l => l.2.Allowed smallFleet "lmcache".toList "kv_chunks".toList
          (smallStorer.to_ck smallObjectKey))) ⟨w, ts⟩
      ⟨(l.2.prog.run Op.perform w).2, .at l (.ofExcept r) :: ts⟩ :=
  hr ▸ Pool.steps_started ts l hl (answering.exec_run answering_outcome _ _)

/-- The store after the put, and then after the lookup. -/
def smallStored : World := (smallPut.prog.run Op.perform World.empty).2

@[inherit_doc smallStored]
def smallPinned : World := (smallLookup.prog.run Op.perform smallStored).2

/-- One such run: an adapter stores three bytes under a key, and then another one looks it up and
loads it into 33 buffers, in two chunk calls. -/
theorem l2_tasks_served_small :
    ∃ (c : Pool answering AdapterTicket FleetExc FleetResult) (bm loaded : List Bool),
      Pool.Reachable (KeyKept "lmcache".toList "kv_chunks".toList
          (smallStorer.to_ck smallObjectKey)) (fun l : AdapterTicket => l.2.prog)
        (fun l => l.2.Allowed smallFleet "lmcache".toList "kv_chunks".toList
          (smallStorer.to_ck smallObjectKey)) World.empty c ∧
      Thread.at (1, smallLookup) (.ret (.python (.flags bm))) ∈ c.threads ∧ bm[0]? = some true ∧
      smallLoader.TaskEnded c.threads smallLoads (fun idx => idx + 2) loaded ∧
      ∀ i < 33, loaded[i]? = some true ∧
        smallLoader.Loaded c.threads (fun idx => idx + 2)
          (smallStorer.to_ck smallObjectKey, { byte_array := [0, 0, 0, 9] })
          (some { byte_array := [1, 2, 3, 9] }) := by
  have hput : smallPut.Allowed smallFleet "lmcache".toList "kv_chunks".toList
      (smallStorer.to_ck smallObjectKey) :=
    ⟨⟨fakeEngine_lawful _ _ _ _, by simp [ClientOp.Within, smallFleet]; rfl⟩, id⟩
  have hload : ∀ n, (smallLoad n).Allowed smallFleet "lmcache".toList "kv_chunks".toList
      (smallStorer.to_ck smallObjectKey) := fun n => ⟨fakeEngine_lawful _ _ _ _, id⟩
  have hflags : (smallPut.prog.run Op.perform World.empty).1 = .ok (.python (.flags [true])) := rfl
  have hstored := smallSteps (0, smallPut) World.empty [] hput hflags
  have hshows : ShowsKey "lmcache".toList "kv_chunks".toList (smallStorer.to_ck smallObjectKey)
      [Thread.at (0, smallPut) (.ret (.python (.flags [true])))] :=
    .store_task smallStorer ⟨.store, [smallObjectKey], [{ byte_array := [1, 2, 3] }]⟩
      (fun _ => 0) [true] 3 0 smallObjectKey { byte_array := [1, 2, 3] }
      (L2Plugin.taskEnded_single (by decide) List.mem_cons_self) rfl rfl rfl rfl
  have hlooked := smallSteps (1, smallLookup) smallStored
    [.at (0, smallPut) (.ret (.python (.flags [true])))] trivial rfl
  have hsecond : ((smallLoad 1).prog.run Op.perform smallPinned).1
      = .ok (.loaded (List.replicate 1 (some { byte_array := [1, 2, 3, 9] }))) := rfl
  have hfirst : ((smallLoad 32).prog.run Op.perform
      ((smallLoad 1).prog.run Op.perform smallPinned).2).1
        = .ok (.loaded (List.replicate 32 (some { byte_array := [1, 2, 3, 9] }))) := rfl
  -- the second chunk call of the load task comes before the first
  have hlater := (hlooked.trans (smallSteps (3, smallLoad 1) _ _ (hload 1) hsecond)).trans
    (smallSteps (2, smallLoad 32) _ _ (hload 32) hfirst)
  obtain ⟨hlookups, hloads⟩ := l2_tasks_served smallFleet _ _ _ (smallFleet_cutsAgree _ _ _) _ _
    hstored hlater hshows
  obtain ⟨bm, hbm, -, hbits⟩ := hlookups 1 smallLoader [smallObjectKey] (fun _ => none) _
    (List.mem_cons_of_mem _ (List.mem_cons_of_mem _ List.mem_cons_self))
    (by simp [LastingProtocol.threadLabel])
  have hended := fun ts : List AdapterThread => @smallLoads_ended (_ :: _ :: ts)
    List.mem_cons_self (List.mem_cons_of_mem _ List.mem_cons_self)
  refine ⟨_, bm, List.replicate 33 true, hstored.trans hlater, ?_,
    hbits 0 smallObjectKey rfl rfl, hended _, fun i hi => ?_⟩
  · rw [hbm]
    exact List.mem_cons_of_mem _ (List.mem_cons_of_mem _ List.mem_cons_self)
  · exact hloads smallLoader smallLoads _ _ _ (hended _) rfl
      (fun idx => by simp [LastingProtocol.threadLabel]) (fakeEngine_torchReads _ _ _ _)
      (fakeEngine_raisesLocally _ _ _ _).torch i smallObjectKey { byte_array := [0, 0, 0, 9] }
      (List.getElem?_replicate_of_lt hi) (List.getElem?_replicate_of_lt hi) rfl
      ⟨by decide, by decide⟩
