/-
# Reads never go back

A key that nobody removes and whose records do not expire is written once: it is absent, and then
it has its payload.  With a client that answers reads, while writes fail or are applied in part
and clients stop, no operation finds the key absent again once it was there for another: every
operation that begins after a write of the key has returned, or a read of it has hit, is served
with the payload (`reads_never_go_back`).
-/
import LmcacheAerospike.FleetDurable
import LmcacheAerospike.FleetLoads

section FleetMonotone

/-! ## What operations say of the key -/

/-- The operation has read the key: a hit of `get`, a buffer that a load reports, or a native
read that has returned. -/
def FleetOp.Hit (ns set_name k : Text) : FleetOp → FleetResult → Prop
  | .python (.get eng ck _), .python (.got (some _)) => eng.metaKey ck = meta_key ns set_name k
  | .load eng items, .loaded results => eng.TorchReads ∧ eng.TorchRaises ∧
    ∃ (i : ℕ) (ck : Text) (mo filled : MemoryObj), items[i]? = some (ck, mo) ∧
      eng.metaKey ck = meta_key ns set_name k ∧ results[i]? = some (some filled)
  | .native_get conn key _ _, .copied _ =>
    ∃ ck, native_key_to_cache_engine_key key conn.dtype = .ok ck ∧
      meta_key conn.ns conn.set_name ck = meta_key ns set_name k
  | _, _ => False

/-- The operation has been served: what a read of the key comes to when the key is there. -/
def FleetOp.Served (F : Fleet) (ns set_name k : Text) :
    FleetOp → Except FleetExc FleetResult → Prop
  | .python (.get eng ck (some mo)), r => eng.metaKey ck = meta_key ns set_name k →
      eng.TorchReads → mo.Fits (F.payload k) → r = .ok (.python (.got (some
        ⟨mo.filledWith (F.payload k), mo.filledWith (F.payload k), (F.payload k).length⟩)))
  | .python (.exists_ eng ck), r | .python (.pin eng ck), r =>
      eng.metaKey ck = meta_key ns set_name k → r = .ok (.python (.flag true))
  | .python (.batched_contains eng keys), r | .python (.batched_async_contains eng keys _), r =>
      eng.cfg.ns = ns → eng.cfg.set_name = set_name →
        ∃ n, r = .ok (.python (.count n)) ∧ keys[n]? ≠ some k
  | .load eng items, r => eng.cfg.ns = ns → eng.cfg.set_name = set_name → eng.TorchReads →
      eng.TorchRaises → ∀ results, r = .ok (.loaded results) → ∀ (i : ℕ) (mo : MemoryObj),
        items[i]? = some (k, mo) → mo.Fits (F.payload k) →
          results[i]? = some (some (mo.filledWith (F.payload k)))
  | .native_get conn key buf len, r => ∀ ck,
      native_key_to_cache_engine_key key conn.dtype = .ok ck →
      meta_key conn.ns conn.set_name ck = meta_key ns set_name k → 1 ≤ len →
      len = (F.payload k).length → r = .ok (.copied (splice 0 (F.payload k) buf))
  | .native_exists conn key, r => ∀ ck, native_key_to_cache_engine_key key conn.dtype = .ok ck →
      meta_key conn.ns conn.set_name ck = meta_key ns set_name k → r = .ok (.flag true)
  | _, _ => True

variable {F : Fleet} {ns set_name k : Text}

section Operations

variable {hagree : F.CutsAgree ns set_name k} {w : World}

/-- Any operation but a removal of the key, for what is always true. -/
theorem operation_safe {op : FleetOp} (hop : F.Allows op ∧ ¬ op.Removes ns set_name k)
    {Post : World → Except FleetExc FleetResult → Prop} (hpost : ∀ w r, Post w r) :
    (answeringProtocol hagree).Safe Post w op.prog := by
  have hsafe : (storedProtocol hagree).Safe (DurablePost ns set_name k op) w op.prog :=
    durable_safe op w hop
  exact LastingProtocol.safe_mono _ (fun w r _ => hpost w r) _ (answering_safe hsafe)

/-- The program of an operation of the engine: its result is passed on twice. -/
theorem python_safe {op : ClientOp} {α : Type} {g : α → OpResult} {p : EngineM α}
    {Post : World → Except FleetExc FleetResult → Prop}
    (hprog : op.prog = p.bind fun a => .ret (g a))
    (hp : (answeringProtocol hagree).Safe
      (fun w r => Post w (((r.map g).mapError FleetExc.python).map FleetResult.python)) w p) :
    (answeringProtocol hagree).Safe Post w (FleetOp.prog (.python op)) := by
  show LastingProtocol.Safe _ _ _
    ((op.prog.mapError FleetExc.python).bind fun r => .ret (FleetResult.python r))
  rw [hprog]
  exact LastingProtocol.safe_map _ _ _
    (LastingProtocol.safe_mapError _ _ _ (LastingProtocol.safe_map _ _ _ hp))

/-- A key of an engine that is the key: then it is a key of its namespace and set. -/
theorem engine_key_eq {eng : Engine} {ck : Text} (h : eng.metaKey ck = meta_key ns set_name k) :
    eng.cfg.ns = ns ∧ eng.cfg.set_name = set_name ∧ ck = k :=
  ⟨congrArg Key.ns h, congrArg Key.set_name h, meta_key_inj h⟩

/-- A key of a connector that is the key: then it addresses its records, and reads them only. -/
structure NativeReads (F : Fleet) (ns set_name k : Text) (conn : NativeConnector) (key : Text) :
    Prop where
  key_eq : native_key_to_cache_engine_key key conn.dtype = .ok k
  short : (F.payload k).length < 2 ^ 32
  addresses : conn.Addresses ns set_name k
  quiet_meta : ∀ names, F.QuietOp ns set_name k (.read (conn.as_key (meta_user_key k)) names)
  quiet_segment : ∀ i, F.QuietOp ns set_name k (.read (conn.as_key (segment_user_key k i)) none)

/-- The native key reads the records of the logical key. -/
theorem nativeReads {conn : NativeConnector} {key ck : Text} (h : F.NativeWithin conn key)
    (hkey : native_key_to_cache_engine_key key conn.dtype = .ok ck)
    (hsame : meta_key conn.ns conn.set_name ck = meta_key ns set_name k) :
    NativeReads F ns set_name k conn key := by
  obtain ⟨rfl, rfl, rfl⟩ : conn.ns = ns ∧ conn.set_name = set_name ∧ ck = k :=
    ⟨congrArg Key.ns hsame, congrArg Key.set_name hsame, meta_key_inj hsame⟩
  have hnative := h.2 ck hkey
  exact ⟨hkey, hnative.short, hnative.addresses h.1,
    fun _ => quiet_native_read h.1 hnative (Or.inl rfl),
    fun i => quiet_native_read h.1 hnative (Or.inr ⟨i, rfl⟩)⟩

/-! ### Hits -/

/-- What holds from where an operation has ended: what it has read is committed. -/
def HitPost (ns set_name k : Text) (op : FleetOp) (w : World)
    (r : Except FleetExc FleetResult) : Prop :=
  ∀ x, r = .ok x → op.Hit ns set_name k x → KeyCommitted ns set_name k w

/-- A hit of `get` shows a committed key. -/
theorem hit_get {eng : Engine} {ck : Text} {preallocated : Option MemoryObj}
    (hkey : eng.metaKey ck = meta_key ns set_name k) :
    (answeringProtocol hagree).Safe
      (HitPost ns set_name k (.python (.get eng ck preallocated))) w
      (FleetOp.prog (.python (.get eng ck preallocated))) := by
  obtain ⟨rfl, rfl, rfl⟩ := engine_key_eq hkey
  apply python_safe rfl
  refine LastingProtocol.safe_mono _ (fun w r hr x heq hhit => ?_) _ (get_shows preallocated)
  rcases r with e | hit
  · cases heq
  · cases heq
    rcases hit with _ | hit
    · exact hhit.elim
    · exact hr hit rfl

/-- A load that has filled a buffer shows a committed key. -/
theorem hit_load {eng : Engine} {items : List (Text × MemoryObj)} (htorch : eng.TorchReads)
    (hraises : eng.TorchRaises) (hns : eng.cfg.ns = ns) (hset : eng.cfg.set_name = set_name) :
    (answeringProtocol hagree).Safe (HitPost ns set_name k (.load eng items)) w
      (FleetOp.prog (.load eng items)) := by
  subst hns hset
  apply LastingProtocol.safe_map
  apply LastingProtocol.safe_mapError
  refine LastingProtocol.safe_mono _ (fun w r hr x heq hhit => ?_) _
    (batched_get_preallocated_key htorch hraises False.elim)
  rcases r with e | results
  · cases heq
  · cases heq
    obtain ⟨-, -, i, ck, mo, filled, hitem, hkey, hres⟩ := hhit
    obtain ⟨-, -, rfl⟩ := engine_key_eq hkey
    exact (hr results rfl).shows i mo filled hitem hres

/-- A native read that has returned shows a committed key. -/
theorem hit_native_get {conn : NativeConnector} {key : Text} {buf : Bytes} {len : ℕ}
    (hreads : NativeReads F ns set_name k conn key) :
    (answeringProtocol hagree).Safe (HitPost ns set_name k (.native_get conn key buf len)) w
      (FleetOp.prog (.native_get conn key buf len)) := by
  apply LastingProtocol.safe_map
  apply LastingProtocol.safe_mapError
  refine LastingProtocol.safe_mono _ (fun w r hr x heq _ => ?_) _
    (do_single_get_shows hreads.key_eq hreads.addresses (hreads.quiet_meta none)
      hreads.quiet_segment buf len)
  rcases r with e | buf'
  · cases heq
  · exact hr buf' rfl

/-- **An operation that hits shows that the key is committed.** -/
theorem hit_safe (op : FleetOp) (hop : F.Allows op ∧ ¬ op.Removes ns set_name k) :
    (answeringProtocol hagree).Safe (HitPost ns set_name k op) w op.prog := by
  by_cases hhit : ∃ x, op.Hit ns set_name k x
  · obtain ⟨x, hx⟩ := hhit
    unfold FleetOp.Hit at hx
    split at hx
    · exact hit_get hx
    · obtain ⟨htorch, hraises, i, ck, mo, filled, -, hkey, -⟩ := hx
      obtain ⟨hns, hset, -⟩ := engine_key_eq hkey
      exact hit_load htorch hraises hns hset
    · obtain ⟨ck, hkey, hsame⟩ := hx
      exact hit_native_get (nativeReads hop.1.1 hkey hsame)
    · exact hx.elim
  · exact operation_safe hop fun w r x _ hx => absurd ⟨x, hx⟩ hhit

/-! ### Reads that are served -/

/-- `get` delivers a committed key. -/
theorem served_get {eng : Engine} {ck : Text} {mo : MemoryObj}
    (hcommitted : KeyCommitted ns set_name k w) (hkey : eng.metaKey ck = meta_key ns set_name k)
    (htorch : eng.TorchReads) (hfits : mo.Fits (F.payload k)) :
    (answeringProtocol hagree).Safe
      (fun _ r => FleetOp.Served F ns set_name k (.python (.get eng ck (some mo))) r) w
      (FleetOp.prog (.python (.get eng ck (some mo)))) := by
  obtain ⟨rfl, rfl, rfl⟩ := engine_key_eq hkey
  apply python_safe rfl
  refine LastingProtocol.safe_mono _ (fun w r hr _ _ _ => ?_) _
    (get_served hcommitted htorch hfits)
  rw [hr]
  rfl

theorem served_flag {op : ClientOp} {p : EngineM Bool}
    (hprog : op.prog = p.bind fun a => .ret (.flag a))
    (hp : (answeringProtocol hagree).Safe (fun _ r => r = .ok true) w p) :
    (answeringProtocol hagree).Safe (fun _ r => r = .ok (.python (.flag true))) w
      (FleetOp.prog (.python op)) := by
  apply python_safe hprog
  refine LastingProtocol.safe_mono _ (fun w r hr => ?_) _ hp
  rw [hr]
  rfl

theorem served_count {keys : List Text} {op : ClientOp} {p : EngineM ℕ}
    (hprog : op.prog = p.bind fun a => .ret (.count a))
    (hp : (answeringProtocol hagree).Safe (fun _ r => ∃ n, r = .ok n ∧ keys[n]? ≠ some k) w p) :
    (answeringProtocol hagree).Safe
      (fun _ r => ∃ n, r = .ok (.python (.count n)) ∧ keys[n]? ≠ some k) w
      (FleetOp.prog (.python op)) := by
  apply python_safe hprog
  refine LastingProtocol.safe_mono _ (fun w r hr => ?_) _ hp
  obtain ⟨n, rfl, hn⟩ := hr
  exact ⟨n, rfl, hn⟩

/-- A load delivers a committed key. -/
theorem served_load {eng : Engine} {items : List (Text × MemoryObj)}
    (hcommitted : KeyCommitted ns set_name k w) (hns : eng.cfg.ns = ns)
    (hset : eng.cfg.set_name = set_name) (htorch : eng.TorchReads) (hraises : eng.TorchRaises) :
    (answeringProtocol hagree).Safe
      (fun _ r => FleetOp.Served F ns set_name k (.load eng items) r) w
      (FleetOp.prog (.load eng items)) := by
  subst hns hset
  apply LastingProtocol.safe_map
  apply LastingProtocol.safe_mapError
  refine LastingProtocol.safe_mono _ (fun w r hr _ _ _ _ results heq i mo hitem hfits => ?_) _
    (batched_get_preallocated_key htorch hraises fun _ : True => hcommitted)
  rcases r with e | results'
  · cases heq
  · cases heq
    have hi : i < items.length := (List.getElem?_eq_some_iff.mp hitem).1
    rcases (hr results rfl).serves trivial i hi mo hitem hfits with hres | hpending
    · exact hres
    · simp at hpending

/-- A native read delivers a committed key. -/
theorem served_native_get {conn : NativeConnector} {key : Text} {buf : Bytes}
    (hcommitted : KeyCommitted ns set_name k w) (hreads : NativeReads F ns set_name k conn key)
    (hlen : 1 ≤ (F.payload k).length) (hbuf : (F.payload k).length ≤ buf.length) :
    (answeringProtocol hagree).Safe (fun _ r => r = .ok (.copied (splice 0 (F.payload k) buf))) w
      (FleetOp.prog (.native_get conn key buf (F.payload k).length)) := by
  apply LastingProtocol.safe_map
  apply LastingProtocol.safe_mapError
  refine LastingProtocol.safe_mono _ (fun w r hr => ?_) _
    (do_single_get_served hreads.key_eq hreads.addresses (hreads.quiet_meta none)
      hreads.quiet_segment hcommitted hlen hreads.short hbuf)
  rw [hr]
  rfl

theorem served_native_exists {conn : NativeConnector} {key : Text}
    (hcommitted : KeyCommitted ns set_name k w) (hreads : NativeReads F ns set_name k conn key) :
    (answeringProtocol hagree).Safe (fun _ r => r = .ok (.flag true)) w
      (FleetOp.prog (.native_exists conn key)) := by
  apply LastingProtocol.safe_map
  apply LastingProtocol.safe_mapError
  refine LastingProtocol.safe_mono _ (fun w r hr => ?_) _
    (do_single_exists_served hreads.key_eq hreads.addresses (hreads.quiet_meta _) hcommitted)
  rw [hr]
  rfl

/-- The engine's operations. -/
theorem served_python (op : ClientOp)
    (hop : F.Allows (.python op) ∧ ¬ FleetOp.Removes ns set_name k (.python op))
    (hcommitted : KeyCommitted ns set_name k w) :
    (answeringProtocol hagree).Safe (fun _ r => FleetOp.Served F ns set_name k (.python op) r) w
      (FleetOp.prog (.python op)) := by
  rcases op with ⟨eng, ck, mo⟩ | _ | _ | ⟨eng, ck⟩ | ⟨eng, keys⟩ | ⟨eng, keys, withPin⟩ | _ | _ |
    ⟨eng, ck⟩ | _
  case get =>
    rcases mo with _ | mo
    · exact operation_safe hop fun _ _ => trivial
    · by_cases hserved : eng.metaKey ck = meta_key ns set_name k ∧ eng.TorchReads ∧
          mo.Fits (F.payload k)
      · obtain ⟨hkey, htorch, hfits⟩ := hserved
        exact served_get hcommitted hkey htorch hfits
      · exact operation_safe hop fun _ _ h₁ h₂ h₃ => absurd ⟨h₁, h₂, h₃⟩ hserved
  case exists_ =>
    by_cases hkey : eng.metaKey ck = meta_key ns set_name k
    · obtain ⟨rfl, rfl, rfl⟩ := engine_key_eq hkey
      exact LastingProtocol.safe_mono _ (fun _ _ hr _ => hr) _
        (served_flag rfl (exists_served hcommitted))
    · exact operation_safe hop fun _ _ h => absurd h hkey
  case pin =>
    by_cases hkey : eng.metaKey ck = meta_key ns set_name k
    · obtain ⟨rfl, rfl, rfl⟩ := engine_key_eq hkey
      exact LastingProtocol.safe_mono _ (fun _ _ hr _ => hr) _
        (served_flag rfl (pin_served hcommitted))
    · exact operation_safe hop fun _ _ h => absurd h hkey
  case batched_contains =>
    by_cases hnames : eng.cfg.ns = ns ∧ eng.cfg.set_name = set_name
    · obtain ⟨rfl, rfl⟩ := hnames
      exact LastingProtocol.safe_mono _ (fun _ _ hr _ _ => hr) _
        (served_count rfl (batched_contains_served hcommitted keys))
    · exact operation_safe hop fun _ _ h₁ h₂ => absurd ⟨h₁, h₂⟩ hnames
  case batched_async_contains =>
    by_cases hnames : eng.cfg.ns = ns ∧ eng.cfg.set_name = set_name
    · obtain ⟨rfl, rfl⟩ := hnames
      exact LastingProtocol.safe_mono _ (fun _ _ hr _ _ => hr) _
        (served_count rfl (batched_async_contains_served hcommitted keys withPin))
    · exact operation_safe hop fun _ _ h₁ h₂ => absurd ⟨h₁, h₂⟩ hnames
  all_goals exact operation_safe hop fun _ _ => trivial

/-- **An operation on a committed key is served.** -/
theorem served_safe (op : FleetOp) (hop : F.Allows op ∧ ¬ op.Removes ns set_name k)
    (hcommitted : KeyCommitted ns set_name k w) :
    (answeringProtocol hagree).Safe (fun _ r => op.Served F ns set_name k r) w op.prog := by
  rcases op with op | ⟨eng, items⟩ | ⟨conn, key, buf, len⟩ | _ | ⟨conn, key⟩ | _
  case python => exact served_python op hop hcommitted
  case load =>
    by_cases hserved : eng.cfg.ns = ns ∧ eng.cfg.set_name = set_name ∧ eng.TorchReads ∧
        eng.TorchRaises
    · obtain ⟨hns, hset, htorch, hraises⟩ := hserved
      exact served_load hcommitted hns hset htorch hraises
    · exact operation_safe hop fun _ _ h₁ h₂ h₃ h₄ => absurd ⟨h₁, h₂, h₃, h₄⟩ hserved
  case native_get =>
    by_cases hserved : (∃ ck, native_key_to_cache_engine_key key conn.dtype = .ok ck ∧
        meta_key conn.ns conn.set_name ck = meta_key ns set_name k) ∧ 1 ≤ len ∧
        len = (F.payload k).length
    · obtain ⟨⟨ck, hkey, hsame⟩, hpos, rfl⟩ := hserved
      exact LastingProtocol.safe_mono _ (fun _ _ hr _ _ _ _ _ => hr) _
        (served_native_get hcommitted (nativeReads hop.1.1 hkey hsame) hpos hop.1.2.1)
    · exact operation_safe hop fun _ _ ck h₁ h₂ h₃ h₄ => absurd ⟨⟨ck, h₁, h₂⟩, h₃, h₄⟩ hserved
  case native_exists =>
    by_cases hserved : ∃ ck, native_key_to_cache_engine_key key conn.dtype = .ok ck ∧
        meta_key conn.ns conn.set_name ck = meta_key ns set_name k
    · obtain ⟨ck, hkey, hsame⟩ := hserved
      exact LastingProtocol.safe_mono _ (fun _ _ hr _ _ _ => hr) _
        (served_native_exists hcommitted (nativeReads hop.1 hkey hsame))
    · exact operation_safe hop fun _ _ ck h₁ h₂ => absurd ⟨ck, h₁, h₂⟩ hserved
  all_goals exact operation_safe hop fun _ _ => trivial

end Operations

/-! ## Runs -/

/-- Operations with tickets, which tell calls of the same operation apart. -/
abbrev Ticket : Type := ℕ × FleetOp

/-- **Reads never go back.**  Any number of Python and native clients share a store, under any
interleaving of the single-record steps of their calls, any write failing or being applied in
part and any client stopping at any moment, while reads are answered; nobody removes the key `k`
and its records do not expire, and all writers cut its payload into several pieces in one way
only.  When an operation that has returned in the pool `c` has written the key or has read it,
every operation that is begun later and has ended in the pool `c'` is served: a `get` into a
buffer that fits, or a batched load that returns, has filled it with the payload, a native read
has copied it, the key is found present, and no presence count ends at it. -/
theorem reads_never_go_back (F : Fleet) (ns set_name k : Text)
    (hagree : F.CutsAgree ns set_name k) (c c' : Pool answering Ticket FleetExc FleetResult)
    (hc : Pool.Reachable (KeyKept ns set_name k) (fun l => l.2.prog)
      (fun l => F.Allows l.2 ∧ ¬ l.2.Removes ns set_name k) World.empty c)
    (hc' : Relation.ReflTransGen (Pool.Step (KeyKept ns set_name k) (fun l => l.2.prog)
      (fun l => F.Allows l.2 ∧ ¬ l.2.Removes ns set_name k)) c c')
    (l : Ticket) (x : FleetResult) (hended : Thread.at l (.ret x) ∈ c.threads)
    (hthere : l.2.Wrote ns set_name k x ∨ l.2.Hit ns set_name k x)
    (l' : Ticket) (r : Except FleetExc FleetResult)
    (hended' : Thread.at l' (Prog.ofExcept r) ∈ c'.threads)
    (hbegun : ∀ t ∈ c.threads, LastingProtocol.threadLabel t ≠ l') :
    l'.2.Served F ns set_name k r := by
  have hempty : World.empty.Each (FleetRecord F) ∧ F.Whole ns set_name k World.empty :=
    ⟨World.each_empty _, fun r pl hr => by cases hr⟩
  -- up to the first operation: what it has written or read is there
  have hshown : ∀ (l : Ticket) (w : World), F.Allows l.2 ∧ ¬ l.2.Removes ns set_name k →
      (answeringProtocol hagree).Safe (fun w r => DurablePost ns set_name k l.2 w r ∧
        ∀ x, r = .ok x → l.2.Hit ns set_name k x → KeyCommitted ns set_name k w) w l.2.prog :=
    fun l w hl => by
      have hwrote : (storedProtocol hagree).Safe (DurablePost ns set_name k l.2) w l.2.prog :=
        durable_safe l.2 w hl
      exact LastingProtocol.safe_and _ _ (answering_safe hwrote) (hit_safe l.2 hl)
  obtain ⟨hinv, hthreads⟩ := (answeringProtocol hagree).reachable hshown hempty hc
  obtain ⟨hwrote, hhit⟩ := hthreads _ hended c.state (Fleet.Lasts.refl _)
  have hcommitted : KeyCommitted ns set_name k c.state :=
    hthere.elim (hwrote x rfl) (hhit x rfl)
  -- from there on: the operations that begin are served
  exact (answeringProtocol hagree).begun_later
    (fun l w hlasts hl => served_safe l.2 hl (hlasts.committed hcommitted)) hc' hinv hthreads
    hended' hbegun

/-- One such run: a native write of three bytes in two segments, a Python `get`, and then a
native read.  The `get` is served because the write has returned, the read because the `get` has
hit. -/
theorem reads_never_go_back_small :
    ∃ (c : Pool answering Ticket FleetExc FleetResult) (get read : FleetOp),
      Pool.Reachable (KeyKept "lmcache".toList "kv_chunks".toList "m@1@0@a@bfloat16".toList)
        (fun l : Ticket => l.2.prog) (fun l => smallFleet.Allows l.2 ∧ ¬ l.2.Removes
          "lmcache".toList "kv_chunks".toList "m@1@0@a@bfloat16".toList) World.empty c ∧
      Thread.at (1, get) (.ret (.python (.got (some
        ⟨{ byte_array := [1, 2, 3, 9] }, { byte_array := [1, 2, 3, 9] }, 3⟩)))) ∈ c.threads ∧
      Thread.at (2, read) (.ret (.copied [1, 2, 3, 9])) ∈ c.threads := by
  let set : FleetOp := .native_set nativeExample "m@01000000@0a".toList [1, 2, 3]
  let get : FleetOp := .python (.get (fakeEngine (.ofTarget 2) true true 8)
    "m@1@0@a@bfloat16".toList (some { byte_array := [0, 0, 0, 9] }))
  let read : FleetOp := .native_get nativeExample "m@01000000@0a".toList [0, 0, 0, 9] 3
  let steps := Pool.Step (D := answering) (KeyKept "lmcache".toList "kv_chunks".toList
    "m@1@0@a@bfloat16".toList) (fun l : Ticket => l.2.prog) (fun l => smallFleet.Allows l.2 ∧
      ¬ l.2.Removes "lmcache".toList "kv_chunks".toList "m@1@0@a@bfloat16".toList)
  have hkey : native_key_to_cache_engine_key "m@01000000@0a".toList nativeExample.dtype
      = .ok "m@1@0@a@bfloat16".toList := by decide
  -- each operation is run alone to its end
  obtain ⟨w₁, hset⟩ : ∃ w₁, Relation.ReflTransGen steps ⟨World.empty, []⟩
      ⟨w₁, [.at (0, set) (.ret .done)]⟩ :=
    ⟨_, Pool.steps_started [] (0, set) ⟨⟨smallFleet_within, fun _ _ => rfl⟩, id⟩
      (answering.exec_run answering_outcome _ _)⟩
  obtain ⟨w₂, r, hget⟩ : ∃ w₂ r, Relation.ReflTransGen steps ⟨w₁, [.at (0, set) (.ret .done)]⟩
      ⟨w₂, [.at (1, get) (.ofExcept r), .at (0, set) (.ret .done)]⟩ :=
    ⟨_, _, Pool.steps_started _ (1, get) ⟨⟨fakeEngine_lawful _ _ _ _, trivial⟩, id⟩
      (answering.exec_run answering_outcome _ _)⟩
  have hgot := reads_never_go_back smallFleet _ _ _ (smallFleet_cutsAgree _ _ _) _ _ hset
    hget (0, set) .done List.mem_cons_self (Or.inl ⟨_, hkey, rfl⟩) (1, get) r List.mem_cons_self
    (by simp [LastingProtocol.threadLabel]) rfl (fakeEngine_torchReads _ _ _ _)
    ⟨by decide, by decide⟩
  subst hgot
  obtain ⟨w₃, r', hread⟩ : ∃ w₃ r', Relation.ReflTransGen steps ⟨w₂, _⟩
      ⟨w₃, .at (2, read) (.ofExcept r') :: _⟩ :=
    ⟨_, _, Pool.steps_started _ (2, read) ⟨⟨smallFleet_within, by decide, by decide⟩, id⟩
      (answering.exec_run answering_outcome _ _)⟩
  have hcopied := reads_never_go_back smallFleet _ _ _ (smallFleet_cutsAgree _ _ _) _ _
    (hset.trans hget) hread (1, get) _ List.mem_cons_self (Or.inr rfl) (2, read) r'
    List.mem_cons_self (by simp [LastingProtocol.threadLabel]) _ hkey rfl (by decide) rfl
  subst hcopied
  exact ⟨_, get, read, (hset.trans hget).trans hread,
    List.mem_cons_of_mem _ List.mem_cons_self, List.mem_cons_self⟩

end FleetMonotone
