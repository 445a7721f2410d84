/-
# The store as a cache

`World.Caches` relates the records of a store to a cache of payloads with their CRCs and their
serialized metadata: a value is a payload stored in the shared format, a mark is a meta record
that only a pin has written.  Segments that no meta record names stand for nothing.

Every write, pin and removal without failures changes the records as the cache changes
(`caches_put`, `caches_set`, `caches_pins`, `caches_removed`).
-/
import LmcacheAerospike.CheckedCache
import LmcacheAerospike.HitReadable
import LmcacheAerospike.NativeRuns

/-- The cache of payloads that the records of all namespaces and sets stand for, its keys those
of the meta records; the digest of a payload is its CRC, the note its metadata. -/
abbrev PayloadCache : Type := CheckedCache Key Bytes ℕ Bytes

/-- The records of `ck` stand for the entry. -/
def World.IsEntry (w : World) (ns set_name ck : Text) : Option (CacheEntry Bytes ℕ Bytes) → Prop
  | none => w.records (meta_key ns set_name ck) = none
  | some e => ∃ r, w.records (meta_key ns set_name ck) = some r ∧
      r.bins .crc32 = e.digest.map (fun d => .int d) ∧ r.bins .md = e.note.map .blob ∧
      match e.value with
      | none => r.bins .state = none ∧ r.bins .nseg = none
      | some p => ∃ pl, w.StoredBy ns set_name ck p pl r.bins

/-- **The abstraction relation**: the records stand for the cache. -/
def World.Caches (w : World) (c : PayloadCache) : Prop :=
  ∀ ns set_name ck, w.IsEntry ns set_name ck (c (meta_key ns set_name ck))

section Relation

variable {w w' : World} {c c' : PayloadCache} {ns set_name ck : Text}

theorem caches_empty : World.empty.Caches CheckedCache.empty := fun _ _ _ => rfl

/-! ## What the relation depends on -/

theorem World.StoredBy.congr {p : Bytes} {pl : ShardPlan} {bins : Bins}
    (h : w.StoredBy ns set_name ck p pl bins) (hsame : w.SameFor w' ns set_name ck) :
    w'.StoredBy ns set_name ck p pl bins :=
  ⟨h.covers, h.holds.congr hsame.1 fun _ i _ => hsame.2 i, h.seg_b, h.tot_b⟩

/-- An entry depends on the records of its logical key. -/
theorem World.IsEntry.congr {e : Option (CacheEntry Bytes ℕ Bytes)} (h : w.IsEntry ns set_name ck e)
    (hsame : w.SameFor w' ns set_name ck) : w'.IsEntry ns set_name ck e := by
  cases e with
  | none => exact hsame.1.trans h
  | some e =>
    obtain ⟨r, hr, hcrc, hmd, hvalue⟩ := h
    refine ⟨r, hsame.1.trans hr, hcrc, hmd, ?_⟩
    cases hv : e.value with
    | none =>
      rw [hv] at hvalue
      exact hvalue
    | some p =>
      rw [hv] at hvalue
      obtain ⟨pl, hstored⟩ := hvalue
      exact ⟨pl, hstored.congr hsame⟩

theorem World.Caches.of_records (h : w.Caches c) (hrec : w'.records = w.records) :
    w'.Caches c := fun ns set_name ck =>
  (h ns set_name ck).congr ⟨by rw [hrec], fun _ => by rw [hrec]⟩

/-- Pin bins and TTLs do not matter. -/
theorem World.Caches.of_data (h : w.Caches c) (hdata : w'.data = w.data) : w'.Caches c := by
  intro ns set_name ck
  have hentry := h ns set_name ck
  cases he : c (meta_key ns set_name ck) with
  | none =>
    rw [he] at hentry
    have hnone : w'.data (meta_key ns set_name ck) = none := by
      rw [hdata, World.data, show w.records _ = none from hentry, Option.map_none]
    exact Option.map_eq_none_iff.mp hnone
  | some e =>
    rw [he] at hentry
    obtain ⟨r, hr, hcrc, hmd, hvalue⟩ := hentry
    obtain ⟨r', hr', hbins⟩ := found_of_data hdata hr
    refine ⟨r', hr', (hbins _ (by decide)).trans hcrc, (hbins _ (by decide)).trans hmd, ?_⟩
    cases hv : e.value with
    | none =>
      rw [hv] at hvalue
      rw [hbins _ (by decide), hbins _ (by decide)]
      exact hvalue
    | some p =>
      rw [hv] at hvalue
      obtain ⟨pl, hcov, hholds, hseg, htot⟩ := hvalue
      refine ⟨pl, hcov, ⟨⟨r', hr', rfl⟩, ?_, ?_, fun hn => ?_, fun hn i hi => ?_⟩, ?_, ?_⟩
      · rw [hbins _ (by decide)]
        exact hholds.state
      · rw [hbins _ (by decide)]
        exact hholds.nseg
      · rw [hbins _ (by decide)]
        exact hholds.inline hn
      · obtain ⟨r₂, hr₂, hb⟩ := hholds.segment hn i hi
        obtain ⟨r₃, hr₃, hbins₃⟩ := found_of_data hdata hr₂
        exact ⟨r₃, hr₃, (hbins₃ _ (by decide)).trans hb⟩
      · rw [hbins _ (by decide)]
        exact hseg
      · rw [hbins _ (by decide)]
        exact htot

/-- **The frame rule**: a change to the records of one logical key that is a change of its
entry. -/
theorem World.Caches.frame (h : w.Caches c) (ns set_name ck : Text)
    (hcache : ∀ key, key ≠ meta_key ns set_name ck → c' key = c key)
    (hframe : ∀ ns' set_name' ck', meta_key ns' set_name' ck' ≠ meta_key ns set_name ck →
      w.SameFor w' ns' set_name' ck')
    (hown : w'.IsEntry ns set_name ck (c' (meta_key ns set_name ck))) : w'.Caches c' := by
  intro ns' set_name' ck'
  by_cases heq : meta_key ns' set_name' ck' = meta_key ns set_name ck
  · obtain rfl : ns' = ns := congrArg Key.ns heq
    obtain rfl : set_name' = set_name := congrArg Key.set_name heq
    obtain rfl : ck' = ck := meta_key_inj heq
    exact hown
  · rw [hcache _ heq]
    exact (h ns' set_name' ck').congr (hframe ns' set_name' ck' heq)

/-- The frame of a change that leaves all records but those of one logical key. -/
theorem sameFor_of_frame
    (h : ∀ key, key ≠ meta_key ns set_name ck → (∀ i, key ≠ segment_key ns set_name ck i) →
      w'.records key = w.records key) {ns' set_name' ck' : Text}
    (hne : meta_key ns' set_name' ck' ≠ meta_key ns set_name ck) :
    w.SameFor w' ns' set_name' ck' :=
  ⟨h _ hne fun _ => meta_key_ne_segment_key _ _ _ _ _ _ _,
    fun i => h _ (meta_key_ne_segment_key _ _ _ _ _ _ _).symm (segment_key_ne hne i)⟩

/-! ## What the relation says -/

/-- A key is present when its meta record is there. -/
theorem World.Caches.present_eq (h : w.Caches c) (ns set_name ck : Text) :
    c.present (meta_key ns set_name ck) = w.hasMeta ns set_name ck := by
  have hentry := h ns set_name ck
  unfold CheckedCache.present World.hasMeta
  cases he : c (meta_key ns set_name ck) with
  | none =>
    rw [he] at hentry
    rw [show w.records _ = none from hentry]
    rfl
  | some e =>
    rw [he] at hentry
    obtain ⟨r, hr, -⟩ := hentry
    rw [hr]
    rfl

/-- The CRC that a write leaves in place is the one recorded. -/
theorem World.Caches.recorded_eq (h : w.Caches c) (ns set_name ck : Text) :
    oldBins (w.records (meta_key ns set_name ck)) .crc32
      = (c.recorded (meta_key ns set_name ck)).map (fun d => .int d) := by
  have hentry := h ns set_name ck
  unfold CheckedCache.recorded
  cases he : c (meta_key ns set_name ck) with
  | none =>
    rw [he] at hentry
    rw [show w.records _ = none from hentry]
    rfl
  | some e =>
    rw [he] at hentry
    obtain ⟨r, hr, hcrc, -⟩ := hentry
    rw [hr]
    exact hcrc

/-- The metadata that a write leaves in place are those noted. -/
theorem World.Caches.noted_eq (h : w.Caches c) (ns set_name ck : Text) :
    oldBins (w.records (meta_key ns set_name ck)) .md
      = (c.noted (meta_key ns set_name ck)).map .blob := by
  have hentry := h ns set_name ck
  unfold CheckedCache.noted
  cases he : c (meta_key ns set_name ck) with
  | none =>
    rw [he] at hentry
    rw [show w.records _ = none from hentry]
    rfl
  | some e =>
    rw [he] at hentry
    obtain ⟨r, hr, -, hmd, -⟩ := hentry
    rw [hr]
    exact hmd

/-- A value is stored. -/
theorem World.Caches.stored (h : w.Caches c) {p : Bytes}
    (hvalue : c.value (meta_key ns set_name ck) = some p) :
    ∃ pl bins, w.StoredBy ns set_name ck p pl bins ∧
      bins .crc32 = (c.recorded (meta_key ns set_name ck)).map (fun d => .int d) ∧
      bins .md = (c.noted (meta_key ns set_name ck)).map .blob := by
  have hentry := h ns set_name ck
  unfold CheckedCache.value at hvalue
  unfold CheckedCache.recorded CheckedCache.noted
  cases he : c (meta_key ns set_name ck) with
  | none =>
    rw [he] at hvalue
    cases hvalue
  | some e =>
    rw [he] at hentry hvalue
    obtain ⟨r, -, hcrc, hmd, hstored⟩ := hentry
    rw [show e.value = some p from hvalue] at hstored
    obtain ⟨pl, hstored⟩ := hstored
    exact ⟨pl, r.bins, hstored, hcrc, hmd⟩

/-- Where there is no value there is no meta record, or one that is not ready. -/
theorem World.Caches.unready (h : w.Caches c)
    (hvalue : c.value (meta_key ns set_name ck) = none) :
    (c (meta_key ns set_name ck) = none ∧ w.records (meta_key ns set_name ck) = none) ∨
      ∃ e r, c (meta_key ns set_name ck) = some e ∧ e.value = none ∧
        w.records (meta_key ns set_name ck) = some r ∧ r.bins .state = none ∧
        r.bins .nseg = none := by
  have hentry := h ns set_name ck
  unfold CheckedCache.value at hvalue
  cases he : c (meta_key ns set_name ck) with
  | none =>
    rw [he] at hentry
    exact .inl ⟨rfl, hentry⟩
  | some e =>
    rw [he] at hentry hvalue
    obtain ⟨r, hr, -, -, hmark⟩ := hentry
    rw [show e.value = none from hvalue] at hmark
    exact .inr ⟨e, r, rfl, hvalue, hr, hmark⟩

/-! ## Writes -/

/-- A payload that is written, what is recorded of it over what was there. -/
theorem isEntry_stored (h : w.Caches c) (write : CacheWrite Bytes ℕ Bytes) {pl : ShardPlan}
    {bins : Bins} (hstored : w'.StoredBy ns set_name ck write.value pl bins)
    (hcrc : bins .crc32 = (write.digest.map fun d => .int d).or
      (oldBins (w.records (meta_key ns set_name ck)) .crc32))
    (hmd : bins .md = (write.note.map .blob).or
      (oldBins (w.records (meta_key ns set_name ck)) .md)) :
    w'.IsEntry ns set_name ck
      (c.store (meta_key ns set_name ck) write (meta_key ns set_name ck)) := by
  rw [CheckedCache.store_self]
  obtain ⟨r, hr, hbins⟩ := hstored.holds.found
  subst hbins
  refine ⟨r, hr, ?_, ?_, pl, hstored⟩
  · rw [hcrc, h.recorded_eq, Option.map_or]
  · rw [hmd, h.noted_eq, Option.map_or]

/-- What a put of the object writes: its bytes, with the CRC and the metadata that the engine is
configured to record. -/
def Engine.cacheWrite (eng : Engine) (mo : MemoryObj) : CacheWrite Bytes ℕ Bytes where
  value := mo.byte_array
  digest := if eng.cfg.enable_crc32 then some (crc32 mo.byte_array) else none
  note := if eng.metadata.save_chunk_meta then some (eng.serialize (build_remote_metadata mo))
    else none

/-- **A put** stores its payload. -/
theorem caches_put (h : w.Caches c) {eng : Engine} {mo : MemoryObj} {pinned : Bool}
    {pl : ShardPlan} (hplan : eng.resolved.shard_plan mo.byte_array.length = .ok pl) :
    (eng.afterPut pinned w (ck, mo)).Caches
      (c.store (eng.metaKey ck) (eng.cacheWrite mo)) := by
  have hrun : (eng.put ck mo pinned).run Op.perform w
      = (.ok (), eng.afterPut pinned w (ck, mo)) := run_put_world hplan
  obtain ⟨pl', now, hplan', hdone⟩ := run_put_done hrun
  have hcov := plan_covers _ _ _ _ _ _ hplan'
  refine h.frame eng.cfg.ns eng.cfg.set_name ck
    (fun key hne => CheckedCache.store_of_ne hne)
    (fun ns' set_name' ck' hne => sameFor_of_frame hdone.frame hne) ?_
  refine isEntry_stored h (eng.cacheWrite mo)
    ⟨hcov, hdone.holds hcov, meta_write_bins mo pl' pinned now .seg_b,
      meta_write_bins mo pl' pinned now .tot_b⟩ ?_ ?_
  · refine (meta_write_bins mo pl' pinned now .crc32).trans ?_
    unfold Engine.cacheWrite
    cases eng.cfg.enable_crc32 <;> rfl
  · refine (meta_write_bins mo pl' pinned now .md).trans ?_
    unfold Engine.cacheWrite
    cases eng.metadata.save_chunk_meta <;> rfl

/-- What some items are as writes of the cache. -/
def Engine.cacheItems (eng : Engine) (items : List (Text × MemoryObj)) :
    List (Key × CacheWrite Bytes ℕ Bytes) :=
  items.map fun item => (eng.metaKey item.1, eng.cacheWrite item.2)

/-- **Puts one after the other** store their payloads. -/
theorem caches_puts {eng : Engine} {pinned : Bool} {items : List (Text × MemoryObj)}
    (hplans : ∀ item ∈ items, ∃ pl, eng.resolved.shard_plan item.2.byte_array.length = .ok pl)
    (h : w.Caches c) :
    (items.foldl (eng.afterPut pinned) w).Caches (c.storeAll (eng.cacheItems items)) := by
  induction items generalizing w c with
  | nil => exact h
  | cons item items ih =>
    rw [List.forall_mem_cons] at hplans
    obtain ⟨⟨pl, hplan⟩, hrest⟩ := hplans
    exact ih hrest (caches_put h hplan)

/-- A native write leaves the records of the other logical keys. -/
theorem afterSet_of_ne {conn : NativeConnector} (haddr : conn.Addresses ns set_name ck)
    {pl : ShardPlan} {p : Bytes} {key : Key} (hmeta : key ≠ meta_key ns set_name ck)
    (hsegment : ∀ i, key ≠ segment_key ns set_name ck i) :
    (conn.afterSet ck pl p w).records key = w.records key := by
  unfold NativeConnector.afterSet
  have hmetaKey : ∀ inline_buf now, key ≠ (conn.native_meta_write (meta_user_key ck) pl p.length
      inline_buf now).key := fun inline_buf now heq => hmeta (heq.trans haddr.meta_eq)
  dsimp only
  rw [World.applyWrite_of_ne _ (hmetaKey _ _)]
  apply foldl_applyWrite_of_notMem
  split_ifs
  · simp
  · rw [native_segment_keys haddr]
    intro hmem
    obtain ⟨i, -, hi⟩ := List.mem_map.mp hmem
    exact hsegment i hi.symm

/-- **A native write** stores its payload and keeps the CRC and the metadata that were there. -/
theorem caches_set (h : w.Caches c) {conn : NativeConnector}
    (haddr : conn.Addresses ns set_name ck) {p : Bytes} (hp : p.length < 2 ^ 32)
    {pl : ShardPlan} (hplan : conn.limits.plan p.length = .ok pl) :
    (conn.afterSet ck pl p w).Caches (c.store (meta_key ns set_name ck) { value := p }) := by
  obtain ⟨bins, hstored, hcrc, hmd⟩ := afterSet_storedBy haddr hp hplan w
  refine h.frame ns set_name ck (fun key hne => CheckedCache.store_of_ne hne)
    (fun ns' set_name' ck' hne => sameFor_of_frame (fun key => afterSet_of_ne haddr) hne) ?_
  exact isEntry_stored h { value := p } hstored hcrc hmd

/-! ## Pins -/

/-- A pin of a key that is not there leaves a mark. -/
theorem caches_mark (h : w.Caches c) (eng : Engine) (ck : Text) (v : Bool) (ttl : ℤ) :
    (w.applyWrite (eng.pin_write ck v ttl)).Caches (c.mark (eng.metaKey ck)) := by
  cases hr : w.records (eng.metaKey ck) with
  | some r =>
    have hpresent : c.present (eng.metaKey ck) = true := by
      rw [Engine.metaKey, h.present_eq, World.hasMeta]
      exact Option.isSome_iff_exists.mpr ⟨r, hr⟩
    rw [CheckedCache.mark_of_present hpresent]
    exact h.of_data (data_pin_write hr v ttl)
  | none =>
    have habsent : c (eng.metaKey ck) = none := by
      have hpresent := h.present_eq eng.cfg.ns eng.cfg.set_name ck
      rw [World.hasMeta, show w.records (meta_key _ _ _) = none from hr] at hpresent
      exact Option.isSome_eq_false_iff.mp hpresent |> Option.isNone_iff_eq_none.mp
    refine h.frame eng.cfg.ns eng.cfg.set_name ck
      (fun key hne => CheckedCache.mark_of_ne hne)
      (fun ns' set_name' ck' hne => sameFor_of_frame (fun key hmeta _ =>
        World.applyWrite_of_ne w hmeta) hne) ?_
    rw [CheckedCache.mark_of_absent (show c (meta_key _ _ _) = none from habsent)]
    -- the record has the bin of the pin and no other
    have hbins : ∀ n, n ≠ .pin → ((eng.pin_write ck v ttl).applyTo w.now
        (w.records (eng.metaKey ck))).bins n = none := fun n hn => by
      rw [pin_write_of_ne hn, hr]
      rfl
    exact ⟨_, World.applyWrite_self w _, hbins .crc32 (by decide), hbins .md (by decide),
      hbins .state (by decide), hbins .nseg (by decide)⟩

/-- **Pins** leave marks on the keys that are not there. -/
theorem caches_pins (eng : Engine) {keys : List Text} (h : w.Caches c) :
    (eng.afterPins keys w).Caches (keys.foldl (fun c ck => c.mark (eng.metaKey ck)) c) := by
  induction keys generalizing w c with
  | nil => exact h
  | cons ck keys ih => exact ih (caches_mark h eng ck true eng.pin_ttl)

/-! ## Removals -/

/-- **A removal** of the meta record and any segments takes the entry away. -/
theorem caches_removed (h : w.Caches c) (ns set_name ck : Text) {keys : List Key}
    (hkeys : ∀ key ∈ keys, ∃ i, key = segment_key ns set_name ck i) :
    (keys.foldl World.removeRecord (w.removeRecord (meta_key ns set_name ck))).Caches
      (c.drop (meta_key ns set_name ck)) := by
  have hframe : ∀ key, key ≠ meta_key ns set_name ck →
      (∀ i, key ≠ segment_key ns set_name ck i) →
      (keys.foldl World.removeRecord (w.removeRecord (meta_key ns set_name ck))).records key
        = w.records key := by
    intro key hmeta hsegment
    rw [foldl_removeRecord_of_notMem _ _ fun hmem => ?_, removeRecord_of_ne w hmeta]
    obtain ⟨i, rfl⟩ := hkeys key hmem
    exact hsegment i rfl
  refine h.frame ns set_name ck (fun key hne => CheckedCache.drop_of_ne hne)
    (fun ns' set_name' ck' hne => sameFor_of_frame hframe hne) ?_
  rw [CheckedCache.drop_self]
  show World.records _ _ = none
  rw [foldl_removeRecord_of_notMem _ _ fun hmem => ?_]
  · exact w.setRecord_self _ none
  · obtain ⟨i, hi⟩ := hkeys _ hmem
    exact meta_key_ne_segment_key _ _ _ _ _ _ _ hi

/-- A removal of what is not there changes nothing. -/
theorem caches_drop_absent (h : w.Caches c)
    (habsent : w.records (meta_key ns set_name ck) = none) :
    w.Caches (c.drop (meta_key ns set_name ck)) := by
  refine h.frame ns set_name ck (fun key hne => CheckedCache.drop_of_ne hne)
    (fun _ _ _ _ => ⟨rfl, fun _ => rfl⟩) ?_
  rw [CheckedCache.drop_self]
  exact habsent

end Relation
