/-
# Reads of the store as reads of the cache

What the readers of both kinds answer on a store that stands for a cache.  The answers of
`cachedGet`, `cachedLoad` and `cachedRead` are made from the cache, where a value is in one
piece; the readers give the same answers (`get_answers`, `load_answers`, `native_get_answers`).
-/
import LmcacheAerospike.CacheRelation
import LmcacheAerospike.LoadTimeouts
import LmcacheAerospike.NativeCalls
import LmcacheAerospike.ReadSources

/-! ## The answers of the cache -/

section Answers

variable (eng : Engine) (c : PayloadCache)

/-- The allocator of the engine looks at nothing but the metadata in the meta record. -/
def Engine.AllocatesByMetadata (eng : Engine) : Prop :=
  ∀ bins bins', bins .md = bins' .md → eng.allocate_for_read bins = eng.allocate_for_read bins'

/-- That of `serde.py` does. -/
theorem allocate_for_read_congr {allocate : List (List ℕ) → List String → String → Option MemoryObj}
    {deserialize : Bytes → Except PyExc RemoteMetadata} {base : EngineMetadata} {bins bins' : Bins}
    (h : bins .md = bins' .md) : allocate_for_read allocate deserialize base bins
      = allocate_for_read allocate deserialize base bins' := by
  unfold allocate_for_read
  rw [h]

/-- The bins of a meta record with these metadata, as far as an allocator looks at them. -/
def noteBins (note : Option Bytes) : Bins := fun n => if n = .md then note.map .blob else none

/-- What copying a value of the key into a buffer comes to.  `text` is what the exception says
about the piece that does not fit. -/
def Engine.cachedFill (text : String) (key : Key) (mo : MemoryObj) (expect_reshape : Bool)
    (p : Bytes) : Except PyExc (Option Hit) :=
  if mo.room < p.length then .error (.connector .internal text)
  else match if mo.raw_is_tensor then eng.frombuffer p else .ok p with
    | .error e => .error e
    | .ok src =>
      let filled := mo.filledWith src
      if c.accepts eng.cfg.enable_crc32 key (crc32 (filled.byte_array.take src.length)) then
        if expect_reshape then
          (eng.reshape filled src.length).map fun shaped => some ⟨shaped, filled, src.length⟩
        else .ok (some ⟨filled, filled, src.length⟩)
      else .ok none

/-- What `get` answers. -/
def Engine.cachedGet (text : String) (ck : Text) (preallocated : Option MemoryObj) :
    Except PyExc (Option Hit) :=
  match c.value (eng.metaKey ck) with
  | none => .ok none
  | some p =>
    match eng.receive_buffer (noteBins (c.noted (eng.metaKey ck))) preallocated with
    | .error e => .error e
    | .ok (none, _) => .ok none
    | .ok (some mo, expect_reshape) =>
      eng.cachedFill c text (eng.metaKey ck) mo expect_reshape p

/-- What a batched load answers for an item. -/
def Engine.cachedLoad (item : Text × MemoryObj) : Option MemoryObj :=
  loaded (eng.cachedGet c "" item.1 (some item.2))

/-- What a native read of `len` bytes answers. -/
def PayloadCache.cachedRead (c : PayloadCache) (key : Key) (buf : Bytes) (len : ℕ) :
    Except (RuntimeError × Bytes) Bytes :=
  match c key with
  | none => .error (status_error "get-meta" .recordNotFound, buf)
  | some e =>
    match e.value with
    | none => .error (⟨"meta record is not ready"⟩, buf)
    | some p =>
      if len = p.length then .ok (splice 0 p buf)
      else if p = [] then .error (⟨"single-record payload size mismatch"⟩, buf)
      else .error (⟨"meta record total size mismatch"⟩, buf)

end Answers

section Reads

variable {w : World} {c : PayloadCache} {eng : Engine} {ck : Text}

/-! ## `get` -/

/-- The check of a payload that is stored looks at the CRC that is recorded. -/
theorem crc_matches_eq_accepts {bins : Bins} {key : Key}
    (hcrc : bins .crc32 = (c.recorded key).map fun d => .int d) (mo : MemoryObj) (n : ℕ) :
    eng.crc_matches bins mo n
      = c.accepts eng.cfg.enable_crc32 key (crc32 (mo.byte_array.take n)) := by
  unfold Engine.crc_matches CheckedCache.accepts
  rw [hcrc]
  cases eng.cfg.enable_crc32 <;> cases c.recorded key <;> simp [Engine.pyEqInt]

/-- The choice of a receive buffer looks at the metadata that are noted. -/
theorem receive_buffer_note {preallocated : Option MemoryObj}
    (halloc : preallocated = none → eng.AllocatesByMetadata) {bins : Bins} {note : Option Bytes}
    (hmd : bins .md = note.map .blob) :
    eng.receive_buffer bins preallocated = eng.receive_buffer (noteBins note) preallocated := by
  cases preallocated with
  | some mo => rfl
  | none => exact halloc rfl bins (noteBins note) (hmd.trans (if_pos rfl).symm)

/-- `get` misses on a meta record that is not ready. -/
theorem run_get_unready {preallocated : Option MemoryObj} {r : Record}
    (hr : w.records (eng.metaKey ck) = some r) (hstate : r.bins .state = none) :
    (eng.get ck preallocated).run Op.perform w = (.ok none, w) := by
  have hnot : r.bins .state ≠ some (.str "ready") := by
    rw [hstate]
    simp
  show Prog.run _ (.call (Op.get _) _) w = _
  rw [Prog.run_call, perform_get_found hr]
  show Prog.run _ (eng.get_with_meta ck preallocated r.bins) w = _
  unfold Engine.get_with_meta
  rw [if_pos hnot]
  rfl

/-- `get` without a receive buffer. -/
theorem run_get_unbuffered {pieces : List Bytes} {bins : Bins}
    (h : w.Holds eng.cfg.ns eng.cfg.set_name ck pieces bins) (preallocated : Option MemoryObj) :
    (∀ e, eng.receive_buffer bins preallocated = .error e →
      ((eng.get ck preallocated).run Op.perform w).1 = .error e) ∧
    ∀ expect_reshape, eng.receive_buffer bins preallocated = .ok (none, expect_reshape) →
      ((eng.get ck preallocated).run Op.perform w).1 = .ok none := by
  obtain ⟨r, hr, rfl⟩ := h.found
  have hrun : (eng.get ck preallocated).run Op.perform w
      = (eng.get_with_meta ck preallocated r.bins).run Op.perform w := by
    show Prog.run _ (.call (Op.get _) _) w = _
    rw [Prog.run_call, perform_get_found hr]
    rfl
  rw [hrun]
  unfold Engine.get_with_meta
  rw [if_neg (not_not.mpr h.state), h.nseg]
  constructor
  · intro e he
    show (Prog.run _ (Prog.bind (Prog.ofExcept (eng.receive_buffer r.bins preallocated)) _) w).1 = _
    rw [he]
    rfl
  · intro expect_reshape hnone
    show (Prog.run _ (Prog.bind (Prog.ofExcept (eng.receive_buffer r.bins preallocated)) _) w).1 = _
    rw [hnone]
    rfl

/-- `get` copies the pieces of a stored payload as one. -/
theorem run_get_fill (htorch : eng.TorchReads) {p : Bytes} {pl : ShardPlan} {bins : Bins}
    (hstored : w.StoredBy eng.cfg.ns eng.cfg.set_name ck p pl bins)
    (hcrc : bins .crc32 = (c.recorded (eng.metaKey ck)).map fun d => .int d)
    {preallocated : Option MemoryObj} {mo : MemoryObj} {expect_reshape : Bool}
    (hbuf : eng.receive_buffer bins preallocated = .ok (some mo, expect_reshape)) :
    ∃ text, ((eng.get ck preallocated).run Op.perform w).1
      = eng.cachedFill c text (eng.metaKey ck) mo expect_reshape p := by
  have hflat : (pl.pieces p).flatten = p := hstored.covers.flatten_pieces
  unfold Engine.cachedFill
  by_cases hroom : mo.room < p.length
  · have hne : p ≠ [] := List.ne_nil_of_length_pos (by omega)
    obtain ⟨text, hrun⟩ := run_get_overflows hstored.holds hbuf (by rwa [hflat])
      fun _ piece hpiece => htorch.of_ne_nil piece (hstored.covers.piece_ne_nil hne hpiece)
    exact ⟨text, by rw [if_pos hroom, hrun]⟩
  · refine ⟨"", ?_⟩
    rw [if_neg hroom]
    by_cases hread : mo.raw_is_tensor = true → p ≠ []
    · have hsrc : (if mo.raw_is_tensor then eng.frombuffer p else .ok p) = .ok p := by
        split_ifs with htensor
        · exact htorch.of_ne_nil p (hread htensor)
        · rfl
      have hrec : eng.Receives mo (pl.pieces p) := ⟨by rw [hflat]; omega, fun ht piece hpiece =>
        htorch.of_ne_nil piece (hstored.covers.piece_ne_nil (hread ht) hpiece)⟩
      rw [hsrc, run_get_holds hstored.holds hbuf hrec, hflat]
      dsimp only
      rw [← crc_matches_eq_accepts hcrc]
      unfold Engine.finish
      split_ifs
      · cases eng.reshape (mo.filledWith p) p.length <;> rfl
      · rfl
      · rfl
    · -- torch is given the empty payload, which is in one piece
      obtain ⟨htensor, hnil⟩ := Classical.not_imp.mp hread
      rw [not_not] at hnil
      subst hnil
      obtain ⟨e, he⟩ := htorch.of_nil
      have hone : (pl.pieces ([] : Bytes)).length = 1 := by
        rw [pl.length_pieces]
        by_contra hn
        exact Nat.not_lt_zero _ (hstored.covers.starts_inside hn)
      rw [if_pos htensor, he, run_get_unreadable hstored.holds hone hbuf (by rw [hflat]; omega)
        htensor (by rwa [hflat])]

/-- **`get` reads the cache.** -/
theorem get_answers (h : w.Caches c) (htorch : eng.TorchReads)
    {preallocated : Option MemoryObj} (halloc : preallocated = none → eng.AllocatesByMetadata) :
    ∃ text, ((eng.get ck preallocated).run Op.perform w).1
      = eng.cachedGet c text ck preallocated := by
  unfold Engine.cachedGet
  cases hvalue : c.value (eng.metaKey ck) with
  | none =>
    refine ⟨"", ?_⟩
    obtain ⟨-, habsent⟩ | ⟨_, r, -, -, hr, hstate, -⟩ := h.unready hvalue
    · rw [run_get_absent habsent]
    · rw [run_get_unready hr hstate]
  | some p =>
    obtain ⟨pl, bins, hstored, hcrc, hmd⟩ := h.stored hvalue
    have hnote : eng.receive_buffer bins preallocated
        = eng.receive_buffer (noteBins (c.noted (eng.metaKey ck))) preallocated :=
      receive_buffer_note halloc hmd
    obtain ⟨hraises, hmisses⟩ := run_get_unbuffered hstored.holds preallocated
    dsimp only
    rw [← hnote]
    rcases hbuf : eng.receive_buffer bins preallocated with e | ⟨_ | mo, expect_reshape⟩
    · exact ⟨"", hraises e hbuf⟩
    · exact ⟨"", hmisses expect_reshape hbuf⟩
    · exact run_get_fill htorch hstored hcrc hbuf

/-- Reading leaves the records as they are. -/
theorem run_get_records (eng : Engine) (ck : Text) (preallocated : Option MemoryObj) (w : World) :
    ((eng.get ck preallocated).run Op.perform w).2.records = w.records := by
  have hcalls : (eng.get ck preallocated).AllCalls (EngineReadCall eng fun _ => True) :=
    get_calls ck preallocated trivial
  exact records_of_reads _
    (Prog.allCalls_mono (fun _ ho i hi => isRead_of_read (ho i hi)) _ hcalls) w

/-! ## A batched load -/

/-- The text of an exception makes no difference to what is loaded. -/
theorem loaded_cachedGet (text : String) (item : Text × MemoryObj) :
    loaded (eng.cachedGet c text item.1 (some item.2)) = eng.cachedLoad c item := by
  unfold Engine.cachedLoad Engine.cachedGet
  cases c.value (eng.metaKey item.1) with
  | none => rfl
  | some p =>
    show loaded (eng.cachedFill c text _ item.2 false p)
      = loaded (eng.cachedFill c "" _ item.2 false p)
    unfold Engine.cachedFill
    split_ifs <;> rfl

/-- The load of one item reads the cache. -/
theorem loadedAlone_eq (h : w.Caches c) (htorch : eng.TorchReads) (item : Text × MemoryObj) :
    eng.loadedAlone w item = eng.cachedLoad c item := by
  obtain ⟨text, hrun⟩ : ∃ text, ((eng.get item.1 (some item.2)).run Op.perform w).1
      = eng.cachedGet c text item.1 (some item.2) := get_answers h htorch nofun
  rw [Engine.loadedAlone, hrun, loaded_cachedGet]

/-- The value that stands under the key of the item is longer than the buffer. -/
def PayloadCache.Misfits (c : PayloadCache) (eng : Engine) (item : Text × MemoryObj) : Prop :=
  ∃ p, c.value (eng.metaKey item.1) = some p ∧ item.2.room < p.length

/-- What `get` raises on a value with bytes and a buffer of the caller. -/
theorem cachedGet_error (htorch : eng.TorchReads) {text : String} {item : Text × MemoryObj}
    {p : Bytes} (hvalue : c.value (eng.metaKey item.1) = some p) (hne : p ≠ []) {e : PyExc}
    (h : eng.cachedGet c text item.1 (some item.2) = .error e) :
    item.2.room < p.length ∧ e = .connector .internal text := by
  have hsrc : (if item.2.raw_is_tensor then eng.frombuffer p else .ok p) = .ok p := by
    split_ifs
    · exact htorch.of_ne_nil p hne
    · rfl
  unfold Engine.cachedGet at h
  rw [hvalue] at h
  change eng.cachedFill c text (eng.metaKey item.1) item.2 false p = .error e at h
  unfold Engine.cachedFill at h
  rw [hsrc] at h
  by_cases hroom : item.2.room < p.length
  · rw [if_pos hroom] at h
    exact ⟨hroom, (Except.error.inj h).symm⟩
  · rw [if_neg hroom] at h
    dsimp only at h
    rw [if_neg Bool.false_ne_true] at h
    split_ifs at h

/-- The loop over the meta records gets past every item, and leaves only values with bytes to
`get`. -/
theorem read_meta_record_caches (h : w.Caches c) (eng : Engine) (item : Text × MemoryObj) :
    ∃ read, eng.read_meta_record
        (w.readRecord Engine.META_READ_BINS (eng.metaKey item.1)) item.2 = .ok read ∧
      (read = .multi_seg → ∃ p, c.value (eng.metaKey item.1) = some p ∧ p ≠ []) := by
  obtain ⟨ck, mo⟩ := item
  cases hvalue : c.value (eng.metaKey ck) with
  | none =>
    obtain ⟨-, habsent⟩ | ⟨_, r, -, -, hr, hstate, -⟩ := h.unready hvalue
    · refine ⟨.result none, ?_, nofun⟩
      unfold Engine.read_meta_record
      rw [if_pos ?_]
      rw [Ne, World.readRecord_result, show w.records (eng.metaKey ck) = none from habsent]
      exact Bool.false_ne_true
    · refine ⟨.result none, ?_, nofun⟩
      have hnot : selectBins (some Engine.META_READ_BINS) r.bins .state
          ≠ some (.str "ready") := by
        rw [selectBins_meta _ (by decide), hstate]
        simp
      rw [World.readRecord_found (show w.records (eng.metaKey ck) = some r from hr)]
      unfold Engine.read_meta_record
      rw [if_neg (not_not.mpr rfl)]
      exact if_pos hnot
  | some p =>
    obtain ⟨pl, bins, hstored, -⟩ := h.stored hvalue
    obtain ⟨r, hr, rfl⟩ := hstored.holds.found
    rw [World.readRecord_found (show w.records (eng.metaKey ck) = some r from hr)]
    dsimp only
    rw [@read_meta_record_ready eng r.bins mo _ hstored.holds.state hstored.holds.nseg]
    dsimp only [Engine.pyInt]
    split_ifs with hn
    · refine ⟨_, rfl, fun _ => ⟨p, rfl, ?_⟩⟩
      -- the empty payload is in one piece
      rintro rfl
      rw [pl.length_pieces] at hn
      exact Nat.not_lt_zero _ (hstored.covers.starts_inside fun hone => hn (by rw [hone]; rfl))
    · exact ⟨_, rfl, nofun⟩

/-- **A batched load reads the cache** for every item; it raises only where a value does not fit
in its buffer. -/
theorem load_answers (h : w.Caches c) (htorch : eng.TorchReads)
    (hraises : eng.TorchRaises) (items : List (Text × MemoryObj)) :
    ((eng.batched_get_preallocated items).run Op.perform w).1
        = .ok (items.map (eng.cachedLoad c)) ∨
      ∃ text, ∃ item ∈ items, c.Misfits eng item ∧
        ((eng.batched_get_preallocated items).run Op.perform w).1
          = .error (.connector .internal text) := by
  obtain ⟨hrun, -⟩ | ⟨e, hrun, -, hraised⟩ := @run_batch_cases eng w hraises items
  · refine .inl ?_
    rw [hrun, List.map_congr_left fun item _ => loadedAlone_eq h htorch item]
  · obtain ⟨item, hitem, hraised⟩ := hraised
    obtain ⟨read, hread, hsharded⟩ : ∃ read, eng.read_meta_record
        (w.readRecord Engine.META_READ_BINS (eng.metaKey item.1)) item.2 = .ok read ∧
        (read = .multi_seg → ∃ p, c.value (eng.metaKey item.1) = some p ∧ p ≠ []) :=
      read_meta_record_caches h eng item
    obtain herror | ⟨hmulti, herror⟩ := hraised
    · cases hread.symm.trans herror
    · cases hread.symm.trans hmulti
      obtain ⟨p, hvalue, hne⟩ := hsharded rfl
      obtain ⟨text, hget⟩ : ∃ text, ((eng.get item.1 (some item.2)).run Op.perform w).1
          = eng.cachedGet c text item.1 (some item.2) := get_answers h htorch nofun
      obtain ⟨hmisfit, rfl⟩ := cachedGet_error htorch hvalue hne (hget.symm.trans herror)
      exact .inr ⟨text, item, hitem, ⟨p, hvalue, hmisfit⟩, hrun⟩

end Reads

/-! ## A native read -/

section NativeReads

variable {w : World} {c : PayloadCache} {conn : NativeConnector} {ns set_name ck key : Text}
  {buf : Bytes} {len : ℕ}

/-- A native read of a stored payload of the length asked for. -/
theorem run_do_single_get_stored {p : Bytes} {pl : ShardPlan} {bins : Bins}
    (hkey : native_key_to_cache_engine_key key conn.dtype = .ok ck)
    (haddr : conn.Addresses ns set_name ck) (hstored : w.StoredBy ns set_name ck p pl bins)
    (hp₁ : 1 ≤ p.length) (hp : p.length < 2 ^ 32) (hbuf : p.length ≤ buf.length) :
    (conn.do_single_get key buf p.length).run Op.perform w = (.ok (splice 0 p buf), w) := by
  have hchunks : conn.payloads w ck bins = (pl.pieces p).map some := by
    by_cases hn : pl.nseg = 1
    · rw [hstored.payloads_of_one hp₁ hp hn, hstored.covers.pieces_of_one hn]
      rfl
    · unfold NativeConnector.payloads
      rw [hstored.meta_nseg_eq hp₁ hp, if_neg hn, ShardPlan.pieces, List.map_map]
      apply List.map_congr_left
      intro i hi
      exact hstored.segment_payload_eq haddr hn (List.mem_range.mp hi)
  rw [run_do_single_get hkey (by omega) hbuf (hstored.accepted haddr hp₁ hp) hchunks
    (hstored.asked_lengths_eq hp₁ hp).symm, hstored.covers.flatten_pieces]

/-- A native read that finds the meta record. -/
theorem run_do_single_get_found (hkey : native_key_to_cache_engine_key key conn.dtype = .ok ck)
    (haddr : conn.Addresses ns set_name ck) {r : Record}
    (hr : w.records (meta_key ns set_name ck) = some r) :
    (conn.do_single_get key buf len).run Op.perform w
      = (conn.get_with_record ck buf len r.bins).run Op.perform w := by
  rw [do_single_get_eq hkey, Prog.run_call, perform_get_found (by rw [haddr.meta_eq]; exact hr)]

/-- A stored meta record is ready. -/
theorem World.StoredBy.native_ready {p : Bytes} {pl : ShardPlan} {bins : Bins}
    (hstored : w.StoredBy ns set_name ck p pl bins) :
    ¬ as_record_get_str bins .state ≠ some "ready".toList := by
  rw [as_record_get_str, hstored.holds.state]
  exact fun h => h rfl

/-- A native read of another length throws before it copies. -/
theorem run_do_single_get_other {p : Bytes} {pl : ShardPlan} {bins : Bins}
    (hkey : native_key_to_cache_engine_key key conn.dtype = .ok ck)
    (haddr : conn.Addresses ns set_name ck) (hstored : w.StoredBy ns set_name ck p pl bins)
    (hp₁ : 1 ≤ p.length) (hp : p.length < 2 ^ 32) (hlen : len ≠ p.length) :
    (conn.do_single_get key buf len).run Op.perform w
      = (.error (⟨"meta record total size mismatch"⟩, buf), w) := by
  obtain ⟨r, hr, rfl⟩ := hstored.holds.found
  have htotal : int64_to_size (positive_int_bin r.bins .tot_b (size_to_int64 len)) ≠ len := by
    rw [positive_int_bin_eq hstored.tot_b hp₁, int64_to_size_of_lt (by omega)]
    exact Ne.symm hlen
  have hthrows : conn.get_with_record ck buf len r.bins
      = .raise (⟨"meta record total size mismatch"⟩, buf) := by
    unfold NativeConnector.get_with_record
    rw [if_neg hstored.native_ready]
    exact if_pos htotal
  rw [run_do_single_get_found hkey haddr hr, hthrows]
  rfl

/-- The native read of an empty payload takes the length asked for as the total. -/
theorem run_do_single_get_empty {pl : ShardPlan} {bins : Bins}
    (hkey : native_key_to_cache_engine_key key conn.dtype = .ok ck)
    (haddr : conn.Addresses ns set_name ck) (hstored : w.StoredBy ns set_name ck [] pl bins)
    (hlen : len < 2 ^ 64) :
    (conn.do_single_get key buf len).run Op.perform w
      = (if len = 0 then .ok (splice 0 [] buf)
          else .error (⟨"single-record payload size mismatch"⟩, buf), w) := by
  obtain ⟨r, hr, rfl⟩ := hstored.holds.found
  have hone : pl.nseg = 1 := by
    by_contra hn
    exact Nat.not_lt_zero _ (hstored.covers.starts_inside hn)
  have hpieces : (pl.pieces ([] : Bytes)).length = 1 := by rw [pl.length_pieces, hone]
  have htot : int64_to_size (positive_int_bin r.bins .tot_b (size_to_int64 len)) = len := by
    have hbin : positive_int_bin r.bins .tot_b (size_to_int64 len) = size_to_int64 len := by
      have hzero : as_record_get_int64 r.bins .tot_b (size_to_int64 len) = 0 := by
        rw [as_record_get_int64, hstored.tot_b]
        rfl
      simp only [positive_int_bin, hzero, gt_iff_lt, lt_irrefl, if_false]
    rw [hbin, int64_to_size_size_to_int64 hlen]
  have hnseg : int64_to_uint32 (positive_int_bin r.bins .nseg 1) = 1 := by
    have hbin := hstored.holds.nseg
    rw [hpieces] at hbin
    rw [positive_int_bin_eq hbin Nat.one_pos, int64_to_uint32_of_lt (by norm_num)]
  have hbytes : as_record_get_bytes r.bins .b = some [] := by
    rw [as_record_get_bytes, hstored.holds.inline hpieces, hstored.covers.flatten_pieces]
  rw [run_do_single_get_found hkey haddr hr]
  unfold NativeConnector.get_with_record
  rw [if_neg hstored.native_ready]
  dsimp only
  rw [htot, hnseg, if_neg (not_not.mpr rfl), if_pos rfl, hbytes]
  dsimp only [List.length_nil]
  by_cases hzero : len = 0
  · rw [if_pos hzero, if_neg (not_not.mpr hzero.symm)]
    rfl
  · rw [if_neg hzero, if_pos (Ne.symm hzero)]
    rfl

/-- A native read leaves the records as they are. -/
theorem run_do_single_get_records (hkey : native_key_to_cache_engine_key key conn.dtype = .ok ck)
    (buf : Bytes) (len : ℕ) (w : World) :
    ((conn.do_single_get key buf len).run Op.perform w).2.records = w.records := by
  have hread : ∀ k, ∀ i ∈ (Op.get k).items, IsRead i := by
    intro k i hi
    rw [List.mem_singleton.mp hi]
    trivial
  exact records_of_reads _ (do_single_get_calls hkey (hread _) (fun _ => hread _) buf len) w

/-- **A native read reads the cache**, where the value is shorter than `2^32`. -/
theorem native_get_answers (h : w.Caches c)
    (hkey : native_key_to_cache_engine_key key conn.dtype = .ok ck)
    (haddr : conn.Addresses ns set_name ck)
    (hshort : ∀ p, c.value (meta_key ns set_name ck) = some p → p.length < 2 ^ 32)
    (hbuf : len ≤ buf.length) (hlen : len < 2 ^ 64) :
    ((conn.do_single_get key buf len).run Op.perform w).1
      = c.cachedRead (meta_key ns set_name ck) buf len := by
  unfold PayloadCache.cachedRead
  cases hvalue : c.value (meta_key ns set_name ck) with
  | none =>
    obtain ⟨hnone, habsent⟩ | ⟨e, r, hentry, hmark, hr, hstate, -⟩ := h.unready hvalue
    · rw [hnone, do_single_get_eq hkey, Prog.run_call,
        perform_get_absent (by rw [haddr.meta_eq]; exact habsent)]
      rfl
    · have hunready : as_record_get_str r.bins .state ≠ some "ready".toList := by
        rw [as_record_get_str, hstate]
        simp
      rw [hentry, run_do_single_get_found hkey haddr hr]
      dsimp only
      rw [hmark]
      unfold NativeConnector.get_with_record
      rw [if_pos hunready]
      rfl
  | some p =>
    obtain ⟨pl, bins, hstored, -⟩ := h.stored hvalue
    obtain ⟨e, hentry, hp⟩ := Option.bind_eq_some_iff.mp hvalue
    have hp₂ := hshort p hvalue
    rw [hentry]
    dsimp only
    rw [hp]
    dsimp only
    by_cases hnil : p = []
    · subst hnil
      rw [run_do_single_get_empty hkey haddr hstored hlen]
      rfl
    · have hp₁ : 1 ≤ p.length := List.length_pos_of_ne_nil hnil
      by_cases heq : len = p.length
      · subst heq
        rw [run_do_single_get_stored hkey haddr hstored hp₁ hp₂ hbuf, if_pos rfl]
      · rw [run_do_single_get_other hkey haddr hstored hp₁ hp₂ heq, if_neg heq, if_neg hnil]

end NativeReads
