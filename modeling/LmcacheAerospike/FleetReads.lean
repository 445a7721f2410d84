/-
# What the clients of a fleet read

A read of a key meets nothing but pieces of the cuts that the members make
(`Gathered.mix`, `NativeGathered.mix`).  When all cuts of the payload into several pieces are
one cut, these pieces spell the payload, so each of the three ways to read a key delivers it or
nothing, whatever else goes on in the store (`fleet_reads_deliver`).
-/
import LmcacheAerospike.Fleet

/-! ## Pieces of several cuts -/

namespace Fleet

variable (F : Fleet)

/-- As many pieces as the cut `pl` has, each of them the piece of its index of some cut into
several pieces; or the whole payload, when `pl` has one. -/
def Mix (ns set_name k : Text) (pl : ShardPlan) (pieces : List Bytes) : Prop :=
  if pl.nseg = 1 then pieces = [F.payload k]
  else List.Forall₂ (fun i piece => ∃ pl', F.Cut ns set_name k pl' ∧ pl'.nseg ≠ 1 ∧
    i < pl'.nseg ∧ piece = slice pl'.seg_b i (F.payload k)) (List.range pl.nseg) pieces

variable {F} {ns set_name k : Text} {pl : ShardPlan} {pieces : List Bytes}

/-- **Where all cuts agree with this one, the pieces spell the payload.** -/
theorem Mix.flatten (h : F.Mix ns set_name k pl pieces) (hcut : F.Cut ns set_name k pl)
    (hagree : ∀ pl', F.Cut ns set_name k pl' → pl.nseg ≠ 1 → pl'.nseg ≠ 1 → pl = pl') :
    pieces.flatten = F.payload k := by
  by_cases hn : pl.nseg = 1
  · rw [Mix, if_pos hn] at h
    rw [h, List.flatten_singleton]
  · rw [Mix, if_neg hn] at h
    have hpieces : pieces = pl.pieces (F.payload k) := by
      rw [ShardPlan.pieces, ← List.forall₂_eq_eq_eq, List.forall₂_map_right_iff]
      apply h.flip.imp
      rintro piece i ⟨pl', hcut', hn', -, rfl⟩
      rw [hagree pl' hcut' hn hn']
    rw [hpieces]
    exact hcut.covers.flatten_pieces

/-- No segment count of a short payload is cut off at 32 bits. -/
theorem Cut.nseg_lt (hcut : F.Cut ns set_name k pl) (hshort : (F.payload k).length < 2 ^ 32) :
    pl.nseg < 2 ^ 32 := by
  by_cases hP : 1 ≤ (F.payload k).length
  · have hle := hcut.covers.nseg_le_length hP
    omega
  · by_cases hn : pl.nseg = 1
    · rw [hn]
      decide
    · have hstarts := hcut.covers.starts_inside hn
      omega

end Fleet

section Reads

variable {F : Fleet}

/-! ## The Python reader -/

/-- What a `get` has put together is a mixture of cuts. -/
theorem Gathered.mix {eng : Engine} {k : Text} {bins : Bins} {pieces : List Bytes}
    (h : Gathered (fleetProtocol F) eng k bins pieces)
    (hmeta : (fleetProtocol F).ResOk (.get (eng.metaKey k)) (.ok bins))
    (hstate : bins .state = some (.str "ready")) :
    ∃ pl, F.Cut eng.cfg.ns eng.cfg.set_name k pl ∧ bins .nseg = some (.int pl.nseg) ∧
      bins .seg_b = some (.int pl.seg_b) ∧ F.Mix eng.cfg.ns eng.cfg.set_name k pl pieces := by
  obtain ⟨-, pl, hcut, hnseg, hseg, -, hb⟩ := (resOk_get hmeta).of_meta _ _ k rfl _ hstate
  refine ⟨pl, hcut, hnseg, hseg, ?_⟩
  cases h with
  | @inline payload hone hpayload =>
    have hn : pl.nseg = 1 := by exact_mod_cast (hone.eq_of_int hnseg).symm
    rw [hb hn] at hpayload
    cases hpayload
    rw [Fleet.Mix, if_pos hn]
  | @segments n recs pieces hnames hne hrecs hcarries =>
    obtain rfl := hnames.eq_of_int hnseg
    rw [Fleet.Mix, if_neg fun hn => hne (by rw [hn]; rfl)]
    have hread := resOk_batch_read hrecs
    rw [Int.toNat_natCast, segment_keys, List.forall₂_map_left_iff] at hread
    -- index, record and piece, side by side
    refine (List.forall₂_iff_get.mpr ⟨?_, fun i hi hi' => ?_⟩)
    · rw [hread.length_eq, hcarries.length_eq]
    · have hi₂ : i < recs.length := by rw [← hread.length_eq]; exact hi
      obtain ⟨-, bins', hrecord, hpiece⟩ := (List.forall₂_iff_get.mp hcarries).2 i hi₂ hi'
      obtain ⟨full, hfull, rfl⟩ := (List.forall₂_iff_get.mp hread).2 i hi hi₂ bins' hrecord
      obtain ⟨pl', hcut', hn', hlt, hslice⟩ := hfull.of_segment _ _ k _ rfl _ hpiece
      exact ⟨pl', hcut', hn', hlt, BinVal.blob.inj hslice⟩

/-- Every call that a client may make is one of the fleet's. -/
theorem fleet_good_python {eng : Engine} {o : Op}
    (h : EngineCall eng (fun _ => True)
      (fun ck mo => F.engines eng ∧ mo.byte_array = F.payload ck) o) :
    (fleetProtocol F).Good o :=
  fun i hi => .python eng (h i hi)

theorem fleet_getCalls (eng : Engine) (k : Text) : GetCalls eng k (fleetProtocol F).Good where
  read_meta := fleet_good_python (engineCall_single rfl (.of_read (.read_meta trivial)))
  read_segments := fun n => fleet_good_python (engineCall_of_read
    (engineCall_read_segments n trivial))
  release := @fleet_good_python F eng _ (engineCall_single rfl (.of_read .ref_count_down))

/-- What `get` may deliver: the payload, where the cuts agree. -/
theorem hitGathers_delivers {eng : Engine} {k : Text} {preallocated : Option MemoryObj}
    {hit : Hit} (h : HitGathers (fleetProtocol F) eng k preallocated hit)
    (hagree : F.CutsAgree eng.cfg.ns eng.cfg.set_name k) :
    hit.Delivers eng preallocated (F.payload k) := by
  obtain ⟨bins, mo, reshaped, pieces, hmeta, hstate, hbuffer, hpieces, hfills, -, -⟩ := h
  obtain ⟨pl, hcut, -, -, hmix⟩ := hpieces.mix hmeta hstate
  rw [hmix.flatten hcut fun pl' => hagree pl pl' hcut] at hfills
  exact ⟨bins, mo, reshaped, hbuffer, hfills⟩

/-! ## The batched load -/

/-- The buffer `mo` with the payload of `k` at its start. -/
def LoadedAs (F : Fleet) (eng : Engine) (k : Text) (mo filled : MemoryObj) : Prop :=
  F.CutsAgree eng.cfg.ns eng.cfg.set_name k → (F.payload k).length ≤ mo.room ∧
    filled = mo.filledWith (F.payload k)

/-- An inline payload that is loaded is the payload of its key. -/
theorem read_inline_loaded {eng : Engine} (heng : eng.LawfulMemory) {bins : Bins} {k : Text}
    {mo filled : MemoryObj}
    (hread : eng.read_inline bins (.blob (F.payload k)) mo = some filled) :
    (F.payload k).length ≤ mo.room ∧ filled = mo.filledWith (F.payload k) := by
  unfold Engine.read_inline at hread
  cases hw : write_payload_into eng.frombuffer mo (.blob (F.payload k)) 0 with
  | error e =>
    rw [hw] at hread
    cases hread
  | ok written =>
    obtain ⟨filled', total⟩ := written
    obtain ⟨-, hroom, rfl⟩ := write_payload_ok heng.copiesBytes hw
    rw [hw] at hread
    dsimp only at hread
    split_ifs at hread
    cases hread
    exact ⟨by omega, rfl⟩

/-- An inline payload that the batched load has read is that of its key. -/
theorem read_meta_record_loaded {eng : Engine} (heng : eng.LawfulMemory) {k : Text}
    {rec : BatchRecord} {mo filled : MemoryObj}
    (hrec : ∀ bins, rec.record = some bins →
      ReadOf (FleetRecord F) (eng.metaKey k) (some Engine.META_READ_BINS) bins)
    (h : eng.read_meta_record rec mo = .ok (.result (some filled))) :
    LoadedAs F eng k mo filled := by
  intro hagree
  unfold Engine.read_meta_record at h
  by_cases hres : rec.result = AEROSPIKE_OK
  · rw [if_neg (not_not.mpr hres)] at h
    cases hrecord : rec.record with
    | none =>
      rw [hrecord] at h
      cases h
    | some bins =>
      obtain ⟨full, hfull, rfl⟩ := hrec bins hrecord
      rw [hrecord] at h
      dsimp only at h
      have hbins : ∀ n ∈ Engine.META_READ_BINS,
          selectBins (some Engine.META_READ_BINS) full n = full n := fun n hn => if_pos hn
      rw [hbins .state (by decide), hbins .nseg (by decide), hbins .b (by decide)] at h
      by_cases hstate : full .state = some (.str "ready")
      · obtain ⟨-, pl, hcut, hnseg, -, -, hb⟩ := hfull.of_meta _ _ k rfl _ hstate
        rw [if_neg (not_not.mpr hstate), hnseg] at h
        by_cases hn : pl.nseg = 1
        · rw [hn, hb hn] at h
          exact read_inline_loaded heng (MetaRead.result.inj (Except.ok.inj h))
        · have hne : (pl.nseg : ℤ) ≠ 1 := by exact_mod_cast hn
          simp only [Engine.pyInt, if_pos hne] at h
          cases h
      · rw [if_pos hstate] at h
        cases h
  · rw [if_pos hres] at h
    cases h

theorem fleet_loads {eng : Engine} (heng : eng.LawfulMemory) :
    (fleetProtocol F).Loads eng (LoadedAs F eng) where
  good_metas := fun items => fleet_good_python (engineCall_of_read (by
    rw [show (items.map fun item => eng.metaKey item.1)
      = (items.map Prod.fst).map eng.metaKey by rw [List.map_map]; rfl]
    exact engineCall_read_metas fun _ _ => trivial))
  of_metas := fun items recs hx => by
    have hrecs := resOk_batch_read hx
    rw [List.forall₂_map_left_iff] at hrecs
    exact hrecs.imp fun item rec hrec filled hread => read_meta_record_loaded heng hrec hread
  of_get := fun ck mo => by
    refine Protocol.safe_mono _ (fun r hr hit heq hagree => ?_) _
      (get_gathers (fleet_getCalls eng ck) heng (some mo))
    obtain ⟨bins, mo', reshaped, pieces, hmeta, hstate, hbuffer, hpieces, hfills, -, hmo⟩ :=
      hr hit heq
    obtain ⟨pl, hcut, -, -, hmix⟩ := hpieces.mix hmeta hstate
    rw [hmix.flatten hcut fun pl' => hagree pl pl' hcut] at hfills
    cases hbuffer
    rw [hmo rfl]
    exact ⟨hfills.room, hfills.filled⟩

/-! ## The native reader -/

theorem fleet_good_native {conn : NativeConnector} {key ck : Text} (hconn : F.connectors conn)
    (hkey : F.NativeKey conn key ck) {o : Op}
    (h : NativeCall conn ck (fun p => p = F.payload ck) o) : (fleetProtocol F).Good o :=
  fun i hi => .native conn key ck hconn hkey (h i hi)

theorem fleet_nativeReads {conn : NativeConnector} {key ck : Text} (hconn : F.connectors conn)
    (hkey : F.NativeKey conn key ck) : NativeReadsGood (fleetProtocol F) conn ck where
  read_meta := fleet_good_native hconn hkey (nativeCall_single rfl .read_meta)
  read_segment := fun _ => fleet_good_native hconn hkey (nativeCall_single rfl .read_segment)

/-- What a native read has met in a meta record that it has accepted. -/
structure NativeMetaOf (F : Fleet) (conn : NativeConnector) (ck : Text) (pl : ShardPlan)
    (rec : Bins) (len : ℕ) : Prop where
  cut : F.Cut conn.ns conn.set_name ck pl
  nseg : meta_nseg rec = pl.nseg
  seg_b : 1 ≤ (F.payload ck).length → meta_seg_b rec len = pl.seg_b
  total : 1 ≤ (F.payload ck).length → len = (F.payload ck).length
  inline : pl.nseg = 1 → as_record_get_bytes rec .b = some (F.payload ck)

theorem nativeMetaOf_of_resOk {conn : NativeConnector} {key ck : Text}
    (hconn : F.connectors conn) (hkey : F.NativeKey conn key ck) {rec : Bins} {len : ℕ}
    (hmeta : (fleetProtocol F).ResOk (.get (conn.as_key (meta_user_key ck))) (.ok rec))
    (hready : as_record_get_str rec .state = some "ready".toList)
    (htotal : meta_total_b rec len = len) : ∃ pl, NativeMetaOf F conn ck pl rec len := by
  have hshort := hkey.short
  obtain ⟨state, hstate⟩ : ∃ state, rec .state = some state := by
    cases hs : rec .state with
    | none =>
      rw [as_record_get_str, hs] at hready
      cases hready
    | some state => exact ⟨state, rfl⟩
  obtain ⟨-, pl, hcut, hnseg, hseg, htot, hb⟩ :=
    (resOk_get hmeta).of_meta _ _ ck (hkey.addresses hconn).meta_eq state hstate
  have hle := hcut.covers.seg_b_le_length
  refine ⟨pl, hcut, ?_, fun hP => ?_, fun hP => ?_, fun hn => ?_⟩
  · rw [meta_nseg, positive_int_bin_eq hnseg hcut.covers.nseg_pos,
      int64_to_uint32_of_lt (hcut.nseg_lt hshort)]
  · rw [meta_seg_b, positive_int_bin_eq hseg (hcut.covers.seg_b_pos hP),
      int64_to_size_of_lt (by omega)]
  · rw [← htotal, meta_total_b, positive_int_bin_eq htot hP, int64_to_size_of_lt (by omega)]
  · rw [as_record_get_bytes, hb hn]

/-- What a native read has copied is a mixture of cuts. -/
theorem NativeGathered.mix {conn : NativeConnector} {key ck : Text} (hconn : F.connectors conn)
    (hkey : F.NativeKey conn key ck) {rec : Bins} {chunks : List Bytes} {len : ℕ}
    {pl : ShardPlan} (h : NativeGathered (fleetProtocol F) conn ck rec chunks)
    (hmeta : NativeMetaOf F conn ck pl rec len) :
    F.Mix conn.ns conn.set_name ck pl chunks := by
  rw [NativeGathered, hmeta.nseg] at h
  rw [Fleet.Mix]
  by_cases hn : pl.nseg = 1
  · rw [if_pos hn] at h ⊢
    obtain ⟨payload, hpayload, rfl⟩ := h
    rw [hmeta.inline hn] at hpayload
    cases hpayload
    rfl
  · rw [if_neg hn] at h ⊢
    apply h.imp
    rintro i chunk ⟨bins, hres, hchunk⟩
    have hbin : bins .b = some (.blob chunk) := by
      rw [as_record_get_bytes] at hchunk
      split at hchunk
      · cases hchunk
        assumption
      · cases hchunk
    obtain ⟨pl', hcut', hn', hlt, hslice⟩ :=
      (resOk_get hres).of_segment _ _ ck i ((hkey.addresses hconn).segment_eq i) _ hbin
    exact ⟨pl', hcut', hn', hlt, BinVal.blob.inj hslice⟩

/-- The length asked for, when the pieces spell the payload. -/
theorem NativeMetaOf.len_eq {conn : NativeConnector} {ck : Text} {pl : ShardPlan} {rec : Bins}
    {chunks : List Bytes} {len : ℕ} (hmeta : NativeMetaOf F conn ck pl rec len)
    (hmix : F.Mix conn.ns conn.set_name ck pl chunks)
    (hlengths : chunks.map List.length = NativeConnector.asked_lengths rec len) :
    len = (F.payload ck).length := by
  by_cases hP : 1 ≤ (F.payload ck).length
  · exact hmeta.total hP
  · -- an empty payload is in one piece, whose length is compared
    have hn : pl.nseg = 1 := by
      by_contra hn
      have hstarts := hmeta.cut.covers.starts_inside hn
      omega
    rw [Fleet.Mix, if_pos hn] at hmix
    rw [hmix, NativeConnector.asked_lengths, hmeta.nseg, if_pos hn, List.map_singleton,
      List.singleton_inj] at hlengths
    exact hlengths.symm

/-- The payload at the start of the buffer, and its length asked for. -/
def CopiedAs (F : Fleet) (conn : NativeConnector) (ck : Text) (buf : Bytes) (len : ℕ)
    (buf' : Bytes) : Prop :=
  F.CutsAgree conn.ns conn.set_name ck → len = (F.payload ck).length ∧
    buf' = splice 0 (F.payload ck) buf

/-- A native read that gathers the pieces of a key has copied its payload. -/
theorem nativeGetGathers_copied {conn : NativeConnector} {key ck : Text}
    (hconn : F.connectors conn) (hkey : F.NativeKey conn key ck) {buf buf' : Bytes} {len : ℕ}
    (h : NativeGetGathers (fleetProtocol F) conn ck len buf (.ok buf')) :
    CopiedAs F conn ck buf len buf' := by
  intro hagree
  obtain ⟨rec, chunks, hres, hready, htotal, hchunks, hlengths, rfl⟩ := h buf' rfl
  obtain ⟨pl, hmeta⟩ := nativeMetaOf_of_resOk hconn hkey hres hready htotal
  have hmix := hchunks.mix hconn hkey hmeta
  have hspells := hmix.flatten hmeta.cut fun pl' => hagree pl pl' hmeta.cut
  exact ⟨hmeta.len_eq hmix hlengths, by rw [hspells]⟩

/-! ## Any interleaving -/

/-- What an operation may end in. -/
def FleetPost (F : Fleet) : FleetOp → Except FleetExc FleetResult → Prop
  | .python (.get eng k preallocated), r => ∀ hit, r = .ok (.python (.got (some hit))) →
      HitGathers (fleetProtocol F) eng k preallocated hit
  | .load eng items, r => ∀ results, r = .ok (.loaded results) →
      ResultsOf (LoadedAs F eng) items results
  | .native_get conn key buf len, r => ∀ buf' ck, r = .ok (.copied buf') →
      native_key_to_cache_engine_key key conn.dtype = .ok ck →
      F.connectors conn ∧ F.NativeKey conn key ck ∧
        NativeGetGathers (fleetProtocol F) conn ck len buf (.ok buf')
  | _, _ => True

/-- The calls of a native operation on a key, when it makes any. -/
theorem fleet_native_calls {conn : NativeConnector} {key : Text} {α : Type}
    (hwithin : F.NativeWithin conn key) {p : NativeM α}
    (hread : ∀ ck, native_key_to_cache_engine_key key conn.dtype = .ok ck →
      p.AllCalls (NativeCall conn ck fun q => q = F.payload ck))
    (hunread : ∀ e, native_key_to_cache_engine_key key conn.dtype = .error e →
      p.AllCalls (fleetProtocol F).Good) : p.AllCalls (fleetProtocol F).Good := by
  cases hkey : native_key_to_cache_engine_key key conn.dtype with
  | error e => exact hunread e hkey
  | ok ck =>
    exact Prog.allCalls_mono (fun _ ho => fleet_good_native hwithin.1 (hwithin.2 ck hkey) ho) _
      (hread ck hkey)

/-- A native operation whose result is not looked at. -/
theorem fleet_safe_calls {α E : Type} {Post : Except FleetExc FleetResult → Prop}
    (hpost : ∀ r, Post r) (f : E → FleetExc) (g : α → FleetResult) (p : Prog Op Op.Res E α)
    (hp : p.AllCalls (fleetProtocol F).Good) :
    (fleetProtocol F).Safe Post ((p.mapError f).bind fun a => .ret (g a)) :=
  Protocol.safe_of_allCalls _ hpost _
    (Prog.allCalls_bind _ _ (Prog.allCalls_mapError f _ hp) fun _ => trivial)

/-- `get` delivers the payload or misses. -/
theorem fleet_safe_get {eng : Engine} (heng : eng.LawfulMemory) (k : Text)
    (preallocated : Option MemoryObj) :
    (fleetProtocol F).Safe (FleetPost F (.python (.get eng k preallocated)))
      (FleetOp.prog (.python (.get eng k preallocated))) := by
  have hget : (fleetProtocol F).Safe (fun r => ∀ hit, r = .ok (.got (some hit)) →
      HitGathers (fleetProtocol F) eng k preallocated hit)
      ((ClientOp.prog (.get eng k preallocated)).mapError FleetExc.python) := by
    apply Protocol.safe_mapError
    refine Protocol.safe_bind _ _ _ (get_gathers (fleet_getCalls eng k) heng preallocated)
      (fun r hr hit heq => ?_) fun e _ hit heq => ?_
    · cases heq
      exact hr hit rfl
    · cases heq
  refine Protocol.safe_bind _ _ _ hget (fun r hr hit heq => ?_) fun e _ hit heq => ?_
  · cases heq
    exact hr hit rfl
  · cases heq

/-- A load fills each buffer with the payload of its key, or leaves it out. -/
theorem fleet_safe_load {eng : Engine} (heng : eng.LawfulMemory)
    (items : List (Text × MemoryObj)) :
    (fleetProtocol F).Safe (FleetPost F (.load eng items)) (FleetOp.prog (.load eng items)) := by
  have hload : (fleetProtocol F).Safe
      (fun r => ∀ results, r = .ok results → ResultsOf (LoadedAs F eng) items results)
      ((eng.batched_get_preallocated items).mapError FleetExc.python) := by
    apply Protocol.safe_mapError
    refine Protocol.safe_mono _ (fun r hr results heq => ?_) _
      (batched_get_preallocated_safe (fleet_loads heng) items)
    cases r with
    | error e => cases heq
    | ok results' =>
      cases heq
      exact hr results rfl
  refine Protocol.safe_bind _ _ _ hload (fun results hr results' heq => ?_)
    fun e _ results heq => ?_
  · cases heq
    exact hr results rfl
  · cases heq

/-- A native read that returns has copied the payload. -/
theorem fleet_safe_native_get {conn : NativeConnector} {key : Text} {buf : Bytes} {len : ℕ}
    (hop : F.Allows (.native_get conn key buf len)) :
    (fleetProtocol F).Safe (FleetPost F (.native_get conn key buf len))
      (FleetOp.prog (.native_get conn key buf len)) := by
  obtain ⟨⟨hconn, hkeys⟩, hbuf, hlen⟩ := hop
  cases hkey : native_key_to_cache_engine_key key conn.dtype with
  | error e =>
    have hraise : conn.do_single_get key buf len = .raise (e, buf) := by
      unfold NativeConnector.do_single_get
      rw [hkey]
      rfl
    show Protocol.Safe _ _ (Prog.bind (Prog.mapError _ (conn.do_single_get key buf len)) _)
    rw [hraise]
    intro buf' ck heq
    cases heq
  | ok ck =>
    have hget : (fleetProtocol F).Safe
        (fun r => ∀ buf', r = .ok buf' →
          NativeGetGathers (fleetProtocol F) conn ck len buf (.ok buf'))
        ((conn.do_single_get key buf len).mapError fun e => FleetExc.native e.1) := by
      apply Protocol.safe_mapError
      refine Protocol.safe_mono _ (fun r hr buf' heq => ?_) _
        (do_single_get_gathers (fleet_nativeReads hconn (hkeys ck hkey)) hkey hlen hbuf)
      cases r with
      | error e => cases heq
      | ok buf'' =>
        cases heq
        exact hr
    refine Protocol.safe_bind _ _ _ hget (fun r hr buf' ck' heq hkey' => ?_)
      fun e _ buf' ck' heq => ?_
    · cases heq
      rw [hkey] at hkey'
      cases hkey'
      exact ⟨hconn, hkeys ck hkey, hr r rfl⟩
    · cases heq

/-- **Every allowed operation is safe.** -/
theorem fleet_safe (op : FleetOp) (hop : F.Allows op) :
    (fleetProtocol F).Safe (FleetPost F op) op.prog := by
  cases op with
  | python op =>
    obtain ⟨heng, hwithin⟩ := hop
    cases op with
    | get eng k preallocated => exact fleet_safe_get heng k preallocated
    | _ =>
      exact fleet_safe_calls (fun _ => trivial) _ _ _
        (Prog.allCalls_mono (fun _ ho => fleet_good_python ho) _ (ClientOp.prog_calls _ hwithin))
  | load eng items => exact fleet_safe_load hop items
  | native_get conn key buf len => exact fleet_safe_native_get hop
  | native_set conn key buf =>
    refine fleet_safe_calls (fun _ => trivial) _ (fun _ => .done) _
      (fleet_native_calls hop.1 (fun ck hkey => do_single_set_calls hkey (hop.2 ck hkey))
        fun e hkey => ?_)
    unfold NativeConnector.do_single_set
    rw [hkey]
    trivial
  | native_exists conn key =>
    refine fleet_safe_calls (fun _ => trivial) _ (fun r => .flag r) _
      (fleet_native_calls hop (fun ck hkey => do_single_exists_calls hkey
        (nativeCall_single rfl .read_meta)) fun e hkey => ?_)
    unfold NativeConnector.do_single_exists
    rw [hkey]
    trivial
  | native_delete conn key =>
    refine fleet_safe_calls (fun _ => trivial) _ (fun r => .flag r) _
      (fleet_native_calls hop (fun ck hkey => do_single_delete_calls hkey) fun e hkey => ?_)
    unfold NativeConnector.do_single_delete
    rw [hkey]
    trivial

/-- **What the clients of a fleet read.**  Any number of Python and native clients share a store,
each with limits of its own, under any interleaving of the single-record steps of their calls,
any call failing, any client stopping and any record expiring at any moment.  For every key
whose payload the writers cut into several pieces in one way only, an object that `get`
returns has received exactly the payload, a buffer that a batched load reports holds it, and a
native read that returns was asked for its length and has copied it. -/
theorem fleet_reads_deliver (F : Fleet) (c : Pool client FleetOp FleetExc FleetResult)
    (hc : Pool.Reachable Expiry FleetOp.prog F.Allows World.empty c) :
    (∀ eng k preallocated hit, F.CutsAgree eng.cfg.ns eng.cfg.set_name k →
      Thread.at (.python (.get eng k preallocated)) (.ret (.python (.got (some hit))))
        ∈ c.threads →
      hit.Delivers eng preallocated (F.payload k)) ∧
    (∀ eng items results, Thread.at (.load eng items) (.ret (.loaded results)) ∈ c.threads →
      ResultsOf (LoadedAs F eng) items results) ∧
    ∀ conn key ck buf len buf', native_key_to_cache_engine_key key conn.dtype = .ok ck →
      F.CutsAgree conn.ns conn.set_name ck →
      Thread.at (.native_get conn key buf len) (.ret (.copied buf')) ∈ c.threads →
      len = (F.payload ck).length ∧ buf' = splice 0 (F.payload ck) buf := by
  have hthreads := ((fleetProtocol F).reachable fleet_safe (World.each_empty _) hc).2
  refine ⟨fun eng k preallocated hit hagree hhit => ?_, fun eng items results hload => ?_,
    fun conn key ck buf len buf' hkey hagree hcopied => ?_⟩
  · exact hitGathers_delivers (hthreads _ hhit hit rfl) hagree
  · exact hthreads _ hload results rfl
  · obtain ⟨hconn, hnative, hgathers⟩ := hthreads _ hcopied buf' ck rfl hkey
    exact nativeGetGathers_copied hconn hnative hgathers hagree

/-- A fleet of one engine and one connector, both with segments of two bytes, that write three
bytes under every key. -/
def smallFleet : Fleet where
  payload := fun _ => [1, 2, 3]
  engines := fun eng => eng = fakeEngine (.ofTarget 2) true true 8
  connectors := fun conn => conn = nativeExample
  lawful := by
    rintro eng rfl
    exact fakeEngine_lawful _ _ _ _
  names := by
    rintro conn rfl
    exact ⟨by decide, by decide⟩

theorem smallFleet_cutsAgree (ns set_name k : Text) : smallFleet.CutsAgree ns set_name k := by
  have hcut : ∀ pl, smallFleet.Cut ns set_name k pl → pl = ⟨2, 2⟩ := by
    intro pl h
    cases h with
    | python eng heng _ _ hplan =>
      cases heng
      have hsmall : (ResolvedLimits.ofTarget 2).shard_plan 3 = .ok ⟨2, 2⟩ := rfl
      exact Except.ok.inj (hplan.symm.trans hsmall)
    | native conn key hconn _ _ _ hplan =>
      cases hconn
      have hsmall : nativeExample.limits.plan 3 = .ok ⟨2, 2⟩ := by decide
      exact Except.ok.inj (hplan.symm.trans hsmall)
  intro pl pl' h h' _ _
  rw [hcut pl h, hcut pl' h']

/-- The native key of the example stands for its key. -/
theorem smallFleet_within : smallFleet.NativeWithin nativeExample "m@01000000@0a".toList := by
  have hck : native_key_to_cache_engine_key "m@01000000@0a".toList nativeExample.dtype
      = .ok "m@1@0@a@bfloat16".toList := by decide
  refine ⟨rfl, fun ck hkey => ⟨hkey, ?_, show ([1, 2, 3] : Bytes).length < 2 ^ 32 by decide⟩⟩
  rw [hck] at hkey
  cases hkey
  decide

/-- One such run: a native write, and then a `get`, a batched load and a native read. -/
theorem fleet_reads_deliver_small :
    ∃ (c : Pool client FleetOp FleetExc FleetResult) (hit : Hit),
      Pool.Reachable Expiry FleetOp.prog smallFleet.Allows World.empty c ∧
      hit.Delivers (fakeEngine (.ofTarget 2) true true 8) none [1, 2, 3] ∧
      ResultsOf (LoadedAs smallFleet (fakeEngine (.ofTarget 2) true true 8))
        [("m@1@0@a@bfloat16".toList, { byte_array := [0, 0, 0, 9] })]
        [some { byte_array := [1, 2, 3, 9] }] ∧
      [1, 2, 3, 9] = splice 0 [1, 2, 3] [0, 0, 0, 9] := by
  have hlawful := fakeEngine_lawful (.ofTarget 2) true true 8
  have hset : smallFleet.Allows
      (.native_set nativeExample "m@01000000@0a".toList [1, 2, 3]) :=
    ⟨smallFleet_within, fun _ _ => rfl⟩
  have hget : smallFleet.Allows (.python (.get (fakeEngine (.ofTarget 2) true true 8)
      "m@1@0@a@bfloat16".toList none)) := ⟨hlawful, trivial⟩
  have hload : smallFleet.Allows (.load (fakeEngine (.ofTarget 2) true true 8)
      [("m@1@0@a@bfloat16".toList, { byte_array := [0, 0, 0, 9] })]) := hlawful
  have hread : smallFleet.Allows
      (.native_get nativeExample "m@01000000@0a".toList [0, 0, 0, 9] 3) :=
    ⟨smallFleet_within, by decide, by decide⟩
  have hstart : Pool.Reachable Expiry FleetOp.prog smallFleet.Allows World.empty
      (⟨World.empty, []⟩ : Pool client FleetOp FleetExc FleetResult) :=
    Relation.ReflTransGen.refl
  have hrun := Pool.reachable_exec (Pool.reachable_exec (Pool.reachable_exec
    (Pool.reachable_exec hstart _ hset (exec_run_perform _ _)) _ hget (exec_run_perform _ _))
    _ hload (exec_run_perform _ _)) _ hread (exec_run_perform _ _)
  obtain ⟨hgets, hloads, hnatives⟩ := fleet_reads_deliver smallFleet _ hrun
  have hagree := smallFleet_cutsAgree
  have hcopied := hnatives nativeExample "m@01000000@0a".toList "m@1@0@a@bfloat16".toList
    [0, 0, 0, 9] 3 [1, 2, 3, 9] (by decide) (hagree _ _ _) List.mem_cons_self
  have hloaded := hloads _ _ [some { byte_array := [1, 2, 3, 9] }]
    (List.mem_cons_of_mem _ List.mem_cons_self)
  have hgot := hgets (fakeEngine (.ofTarget 2) true true 8) "m@1@0@a@bfloat16".toList none _
    (hagree _ _ _) (List.mem_cons_of_mem _ (List.mem_cons_of_mem _ List.mem_cons_self))
  exact ⟨_, _, hrun, hgot, hloaded, hcopied.2⟩

end Reads
