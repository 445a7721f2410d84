/-
# Reads of a written key are served

With a client that answers reads, every read that is begun once a key is committed is served,
whatever other members do in between: `get` fills the buffer with the payload (`get_served`), a
native read copies it (`do_single_get_served`), and the key is found present.  Conversely a read
that hits shows that the key is committed (`get_shows`, `do_single_get_shows`).
-/
import LmcacheAerospike.FleetAnswers

/-- The buffer can receive the payload: it has room for it, and when it is a tensor the payload
is not empty. -/
structure MemoryObj.Fits (mo : MemoryObj) (p : Bytes) : Prop where
  room : p.length ≤ mo.byte_array.length
  torch : mo.raw_is_tensor = true → p ≠ []

section FleetServed

/-! ## A Python `get` -/

section Get

variable {F : Fleet} {eng : Engine} {k : Text} {pl : ShardPlan} {bins : Bins} {mo : MemoryObj}
  {hagree : F.CutsAgree eng.cfg.ns eng.cfg.set_name k} {w : World}

/-- The reads of an engine are good in any state. -/
theorem answering_good_read {ns set_name : Text} {hagree : F.CutsAgree ns set_name k} {o : Op}
    (h : EngineReadCall eng (fun _ => True) o) : (answeringProtocol hagree).Good w o :=
  answering_good (fun i hi => quiet_read (h i hi)) w

/-- The pieces of a cut are read into the buffer. -/
theorem read_payload_served (hmeta : F.MetaOf eng.cfg.ns eng.cfg.set_name k pl bins)
    (hpieces : pl.nseg ≠ 1 → ∀ i < pl.nseg, F.PieceStored eng.cfg.ns eng.cfg.set_name k pl i w)
    (hrec : eng.Receives mo (pl.pieces (F.payload k))) :
    (answeringProtocol hagree).Safe
      (fun _ r => r = .ok (some (mo.filledWith (F.payload k), (F.payload k).length))) w
      (eng.read_payload k bins pl.nseg mo) := by
  have hflat := hmeta.cut.covers.flatten_pieces
  have hroom : 0 + (pl.pieces (F.payload k)).flatten.length ≤ mo.room := by
    have h := hrec.room
    omega
  unfold Engine.read_payload
  by_cases hn : pl.nseg = 1
  · rw [if_pos (by omega), hmeta.inline hn]
    have hwrite : write_payload_into eng.frombuffer mo (.blob (F.payload k)) 0
        = .ok (mo.filledWith (F.payload k), (F.payload k).length) := by
      rw [hflat] at hroom
      apply write_payload_fits hroom
      intro ht
      apply hrec.torch ht
      rw [hmeta.cut.covers.pieces_of_one hn]
      exact List.mem_singleton_self _
    show LastingProtocol.Safe _ _ _ (Prog.bind (Prog.ofExcept _) _)
    rw [hwrite]
    exact fun _ _ => rfl
  · rw [if_neg (by omega), Int.toNat_natCast]
    refine ⟨answering_good_read (engineCall_read_segments pl.nseg trivial), fun w₁ x _ hx => ?_⟩
    obtain ⟨recs, rfl, hcarries⟩ := committed_segments hmeta.cut hn (hpieces hn) hx
    have hwrite : eng.write_segments mo 0 0 recs
        = .ok (some (mo.filledWith (F.payload k), (F.payload k).length)) := by
      rw [write_segments_carries hcarries hroom hrec.torch, hflat, Nat.zero_add]
      rfl
    show LastingProtocol.Safe _ _ _ (Prog.bind (Prog.ofExcept _) _)
    rw [hwrite]
    exact fun _ _ => rfl

/-- The CRC of a committed meta record passes. -/
theorem MetaOf.crc_matches (hmeta : F.MetaOf eng.cfg.ns eng.cfg.set_name k pl bins)
    (hroom : (F.payload k).length ≤ mo.byte_array.length) :
    eng.crc_matches bins (mo.filledWith (F.payload k)) (F.payload k).length = true := by
  rw [crc_matches_iff _ _ hroom]
  intro _ expected hexpected
  rw [hmeta.crc expected hexpected, pyEqInt_crc32]

/-- **A read of a committed key fills its buffer with the payload**, whatever is written
meanwhile. -/
theorem get_served (hcommitted : KeyCommitted eng.cfg.ns eng.cfg.set_name k w)
    (htorch : eng.TorchReads) (hfits : mo.Fits (F.payload k)) :
    (answeringProtocol hagree).Safe
      (fun _ r => r = .ok (some ⟨mo.filledWith (F.payload k), mo.filledWith (F.payload k),
        (F.payload k).length⟩)) w
      (eng.get k (some mo)) := by
  refine ⟨answering_good_read (engineReadCall_single rfl (.read_meta trivial)),
    fun w₁ x _ hx => ?_⟩
  obtain ⟨pl, bins, hmeta, rfl, hpieces⟩ := committed_get hcommitted hx
  have hrec := Engine.Receives.of_covers htorch hmeta.cut.covers hfits.room hfits.torch
  show LastingProtocol.Safe _ _ _ (eng.get_with_meta k (some mo) bins)
  unfold Engine.get_with_meta
  rw [if_neg (not_not.mpr hmeta.state), hmeta.nseg]
  show LastingProtocol.Safe _ _ _ ((eng.fill k bins pl.nseg mo false).tryCatch Engine.release)
  have hfill : (answeringProtocol hagree).Safe
      (fun _ r => r = .ok (some ⟨mo.filledWith (F.payload k), mo.filledWith (F.payload k),
        (F.payload k).length⟩)) w₁
      (eng.fill k bins pl.nseg mo false) := by
    apply LastingProtocol.safe_bind _ _ _ (read_payload_served hmeta hpieces hrec)
    · intro w₂ filled _ hfilled
      cases hfilled
      show LastingProtocol.Safe _ _ _ (eng.finish _ _ _ _)
      unfold Engine.finish
      rw [MetaOf.crc_matches hmeta hfits.room, if_pos rfl]
      exact fun _ _ => rfl
    · intro w₂ e _ he
      cases he
  apply LastingProtocol.safe_tryCatch _ _ _ hfill
  · exact fun _ _ _ h => h
  · intro w₂ e _ he
    cases he

/-- **A read that hits shows that the key is committed.** -/
theorem get_shows (preallocated : Option MemoryObj) :
    (answeringProtocol hagree).Safe
      (fun w r => ∀ hit, r = .ok (some hit) → KeyCommitted eng.cfg.ns eng.cfg.set_name k w) w
      (eng.get k preallocated) := by
  refine ⟨answering_good_read (engineReadCall_single rfl (.read_meta trivial)),
    fun w₁ x _ hx => ?_⟩
  rcases x with exc | bins
  · show LastingProtocol.Safe _ _ _ (if _ then _ else _)
    split_ifs <;> exact fun _ _ _ h => by cases h
  · show LastingProtocol.Safe _ _ _ (eng.get_with_meta k preallocated bins)
    by_cases hstate : bins .state = some (.str "ready")
    · -- from here on the key is committed, whatever the read ends in
      have hcommitted := get_told hx hstate
      apply LastingProtocol.safe_of_allCalls _
        (fun w₂ (hlasts : F.Lasts _ _ k w₁ w₂) _ _ _ => hlasts.committed hcommitted)
        (fun _ _ h => answering_good_read h)
      exact (get_calls k preallocated trivial).2 (.ok bins)
    · unfold Engine.get_with_meta
      rw [if_pos hstate]
      exact fun _ _ _ h => by cases h

end Get

/-! ## Presence -/

section Presence

variable {F : Fleet} {eng : Engine} {k : Text} {hagree : F.CutsAgree eng.cfg.ns eng.cfg.set_name k}
  {w : World}

/-- A committed key is there. -/
theorem exists_served (hcommitted : KeyCommitted eng.cfg.ns eng.cfg.set_name k w) :
    (answeringProtocol hagree).Safe (fun _ r => r = .ok true) w (eng.exists_ k) := by
  refine ⟨answering_good_read (engineReadCall_single rfl (.read_meta trivial)),
    fun w₁ x _ hx => ?_⟩
  obtain ⟨r, htold, rfl⟩ := answered_single rfl id hx
  obtain ⟨pl, bins, -, rfl, -⟩ := htold.found (some [.state]) rfl hcommitted
  exact fun _ _ => rfl

/-- The count of a prefix does not end at a key that is there. -/
theorem count_prefix_found {keys : List Text} {recs : List BatchRecord}
    (h : List.Forall₂ (fun ck rec => ck = k → rec.result = AEROSPIKE_OK) keys recs) :
    keys[Engine.count_prefix recs]? ≠ some k := by
  induction h with
  | nil => simp
  | @cons ck rec keys recs hrec _ ih =>
    unfold Engine.count_prefix
    split_ifs with hresult
    · intro hck
      exact hresult (hrec (by simpa using hck))
    · rwa [List.getElem?_cons_succ]

/-- A committed key is not where the count of a prefix ends. -/
theorem batched_contains_served (hcommitted : KeyCommitted eng.cfg.ns eng.cfg.set_name k w)
    (keys : List Text) :
    (answeringProtocol hagree).Safe (fun _ r => ∃ n, r = .ok n ∧ keys[n]? ≠ some k) w
      (eng.batched_contains keys) := by
  unfold Engine.batched_contains
  split_ifs with hnil
  · subst hnil
    exact fun _ _ => ⟨0, rfl, by simp⟩
  · refine ⟨answering_good_read (engineCall_read_metas fun _ _ => trivial), fun w₁ x _ hx => ?_⟩
    obtain ⟨recs, rfl, hrecs⟩ := answered_batch hx
    rw [List.forall₂_map_left_iff] at hrecs
    refine fun _ _ => ⟨_, rfl, count_prefix_found (hrecs.imp ?_)⟩
    rintro ck rec ⟨r, htold, rfl⟩ rfl
    obtain ⟨pl, bins, -, rfl, -⟩ := htold.found (some []) rfl hcommitted
    rfl

/-- Pinning does not raise. -/
theorem pin_keys_served {ns set_name : Text} {hagree : F.CutsAgree ns set_name k}
    (keys : List Text) :
    (answeringProtocol hagree).Safe (fun _ r => r = .ok ()) w (eng.pin_keys keys) := by
  unfold Engine.pin_keys
  split_ifs with hnil
  · exact fun _ _ => rfl
  · refine ⟨answering_good (fun i hi => ?_) w, fun _ _ _ _ _ _ => rfl⟩
    simp only [Op.items, List.map_map, List.mem_map, Function.comp] at hi
    obtain ⟨ck, -, rfl⟩ := hi
    exact quiet_pin eng ck _ _

theorem batched_async_contains_served
    (hcommitted : KeyCommitted eng.cfg.ns eng.cfg.set_name k w) (keys : List Text) (pin : Bool) :
    (answeringProtocol hagree).Safe (fun _ r => ∃ n, r = .ok n ∧ keys[n]? ≠ some k) w
      (eng.batched_async_contains keys pin) := by
  apply LastingProtocol.safe_bind _ _ _ (batched_contains_served hcommitted keys)
  · rintro w₁ count _ ⟨n, hn, hkey⟩
    cases hn
    dsimp only
    split_ifs
    · apply LastingProtocol.safe_bind _ _ _ (pin_keys_served _)
      · exact fun _ _ _ _ _ _ => ⟨count, rfl, hkey⟩
      · intro w₂ e _ he
        cases he
    · exact fun _ _ => ⟨count, rfl, hkey⟩
  · rintro w₁ e _ ⟨n, hn, -⟩
    cases hn

theorem pin_served (hcommitted : KeyCommitted eng.cfg.ns eng.cfg.set_name k w) :
    (answeringProtocol hagree).Safe (fun _ r => r = .ok true) w (eng.pin k) := by
  apply LastingProtocol.safe_bind _ _ _ (exists_served hcommitted)
  · intro w₁ found _ hfound
    cases hfound
    apply LastingProtocol.safe_bind _ _ _ (pin_keys_served [k])
    · exact fun _ _ _ _ _ _ => rfl
    · intro w₂ e _ he
      cases he
  · intro w₁ e _ he
    cases he

end Presence

/-! ## A native read -/

section Native

variable {F : Fleet} {ns set_name k key : Text} {conn : NativeConnector} {pl : ShardPlan}
  {bins : Bins} {hagree : F.CutsAgree ns set_name k} {w : World}

/-- What a committed meta record says stands in a store of its own: that of the answers. -/
theorem storedBy_of_metaOf (hmeta : F.MetaOf ns set_name k pl bins)
    (hpieces : pl.nseg ≠ 1 → ∀ i < pl.nseg, F.PieceStored ns set_name k pl i w) :
    ∃ W : World, W.StoredBy ns set_name k (F.payload k) pl bins := by
  refine ⟨w.setRecord (meta_key ns set_name k) (some ⟨bins, 0, 0, none⟩),
    hmeta.storedBy ⟨_, w.setRecord_self _ _, rfl⟩ fun hne i hi => ?_⟩
  obtain ⟨r, hr, hb⟩ := hpieces hne i hi
  refine ⟨r, ?_, hb⟩
  rw [w.setRecord_of_ne (meta_key_ne_segment_key _ _ _ _ _ _ _).symm]
  exact hr

/-- **The loop over the segments of a stored cut** copies its pieces. -/
theorem get_segments_served (haddr : conn.Addresses ns set_name k)
    (hread : ∀ i, F.QuietOp ns set_name k (.read (conn.as_key (segment_user_key k i)) none))
    (hcut : F.Cut ns set_name k pl) (hn : pl.nseg ≠ 1) {len : ℕ} (hlen : len < 2 ^ 64)
    {i n offset : ℕ} (hi : i + n ≤ pl.nseg) (hoff : offset ≤ len) {buf : Bytes}
    (hbuf : len ≤ buf.length)
    (hpieces : ∀ j < pl.nseg, F.PieceStored ns set_name k pl j w)
    (hlengths : ((List.range' i n).map fun j => (slice pl.seg_b j (F.payload k)).length)
      = chunk_lengths len pl.seg_b offset n) :
    (answeringProtocol hagree).Safe
      (fun _ r => r = .ok (splice offset
        ((List.range' i n).map fun j => slice pl.seg_b j (F.payload k)).flatten buf)) w
      (conn.get_segments k len pl.seg_b offset buf i n) := by
  induction n generalizing i offset buf w with
  | zero =>
    intro _ _
    rw [List.range'_zero, List.map_nil, List.flatten_nil, splice_nil]
  | succ n ih =>
    rw [List.range'_succ, List.map_cons, chunk_lengths, List.cons.injEq] at hlengths
    obtain ⟨hsize, hlengths⟩ := hlengths
    have hkeeps : KeepsTail len buf (memcpy buf offset (slice pl.seg_b i (F.payload k))) :=
      memcpy_keepsTail hbuf (by omega)
    unfold NativeConnector.get_segments
    dsimp only
    rw [size_sub_of_le hoff hlen, ← hsize]
    -- one segment: its piece is found, of the length asked for
    have hpiece : (answeringProtocol hagree).Safe
        (fun _ r => r = .ok (true, memcpy buf offset (slice pl.seg_b i (F.payload k)))) w
        (conn.read_payload_record (segment_user_key k i) buf offset
          (slice pl.seg_b i (F.payload k)).length) := by
      refine ⟨answering_good (quiet_single rfl (hread i)) w, fun w₁ x _ hx => ?_⟩
      rw [haddr.segment_eq i] at hx
      obtain ⟨bins, rfl, hb⟩ := stored_get hcut hn (by omega) (hpieces i (by omega)) hx
      simp only [Prog.ret_bind, as_record_get_bytes, hb, if_true]
      exact fun _ _ => rfl
    apply LastingProtocol.safe_bind _ _ _ hpiece
    · rintro w₁ ⟨found, buf₁⟩ (hlasts : F.Lasts ns set_name k w w₁) heq
      cases heq
      dsimp only
      -- the next copy begins where this one ends
      rw [Nat.mod_eq_of_lt (by omega), List.range'_succ, List.map_cons, List.flatten_cons,
        ← splice_append _ _ _ _ (by omega)]
      have hbuf' := hkeeps.length_eq.symm ▸ hbuf
      refine ih (by omega) (by omega) hbuf' ?_ ?_
      · exact fun j hj => hlasts.pieces pl j hcut hn hj (hpieces j hj)
      · rw [hlengths, hsize]
    · intro w₁ e _ heq
      cases heq

/-- **A native read of a committed key copies the payload.** -/
theorem do_single_get_served (hkey : native_key_to_cache_engine_key key conn.dtype = .ok k)
    (haddr : conn.Addresses ns set_name k)
    (hmetaread : F.QuietOp ns set_name k (.read (conn.as_key (meta_user_key k)) none))
    (hread : ∀ i, F.QuietOp ns set_name k (.read (conn.as_key (segment_user_key k i)) none))
    (hcommitted : KeyCommitted ns set_name k w) (hp₁ : 1 ≤ (F.payload k).length)
    (hp : (F.payload k).length < 2 ^ 32) {buf : Bytes} (hbuf : (F.payload k).length ≤ buf.length) :
    (answeringProtocol hagree).Safe (fun _ r => r = .ok (splice 0 (F.payload k) buf)) w
      (conn.do_single_get key buf (F.payload k).length) := by
  rw [do_single_get_eq hkey]
  refine ⟨answering_good (quiet_single rfl hmetaread) w, fun w₁ x _ hx => ?_⟩
  rw [haddr.meta_eq] at hx
  obtain ⟨pl, bins, hmeta, rfl, hpieces⟩ := committed_get hcommitted hx
  obtain ⟨W, hstored⟩ := storedBy_of_metaOf hmeta hpieces
  have haccepted := hstored.accepted haddr hp₁ hp
  have hlengths := hstored.asked_lengths_eq hp₁ hp
  have hflat := hmeta.cut.covers.flatten_pieces
  dsimp only
  rw [get_with_record_eq haccepted.ready haccepted.total]
  unfold NativeConnector.asked_lengths at hlengths
  rw [hstored.meta_nseg_eq hp₁ hp, hstored.meta_seg_b_eq hp₁ hp] at hlengths ⊢
  by_cases hn : pl.nseg = 1
  · rw [if_pos hn, as_record_get_bytes, hmeta.inline hn]
    dsimp only
    rw [if_neg (not_not.mpr rfl)]
    exact fun _ _ => rfl
  · rw [if_neg hn] at hlengths ⊢
    have hsegments := @get_segments_served F ns set_name k conn pl hagree w₁ haddr hread hmeta.cut
      hn (F.payload k).length (by omega) 0 pl.nseg 0 (by omega) (Nat.zero_le _) buf hbuf (hpieces hn)
      (by rw [hlengths, ShardPlan.pieces, List.map_map, List.range_eq_range']; rfl)
    have hpieces_eq : ((List.range' 0 pl.nseg).map fun j => slice pl.seg_b j (F.payload k)).flatten
        = F.payload k := by
      rw [← List.range_eq_range']
      exact hflat
    rwa [hpieces_eq] at hsegments

/-- **A native read that returns shows that the key is committed.** -/
theorem do_single_get_shows (hkey : native_key_to_cache_engine_key key conn.dtype = .ok k)
    (haddr : conn.Addresses ns set_name k)
    (hmetaread : F.QuietOp ns set_name k (.read (conn.as_key (meta_user_key k)) none))
    (hread : ∀ i, F.QuietOp ns set_name k (.read (conn.as_key (segment_user_key k i)) none))
    (buf : Bytes) (len : ℕ) :
    (answeringProtocol hagree).Safe (fun w r => ∀ buf', r = .ok buf' → KeyCommitted ns set_name k w)
      w (conn.do_single_get key buf len) := by
  rw [do_single_get_eq hkey]
  refine ⟨answering_good (quiet_single rfl hmetaread) w, fun w₁ x _ hx => ?_⟩
  rw [haddr.meta_eq] at hx
  rcases x with err | bins
  · exact fun _ _ _ h => by cases h
  · dsimp only
    rcases hstate : bins .state with _ | state
    · unfold NativeConnector.get_with_record
      rw [as_record_get_str, hstate, if_pos (by simp)]
      exact fun _ _ _ h => by cases h
    · -- from here on the key is committed, whatever the read ends in
      have hcommitted := get_told hx hstate
      apply LastingProtocol.safe_of_allCalls _
        (fun w₂ (hlasts : F.Lasts ns set_name k w₁ w₂) _ _ _ => hlasts.committed hcommitted)
        (fun _ _ h => answering_good h _)
      have hcalls := do_single_get_calls hkey (quiet_single rfl hmetaread)
        (fun i => quiet_single rfl (hread i)) buf len
      rw [do_single_get_eq hkey] at hcalls
      exact hcalls.2 (.ok bins)

/-- The native presence check finds a committed key. -/
theorem do_single_exists_served (hkey : native_key_to_cache_engine_key key conn.dtype = .ok k)
    (haddr : conn.Addresses ns set_name k)
    (hmetaread : F.QuietOp ns set_name k (.read (conn.as_key (meta_user_key k)) (some [])))
    (hcommitted : KeyCommitted ns set_name k w) :
    (answeringProtocol hagree).Safe (fun _ r => r = .ok true) w (conn.do_single_exists key) := by
  unfold NativeConnector.do_single_exists
  rw [hkey]
  refine ⟨answering_good (quiet_single rfl hmetaread) w, fun w₁ x _ hx => ?_⟩
  rw [haddr.meta_eq] at hx
  obtain ⟨r, htold, rfl⟩ := answered_single rfl id hx
  obtain ⟨pl, bins, -, rfl, -⟩ := htold.found (some []) rfl hcommitted
  exact fun _ _ => rfl

end Native

end FleetServed
