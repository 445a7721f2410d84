/-
# Reading back what the store holds

`World.Holds` says that the records of a logical key hold a list of pieces: a ready meta
record that names their number, and the pieces inline or in the segment records.  A
`get` without failures then hits with exactly these bytes, unless the optional CRC check
turns it into a miss (`run_get_hit`, `run_get_crc_miss`).
-/
import LmcacheAerospike.FaultFree
import LmcacheAerospike.Reader
import LmcacheAerospike.RecordInvariant

/-- The records of `ck` hold `pieces`; `bins` are the bins of the meta record. -/
structure World.Holds (w : World) (ns set_name ck : Text) (pieces : List Bytes)
    (bins : Bins) : Prop where
  found : ∃ r, w.records (meta_key ns set_name ck) = some r ∧ r.bins = bins
  state : bins .state = some (.str "ready")
  nseg : bins .nseg = some (.int pieces.length)
  inline : pieces.length = 1 → bins .b = some (.blob pieces.flatten)
  segment : pieces.length ≠ 1 → ∀ i (hi : i < pieces.length),
    ∃ r, w.records (segment_key ns set_name ck i) = some r ∧
      r.bins .b = some (.blob (pieces.get ⟨i, hi⟩))

/-- Holding pieces depends on the meta record and, when there are several, on the segments. -/
theorem World.Holds.congr {ns set_name ck : Text} {pieces : List Bytes} {bins : Bins}
    {w w' : World} (h : w.Holds ns set_name ck pieces bins)
    (hmeta : w'.records (meta_key ns set_name ck) = w.records (meta_key ns set_name ck))
    (hseg : pieces.length ≠ 1 → ∀ i, i < pieces.length →
      w'.records (segment_key ns set_name ck i) = w.records (segment_key ns set_name ck i)) :
    w'.Holds ns set_name ck pieces bins where
  found := by
    rw [hmeta]
    exact h.found
  state := h.state
  nseg := h.nseg
  inline := h.inline
  segment := fun hn i hi => by
    rw [hseg hn i hi]
    exact h.segment hn i hi

/-! ## A store that nobody writes to -/

/-- A read of one record, or a call that does not go to the server. -/
def IsRead : RecOp → Prop
  | .read _ _ | .clock | .ref_count_down => True
  | .write _ | .touch _ _ | .remove _ => False

/-- The protocol of a store that is only read: every record is one of `w`. -/
def readOnlyProtocol (w : World) : Protocol client Expiry :=
  recordProtocol (G := fun _ _ => True) faulty_unguarded
    (fun key bins => ∃ r, w.records key = some r ∧ r.bins = bins) IsRead
    fun _ _ hread => hread.elim

section ReadBack

variable {w : World} {eng : Engine} {ck : Text} {pieces : List Bytes} {bins : Bins}
  {mo : MemoryObj}

/-- The segment reads deliver the pieces in order. -/
theorem World.Holds.carries (h : w.Holds eng.cfg.ns eng.cfg.set_name ck pieces bins)
    (hn : pieces.length ≠ 1) :
    List.Forall₂ BatchRecord.Carries
      ((segment_keys eng.cfg.ns eng.cfg.set_name ck pieces.length).map (w.readRecord [.b]))
      pieces := by
  rw [List.forall₂_iff_get]
  refine ⟨by simp [segment_keys], fun i h₁ h₂ => ?_⟩
  obtain ⟨r, hr, hb⟩ := h.segment hn i h₂
  simp only [segment_keys, List.get_eq_getElem, List.getElem_map, List.getElem_range]
  rw [World.readRecord_found hr]
  exact ⟨rfl, _, rfl, by simpa [selectBins] using hb⟩

theorem run_read_payload (h : w.Holds eng.cfg.ns eng.cfg.set_name ck pieces bins)
    (hrec : eng.Receives mo pieces) :
    (eng.read_payload ck bins pieces.length mo).run Op.perform w
      = (.ok (some (mo.filledWith pieces.flatten, pieces.flatten.length)), w) := by
  have hroom : 0 + pieces.flatten.length ≤ mo.room := by
    rw [Nat.zero_add]
    exact hrec.room
  unfold Engine.read_payload
  by_cases hn : pieces.length = 1
  · rw [if_pos (by omega), h.inline hn]
    have hwrite : write_payload_into eng.frombuffer mo (.blob pieces.flatten) 0
        = .ok (mo.filledWith pieces.flatten, pieces.flatten.length) := by
      apply write_payload_fits hroom
      intro ht
      obtain ⟨piece, rfl⟩ := List.length_eq_one_iff.mp hn
      simpa using hrec.torch ht piece List.mem_cons_self
    show Prog.run _ (Prog.bind (Prog.ofExcept _) _) w = _
    rw [hwrite]
    rfl
  · rw [if_neg (by omega), Int.toNat_natCast]
    have hsegments := @write_segments_carries eng _ _ (h.carries hn) mo 0 0 hroom hrec.torch
    rw [Nat.zero_add] at hsegments
    show Prog.run _ (.call (Op.batch_read _ _) _) w = _
    rw [Prog.run_call, perform_batch_read]
    show Prog.run _ (Prog.bind (Prog.ofExcept _) _) w = _
    rw [hsegments]
    rfl

/-- `get` misses when there is no meta record. -/
theorem run_get_absent {preallocated : Option MemoryObj}
    (h : w.records (eng.metaKey ck) = none) :
    (eng.get ck preallocated).run Op.perform w = (.ok none, w) := by
  show Prog.run _ (.call (Op.get _) _) w = _
  rw [Prog.run_call, perform_get_absent h]
  rfl

/-- `get` finds the ready meta record and its receive buffer, and fills the buffer. -/
theorem run_get_found (h : w.Holds eng.cfg.ns eng.cfg.set_name ck pieces bins)
    {preallocated : Option MemoryObj} {expect_reshape : Bool}
    (hbuf : eng.receive_buffer bins preallocated = .ok (some mo, expect_reshape)) :
    (eng.get ck preallocated).run Op.perform w
      = ((eng.fill ck bins pieces.length mo expect_reshape).tryCatch
          Engine.release).run Op.perform w := by
  obtain ⟨r, hr, rfl⟩ := h.found
  show Prog.run _ (.call (Op.get _) _) w = _
  rw [Prog.run_call, perform_get_found hr]
  show Prog.run _ (eng.get_with_meta ck preallocated r.bins) w = _
  unfold Engine.get_with_meta
  rw [if_neg (not_not.mpr h.state), h.nseg]
  show Prog.run _ (Prog.bind (Prog.ofExcept (eng.receive_buffer r.bins preallocated)) _) w = _
  rw [hbuf]
  rfl

/-- **The run of `get` on a store that holds the pieces** is the end of `fill`: the check
of the CRC, and then the reshape. -/
theorem run_get_holds (h : w.Holds eng.cfg.ns eng.cfg.set_name ck pieces bins)
    {preallocated : Option MemoryObj} {expect_reshape : Bool}
    (hbuf : eng.receive_buffer bins preallocated = .ok (some mo, expect_reshape))
    (hrec : eng.Receives mo pieces) :
    (eng.get ck preallocated).run Op.perform w
      = ((eng.finish bins (mo.filledWith pieces.flatten) pieces.flatten.length
          expect_reshape).tryCatch Engine.release).run Op.perform w := by
  rw [run_get_found h hbuf, Prog.run_tryCatch, Prog.run_tryCatch]
  congr 1
  unfold Engine.fill
  rw [Prog.bind_eq, Prog.run_bind, run_read_payload h hrec]
  rfl

/-- **A read of what the store holds hits**, when the CRC check passes and the reshape, if
there is one, succeeds. -/
theorem run_get_hit (h : w.Holds eng.cfg.ns eng.cfg.set_name ck pieces bins)
    {preallocated : Option MemoryObj} {expect_reshape : Bool}
    (hbuf : eng.receive_buffer bins preallocated = .ok (some mo, expect_reshape))
    (hrec : eng.Receives mo pieces)
    (hcrc : eng.crc_matches bins (mo.filledWith pieces.flatten) pieces.flatten.length = true)
    (hshape : expect_reshape = true → ∃ shaped,
      eng.reshape (mo.filledWith pieces.flatten) pieces.flatten.length = .ok shaped ∧
        shaped.byte_array.take pieces.flatten.length
          = pieces.flatten.take mo.byte_array.length) :
    ∃ hit, (eng.get ck preallocated).run Op.perform w = (.ok (some hit), w) ∧
      hit.Fills mo pieces.flatten := by
  rw [run_get_holds h hbuf hrec, Engine.finish, hcrc, if_pos rfl]
  cases expect_reshape with
  | false => exact ⟨_, rfl, rfl, hrec.room, rfl, mo.take_filledWith _⟩
  | true =>
    obtain ⟨shaped, hshaped, htake⟩ := hshape rfl
    rw [hshaped]
    exact ⟨_, rfl, rfl, hrec.room, rfl, htake⟩

/-- A failed CRC check turns the read into a miss. -/
theorem run_get_crc_miss (h : w.Holds eng.cfg.ns eng.cfg.set_name ck pieces bins)
    {preallocated : Option MemoryObj} {expect_reshape : Bool}
    (hbuf : eng.receive_buffer bins preallocated = .ok (some mo, expect_reshape))
    (hrec : eng.Receives mo pieces)
    (hcrc : eng.crc_matches bins (mo.filledWith pieces.flatten) pieces.flatten.length
      = false) :
    ((eng.get ck preallocated).run Op.perform w).1 = .ok none := by
  rw [run_get_holds h hbuf hrec, Engine.finish, hcrc, if_neg Bool.false_ne_true]
  rfl

/-- An inline payload that torch does not read makes `get` raise. -/
theorem run_get_unreadable (h : w.Holds eng.cfg.ns eng.cfg.set_name ck pieces bins)
    (hn : pieces.length = 1) {preallocated : Option MemoryObj} {expect_reshape : Bool}
    (hbuf : eng.receive_buffer bins preallocated = .ok (some mo, expect_reshape))
    (hroom : pieces.flatten.length ≤ mo.room) (ht : mo.raw_is_tensor = true)
    {e : PyExc} (he : eng.frombuffer pieces.flatten = .error e) :
    ((eng.get ck preallocated).run Op.perform w).1 = .error e := by
  have hwrite : write_payload_into eng.frombuffer mo (.blob pieces.flatten) 0 = .error e := by
    simp only [write_payload_into]
    rw [if_neg (by omega), if_pos ht, he]
    rfl
  have hfill : (eng.fill ck bins pieces.length mo expect_reshape).run Op.perform w
      = (.error e, w) := by
    unfold Engine.fill Engine.read_payload
    rw [if_pos (by omega), h.inline hn]
    dsimp only
    rw [hwrite]
    rfl
  rw [run_get_found h hbuf, Prog.run_tryCatch, hfill]
  rfl

/-- Pieces that the buffer has no room for make `get` raise. -/
theorem run_get_overflows (h : w.Holds eng.cfg.ns eng.cfg.set_name ck pieces bins)
    {preallocated : Option MemoryObj} {expect_reshape : Bool}
    (hbuf : eng.receive_buffer bins preallocated = .ok (some mo, expect_reshape))
    (hroom : mo.room < pieces.flatten.length)
    (htorch : mo.raw_is_tensor = true → ∀ piece ∈ pieces, eng.frombuffer piece = .ok piece) :
    ∃ text, ((eng.get ck preallocated).run Op.perform w).1
      = .error (.connector .internal text) := by
  have hpayload : ∃ text, (eng.read_payload ck bins pieces.length mo).run Op.perform w
      = (.error (.connector .internal text), w) := by
    unfold Engine.read_payload
    by_cases hn : pieces.length = 1
    · have hlong : 0 + pieces.flatten.length > mo.room := by omega
      rw [if_pos (by omega), h.inline hn]
      simp only [write_payload_into]
      rw [if_pos hlong]
      exact ⟨_, rfl⟩
    · obtain ⟨text, hsegments⟩ := @write_segments_overflows eng _ _ (h.carries hn) mo 0 0
        (Nat.zero_le _) (by omega) htorch
      refine ⟨text, ?_⟩
      rw [if_neg (by omega), Int.toNat_natCast]
      show Prog.run _ (.call (Op.batch_read _ _) _) w = _
      rw [Prog.run_call, perform_batch_read]
      show Prog.run _ (Prog.bind (Prog.ofExcept _) _) w = _
      rw [hsegments]
      rfl
  obtain ⟨text, hpayload⟩ := hpayload
  have hfill : (eng.fill ck bins pieces.length mo expect_reshape).run Op.perform w
      = (.error (.connector .internal text), w) := by
    unfold Engine.fill
    rw [Prog.bind_eq, Prog.run_bind, hpayload]
    rfl
  refine ⟨text, ?_⟩
  rw [run_get_found h hbuf, Prog.run_tryCatch, hfill]
  rfl

/-- **When a read of what the store holds hits.**  The store holds the pieces of a plan of
`p`, and the buffer has room: the read hits with exactly `p` if and only if the CRC check
passes and `p` is not an empty payload that torch would have to read. -/
theorem run_get_hit_iff {pl : ShardPlan} {p : Bytes} (hcov : pl.Covers p.length)
    (h : w.Holds eng.cfg.ns eng.cfg.set_name ck (pl.pieces p) bins)
    {preallocated : Option MemoryObj} {expect_reshape : Bool}
    (hbuf : eng.receive_buffer bins preallocated = .ok (some mo, expect_reshape))
    (hroom : p.length ≤ mo.byte_array.length) (htorch : eng.TorchReads)
    (hshape : expect_reshape = true → ∃ shaped,
      eng.reshape (mo.filledWith p) p.length = .ok shaped ∧
        shaped.byte_array.take p.length = p) :
    (∃ hit w', (eng.get ck preallocated).run Op.perform w = (.ok (some hit), w') ∧
        hit.Fills mo p) ↔
      eng.crc_matches bins (mo.filledWith p) p.length = true ∧
        (mo.raw_is_tensor = true → p ≠ []) := by
  have hflat : (pl.pieces p).flatten = p := hcov.flatten_pieces
  by_cases hne : mo.raw_is_tensor = true → p ≠ []
  · have hrec := Engine.Receives.of_covers htorch hcov hroom hne
    rw [and_iff_left hne]
    constructor
    · rintro ⟨hit, w', hrun, -⟩
      by_contra hcrc
      rw [Bool.not_eq_true] at hcrc
      have hmiss := run_get_crc_miss h hbuf hrec (by rwa [hflat])
      rw [hrun] at hmiss
      cases hmiss
    · intro hcrc
      obtain ⟨hit, hrun, hfills⟩ := run_get_hit h hbuf hrec (by rwa [hflat]) (by
        rwa [hflat, List.take_of_length_le hroom])
      rw [hflat] at hfills
      exact ⟨hit, w, hrun, hfills⟩
  · -- torch would have to read the empty payload
    obtain ⟨ht, hnil⟩ := Classical.not_imp.mp hne
    rw [not_not] at hnil
    refine iff_of_false ?_ fun h => hne h.2
    rintro ⟨hit, w', hrun, -⟩
    obtain ⟨e, he⟩ := htorch.of_nil
    have hone : (pl.pieces p).length = 1 := by
      rw [pl.length_pieces]
      by_contra hn
      have hstart := hcov.starts_inside hn
      rw [hnil] at hstart
      exact Nat.not_lt_zero _ hstart
    have hraise := run_get_unreadable h hone hbuf
      (by rw [hflat]; exact hroom.trans mo.length_byte_array_le) ht (e := e)
      (by rwa [hflat, hnil])
    rw [hrun] at hraise
    cases hraise

theorem readOnly_reads (h : w.Holds eng.cfg.ns eng.cfg.set_name ck pieces bins) :
    (readOnlyProtocol w).Reads eng ck pieces where
  good_get := fun i hi => by
    rw [List.mem_singleton.mp hi]
    trivial
  good_batch_read := fun i hi => by
    obtain ⟨key, -, rfl⟩ := List.mem_map.mp hi
    trivial
  good_ref_count_down := fun i hi => by
    rw [List.mem_singleton.mp hi]
    trivial
  of_get := fun b hb _ => by
    obtain ⟨r, hr, rfl⟩ := resOk_get hb
    obtain ⟨r', hr', hbins⟩ := h.found
    obtain rfl : r = r' := Option.some.inj (hr.symm.trans hr')
    rw [hbins]
    exact ⟨h.nseg, h.inline⟩
  of_batch_read := fun hn recs hx => by
    have hrecs := resOk_batch_read hx
    rw [segment_keys, List.forall₂_map_left_iff] at hrecs
    obtain ⟨hlen, hget⟩ := List.forall₂_iff_get.mp hrecs.flip
    rw [List.length_range] at hlen
    refine List.forall₂_iff_get.mpr ⟨hlen, fun i h₁ h₂ found hfound chunk hchunk => ?_⟩
    obtain ⟨full, ⟨r, hr, rfl⟩, rfl⟩ := hget i h₁ (by rwa [List.length_range]) found hfound
    obtain ⟨r', hr', hb⟩ := h.segment hn i h₂
    rw [List.get_eq_getElem, List.getElem_range] at hr
    obtain rfl : r = r' := Option.some.inj (hr.symm.trans hr')
    exact Option.some.inj (hchunk.symm.trans hb)

/-- **Whatever a read of what the store holds returns**, it delivers the pieces: calls may
fail, but nobody writes meanwhile. -/
theorem exec_get_delivers (h : w.Holds eng.cfg.ns eng.cfg.set_name ck pieces bins)
    (heng : eng.LawfulMemory) {preallocated : Option MemoryObj} {hit : Hit} {w' : World}
    (hexec : client.Exec (eng.get ck preallocated) w (.ok (some hit)) w') :
    hit.Delivers eng preallocated pieces.flatten :=
  ((readOnlyProtocol w).exec_ok (get_safe (readOnly_reads h) heng preallocated) hexec
    fun _ r hr => ⟨r, hr, rfl⟩).2

/-! ## The check of the CRC -/

/-- The CRC check of a payload that was read whole looks at nothing but the `crc32` bin and
the part of the payload in front of the padding. -/
theorem crc_matches_take (eng : Engine) (bins : Bins) (mo : MemoryObj) (p : Bytes) :
    eng.crc_matches bins (mo.filledWith p) p.length = true ↔
      (eng.cfg.enable_crc32 = true → ∀ expected, bins .crc32 = some expected →
        Engine.pyEqInt expected (crc32 (p.take mo.byte_array.length)) = true) := by
  unfold Engine.crc_matches
  by_cases hc : eng.cfg.enable_crc32 = true
  · rw [if_pos hc, mo.take_filledWith]
    cases bins .crc32 with
    | none => simp
    | some expected => simp [hc]
  · rw [if_neg hc]
    exact iff_of_true rfl fun h => absurd h hc

/-- The CRC check of a payload that the `byte_array` has room for. -/
theorem crc_matches_iff (eng : Engine) (bins : Bins) {mo : MemoryObj} {p : Bytes}
    (hroom : p.length ≤ mo.byte_array.length) :
    eng.crc_matches bins (mo.filledWith p) p.length = true ↔
      (eng.cfg.enable_crc32 = true → ∀ expected, bins .crc32 = some expected →
        Engine.pyEqInt expected (crc32 p) = true) := by
  rw [crc_matches_take, List.take_of_length_le hroom]

@[simp] theorem pyEqInt_crc32 (p q : Bytes) :
    Engine.pyEqInt (.int (crc32 p)) (crc32 q) = true ↔ crc32 p = crc32 q := by
  simp [Engine.pyEqInt]

end ReadBack
