/-
# One record format for both implementations

The native connector and the Python engine cut payloads with different planners and check
different things when they read.  Both leave records of one format (`World.Stored`), and
both read every record of that format (`Stored.python_reads`, `StoredBy.native_reads`), so
either reads what either has written (`one_record_format`).
-/
import Mathlib.Data.List.TakeWhile
import LmcacheAerospike.NativeReads
import LmcacheAerospike.RoundTrip

/-! ## The arithmetic of the native planner -/

/-- Rounding up in `size_t`, when nothing wraps. -/
theorem size_ceilDiv {a b : ℕ} (hb : 0 < b) (h : a + b < 2 ^ 64) :
    size_sub ((a + b) % 2 ^ 64) 1 / b = a ⌈/⌉ b := by
  rw [Nat.mod_eq_of_lt h, size_sub_of_le (by omega) h, Nat.ceilDiv_eq_add_pred_div]

/-- A number is at most itself rounded up to a number of pieces. -/
theorem ceilDiv_le_self (P : ℕ) {t : ℕ} (ht : 0 < t) : P ⌈/⌉ t ≤ P := by
  rw [ceilDiv_le_iff_le_mul ht]
  exact Nat.le_mul_of_pos_left P ht

/-- **A native plan covers its payload**, and fits the integers that the record stores. -/
theorem native_plan_covers {l : NativeLimits} {P : ℕ} {pl : ShardPlan} (hP : P < 2 ^ 32)
    (h : l.plan P = .ok pl) : pl.Covers P := by
  have htarget := l.target_pos
  have hle := l.target_le
  have hthreshold := l.threshold_eq
  unfold NativeLimits.plan at h
  split_ifs at h with hsingle
  · cases h
    exact covers_single P
  · -- the payload is longer than the target
    have hlong : l.target_segment_bytes < P := by
      by_contra hshort
      exact hsingle ⟨by omega, by omega⟩
    obtain ⟨hpos, -, hstarts⟩ := even_cut P l.target_segment_bytes (by omega) htarget
    have hn : P ⌈/⌉ l.target_segment_bytes ≤ P := ceilDiv_le_self P htarget
    have hnseg : to_uint32 (size_sub ((P + l.target_segment_bytes) % 2 ^ 64) 1
        / l.target_segment_bytes) = P ⌈/⌉ l.target_segment_bytes := by
      rw [size_ceilDiv htarget (by omega), to_uint32]
      omega
    dsimp only at h
    rw [hnseg, size_ceilDiv hpos (by omega)] at h
    split_ifs at h
    cases h
    exact ⟨hpos, rfl, fun _ => hstarts⟩

namespace ShardPlan

variable {pl : ShardPlan} {P : ℕ}

/-- A plan of a payload that has bytes has no more pieces than it has bytes. -/
theorem Covers.nseg_le_length (h : pl.Covers P) (hP : 1 ≤ P) : pl.nseg ≤ P := by
  by_cases hn : pl.nseg = 1
  · omega
  · have hstarts := h.starts_inside hn
    have hpos : 0 < pl.seg_b := by
      by_contra hzero
      have hend := h.reaches_end
      rw [show pl.seg_b = 0 by omega] at hend
      omega
    have hmul : pl.nseg - 1 ≤ (pl.nseg - 1) * pl.seg_b := Nat.le_mul_of_pos_right _ hpos
    omega

theorem Covers.seg_b_le_length (h : pl.Covers P) : pl.seg_b ≤ P := by
  rw [h.even]
  exact ceilDiv_le_self P h.nseg_pos

theorem Covers.seg_b_pos (h : pl.Covers P) (hP : 1 ≤ P) : 1 ≤ pl.seg_b := by
  by_contra hzero
  have hend := h.reaches_end
  rw [show pl.seg_b = 0 by omega] at hend
  omega

/-- The only piece is the payload. -/
theorem Covers.pieces_of_one {p : Bytes} (h : pl.Covers p.length) (hn : pl.nseg = 1) :
    pl.pieces p = [p] := by
  obtain ⟨piece, hpiece⟩ : ∃ piece, pl.pieces p = [piece] :=
    List.length_eq_one_iff.mp (by rwa [pl.length_pieces])
  have hflatten := h.flatten_pieces
  rw [hpiece, List.flatten_singleton] at hflatten
  rw [hpiece, hflatten]

end ShardPlan

/-! ## The format -/

/-- **The records of `ck` hold `p` in the shared format**: a ready meta record with the
plan, the length and the inline payload or the segments of exactly the planned sizes, and
no CRC of anything else. -/
def World.Stored (w : World) (ns set_name ck : Text) (p : Bytes) : Prop :=
  ∃ (pl : ShardPlan) (bins : Bins), pl.Covers p.length ∧
    w.Holds ns set_name ck (pl.pieces p) bins ∧
    bins .seg_b = some (.int pl.seg_b) ∧ bins .tot_b = some (.int p.length) ∧
    ∀ v, bins .crc32 = some v → v = .int (crc32 p)

/-- The records of `ck` hold `p` in the pieces of the plan `pl`. -/
structure World.StoredBy (w : World) (ns set_name ck : Text) (p : Bytes) (pl : ShardPlan)
    (bins : Bins) : Prop where
  covers : pl.Covers p.length
  holds : w.Holds ns set_name ck (pl.pieces p) bins
  seg_b : bins .seg_b = some (.int pl.seg_b)
  tot_b : bins .tot_b = some (.int p.length)

/-- The connector addresses the records that the engine addresses: the same namespace, set
and user keys. -/
structure NativeConnector.Addresses (conn : NativeConnector) (ns set_name ck : Text) :
    Prop where
  meta_eq : conn.as_key (meta_user_key ck) = meta_key ns set_name ck
  segment_eq : ∀ i, conn.as_key (segment_user_key ck i) = segment_key ns set_name ck i

theorem c_str_of_notMem {s : Text} (h : '\x00' ∉ s) : c_str s = s := by
  rw [c_str, List.takeWhile_eq_self_iff]
  intro c hc
  rw [decide_eq_true_iff]
  rintro rfl
  exact h hc

/-- It does so for texts without NUL characters. -/
theorem addresses_of_notMem {conn : NativeConnector} {ck : Text} (hns : '\x00' ∉ conn.ns)
    (hset : '\x00' ∉ conn.set_name) (hck : '\x00' ∉ ck) :
    conn.Addresses conn.ns conn.set_name ck where
  meta_eq := by
    rw [NativeConnector.as_key, c_str_of_notMem hns, c_str_of_notMem hset, c_str_of_notMem]
    · rfl
    · intro hmem
      rcases List.mem_append.mp hmem with hm | hm
      · exact hck hm
      · exact absurd hm (by decide)
  segment_eq := fun i => by
    rw [NativeConnector.as_key, c_str_of_notMem hns, c_str_of_notMem hset, c_str_of_notMem]
    · rfl
    · intro hmem
      rcases List.mem_append.mp hmem with hm | hm
      · rcases List.mem_append.mp hm with hm | hm
        · exact hck hm
        · exact absurd hm (by decide)
      · exact notMem_toDigits_ten (by decide) i hm

/-! ## What the native writer leaves -/

section NativeWriter

variable {conn : NativeConnector} {ns set_name ck : Text} {p : Bytes} {w w' : World}

/-- The write of segment `i`. -/
def NativeConnector.native_segment_write (conn : NativeConnector) (ck : Text) (pl : ShardPlan)
    (p : Bytes) (i : ℕ) : Write :=
  conn.payload_write (segment_user_key ck i) (p.drop (i * pl.seg_b % 2 ^ 64))
    (min pl.seg_b (size_sub p.length (i * pl.seg_b % 2 ^ 64)))

theorem exec_put_payload_record {user_key : Text} {buf : Bytes} {len : ℕ}
    (h : client.Exec (conn.put_payload_record user_key buf len) w (.ok ()) w') :
    w' = w.applyWrite (conn.payload_write user_key buf len) := by
  obtain ⟨x, w₁, hout, hrest⟩ := h
  cases x with
  | ok u =>
    obtain ⟨-, rfl⟩ := hrest
    exact outcome_put_ok hout
  | error err => cases hrest.1

theorem exec_put_meta_record {user_key : Text} {pl : ShardPlan} {total : ℕ}
    {inline_buf : Option Bytes}
    (h : client.Exec (conn.put_meta_record user_key pl total inline_buf) w (.ok ()) w') :
    ∃ now, w' = w.applyWrite (conn.native_meta_write user_key pl total inline_buf now) := by
  obtain ⟨now, w₁, htime, hrest⟩ := h
  obtain rfl := outcome_time htime
  obtain ⟨x, w₂, hout, hrest⟩ := hrest
  cases x with
  | ok u =>
    obtain ⟨-, rfl⟩ := hrest
    exact ⟨now, outcome_put_ok hout⟩
  | error err => cases hrest.1

/-- The loop of the writer has performed the segment writes in order. -/
theorem exec_set_segments {pl : ShardPlan} {i n : ℕ}
    (h : client.Exec (conn.set_segments ck pl p p.length i n) w (.ok ()) w') :
    w' = ((List.range' i n).map (conn.native_segment_write ck pl p)).foldl World.applyWrite w := by
  induction n generalizing i w with
  | zero =>
    obtain ⟨-, rfl⟩ := h
    rfl
  | succ n ih =>
    rcases (Device.exec_bind ..).mp h with ⟨u, w₁, hput, hrest⟩ | ⟨e, -, he⟩
    · obtain rfl := exec_put_payload_record hput
      exact ih hrest
    · cases he

theorem native_segment_write_b (pl : ShardPlan) (i t : ℕ) (old : Option Record) :
    ((conn.native_segment_write ck pl p i).applyTo t old).bins .b
      = some (.blob ((p.drop (i * pl.seg_b % 2 ^ 64)).take
          (to_uint32 (min pl.seg_b (size_sub p.length (i * pl.seg_b % 2 ^ 64)))))) := by
  rw [applyTo_bins]
  show Function.update (oldBins old) BinName.b (some _) BinName.b = _
  rw [Function.update_self]

/-- The payload of a segment write is the slice of its index. -/
theorem native_segment_slice {pl : ShardPlan} {i : ℕ} (hcov : pl.Covers p.length)
    (hp : p.length < 2 ^ 32) (hn : pl.nseg ≠ 1) (hi : i < pl.nseg) :
    (p.drop (i * pl.seg_b % 2 ^ 64)).take
        (to_uint32 (min pl.seg_b (size_sub p.length (i * pl.seg_b % 2 ^ 64))))
      = slice pl.seg_b i p := by
  have hstart := hcov.start_lt hn hi
  have hseg := hcov.seg_b_le_length
  rw [Nat.mod_eq_of_lt (by omega), size_sub_of_le (by omega) (by omega), to_uint32,
    Nat.mod_eq_of_lt (by omega), slice, ← List.length_drop, List.take_eq_take_iff]
  omega

variable (conn) in
/-- The bins of a meta record after a native write: those that it does not write keep their
old values. -/
theorem native_meta_write_bins (user_key : Text) (pl : ShardPlan) (total : ℕ)
    (inline_buf : Option Bytes) (now t : ℕ) (old : Option Record) (n : BinName) :
    ((conn.native_meta_write user_key pl total inline_buf now).applyTo t old).bins n
      = match n with
        | .ver => some (.int 1)
        | .state => some (.str "ready")
        | .nseg => some (.int pl.nseg)
        | .seg_b => some (.int (size_to_int64 pl.seg_b))
        | .tot_b => some (.int (size_to_int64 total))
        | .created_at => some (.int now)
        | .pin => some (.bool false)
        | .b => match inline_buf with
          | some buf => some (.blob (buf.take (to_uint32 total)))
          | none => oldBins old .b
        | .md => oldBins old .md
        | .crc32 => oldBins old .crc32
        | .other name => oldBins old (.other name) := by
  rw [applyTo_bins]
  cases inline_buf <;> cases n <;>
    simp [NativeConnector.native_meta_write, mergeBins, Function.update]

/-- The segments are written to different keys. -/
theorem native_segment_keys (haddr : conn.Addresses ns set_name ck) (pl : ShardPlan) (j : ℕ) :
    ((List.range' 0 j).map (conn.native_segment_write ck pl p)).map Write.key
      = (List.range j).map (segment_key ns set_name ck) := by
  rw [List.map_map, ← List.range_eq_range']
  apply List.map_congr_left
  intro i _
  exact haddr.segment_eq i

/-- What the first `j` segment writes leave: their slices, and all other records as they
were. -/
theorem native_segments_written (haddr : conn.Addresses ns set_name ck) {pl : ShardPlan}
    (hcov : pl.Covers p.length) (hp : p.length < 2 ^ 32) (hn : pl.nseg ≠ 1) {j : ℕ}
    (hj : j ≤ pl.nseg) {w₁ : World}
    (hw : w₁ = ((List.range' 0 j).map (conn.native_segment_write ck pl p)).foldl
      World.applyWrite w) :
    (∀ k, k ∉ (List.range j).map (segment_key ns set_name ck) → w₁.records k = w.records k) ∧
      ∀ i, i < j → ∃ r, w₁.records (segment_key ns set_name ck i) = some r ∧
        r.bins .b = some (.blob (slice pl.seg_b i p)) := by
  subst hw
  constructor
  · intro k hk
    apply foldl_applyWrite_of_notMem
    rwa [native_segment_keys haddr]
  · intro i hi
    have hnodup : (((List.range' 0 j).map
        (conn.native_segment_write ck pl p)).map Write.key).Nodup := by
      rw [native_segment_keys haddr]
      exact List.nodup_range.map fun i j hij => (segment_key_inj hij).2
    have hwrite : conn.native_segment_write ck pl p i
        ∈ (List.range' 0 j).map (conn.native_segment_write ck pl p) :=
      List.mem_map_of_mem (List.mem_range'_1.mpr ⟨Nat.zero_le i, by omega⟩)
    have hrec := foldl_applyWrite_of_mem _ w hnodup hwrite
    rw [show (conn.native_segment_write ck pl p i).key = _ from haddr.segment_eq i] at hrec
    refine ⟨_, hrec, ?_⟩
    rw [native_segment_write_b, native_segment_slice hcov hp hn (by omega)]

theorem meta_key_notMem (ns set_name ck ns' set_name' ck' : Text) (j : ℕ) :
    meta_key ns set_name ck ∉ (List.range j).map (segment_key ns' set_name' ck') := by
  intro hmem
  obtain ⟨i, -, hi⟩ := List.mem_map.mp hmem
  exact meta_key_ne_segment_key _ _ _ _ _ _ _ hi.symm

/-- A write whose key is read and whose payload is planned. -/
theorem do_single_set_planned {key : Text} {pl : ShardPlan}
    (hkey : native_key_to_cache_engine_key key conn.dtype = .ok ck)
    (hplan : conn.limits.plan p.length = .ok pl) :
    conn.do_single_set key p = if pl.nseg = 1
      then conn.put_meta_record (meta_user_key ck) pl p.length (some p)
      else (conn.set_segments ck pl p p.length 0 pl.nseg).bind fun _ =>
        conn.put_meta_record (meta_user_key ck) pl p.length none := by
  unfold NativeConnector.do_single_set
  dsimp only
  rw [hkey, hplan]
  rfl

/-- What a completed native write has done before and with its meta write. -/
theorem exec_set_ok (haddr : conn.Addresses ns set_name ck) {key : Text}
    (hkey : native_key_to_cache_engine_key key conn.dtype = .ok ck) (hp : p.length < 2 ^ 32)
    (h : client.Exec (conn.do_single_set key p) w (.ok ()) w') :
    ∃ (pl : ShardPlan) (now : ℕ) (w₁ : World) (inline_buf : Option Bytes),
      pl.Covers p.length ∧
      w₁.records (meta_key ns set_name ck) = w.records (meta_key ns set_name ck) ∧
      w' = w₁.applyWrite
        (conn.native_meta_write (meta_user_key ck) pl p.length inline_buf now) ∧
      (pl.nseg = 1 → inline_buf = some p) ∧
      (pl.nseg ≠ 1 → ∀ i, i < pl.nseg → ∃ r,
        w₁.records (segment_key ns set_name ck i) = some r ∧
          r.bins .b = some (.blob (slice pl.seg_b i p))) := by
  cases hplan : conn.limits.plan p.length with
  | error e =>
    unfold NativeConnector.do_single_set at h
    dsimp only at h
    rw [hkey, hplan] at h
    cases h.1
  | ok pl =>
    have hcov := native_plan_covers hp hplan
    rw [do_single_set_planned hkey hplan] at h
    by_cases hn : pl.nseg = 1
    · rw [if_pos hn] at h
      obtain ⟨now, hw⟩ := exec_put_meta_record h
      exact ⟨pl, now, w, some p, hcov, rfl, hw, fun _ => rfl, fun hne => absurd hn hne⟩
    · rw [if_neg hn] at h
      rcases (Device.exec_bind ..).mp h with ⟨u, w₁, hsegments, hmeta⟩ | ⟨e, -, he⟩
      · obtain ⟨hold, hwritten⟩ :=
          native_segments_written haddr hcov hp hn (Nat.le_refl _) (exec_set_segments hsegments)
        obtain ⟨now, hw⟩ := exec_put_meta_record hmeta
        exact ⟨pl, now, w₁, none, hcov, hold _ (meta_key_notMem _ _ _ _ _ _ _), hw,
          fun hone => absurd hone hn, fun _ => hwritten⟩
      · cases he

/-- A meta write over the pieces that it names leaves the payload stored; a CRC that the meta
record had is still there. -/
theorem storedBy_of_meta_write (haddr : conn.Addresses ns set_name ck) (hp : p.length < 2 ^ 32)
    {pl : ShardPlan} (hcov : pl.Covers p.length) {inline_buf : Option Bytes} (now : ℕ)
    (hinline : pl.nseg = 1 → inline_buf = some p)
    (hsegments : pl.nseg ≠ 1 → ∀ i, i < pl.nseg → ∃ r,
      w.records (segment_key ns set_name ck i) = some r ∧
        r.bins .b = some (.blob (slice pl.seg_b i p))) :
    ∃ bins, (w.applyWrite
        (conn.native_meta_write (meta_user_key ck) pl p.length inline_buf now)).StoredBy
          ns set_name ck p pl bins ∧
      bins .crc32 = oldBins (w.records (meta_key ns set_name ck)) .crc32 ∧
      bins .md = oldBins (w.records (meta_key ns set_name ck)) .md := by
  have hkeyeq : (conn.native_meta_write (meta_user_key ck) pl p.length inline_buf now).key
      = meta_key ns set_name ck := haddr.meta_eq
  have hbins := native_meta_write_bins conn (meta_user_key ck) pl p.length
    inline_buf now w.now (w.records (meta_key ns set_name ck))
  have hseg := hcov.seg_b_le_length
  refine ⟨_, ⟨hcov, ⟨⟨_, ?_, rfl⟩, hbins .state, ?_, fun hn => ?_, fun hn i hi => ?_⟩, ?_, ?_⟩, ?_⟩
  · rw [← hkeyeq, World.applyWrite_self]
  · rw [pl.length_pieces]
    exact hbins .nseg
  · rw [pl.length_pieces] at hn
    rw [hcov.flatten_pieces]
    refine (hbins .b).trans ?_
    rw [hinline hn]
    dsimp only
    rw [to_uint32, Nat.mod_eq_of_lt hp, List.take_length]
  · rw [pl.length_pieces] at hn hi
    obtain ⟨r, hr, hb⟩ := hsegments hn i hi
    refine ⟨r, ?_, ?_⟩
    · rw [World.applyWrite_of_ne _ fun heq => ?_, hr]
      rw [hkeyeq] at heq
      exact meta_key_ne_segment_key _ _ _ _ _ _ _ heq.symm
    · simp only [ShardPlan.pieces, List.get_eq_getElem, List.getElem_map, List.getElem_range]
      exact hb
  · refine (hbins .seg_b).trans ?_
    dsimp only
    rw [size_to_int64_of_lt (by omega)]
  · refine (hbins .tot_b).trans ?_
    dsimp only
    rw [size_to_int64_of_lt (by omega)]
  · exact ⟨hbins .crc32, hbins .md⟩

/-- **A completed native write** has left its pieces and a meta record that names them; a CRC
that the meta record had is still there. -/
theorem exec_set_storedBy (haddr : conn.Addresses ns set_name ck) {key : Text}
    (hkey : native_key_to_cache_engine_key key conn.dtype = .ok ck) (hp : p.length < 2 ^ 32)
    (h : client.Exec (conn.do_single_set key p) w (.ok ()) w') :
    ∃ pl bins, w'.StoredBy ns set_name ck p pl bins ∧
      bins .crc32 = oldBins (w.records (meta_key ns set_name ck)) .crc32 := by
  obtain ⟨pl, now, w₁, inline_buf, hcov, hold, rfl, hinline, hsegments⟩ :=
    exec_set_ok haddr hkey hp h
  obtain ⟨bins, hstored, hcrc, -⟩ :=
    storedBy_of_meta_write haddr hp hcov now hinline hsegments
  exact ⟨pl, bins, hstored, by rw [hcrc, hold]⟩

/-- After a completed native write the records hold the payload in the shared format, when
the meta record had no CRC of anything else. -/
theorem exec_set_stored (haddr : conn.Addresses ns set_name ck) {key : Text}
    (hkey : native_key_to_cache_engine_key key conn.dtype = .ok ck) (hp : p.length < 2 ^ 32)
    (hcrc : ∀ r v, w.records (meta_key ns set_name ck) = some r → r.bins .crc32 = some v →
      v = .int (crc32 p))
    (h : client.Exec (conn.do_single_set key p) w (.ok ()) w') :
    w'.Stored ns set_name ck p := by
  obtain ⟨pl, bins, hstored, hold⟩ := exec_set_storedBy haddr hkey hp h
  refine ⟨pl, bins, hstored.covers, hstored.holds, hstored.seg_b, hstored.tot_b, fun v hv => ?_⟩
  rw [hold] at hv
  cases hr : w.records (meta_key ns set_name ck) with
  | none =>
    rw [hr] at hv
    cases hv
  | some r =>
    rw [hr] at hv
    exact hcrc r v hr hv

end NativeWriter

/-! ## What the Python writer leaves -/

/-- After a completed Python write the records hold the payload in the shared format. -/
theorem exec_put_stored {eng : Engine} {ck : Text} {mo : MemoryObj} {pinned : Bool}
    {w w' : World}
    (hcrc : ∀ r v, w.records (eng.metaKey ck) = some r → r.bins .crc32 = some v →
      v = .int (crc32 mo.byte_array))
    (h : client.Exec (eng.put ck mo pinned) w (.ok ()) w') :
    w'.Stored eng.cfg.ns eng.cfg.set_name ck mo.byte_array := by
  obtain ⟨pl, now, hplan, hdone⟩ := exec_put_ok h
  have hcov := plan_covers _ _ _ _ _ _ hplan
  refine ⟨pl, _, hcov, hdone.holds hcov, meta_write_bins mo pl pinned now .seg_b,
    meta_write_bins mo pl pinned now .tot_b, fun v hv => ?_⟩
  have hbin : (if eng.cfg.enable_crc32 then some (.int (crc32 mo.byte_array))
      else oldBins (w.records (eng.metaKey ck)) .crc32) = some v :=
    (meta_write_bins mo pl pinned now .crc32).symm.trans hv
  split_ifs at hbin
  · cases hbin
    rfl
  · cases hr : w.records (eng.metaKey ck) with
    | none =>
      rw [hr] at hbin
      cases hbin
    | some r =>
      rw [hr] at hbin
      exact hcrc r v hr hbin

/-! ## The readers -/

section Readers

variable {ns set_name ck : Text} {p : Bytes} {w : World}

/-- **The Python reader** delivers what is stored. -/
theorem World.Stored.python_reads {eng : Engine}
    (h : w.Stored eng.cfg.ns eng.cfg.set_name ck p) (htorch : eng.TorchReads)
    (hp : 1 ≤ p.length) {buf : MemoryObj} (hbuf : buf.byte_array.length = p.length) :
    ∃ hit w', (eng.get ck (some buf)).run Op.perform w = (.ok (some hit), w') ∧
      hit.Fills buf p ∧ hit.filled.byte_array = p := by
  obtain ⟨pl, bins, hcov, hholds, -, -, hcrc⟩ := h
  have hne : p ≠ [] := List.length_pos_iff.mp hp
  have hmatch : eng.crc_matches bins (buf.filledWith p) p.length = true := by
    rw [crc_matches_iff _ _ (le_of_eq hbuf.symm)]
    intro _ v hv
    rw [hcrc v hv, pyEqInt_crc32]
  have hreceive : eng.receive_buffer bins (some buf) = .ok (some buf, false) := rfl
  obtain ⟨hit, w', hrun, hfills⟩ := (run_get_hit_iff hcov hholds hreceive (le_of_eq hbuf.symm)
    htorch fun h => by cases h).mpr ⟨hmatch, fun _ => hne⟩
  refine ⟨hit, w', hrun, hfills, ?_⟩
  rw [hfills.filled, MemoryObj.filledWith_of_fits (le_of_eq hbuf.symm)]
  show splice 0 p buf.byte_array = p
  rw [splice_zero, List.drop_of_length_le (by omega), List.append_nil]

/-- The lengths that the loop asks for are those of the slices. -/
theorem chunk_lengths_eq_slices (p : Bytes) (s i n : ℕ) :
    chunk_lengths p.length s (min (i * s) p.length) n
      = (List.range' i n).map fun j => (slice s j p).length := by
  induction n generalizing i with
  | zero => rfl
  | succ n ih =>
    have hmul : (i + 1) * s = i * s + s := by ring
    have hslice := length_slice s i p
    have hlength : min s (p.length - min (i * s) p.length) = (slice s i p).length := by omega
    have hnext : min (i * s) p.length + (slice s i p).length = min ((i + 1) * s) p.length := by
      omega
    rw [chunk_lengths, hlength, hnext, ih, List.range'_succ, List.map_cons]

/-- A positive bin is read as it is, whatever the fallback. -/
theorem positive_int_bin_eq {bins : Bins} {bin : BinName} {n : ℕ}
    (h : bins bin = some (.int n)) (hn : 1 ≤ n) (fallback : ℤ) :
    positive_int_bin bins bin fallback = n := by
  have hpos : (n : ℤ) > 0 := by omega
  rw [positive_int_bin, as_record_get_int64, h]
  exact if_pos hpos

namespace World.StoredBy

variable {conn : NativeConnector} {pl : ShardPlan} {bins : Bins}

theorem meta_nseg_eq (h : w.StoredBy ns set_name ck p pl bins) (hp₁ : 1 ≤ p.length)
    (hp : p.length < 2 ^ 32) : meta_nseg bins = pl.nseg := by
  have hle := h.covers.nseg_le_length hp₁
  have hbin := h.holds.nseg
  rw [pl.length_pieces] at hbin
  rw [meta_nseg, positive_int_bin_eq hbin h.covers.nseg_pos, int64_to_uint32_of_lt (by omega)]

theorem meta_seg_b_eq (h : w.StoredBy ns set_name ck p pl bins) (hp₁ : 1 ≤ p.length)
    (hp : p.length < 2 ^ 32) : meta_seg_b bins p.length = pl.seg_b := by
  have hle := h.covers.seg_b_le_length
  rw [meta_seg_b, positive_int_bin_eq h.seg_b (h.covers.seg_b_pos hp₁),
    int64_to_size_of_lt (by omega)]

/-- The native reader accepts the meta record, whatever the segments hold. -/
theorem accepted (h : w.StoredBy ns set_name ck p pl bins)
    (haddr : conn.Addresses ns set_name ck) (hp₁ : 1 ≤ p.length) (hp : p.length < 2 ^ 32) :
    conn.MetaAccepted w ck p.length bins where
  found := by
    rw [haddr.meta_eq]
    exact h.holds.found
  ready := by
    rw [as_record_get_str, h.holds.state]
    rfl
  total := by
    rw [meta_total_b, positive_int_bin_eq h.tot_b hp₁, int64_to_size_of_lt (by omega)]

/-- It asks for pieces of the lengths of the cut. -/
theorem asked_lengths_eq (h : w.StoredBy ns set_name ck p pl bins) (hp₁ : 1 ≤ p.length)
    (hp : p.length < 2 ^ 32) :
    NativeConnector.asked_lengths bins p.length = (pl.pieces p).map List.length := by
  unfold NativeConnector.asked_lengths
  rw [h.meta_nseg_eq hp₁ hp, h.meta_seg_b_eq hp₁ hp]
  by_cases hn : pl.nseg = 1
  · rw [if_pos hn, h.covers.pieces_of_one hn]
    rfl
  · have hslices := chunk_lengths_eq_slices p pl.seg_b 0 pl.nseg
    rw [Nat.zero_mul, Nat.zero_min] at hslices
    rw [if_neg hn, hslices, ShardPlan.pieces, List.map_map, List.range_eq_range']
    rfl

theorem payloads_of_one (h : w.StoredBy ns set_name ck p pl bins) (hp₁ : 1 ≤ p.length)
    (hp : p.length < 2 ^ 32) (hn : pl.nseg = 1) (w' : World) :
    conn.payloads w' ck bins = [some p] := by
  unfold NativeConnector.payloads
  rw [h.meta_nseg_eq hp₁ hp, if_pos hn, as_record_get_bytes,
    h.holds.inline (by rwa [pl.length_pieces]), h.covers.flatten_pieces]

theorem segment_payload_eq (h : w.StoredBy ns set_name ck p pl bins)
    (haddr : conn.Addresses ns set_name ck) (hn : pl.nseg ≠ 1) {i : ℕ} (hi : i < pl.nseg) :
    conn.segment_payload w ck i = some (slice pl.seg_b i p) := by
  obtain ⟨r', hr', hb⟩ := h.holds.segment (by rwa [pl.length_pieces]) i
    (by rwa [pl.length_pieces])
  rw [NativeConnector.segment_payload, haddr.segment_eq i, hr', Option.bind_some,
    as_record_get_bytes, hb]
  simp only [ShardPlan.pieces, List.get_eq_getElem, List.getElem_map, List.getElem_range]

/-- **The native reader** delivers what is stored. -/
theorem native_reads (h : w.StoredBy ns set_name ck p pl bins)
    (haddr : conn.Addresses ns set_name ck) {key : Text}
    (hkey : native_key_to_cache_engine_key key conn.dtype = .ok ck) (hp₁ : 1 ≤ p.length)
    (hp : p.length < 2 ^ 32) {buf : Bytes} (hbuf : buf.length = p.length) :
    (conn.do_single_get key buf p.length).run Op.perform w = (.ok p, w) := by
  have hchunks : conn.payloads w ck bins = (pl.pieces p).map some := by
    by_cases hn : pl.nseg = 1
    · rw [h.payloads_of_one hp₁ hp hn, h.covers.pieces_of_one hn]
      rfl
    · unfold NativeConnector.payloads
      rw [h.meta_nseg_eq hp₁ hp, if_neg hn, ShardPlan.pieces, List.map_map]
      apply List.map_congr_left
      intro i hi
      exact h.segment_payload_eq haddr hn (List.mem_range.mp hi)
  rw [run_do_single_get hkey (by omega) (le_of_eq hbuf.symm) (h.accepted haddr hp₁ hp) hchunks
    (h.asked_lengths_eq hp₁ hp).symm, h.covers.flatten_pieces, splice_zero,
    List.drop_of_length_le (by omega), List.append_nil]

end World.StoredBy

end Readers

/-! ## Every history of completed writes -/

/-- A completed write of `p`, by either implementation and with any limits. -/
inductive CompletedWrite (ns set_name ck : Text) (p : Bytes) (w w' : World) : Prop
  | python (eng : Engine) (mo : MemoryObj) (pinned : Bool) : eng.cfg.ns = ns →
      eng.cfg.set_name = set_name → mo.byte_array = p →
      client.Exec (eng.put ck mo pinned) w (.ok ()) w' → CompletedWrite ns set_name ck p w w'
  | native (conn : NativeConnector) (key : Text) : conn.Addresses ns set_name ck →
      native_key_to_cache_engine_key key conn.dtype = .ok ck →
      client.Exec (conn.do_single_set key p) w (.ok ()) w' → CompletedWrite ns set_name ck p w w'

/-- No bin of the meta record but `pin` has a value that it did not have before: what other
keys' operations, removals, expiry, touches and pins do to it, and writers that stopped before
their meta write. -/
def NoNewMetaValue (ns set_name ck : Text) (w w' : World) : Prop :=
  ∀ r' n v, w'.records (meta_key ns set_name ck) = some r' → n ≠ .pin → r'.bins n = some v →
    ∃ r, w.records (meta_key ns set_name ck) = some r ∧ r.bins n = some v

/-- The store after completed writes of `p` under a key that had no meta record, with anything
in between that brings no other value into the meta record. -/
inductive WrittenWith (ns set_name ck : Text) (p : Bytes) : World → Prop
  | start {w : World} : w.records (meta_key ns set_name ck) = none →
      WrittenWith ns set_name ck p w
  | write {w w' : World} : WrittenWith ns set_name ck p w →
      CompletedWrite ns set_name ck p w w' → WrittenWith ns set_name ck p w'
  | other {w w' : World} : WrittenWith ns set_name ck p w →
      NoNewMetaValue ns set_name ck w w' → WrittenWith ns set_name ck p w'

section Histories

variable {ns set_name ck : Text} {p : Bytes} {w w' : World}

/-- The meta record has no CRC of anything but `p`. -/
def CrcOf (ns set_name ck : Text) (p : Bytes) (w : World) : Prop :=
  ∀ r v, w.records (meta_key ns set_name ck) = some r → r.bins .crc32 = some v →
    v = .int (crc32 p)

theorem World.Stored.crcOf (h : w.Stored ns set_name ck p) : CrcOf ns set_name ck p w := by
  intro r v hr hv
  obtain ⟨pl, bins, -, hholds, -, -, hcrc⟩ := h
  obtain ⟨r', hr', rfl⟩ := hholds.found
  obtain rfl : r = r' := Option.some.inj (hr.symm.trans hr')
  exact hcrc v hv

/-- **The step lemma**: a completed write stores the payload. -/
theorem CompletedWrite.stored (hp : p.length < 2 ^ 32) (hcrc : CrcOf ns set_name ck p w)
    (h : CompletedWrite ns set_name ck p w w') : w'.Stored ns set_name ck p := by
  cases h with
  | python eng mo pinned hns hset hmo hput =>
    subst hns hset hmo
    exact exec_put_stored hcrc hput
  | native conn key haddr hkey hset => exact exec_set_stored haddr hkey hp hcrc hset

/-- **The run lemma**: no earlier write has left another CRC. -/
theorem WrittenWith.crcOf (hp : p.length < 2 ^ 32) (h : WrittenWith ns set_name ck p w) :
    CrcOf ns set_name ck p w := by
  induction h with
  | start hmeta =>
    intro r v hr _
    rw [hmeta] at hr
    cases hr
  | write _ hwrite ih => exact (hwrite.stored hp ih).crcOf
  | other _ hother ih =>
    intro r' v hr' hv
    obtain ⟨r, hr, hv⟩ := hother r' .crc32 v hr' (by decide) hv
    exact ih r v hr hv

/-- **One record format.**  After a completed write of `p` by either implementation, over
any history of completed writes of `p`, both readers deliver exactly `p`: a Python `get`
with a preallocated buffer of its length, and a native `do_single_get` of its length. -/
theorem one_record_format (ns set_name ck : Text) (p : Bytes) (hp₁ : 1 ≤ p.length)
    (hp : p.length < 2 ^ 32) (w w' : World) (hprior : WrittenWith ns set_name ck p w)
    (hwrite : CompletedWrite ns set_name ck p w w') :
    (∀ (eng : Engine) (buf : MemoryObj), eng.cfg.ns = ns → eng.cfg.set_name = set_name →
      eng.TorchReads → buf.byte_array.length = p.length →
      ∃ hit w'', (eng.get ck (some buf)).run Op.perform w' = (.ok (some hit), w'') ∧
        hit.Fills buf p ∧ hit.filled.byte_array = p) ∧
    ∀ (conn : NativeConnector) (key : Text) (buf : Bytes), conn.Addresses ns set_name ck →
      native_key_to_cache_engine_key key conn.dtype = .ok ck → buf.length = p.length →
      (conn.do_single_get key buf p.length).run Op.perform w' = (.ok p, w') := by
  have hstored := hwrite.stored hp (hprior.crcOf hp)
  constructor
  · rintro eng buf rfl rfl htorch hbuf
    exact hstored.python_reads htorch hp₁ hbuf
  · intro conn key buf haddr hkey hbuf
    obtain ⟨pl, bins, hcov, hholds, hseg, htot, -⟩ := hstored
    exact World.StoredBy.native_reads ⟨hcov, hholds, hseg, htot⟩ haddr hkey hp₁ hp hbuf

end Histories

/-- A Python put in one record, with a CRC, and then a native write in two segments: both
readers deliver the three bytes. -/
theorem one_record_format_native_over_python :
    ∃ w w' hit w'', WrittenWith "lmcache".toList "kv_chunks".toList
        "m@1@0@a@bfloat16".toList [1, 2, 3] w ∧
      client.Exec (nativeExample.do_single_set "m@01000000@0a".toList [1, 2, 3]) w (.ok ()) w' ∧
      ((fakeEngine (.ofTarget 9) true true 8).get "m@1@0@a@bfloat16".toList
        (some { byte_array := [0, 0, 0] })).run Op.perform w' = (.ok (some hit), w'') ∧
      hit.filled.byte_array = [1, 2, 3] ∧
      (nativeExample.do_single_get "m@01000000@0a".toList [0, 0, 0] 3).run Op.perform w'
        = (.ok [1, 2, 3], w') := by
  have hkey : native_key_to_cache_engine_key "m@01000000@0a".toList "bfloat16".toList
      = .ok "m@1@0@a@bfloat16".toList := by decide
  have haddr : nativeExample.Addresses "lmcache".toList "kv_chunks".toList
      "m@1@0@a@bfloat16".toList := addresses_of_notMem (by decide) (by decide) (by decide)
  have hstart : WrittenWith "lmcache".toList "kv_chunks".toList "m@1@0@a@bfloat16".toList
      [1, 2, 3] World.empty := .start rfl
  have hput : client.Exec ((fakeEngine (.ofTarget 9) true true 8).put
      "m@1@0@a@bfloat16".toList { byte_array := [1, 2, 3] } false) World.empty (.ok ()) _ :=
    exec_run_perform _ _
  have hprior := hstart.write (.python _ _ _ rfl rfl rfl hput)
  have hset : ∀ w, client.Exec (nativeExample.do_single_set "m@01000000@0a".toList [1, 2, 3]) w
      (.ok ()) _ := fun w => exec_run_perform _ w
  obtain ⟨hpython, hnative⟩ := one_record_format _ _ _ _ (by decide) (by decide) _ _ hprior
    (.native nativeExample "m@01000000@0a".toList haddr hkey (hset _))
  obtain ⟨hit, w'', hrun, -, hbytes⟩ := hpython (fakeEngine (.ofTarget 9) true true 8)
    { byte_array := [0, 0, 0] } rfl rfl (fakeEngine_torchReads _ _ _ _) rfl
  exact ⟨_, _, hit, w'', hprior, hset _, hrun, hbytes,
    hnative nativeExample "m@01000000@0a".toList [0, 0, 0] haddr hkey rfl⟩
