/-
# What a native read copies

`do_single_get` takes the number of segments, their size and the total from three bins of the
meta record and compares only the total with the length that it was asked for.  Whatever the
bins are, it writes only inside the buffer; when it returns, the payloads of the segments it
was told of lie one after the other in the buffer.  These are all of it unless the meta record
names too few of them (`native_read_complete_iff`).
-/
import LmcacheAerospike.CompletedPut
import LmcacheAerospike.FaultFree
import LmcacheAerospike.NativeConnector
import LmcacheAerospike.Payload

/-! ## Machine arithmetic where nothing wraps -/

theorem size_sub_of_le {a b : ℕ} (hle : b ≤ a) (ha : a < 2 ^ 64) : size_sub a b = a - b := by
  rw [size_sub]
  omega

theorem size_to_int64_of_lt {n : ℕ} (h : n < 2 ^ 63) : size_to_int64 n = n := by
  have hlo : -((2 ^ 64 : ℕ) : ℤ) ≤ (n : ℤ) * 2 := by omega
  have hhi : (n : ℤ) * 2 < ((2 ^ 64 : ℕ) : ℤ) := by omega
  exact Int.bmod_eq_of_le_mul_two hlo hhi

theorem int64_to_size_of_lt {n : ℕ} (h : n < 2 ^ 64) : int64_to_size n = n := by
  rw [int64_to_size]
  omega

/-- A `size_t` survives the way through an `int64_t`. -/
theorem int64_to_size_size_to_int64 {n : ℕ} (h : n < 2 ^ 64) :
    int64_to_size (size_to_int64 n) = n := by
  unfold int64_to_size size_to_int64
  have hpow : (2 : ℤ) ^ 64 = ((2 ^ 64 : ℕ) : ℤ) := by norm_num
  rw [hpow, Int.bmod_emod, ← Int.natCast_emod, Int.toNat_natCast, Nat.mod_eq_of_lt h]

theorem int64_to_uint32_of_lt {n : ℕ} (h : n < 2 ^ 32) : int64_to_uint32 n = n := by
  rw [int64_to_uint32]
  omega

/-! ## Every write stays inside the buffer -/

/-- The buffer has its length, and its bytes from `len` on. -/
structure KeepsTail (len : ℕ) (buf buf' : Bytes) : Prop where
  length_eq : buf'.length = buf.length
  drop_eq : buf'.drop len = buf.drop len

theorem KeepsTail.refl (len : ℕ) (buf : Bytes) : KeepsTail len buf buf := ⟨rfl, rfl⟩

theorem KeepsTail.trans {len : ℕ} {buf buf' buf'' : Bytes} (h : KeepsTail len buf buf')
    (h' : KeepsTail len buf' buf'') : KeepsTail len buf buf'' :=
  ⟨h'.length_eq.trans h.length_eq, h'.drop_eq.trans h.drop_eq⟩

/-- A copy that ends at `len` or before. -/
theorem memcpy_keepsTail {len offset : ℕ} {src buf : Bytes} (hlen : len ≤ buf.length)
    (h : offset + src.length ≤ len) : KeepsTail len buf (memcpy buf offset src) where
  length_eq := length_splice offset src buf (by omega)
  drop_eq := by
    have hfront : (buf.take offset ++ src).length = offset + src.length := by
      rw [List.length_append, List.length_take]
      omega
    rw [memcpy, splice, List.drop_append, hfront, List.drop_of_length_le (by omega),
      List.nil_append, List.drop_drop]
    congr 1
    omega

/-- The buffer when a function that writes into it has ended. -/
def bufferAfter : Except (RuntimeError × Bytes) Bytes → Bytes
  | .ok buf => buf
  | .error (_, buf) => buf

section Bounds

variable {conn : NativeConnector} {ck : Text} {len seg_b : ℕ}

/-- Any answer is allowed. -/
def AnyAnswer : (o : Op) → o.Res → Prop := fun _ _ => True

theorem read_payload_record_keepsTail {user_key : Text} {buf : Bytes} {offset chunk_len : ℕ}
    (hbuf : len ≤ buf.length) (h : offset + chunk_len ≤ len) :
    (conn.read_payload_record user_key buf offset chunk_len).Meets AnyAnswer
      fun r => match r with
        | .ok (_, buf') => KeepsTail len buf buf'
        | .error (_, buf') => KeepsTail len buf buf' := by
  intro x _
  cases x with
  | error err =>
    show Prog.Meets _ _ (if _ then _ else _)
    split_ifs
    · exact KeepsTail.refl len buf
    · exact KeepsTail.refl len buf
  | ok rec =>
    dsimp only [Prog.ret_bind]
    cases as_record_get_bytes rec .b with
    | none => exact KeepsTail.refl len buf
    | some payload =>
      dsimp only
      -- `memcpy` comes after the comparison with `chunk_len`
      split_ifs with hsize
      · exact memcpy_keepsTail hbuf (by omega)
      · exact KeepsTail.refl len buf

theorem get_segments_keepsTail (hlen : len < 2 ^ 64) {n i offset : ℕ} (hoff : offset ≤ len)
    {buf : Bytes} (hbuf : len ≤ buf.length) :
    (conn.get_segments ck len seg_b offset buf i n).Meets AnyAnswer
      fun r => KeepsTail len buf (bufferAfter r) := by
  induction n generalizing i offset buf with
  | zero => exact KeepsTail.refl len buf
  | succ n ih =>
    -- the offset stays at most `len`, so neither `len - offset` nor `offset + chunk_len` wraps
    unfold NativeConnector.get_segments
    dsimp only
    rw [size_sub_of_le hoff hlen]
    refine Prog.meets_bind _ _ (read_payload_record_keepsTail hbuf (by omega)) ?_ ?_
    · rintro ⟨found, buf'⟩ hkeeps
      dsimp only at hkeeps
      cases found with
      | false => exact hkeeps
      | true =>
        dsimp only
        rw [Nat.mod_eq_of_lt (by omega)]
        have hrest := @ih (i + 1) (offset + min seg_b (len - offset)) (by omega) buf'
          (by rw [hkeeps.length_eq]; exact hbuf)
        exact Prog.meets_mono (fun r hr => hkeeps.trans hr) _ hrest
    · rintro ⟨e, buf'⟩ hkeeps
      exact hkeeps

end Bounds

/-! ## What the loop over the segments copies -/

/-- The lengths that the loop asks for, from `offset` on, `n` segments to go. -/
def chunk_lengths (len seg_b : ℕ) : ℕ → ℕ → List ℕ
  | _, 0 => []
  | offset, n + 1 =>
    min seg_b (len - offset) :: chunk_lengths len seg_b (offset + min seg_b (len - offset)) n

theorem sum_chunk_lengths (len seg_b offset n : ℕ) (hoff : offset ≤ len) :
    (chunk_lengths len seg_b offset n).sum = min (n * seg_b) (len - offset) := by
  induction n generalizing offset with
  | zero => simp [chunk_lengths]
  | succ n ih =>
    rw [chunk_lengths, List.sum_cons, ih _ (by omega), Nat.add_mul, Nat.one_mul]
    omega

/-- Segments that together do not reach the end are all of full size. -/
theorem chunk_lengths_of_le {len seg_b offset n : ℕ} (h : offset + n * seg_b ≤ len) :
    chunk_lengths len seg_b offset n = List.replicate n seg_b := by
  induction n generalizing offset with
  | zero => rfl
  | succ n ih =>
    rw [Nat.add_mul, Nat.one_mul] at h
    rw [chunk_lengths, Nat.min_eq_left (by omega), ih (by omega), List.replicate_succ]

/-- The payload bin of a segment record. -/
def NativeConnector.segment_payload (conn : NativeConnector) (w : World) (ck : Text) (i : ℕ) :
    Option Bytes :=
  (w.records (conn.as_key (segment_user_key ck i))).bind fun r => as_record_get_bytes r.bins .b

/-- A read that finds its record. -/
theorem outcome_get_ok {key : Key} {bins : Bins} {w w' : World}
    (h : client.Outcome (.get key) w (.ok bins) w') :
    w' = w ∧ ∃ r, w.records key = some r ∧ r.bins = bins := by
  rcases outcome_single rfl h with ⟨res, hd, hx⟩ | ⟨e, he⟩
  · cases res with
    | found found =>
      cases hx
      rcases hd with hp | ⟨⟨code, -, hcode⟩, -⟩
      · cases hr : w.records key with
        | none =>
          simp only [RecOp.perform, hr] at hp
          cases hp
        | some r =>
          simp only [RecOp.perform, hr, selectBins] at hp
          cases hp
          exact ⟨rfl, r, rfl, rfl⟩
      · cases hcode
    | applied => cases hx
    | absent => cases hx
    | failed code => cases hx
    | clock t => cases hx
  · cases he

section Segments

variable {conn : NativeConnector} {ck : Text} {len seg_b : ℕ} {w w' : World}

theorem exec_read_payload_record {i : ℕ} {buf buf' : Bytes} {offset chunk_len : ℕ}
    (h : client.Exec (conn.read_payload_record (segment_user_key ck i) buf offset chunk_len) w
      (.ok (true, buf')) w') :
    w' = w ∧ ∃ payload, conn.segment_payload w ck i = some payload ∧
      payload.length = chunk_len ∧ buf' = memcpy buf offset payload := by
  obtain ⟨x, w₁, hout, hrest⟩ := h
  cases x with
  | error err =>
    change client.Exec (if _ then _ else _) w₁ _ w' at hrest
    split_ifs at hrest
    · cases hrest.1
    · cases hrest.1
  | ok bins =>
    obtain ⟨rfl, r, hr, rfl⟩ := outcome_get_ok hout
    dsimp only [Prog.ret_bind] at hrest
    cases hb : as_record_get_bytes r.bins .b with
    | none =>
      rw [hb] at hrest
      cases hrest.1
    | some payload =>
      rw [hb] at hrest
      dsimp only at hrest
      by_cases hsize : payload.length = chunk_len
      · rw [if_pos hsize] at hrest
        obtain ⟨hres, rfl⟩ := hrest
        cases hres
        exact ⟨rfl, payload, by rw [NativeConnector.segment_payload, hr]; exact hb, hsize, rfl⟩
      · rw [if_neg hsize] at hrest
        cases hrest.1

theorem run_read_payload_record {i : ℕ} {buf payload : Bytes} {offset : ℕ}
    (h : conn.segment_payload w ck i = some payload) :
    (conn.read_payload_record (segment_user_key ck i) buf offset payload.length).run Op.perform w
      = (.ok (true, memcpy buf offset payload), w) := by
  obtain ⟨r, hr, hb⟩ := Option.bind_eq_some_iff.mp h
  show Prog.run _ (.call (Op.get _) _) w = _
  rw [Prog.run_call, perform_get_found hr]
  dsimp only [Prog.ret_bind]
  rw [hb]
  dsimp only
  rw [if_pos rfl]
  rfl

/-- **A loop that ends** has copied the payloads of its segments, one after the other, and
each of the length asked for. -/
theorem exec_get_segments (hlen : len < 2 ^ 64) {n i offset : ℕ} (hoff : offset ≤ len)
    {buf buf' : Bytes} (hbuf : len ≤ buf.length)
    (h : client.Exec (conn.get_segments ck len seg_b offset buf i n) w (.ok buf') w') :
    w' = w ∧ ∃ chunks : List Bytes,
      (List.range' i n).map (conn.segment_payload w ck) = chunks.map some ∧
      chunks.map List.length = chunk_lengths len seg_b offset n ∧
      buf' = splice offset chunks.flatten buf := by
  induction n generalizing i offset buf w with
  | zero =>
    obtain ⟨hres, rfl⟩ := h
    cases hres
    exact ⟨rfl, [], rfl, rfl, (splice_nil offset _).symm⟩
  | succ n ih =>
    unfold NativeConnector.get_segments at h
    dsimp only at h
    rw [size_sub_of_le hoff hlen, Prog.bind_eq, Device.exec_bind] at h
    rcases h with ⟨⟨found, buf₁⟩, w₁, hread, hrest⟩ | ⟨e, -, he⟩
    · cases found with
      | false => cases hrest.1
      | true =>
        obtain ⟨rfl, payload, hpayload, hsize, rfl⟩ := exec_read_payload_record hread
        have hkeeps : KeepsTail len buf (memcpy buf offset payload) :=
          memcpy_keepsTail hbuf (by omega)
        dsimp only at hrest
        -- the next copy begins where this one ends
        rw [Nat.mod_eq_of_lt (by omega)] at hrest
        obtain ⟨rfl, chunks, hchunks, hlengths, rfl⟩ :=
          ih (by omega) (by rw [hkeeps.length_eq]; exact hbuf) hrest
        refine ⟨rfl, payload :: chunks, ?_, ?_, ?_⟩
        · rw [List.range'_succ, List.map_cons, List.map_cons, hpayload, hchunks]
        · rw [List.map_cons, chunk_lengths, hlengths, hsize]
        · rw [List.flatten_cons, memcpy, ← hsize, splice_append _ _ _ _ (by omega)]
    · cases he

/-- **The loop ends** when every segment has a payload of the length asked for. -/
theorem run_get_segments (hlen : len < 2 ^ 64) {n i offset : ℕ} (hoff : offset ≤ len)
    {buf : Bytes} (hbuf : len ≤ buf.length) {chunks : List Bytes}
    (hchunks : (List.range' i n).map (conn.segment_payload w ck) = chunks.map some)
    (hlengths : chunks.map List.length = chunk_lengths len seg_b offset n) :
    (conn.get_segments ck len seg_b offset buf i n).run Op.perform w
      = (.ok (splice offset chunks.flatten buf), w) := by
  induction n generalizing i offset buf chunks with
  | zero =>
    obtain rfl : chunks = [] := List.map_eq_nil_iff.mp hlengths
    rw [List.flatten_nil, splice_nil]
    rfl
  | succ n ih =>
    cases chunks with
    | nil => cases hlengths
    | cons payload chunks =>
      rw [List.range'_succ, List.map_cons, List.map_cons, List.cons.injEq] at hchunks
      rw [List.map_cons, chunk_lengths, List.cons.injEq] at hlengths
      obtain ⟨hsize, hlengths⟩ := hlengths
      have hkeeps : KeepsTail len buf (memcpy buf offset payload) :=
        memcpy_keepsTail hbuf (by omega)
      unfold NativeConnector.get_segments
      dsimp only
      rw [size_sub_of_le hoff hlen, ← hsize, Prog.bind_eq, Prog.run_bind,
        run_read_payload_record hchunks.1, Prog.andThen_ok]
      dsimp only
      rw [Nat.mod_eq_of_lt (by omega), hsize,
        ih (by omega) (by rw [hkeeps.length_eq]; exact hbuf) hchunks.2 hlengths, ← hsize,
        memcpy, splice_append _ _ _ _ (by omega), List.flatten_cons]

end Segments

/-! ## What `do_single_get` copies -/

/-- The local `nseg`. -/
def meta_nseg (rec : Bins) : ℕ := int64_to_uint32 (positive_int_bin rec .nseg 1)

/-- The local `seg_b`. -/
def meta_seg_b (rec : Bins) (len : ℕ) : ℕ :=
  int64_to_size (positive_int_bin rec .seg_b (size_to_int64 len))

/-- The local `total_b`. -/
def meta_total_b (rec : Bins) (len : ℕ) : ℕ :=
  int64_to_size (positive_int_bin rec .tot_b (size_to_int64 len))

namespace NativeConnector

variable (conn : NativeConnector)

/-- The meta record of a key is there, ready and of the length asked for. -/
structure MetaAccepted (w : World) (ck : Text) (len : ℕ) (rec : Bins) : Prop where
  found : ∃ r, w.records (conn.as_key (meta_user_key ck)) = some r ∧ r.bins = rec
  ready : as_record_get_str rec .state = some "ready".toList
  total : meta_total_b rec len = len

/-- The payload bins that a meta record names: its own, or those of its segments. -/
def payloads (w : World) (ck : Text) (rec : Bins) : List (Option Bytes) :=
  if meta_nseg rec = 1 then [as_record_get_bytes rec .b]
  else (List.range (meta_nseg rec)).map (conn.segment_payload w ck)

/-- Their lengths, as the reader asks for them. -/
def asked_lengths (rec : Bins) (len : ℕ) : List ℕ :=
  if meta_nseg rec = 1 then [len]
  else chunk_lengths len (meta_seg_b rec len) 0 (meta_nseg rec)

end NativeConnector

section Reads

variable {conn : NativeConnector} {ck key : Text} {len : ℕ} {w w' : World}
  (hkey : native_key_to_cache_engine_key key conn.dtype = .ok ck) (hlen : len < 2 ^ 64)
  {buf buf' : Bytes} (hbuf : len ≤ buf.length)

theorem do_single_get_eq (hkey : native_key_to_cache_engine_key key conn.dtype = .ok ck) :
    conn.do_single_get key buf len
      = .call (.get (conn.as_key (meta_user_key ck))) fun
        | .error err => .raise (status_error "get-meta" err, buf)
        | .ok rec => conn.get_with_record ck buf len rec := by
  unfold NativeConnector.do_single_get
  rw [hkey]
  show Prog.call _ _ = Prog.call _ _
  congr 1
  funext x
  cases x <;> rfl

theorem get_with_record_eq {rec : Bins}
    (hready : as_record_get_str rec .state = some "ready".toList)
    (htotal : meta_total_b rec len = len) :
    conn.get_with_record ck buf len rec
      = if meta_nseg rec = 1 then
          match as_record_get_bytes rec .b with
          | none => .raise (⟨"single-record payload size mismatch"⟩, buf)
          | some payload =>
            if payload.length ≠ len then
              .raise (⟨"single-record payload size mismatch"⟩, buf)
            else .ret (memcpy buf 0 payload)
        else conn.get_segments ck len (meta_seg_b rec len) 0 buf 0 (meta_nseg rec) := by
  unfold NativeConnector.get_with_record
  rw [if_neg (not_not.mpr hready)]
  exact if_neg (not_not.mpr htotal)

include hlen hbuf in
/-- Every copy of `do_single_get` is inside the first `len` bytes. -/
theorem do_single_get_keepsTail :
    (conn.do_single_get key buf len).Meets AnyAnswer
      fun r => KeepsTail len buf (bufferAfter r) := by
  unfold NativeConnector.do_single_get
  cases native_key_to_cache_engine_key key conn.dtype with
  | error e => exact KeepsTail.refl len buf
  | ok ck =>
    intro x _
    cases x with
    | error err => exact KeepsTail.refl len buf
    | ok rec =>
      show Prog.Meets _ _ (conn.get_with_record ck buf len rec)
      by_cases hready : as_record_get_str rec .state = some "ready".toList
      · by_cases htotal : meta_total_b rec len = len
        · rw [get_with_record_eq hready htotal]
          split_ifs
          · cases as_record_get_bytes rec .b with
            | none => exact KeepsTail.refl len buf
            | some payload =>
              dsimp only
              split_ifs with hsize
              · exact KeepsTail.refl len buf
              · exact memcpy_keepsTail hbuf (by omega)
          · exact get_segments_keepsTail hlen (Nat.zero_le _) hbuf
        · unfold NativeConnector.get_with_record
          rw [if_neg (not_not.mpr hready)]
          dsimp only
          rw [if_pos (show int64_to_size _ ≠ len from htotal)]
          exact KeepsTail.refl len buf
      · unfold NativeConnector.get_with_record
        rw [if_pos hready]
        exact KeepsTail.refl len buf

include hkey hlen hbuf in
/-- **A read that returns** has copied the payloads that the meta record names, one after the
other and each of the length asked for. -/
theorem exec_do_single_get
    (h : client.Exec (conn.do_single_get key buf len) w (.ok buf') w') :
    w' = w ∧ ∃ (rec : Bins) (chunks : List Bytes), conn.MetaAccepted w ck len rec ∧
      conn.payloads w ck rec = chunks.map some ∧
      chunks.map List.length = NativeConnector.asked_lengths rec len ∧
      buf' = splice 0 chunks.flatten buf := by
  rw [do_single_get_eq hkey] at h
  obtain ⟨x, w₁, hout, hrest⟩ := h
  cases x with
  | error err => cases hrest.1
  | ok rec =>
    obtain ⟨rfl, hfound⟩ := outcome_get_ok hout
    change client.Exec (conn.get_with_record ck buf len rec) w₁ _ w' at hrest
    -- another state or another total ends the read with an exception
    have hready : as_record_get_str rec .state = some "ready".toList := by
      by_contra hstate
      unfold NativeConnector.get_with_record at hrest
      rw [if_pos hstate] at hrest
      cases hrest.1
    have htotal : meta_total_b rec len = len := by
      by_contra hne
      unfold NativeConnector.get_with_record at hrest
      rw [if_neg (not_not.mpr hready)] at hrest
      dsimp only at hrest
      rw [if_pos (show int64_to_size _ ≠ len from hne)] at hrest
      cases hrest.1
    rw [get_with_record_eq hready htotal] at hrest
    unfold NativeConnector.payloads NativeConnector.asked_lengths
    by_cases hn : meta_nseg rec = 1
    · rw [if_pos hn] at hrest
      cases hb : as_record_get_bytes rec .b with
      | none =>
        rw [hb] at hrest
        cases hrest.1
      | some payload =>
        rw [hb] at hrest
        dsimp only at hrest
        by_cases hsize : payload.length = len
        · rw [if_neg (not_not.mpr hsize)] at hrest
          obtain ⟨hres, rfl⟩ := hrest
          cases hres
          refine ⟨rfl, rec, [payload], ⟨hfound, hready, htotal⟩, ?_, ?_, ?_⟩
          · rw [if_pos hn, hb]
            rfl
          · rw [if_pos hn, List.map_singleton, hsize]
          · rw [List.flatten_singleton]
            rfl
        · rw [if_pos hsize] at hrest
          cases hrest.1
    · rw [if_neg hn] at hrest
      obtain ⟨rfl, chunks, hchunks, hlengths, rfl⟩ :=
        exec_get_segments hlen (Nat.zero_le _) hbuf hrest
      refine ⟨rfl, rec, chunks, ⟨hfound, hready, htotal⟩, ?_, ?_, rfl⟩
      · rw [if_neg hn, List.range_eq_range']
        exact hchunks
      · rw [if_neg hn]
        exact hlengths

include hkey hlen hbuf in
/-- **A read returns** when the meta record is accepted and every payload that it names is
there and of the length asked for. -/
theorem run_do_single_get {rec : Bins} (hmeta : conn.MetaAccepted w ck len rec)
    {chunks : List Bytes} (hchunks : conn.payloads w ck rec = chunks.map some)
    (hlengths : chunks.map List.length = NativeConnector.asked_lengths rec len) :
    (conn.do_single_get key buf len).run Op.perform w
      = (.ok (splice 0 chunks.flatten buf), w) := by
  obtain ⟨⟨r, hr, rfl⟩, hready, htotal⟩ := hmeta
  rw [do_single_get_eq hkey, Prog.run_call, perform_get_found hr]
  show Prog.run _ (conn.get_with_record ck buf len r.bins) w = _
  rw [get_with_record_eq hready htotal]
  unfold NativeConnector.payloads at hchunks
  unfold NativeConnector.asked_lengths at hlengths
  by_cases hn : meta_nseg r.bins = 1
  · rw [if_pos hn] at hchunks hlengths ⊢
    obtain ⟨payload, rfl⟩ : ∃ payload, chunks = [payload] :=
      List.length_eq_one_iff.mp (by simpa using congrArg List.length hlengths)
    rw [List.map_singleton, List.singleton_inj] at hchunks hlengths
    rw [hchunks]
    dsimp only
    rw [if_neg (not_not.mpr hlengths), List.flatten_singleton]
    rfl
  · rw [if_neg hn] at hchunks hlengths ⊢
    rw [List.range_eq_range'] at hchunks
    exact run_get_segments hlen (Nat.zero_le _) hbuf hchunks hlengths

end Reads

/-! ## When what is copied is all of it -/

namespace NativeConnector

variable (conn : NativeConnector)

/-- The payloads that the meta record of the key names have `len` bytes together, and the
buffer begins with them and is otherwise as it was. -/
def Delivered (w : World) (key : Text) (len : ℕ) (buf buf' : Bytes) : Prop :=
  ∃ (ck : Text) (rec : Bins) (chunks : List Bytes),
    native_key_to_cache_engine_key key conn.dtype = .ok ck ∧ conn.MetaAccepted w ck len rec ∧
    conn.payloads w ck rec = chunks.map some ∧ (chunks.map List.length).sum = len ∧
    buf' = chunks.flatten ++ buf.drop len

/-- The meta record of the key is accepted but names segments that do not reach the end, and
all of these are there, of full size. -/
def ReadsShort (w : World) (key : Text) (len : ℕ) : Prop :=
  ∃ (ck : Text) (rec : Bins), native_key_to_cache_engine_key key conn.dtype = .ok ck ∧
    conn.MetaAccepted w ck len rec ∧ meta_nseg rec ≠ 1 ∧
    meta_nseg rec * meta_seg_b rec len < len ∧
    ∀ i < meta_nseg rec, ∃ payload, conn.segment_payload w ck i = some payload ∧
      payload.length = meta_seg_b rec len

end NativeConnector

section Complete

variable {conn : NativeConnector} {w : World} {key ck : Text} {len : ℕ} {rec : Bins}

theorem NativeConnector.MetaAccepted.unique {rec' : Bins} (h : conn.MetaAccepted w ck len rec)
    (h' : conn.MetaAccepted w ck len rec') : rec = rec' := by
  obtain ⟨r, hr, rfl⟩ := h.found
  obtain ⟨r', hr', rfl⟩ := h'.found
  rw [hr] at hr'
  rw [Option.some.inj hr']

/-- The lengths asked for add up to what the segments reach. -/
theorem sum_asked_lengths (rec : Bins) (len : ℕ) :
    (NativeConnector.asked_lengths rec len).sum
      = if meta_nseg rec = 1 then len else min (meta_nseg rec * meta_seg_b rec len) len := by
  unfold NativeConnector.asked_lengths
  split_ifs
  · simp
  · rw [sum_chunk_lengths _ _ _ _ (Nat.zero_le _), Nat.sub_zero]

/-- The segments of a short read are the chunks that are asked for. -/
theorem chunks_of_segments (hn : meta_nseg rec ≠ 1)
    (hshort : meta_nseg rec * meta_seg_b rec len < len)
    (hsegments : ∀ i < meta_nseg rec, ∃ payload, conn.segment_payload w ck i = some payload ∧
      payload.length = meta_seg_b rec len) :
    ∃ chunks : List Bytes, conn.payloads w ck rec = chunks.map some ∧
      chunks.map List.length = NativeConnector.asked_lengths rec len := by
  refine ⟨(List.range (meta_nseg rec)).map fun i => (conn.segment_payload w ck i).getD [], ?_, ?_⟩
  · rw [NativeConnector.payloads, if_neg hn, List.map_map]
    apply List.map_congr_left
    intro i hi
    obtain ⟨payload, hpayload, -⟩ := hsegments i (List.mem_range.mp hi)
    rw [Function.comp_apply, hpayload]
    rfl
  · rw [NativeConnector.asked_lengths, if_neg hn, chunk_lengths_of_le (by omega), List.map_map]
    refine List.eq_replicate_iff.mpr ⟨by rw [List.length_map, List.length_range], ?_⟩
    intro n hmem
    obtain ⟨i, hi, rfl⟩ := List.mem_map.mp hmem
    obtain ⟨payload, hpayload, hsize⟩ := hsegments i (List.mem_range.mp hi)
    rw [Function.comp_apply, hpayload]
    exact hsize

/-- Segments of the lengths asked for that do not reach the end are all of full size. -/
theorem segments_of_asked {chunks : List Bytes} (hn : meta_nseg rec ≠ 1)
    (hshort : meta_nseg rec * meta_seg_b rec len < len)
    (hchunks : conn.payloads w ck rec = chunks.map some)
    (hlengths : chunks.map List.length = NativeConnector.asked_lengths rec len) :
    ∀ i < meta_nseg rec, ∃ payload, conn.segment_payload w ck i = some payload ∧
      payload.length = meta_seg_b rec len := by
  intro i hi
  rw [NativeConnector.payloads, if_neg hn] at hchunks
  rw [NativeConnector.asked_lengths, if_neg hn, chunk_lengths_of_le (by omega)] at hlengths
  have hcount : chunks.length = meta_nseg rec := by
    simpa using congrArg List.length hlengths
  have hget : chunks[i]? = some chunks[i] := List.getElem?_eq_getElem (by omega)
  refine ⟨chunks[i], ?_, ?_⟩
  · have hpayload := congrArg (fun l => l[i]?) hchunks
    simp only [List.getElem?_map, List.getElem?_range hi, Option.map_some, hget] at hpayload
    exact Option.some.inj hpayload
  · have hsize := congrArg (fun l => l[i]?) hlengths
    simp only [List.getElem?_map, hget, Option.map_some, List.getElem?_replicate, hi,
      if_true] at hsize
    exact Option.some.inj hsize

end Complete

/-- **When a native read that returns has read everything.**  Whatever the store holds, every
byte that `do_single_get` writes is one of the first `len` of the buffer.  That the payloads it
has copied are `len` bytes whenever it returns, so that no byte of these is stale, holds if and
only if the meta record does not name segments that are all there and do not reach the end:
`nseg`, narrowed to 32 bits, may be zero, and `nseg * seg_b` is never compared with the
total. -/
theorem native_read_complete_iff (conn : NativeConnector) (w : World) (key : Text) {len : ℕ}
    (hlen : len < 2 ^ 64) :
    (∀ buf r w', len ≤ buf.length → client.Exec (conn.do_single_get key buf len) w r w' →
      KeepsTail len buf (bufferAfter r)) ∧
    ((∀ buf buf' w', len ≤ buf.length →
        client.Exec (conn.do_single_get key buf len) w (.ok buf') w' →
        conn.Delivered w key len buf buf') ↔
      ¬ conn.ReadsShort w key len) := by
  refine ⟨fun buf r w' hbuf h => ?_, ?_, ?_⟩
  · exact client.exec_meets (fun _ _ _ _ _ => trivial) _ (do_single_get_keepsTail hlen hbuf) h
  · rintro hcomplete ⟨ck, rec, hkey, hmeta, hn, hshort, hsegments⟩
    -- a short read returns, whatever the buffer, with fewer bytes than `len`
    obtain ⟨chunks, hchunks, hlengths⟩ :=
      chunks_of_segments hn hshort hsegments
    have hbuf : len ≤ (List.replicate len (0 : UInt8)).length := by rw [List.length_replicate]
    have hexec := exec_run_perform (conn.do_single_get key (List.replicate len 0) len) w
    rw [run_do_single_get hkey hlen hbuf hmeta hchunks hlengths] at hexec
    obtain ⟨ck', rec', chunks', hkey', hmeta', hchunks', hsum, -⟩ := hcomplete _ _ _ hbuf hexec
    rw [hkey] at hkey'
    cases hkey'
    obtain rfl := hmeta.unique hmeta'
    rw [hchunks] at hchunks'
    obtain rfl := List.map_injective_iff.mpr (Option.some_injective _) hchunks'
    rw [hlengths, sum_asked_lengths, if_neg hn] at hsum
    omega
  · intro hnot buf buf' w' hbuf h
    cases hkey : native_key_to_cache_engine_key key conn.dtype with
    | error e =>
      unfold NativeConnector.do_single_get at h
      rw [hkey] at h
      cases h.1
    | ok ck =>
      obtain ⟨rfl, rec, chunks, hmeta, hchunks, hlengths, rfl⟩ :=
        exec_do_single_get hkey hlen hbuf h
      have hsum : (chunks.map List.length).sum = len := by
        rw [hlengths, sum_asked_lengths]
        split_ifs with hn
        · rfl
        · -- each chunk has the length asked for, so too few bytes are segments that end early
          by_contra hne
          have hshort : meta_nseg rec * meta_seg_b rec len < len := by omega
          exact hnot ⟨ck, rec, hkey, hmeta, hn, hshort,
            segments_of_asked hn hshort hchunks hlengths⟩
      refine ⟨ck, rec, chunks, hkey, hmeta, hchunks, hsum, ?_⟩
      rw [splice_zero, List.length_flatten, hsum]

/-- A connector with segments of two bytes. -/
def nativeExample : NativeConnector where
  ns := "lmcache".toList
  set_name := "kv_chunks".toList
  dtype := "bfloat16".toList
  write_timeout_ms := 2000
  default_ttl_seconds := 86400
  limits := ⟨2, 2, 2, by decide, by decide, rfl⟩

/-- The meta record of a chunk of three bytes. -/
def metaNaming (nseg : ℤ) : Bins
  | .state => some (.str "ready")
  | .nseg => some (.int nseg)
  | .tot_b => some (.int 3)
  | .b => some (.blob [1, 2, 3])
  | _ => none

/-- The store with this record and no other. -/
def worldNaming (nseg : ℤ) : World :=
  World.empty.setRecord (nativeExample.as_key (meta_user_key "m@1@0@a@bfloat16".toList))
    (some ⟨metaNaming nseg, 0, 0, none⟩)

theorem metaNaming_accepted (nseg : ℤ) :
    nativeExample.MetaAccepted (worldNaming nseg) "m@1@0@a@bfloat16".toList 3
      (metaNaming nseg) where
  found := ⟨_, World.setRecord_self .., rfl⟩
  ready := rfl
  total := rfl

/-- With its payload inline, the chunk is read whole over whatever the buffer held. -/
theorem native_read_complete_inline :
    nativeExample.Delivered (worldNaming 1) "m@01000000@0a".toList 3 [9, 9, 9, 9] [1, 2, 3, 9] := by
  have hread : client.Exec
      (nativeExample.do_single_get "m@01000000@0a".toList [9, 9, 9, 9] 3) (worldNaming 1)
      (.ok [1, 2, 3, 9]) _ := exec_run_perform _ _
  refine ((native_read_complete_iff nativeExample (worldNaming 1) "m@01000000@0a".toList
    (show 3 < 2 ^ 64 by decide)).2.mpr ?_) _ _ _ (by decide) hread
  rintro ⟨ck, rec, hkey, hmeta, hn, -⟩
  cases hkey
  rw [← (metaNaming_accepted 1).unique hmeta] at hn
  exact hn rfl

/-- A meta record that names `2 ^ 32` segments: the connector counts none, reads none, and
returns the buffer as it was. -/
theorem native_read_stale :
    ∃ w', client.Exec (nativeExample.do_single_get "m@01000000@0a".toList [9, 9, 9, 9] 3)
        (worldNaming (2 ^ 32)) (.ok [9, 9, 9, 9]) w' ∧
      ¬ nativeExample.Delivered (worldNaming (2 ^ 32)) "m@01000000@0a".toList 3 [9, 9, 9, 9]
        [9, 9, 9, 9] := by
  refine ⟨_, exec_run_perform _ _, ?_⟩
  rintro ⟨ck, rec, chunks, hkey, hmeta, hchunks, hsum, -⟩
  cases hkey
  rw [← (metaNaming_accepted (2 ^ 32)).unique hmeta] at hchunks
  obtain rfl : chunks = [] := List.map_eq_nil_iff.mp hchunks.symm
  cases hsum
