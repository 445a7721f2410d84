/-
# Assembling a payload in the receive buffer

What `write_payload_into` and the loop over the segments leave in the buffer.  A read
that finds the pieces `pieces` under its keys, in order, writes `pieces.flatten` at
the start of the buffer and nothing else (`write_segments_ok`), and it succeeds when
the buffer has room (`write_segments_carries`).
-/
import LmcacheAerospike.Engine

/-! ## Splicing -/

theorem splice_nil (offset : ℕ) (buf : Bytes) : splice offset [] buf = buf := by
  simp [splice]

theorem splice_zero (src buf : Bytes) : splice 0 src buf = src ++ buf.drop src.length := by
  simp [splice]

/-- A copy within the buffer keeps its length. -/
theorem length_splice (offset : ℕ) (src buf : Bytes)
    (h : offset + src.length ≤ buf.length) : (splice offset src buf).length = buf.length := by
  simp only [splice, List.length_append, List.length_take, List.length_drop]
  omega

/-- Two copies, the second where the first ended, are one copy. -/
theorem splice_append (offset : ℕ) (a b buf : Bytes) (h : offset ≤ buf.length) :
    splice (offset + a.length) b (splice offset a buf) = splice offset (a ++ b) buf := by
  have htake : (buf.take offset).length = offset := by
    rw [List.length_take, Nat.min_eq_left h]
  have hlen : (buf.take offset ++ a).length = offset + a.length := by
    rw [List.length_append, htake]
  simp only [splice]
  rw [List.take_append_of_le_length (by omega), List.take_of_length_le (by omega),
    List.drop_append, hlen, List.drop_of_length_le (by omega), List.drop_drop,
    List.length_append, List.nil_append]
  simp only [List.append_assoc]
  congr 4
  omega

/-! ## Copies into a memory object -/

namespace MemoryObj

variable {mo : MemoryObj} {offset : ℕ} {src p : Bytes}

theorem length_byte_array_le (mo : MemoryObj) : mo.byte_array.length ≤ mo.room := by
  unfold room raw_data
  split_ifs
  · rw [List.length_append]
    omega
  · rfl

theorem room_le (mo : MemoryObj) : mo.room ≤ mo.raw_data.length := by
  unfold room raw_data
  split_ifs
  · rfl
  · rw [List.length_append]
    omega

/-- The whole memory behind an object receives the copy, its padding included. -/
theorem raw_data_copied (mo : MemoryObj) (offset : ℕ) (src : Bytes) :
    (mo.copied offset src).raw_data = splice offset src mo.raw_data := List.take_append_drop ..

/-- A copy does not resize the `byte_array`. -/
theorem length_byte_array_copied (h : offset ≤ mo.raw_data.length) :
    (mo.copied offset src).byte_array.length = mo.byte_array.length := by
  have hfront : mo.byte_array.length ≤ mo.raw_data.length := by
    rw [raw_data, List.length_append]
    omega
  have hsplice : mo.raw_data.length ≤ (splice offset src mo.raw_data).length := by
    simp only [splice, List.length_append, List.length_take, List.length_drop]
    omega
  rw [copied, List.length_take, Nat.min_eq_left (by omega)]

theorem room_copied (h : offset + src.length ≤ mo.room) :
    (mo.copied offset src).room = mo.room := by
  have hraw := mo.room_le
  have hlen : (mo.copied offset src).raw_data.length = mo.raw_data.length := by
    rw [raw_data_copied, length_splice offset src _ (by omega)]
  show (if mo.raw_is_tensor then _ else _) = if mo.raw_is_tensor then _ else _
  rw [hlen, length_byte_array_copied (by omega)]

theorem copied_nil (mo : MemoryObj) (offset : ℕ) : mo.copied offset [] = mo := by
  simp only [copied, splice_nil, raw_data, List.take_left, List.drop_left]

/-- Two copies, the second where the first ended, are one copy. -/
theorem copied_copied {a b : Bytes} (h : offset ≤ mo.raw_data.length) :
    (mo.copied offset a).copied (offset + a.length) b = mo.copied offset (a ++ b) := by
  have hraw : splice (offset + a.length) b (mo.copied offset a).raw_data
      = splice offset (a ++ b) mo.raw_data := by
    rw [raw_data_copied, splice_append offset a b _ h]
  have hlen : (mo.copied offset a).byte_array.length = mo.byte_array.length :=
    length_byte_array_copied h
  unfold copied at hraw hlen ⊢
  simp only [hraw, hlen]

/-- A copy inside the `byte_array` changes nothing else. -/
theorem copied_of_fits (h : offset + src.length ≤ mo.byte_array.length) :
    mo.copied offset src = { mo with byte_array := splice offset src mo.byte_array } := by
  have hsplit : splice offset src mo.raw_data
      = splice offset src mo.byte_array ++ mo.padding := by
    rw [splice, raw_data, List.take_append_of_le_length (by omega),
      List.drop_append_of_le_length (by omega)]
    simp only [splice, List.append_assoc]
  have hlen := length_splice offset src mo.byte_array h
  simp only [copied, hsplit, List.take_left' hlen, List.drop_left' hlen]

/-- The object after one copy at the start of its memory. -/
def filledWith (mo : MemoryObj) (p : Bytes) : MemoryObj := mo.copied 0 p

/-- A filled object holds the payload, and then what was behind it. -/
theorem raw_data_filledWith (mo : MemoryObj) (p : Bytes) :
    (mo.filledWith p).raw_data = p ++ mo.raw_data.drop p.length := by
  rw [filledWith, raw_data_copied, splice_zero]

/-- A payload that fits into the `byte_array` leaves the padding alone. -/
theorem filledWith_of_fits (h : p.length ≤ mo.byte_array.length) :
    mo.filledWith p = { mo with byte_array := splice 0 p mo.byte_array } :=
  copied_of_fits (by omega)

/-- The `byte_array` has of the payload what there is room for in front of the padding. -/
theorem take_filledWith (mo : MemoryObj) (p : Bytes) :
    (mo.filledWith p).byte_array.take p.length = p.take mo.byte_array.length := by
  show ((splice 0 p mo.raw_data).take mo.byte_array.length).take p.length = _
  rw [splice_zero, List.take_take, Nat.min_comm, ← List.take_take, List.take_left]

end MemoryObj

/-! ## What LMCache and torch are relied on for -/

/-- `torch.frombuffer` gives the bytes it was given, and `reshape_partial_chunk` keeps
the bytes read. -/
structure Engine.LawfulMemory (eng : Engine) : Prop where
  frombuffer_eq : ∀ {b src : Bytes}, eng.frombuffer b = .ok src → src = b
  reshape_take : ∀ {mo mo' : MemoryObj} {n : ℕ}, eng.reshape mo n = .ok mo' →
    mo'.byte_array.take n = mo.byte_array.take n

/-- `torch.frombuffer` gives the bytes it was given. -/
def Engine.CopiesBytes (eng : Engine) : Prop :=
  ∀ {b src : Bytes}, eng.frombuffer b = .ok src → src = b

theorem Engine.LawfulMemory.copiesBytes {eng : Engine} (heng : eng.LawfulMemory) :
    eng.CopiesBytes := heng.frombuffer_eq

/-- The buffer can receive the pieces: it has room for them, and when it is a tensor
torch reads each of them. -/
structure Engine.Receives (eng : Engine) (mo : MemoryObj) (pieces : List Bytes) : Prop where
  room : pieces.flatten.length ≤ mo.room
  torch : mo.raw_is_tensor = true → ∀ piece ∈ pieces, eng.frombuffer piece = .ok piece

/-- `torch.frombuffer` reads every buffer but the empty one, on which it raises. -/
structure Engine.TorchReads (eng : Engine) : Prop where
  of_ne_nil : ∀ bytes, bytes ≠ [] → eng.frombuffer bytes = .ok bytes
  of_nil : ∃ e, eng.frombuffer [] = .error e

theorem Engine.TorchReads.copiesBytes {eng : Engine} (htorch : eng.TorchReads) :
    eng.CopiesBytes := by
  intro b src h
  by_cases hb : b = []
  · obtain ⟨e, he⟩ := htorch.of_nil
    rw [hb, he] at h
    cases h
  · rw [htorch.of_ne_nil b hb] at h
    exact (Except.ok.inj h).symm

/-- A buffer with room for a payload receives the pieces of every plan of it; a tensor does
so unless the payload is empty. -/
theorem Engine.Receives.of_covers {eng : Engine} (htorch : eng.TorchReads) {mo : MemoryObj}
    {pl : ShardPlan} {p : Bytes} (hcov : pl.Covers p.length)
    (hroom : p.length ≤ mo.byte_array.length) (hne : mo.raw_is_tensor = true → p ≠ []) :
    eng.Receives mo (pl.pieces p) where
  room := by
    rw [hcov.flatten_pieces]
    exact hroom.trans mo.length_byte_array_le
  torch := fun ht piece hpiece =>
    htorch.of_ne_nil piece (hcov.piece_ne_nil (hne ht) hpiece)

/-- A buffer of zero bytes. -/
def MemoryObj.zeros (n : ℕ) : MemoryObj := { byte_array := List.replicate n 0 }

theorem MemoryObj.length_zeros (n : ℕ) : (zeros n).byte_array.length = n :=
  List.length_replicate ..

/-- It receives any pieces of its size. -/
theorem Engine.receives_zeros (eng : Engine) (pieces : List Bytes) :
    eng.Receives (.zeros pieces.flatten.length) pieces where
  room := (MemoryObj.length_zeros _).ge.trans (MemoryObj.length_byte_array_le _)
  torch := fun ht => by cases ht

/-! ### An engine over fakes -/

/-- Limits under which a segment has at most `t` bytes and a record as many. -/
def ResolvedLimits.ofTarget (t : ℕ) : ResolvedLimits := ⟨t + 65536, t, t, t, t, 1⟩

/-- `torch.frombuffer`, which raises a `ValueError` on an empty buffer. -/
def fakeFrombuffer (bytes : Bytes) : Except PyExc Bytes :=
  if bytes = [] then .error (.builtin .ValueError) else .ok bytes

/-- An engine over memory objects that are byte arrays, as the unit tests build it: the
allocator returns `alloc_size` zero bytes and `reshape_partial_chunk` its argument. -/
def fakeEngine (limits : ResolvedLimits) (enable_crc32 save_chunk_meta : Bool)
    (alloc_size : ℕ) : Engine where
  cfg := { plugin_name := "aerospike".toList, hosts := [("localhost".toList, 3000)],
           enable_crc32 := enable_crc32 }
  metadata := { save_chunk_meta := save_chunk_meta }
  resolved := limits
  reshape := fun mo _ => .ok mo
  allocate_for_read := allocate_for_read
    (fun shapes dtypes fmt => some {
      byte_array := List.replicate alloc_size 0, shapes := shapes, dtypes := dtypes, fmt := fmt })
    (fun _ => .ok ⟨alloc_size, [], [], "KV_2LTD"⟩) { save_chunk_meta := save_chunk_meta }
  serialize := fun _ => []
  frombuffer := fakeFrombuffer

/-- Such an engine with segments of two bytes. -/
abbrev shortSegments : Engine := fakeEngine (.ofTarget 2) false true 8

theorem fakeEngine_lawful (limits : ResolvedLimits) (crc save : Bool) (n : ℕ) :
    (fakeEngine limits crc save n).LawfulMemory where
  frombuffer_eq := fun {b src} h => by
    have h' : fakeFrombuffer b = .ok src := h
    unfold fakeFrombuffer at h'
    by_cases hb : b = []
    · rw [if_pos hb] at h'
      cases h'
    · rw [if_neg hb] at h'
      exact (Except.ok.inj h').symm
  reshape_take := fun {mo mo' m} h => by
    have h' : Except.ok mo = (.ok mo' : Except PyExc MemoryObj) := h
    rw [Except.ok.inj h']

theorem fakeEngine_torchReads (limits : ResolvedLimits) (crc save : Bool) (n : ℕ) :
    (fakeEngine limits crc save n).TorchReads where
  of_ne_nil := fun _ hne => if_neg hne
  of_nil := ⟨.builtin .ValueError, rfl⟩

section Pieces

variable {eng : Engine}

/-! ## One piece -/

/-- **What a copy that returns has done**: all bytes are in the object, from the offset on. -/
theorem write_payload_ok (hcopy : eng.CopiesBytes) {mo mo' : MemoryObj} {bytes : Bytes}
    {offset n : ℕ}
    (h : write_payload_into eng.frombuffer mo (.blob bytes) offset = .ok (mo', n)) :
    n = bytes.length ∧ offset + bytes.length ≤ mo.room ∧ mo' = mo.copied offset bytes := by
  simp only [write_payload_into] at h
  split_ifs at h with hroom htensor
  · cases hsrc : eng.frombuffer bytes with
    | error e =>
      rw [hsrc] at h
      cases h
    | ok src =>
      rw [hsrc, hcopy hsrc] at h
      cases h
      exact ⟨rfl, by omega, rfl⟩
  · cases h
    exact ⟨rfl, by omega, rfl⟩

/-- What is copied is a blob that the buffer has room for and torch can read. -/
theorem write_payload_blob (hcopy : eng.CopiesBytes) {mo : MemoryObj} {payload : BinVal}
    {offset : ℕ} {written : MemoryObj × ℕ}
    (h : write_payload_into eng.frombuffer mo payload offset = .ok written) :
    ∃ bytes, payload = .blob bytes ∧ offset + bytes.length ≤ mo.room ∧
      (mo.raw_is_tensor = true → eng.frombuffer bytes = .ok bytes) := by
  cases payload with
  | blob bytes =>
    refine ⟨bytes, rfl, (write_payload_ok hcopy h).2.1, fun htensor => ?_⟩
    simp only [write_payload_into] at h
    split_ifs at h
    cases hsrc : eng.frombuffer bytes with
    | error e =>
      rw [hsrc] at h
      cases h
    | ok src => rw [hcopy hsrc]
  | str s =>
    simp only [write_payload_into] at h
    split_ifs at h
  | collection entries =>
    simp only [write_payload_into] at h
    split_ifs at h
  | int i => cases h
  | bool v => cases h
  | double bits => cases h
  | geojson => cases h

/-- **A copy that fits returns.** -/
theorem write_payload_fits {mo : MemoryObj} {bytes : Bytes} {offset : ℕ}
    (hroom : offset + bytes.length ≤ mo.room)
    (htorch : mo.raw_is_tensor = true → eng.frombuffer bytes = .ok bytes) :
    write_payload_into eng.frombuffer mo (.blob bytes) offset
      = .ok (mo.copied offset bytes, bytes.length) := by
  simp only [write_payload_into]
  rw [if_neg (by omega)]
  split_ifs with htensor
  · rw [htorch htensor]
    rfl
  · rfl

/-! ## All pieces -/

/-- A result of a segment read that, if it delivers a chunk, delivers `piece`. -/
def BatchRecord.AtMost (rec : BatchRecord) (piece : Bytes) : Prop :=
  ∀ bins, rec.record = some bins → ∀ chunk, bins .b = some chunk → chunk = .blob piece

/-- A result of a segment read that delivers `piece`. -/
def BatchRecord.Carries (rec : BatchRecord) (piece : Bytes) : Prop :=
  rec.result = AEROSPIKE_OK ∧
    ∃ bins, rec.record = some bins ∧ bins .b = some (.blob piece)

/-- **Whatever the loop over the segments returns, it has written the pieces one after
the other and nothing else.** -/
theorem write_segments_ok (hcopy : eng.CopiesBytes) {recs : List BatchRecord}
    {pieces : List Bytes} (hrecs : List.Forall₂ BatchRecord.AtMost recs pieces)
    {mo mo' : MemoryObj} {offset total total' : ℕ} (hoff : offset ≤ mo.room)
    (h : eng.write_segments mo offset total recs = .ok (some (mo', total'))) :
    total' = total + pieces.flatten.length ∧ offset + pieces.flatten.length ≤ mo.room ∧
      mo' = mo.copied offset pieces.flatten := by
  induction hrecs generalizing mo offset total with
  | nil =>
    cases h
    exact ⟨rfl, hoff, by rw [List.flatten_nil, MemoryObj.copied_nil]⟩
  | @cons rec piece recs pieces hrec _ ih =>
    unfold Engine.write_segments at h
    split_ifs at h with hres
    · cases h
    · cases hrecord : rec.record with
      | none =>
        rw [hrecord] at h
        cases h
      | some bins =>
        rw [hrecord] at h
        dsimp only at h
        cases hb : bins .b with
        | none =>
          rw [hb] at h
          cases h
        | some chunk =>
          rw [hb, hrec bins hrecord chunk hb] at h
          dsimp only at h
          cases hw : write_payload_into eng.frombuffer mo (.blob piece) offset with
          | error e =>
            rw [hw] at h
            cases h
          | ok filled =>
            obtain ⟨mo₁, n⟩ := filled
            rw [hw] at h
            dsimp only at h
            -- this piece is in; `ih` says where the others are
            obtain ⟨rfl, hfit, rfl⟩ := write_payload_ok hcopy hw
            have hsame := MemoryObj.room_copied hfit
            have hraw := mo.room_le
            obtain ⟨htot, hroom, hmo⟩ := ih (by rwa [hsame]) h
            rw [hsame] at hroom
            rw [List.flatten_cons, List.length_append]
            refine ⟨by omega, by omega, ?_⟩
            rw [hmo, MemoryObj.copied_copied (by omega)]

/-- **A loop over segments that fills the buffer** was given a piece by each of them, and had
room for all. -/
theorem write_segments_some (hcopy : eng.CopiesBytes) {recs : List BatchRecord}
    {mo : MemoryObj} {offset total : ℕ} {filled : MemoryObj × ℕ} (hoff : offset ≤ mo.room)
    (h : eng.write_segments mo offset total recs = .ok (some filled)) :
    ∃ pieces, List.Forall₂ BatchRecord.Carries recs pieces ∧
      offset + pieces.flatten.length ≤ mo.room ∧
      (mo.raw_is_tensor = true → ∀ piece ∈ pieces, eng.frombuffer piece = .ok piece) := by
  induction recs generalizing mo offset total with
  | nil => exact ⟨[], .nil, hoff, fun _ piece hpiece => by cases hpiece⟩
  | cons rec recs ih =>
    unfold Engine.write_segments at h
    split_ifs at h with hres
    · cases h
    · cases hrecord : rec.record with
      | none =>
        rw [hrecord] at h
        cases h
      | some bins =>
        rw [hrecord] at h
        dsimp only at h
        cases hb : bins .b with
        | none =>
          rw [hb] at h
          cases h
        | some chunk =>
          rw [hb] at h
          dsimp only at h
          cases hw : write_payload_into eng.frombuffer mo chunk offset with
          | error e =>
            rw [hw] at h
            cases h
          | ok written =>
            obtain ⟨mo₁, n⟩ := written
            rw [hw] at h
            obtain ⟨piece, rfl, hfit, htorch⟩ := write_payload_blob hcopy hw
            obtain ⟨rfl, -, rfl⟩ := write_payload_ok hcopy hw
            have hsame := MemoryObj.room_copied hfit
            obtain ⟨pieces, hpieces, hroom, hrest⟩ := ih (by rwa [hsame]) h
            rw [hsame] at hroom
            refine ⟨piece :: pieces, .cons ⟨not_not.mp hres, bins, hrecord, hb⟩ hpieces, ?_,
              fun ht => ?_⟩
            · rw [List.flatten_cons, List.length_append]
              omega
            · rw [List.forall_mem_cons]
              exact ⟨htorch ht, hrest ht⟩

/-- **The loop over segments that deliver all pieces succeeds** when the buffer has room. -/
theorem write_segments_carries {recs : List BatchRecord} {pieces : List Bytes}
    (hrecs : List.Forall₂ BatchRecord.Carries recs pieces) {mo : MemoryObj}
    {offset total : ℕ} (hroom : offset + pieces.flatten.length ≤ mo.room)
    (htorch : mo.raw_is_tensor = true → ∀ piece ∈ pieces, eng.frombuffer piece = .ok piece) :
    eng.write_segments mo offset total recs
      = .ok (some (mo.copied offset pieces.flatten, total + pieces.flatten.length)) := by
  induction hrecs generalizing mo offset total with
  | nil => rw [Engine.write_segments, List.flatten_nil, mo.copied_nil]; rfl
  | @cons rec piece recs pieces hrec _ ih =>
    obtain ⟨hres, bins, hrecord, hb⟩ := hrec
    rw [List.flatten_cons, List.length_append] at hroom
    have hfit : offset + piece.length ≤ mo.room := by omega
    have hsame := MemoryObj.room_copied hfit
    have hraw := mo.room_le
    unfold Engine.write_segments
    rw [if_neg (by rw [hres]; simp), hrecord]
    dsimp only
    rw [hb]
    dsimp only
    rw [write_payload_fits hfit fun ht => htorch ht piece List.mem_cons_self]
    dsimp only
    have hrest := @ih (mo.copied offset piece) (offset + piece.length) (total + piece.length)
      (by rw [hsame]; omega) fun ht q hq => htorch ht q (List.mem_cons_of_mem _ hq)
    rw [hrest, MemoryObj.copied_copied (by omega), List.flatten_cons, List.length_append,
      Nat.add_assoc]

/-- **The loop over segments that deliver all pieces raises** when the buffer has no room for one
of them. -/
theorem write_segments_overflows {recs : List BatchRecord} {pieces : List Bytes}
    (hrecs : List.Forall₂ BatchRecord.Carries recs pieces) {mo : MemoryObj} {offset total : ℕ}
    (hoff : offset ≤ mo.room) (hroom : mo.room < offset + pieces.flatten.length)
    (htorch : mo.raw_is_tensor = true → ∀ piece ∈ pieces, eng.frombuffer piece = .ok piece) :
    ∃ text, eng.write_segments mo offset total recs = .error (.connector .internal text) := by
  induction hrecs generalizing mo offset total with
  | nil =>
    rw [List.flatten_nil, List.length_nil, Nat.add_zero] at hroom
    omega
  | @cons rec piece recs pieces hrec _ ih =>
    obtain ⟨hres, bins, hrecord, hb⟩ := hrec
    rw [List.flatten_cons, List.length_append] at hroom
    unfold Engine.write_segments
    rw [if_neg (by rw [hres]; simp), hrecord]
    dsimp only
    rw [hb]
    dsimp only
    by_cases hfit : offset + piece.length ≤ mo.room
    · -- this piece fits; `ih` finds the one that does not
      have hsame := MemoryObj.room_copied hfit
      rw [write_payload_fits hfit fun ht => htorch ht piece List.mem_cons_self]
      exact ih (by rwa [hsame]) (by rw [hsame]; omega)
        fun ht q hq => htorch ht q (List.mem_cons_of_mem _ hq)
    · simp only [write_payload_into]
      rw [if_pos (by omega)]
      exact ⟨_, rfl⟩

end Pieces
