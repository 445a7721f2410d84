/-
# What a read returns

`get` collects the payload from a meta record and from as many segment records as that
names, one client call after the other, while other clients may write.  Whatever it
meets: when every ready meta record it can be answered names `pieces.length` pieces and
every chunk it can be answered is the piece of its index, then an object that `get`
returns has received `pieces.flatten` and nothing else (`get_safe`).
-/
import LmcacheAerospike.Payload
import LmcacheAerospike.SharedDevice

/-! ## What a hit delivers -/

/-- The hit has received exactly `p` in the buffer `mo`: `p.length` bytes were written, they
are `p`, and the memory is otherwise as it was.  The `byte_array` shows of `p` what lies in
front of the padding. -/
structure Hit.Fills (hit : Hit) (mo : MemoryObj) (p : Bytes) : Prop where
  written : hit.total_written = p.length
  room : p.length ≤ mo.room
  filled : hit.filled = mo.filledWith p
  payload : hit.mo.byte_array.take p.length = p.take mo.byte_array.length

/-- The hit has received exactly `p` in the receive buffer of the read. -/
def Hit.Delivers (hit : Hit) (eng : Engine) (preallocated : Option MemoryObj) (p : Bytes) :
    Prop :=
  ∃ bins mo reshaped, eng.receive_buffer bins preallocated = .ok (some mo, reshaped) ∧
    hit.Fills mo p

/-- The bytes of a payload that fits in the `byte_array` are its first ones. -/
theorem Hit.Fills.take_eq {hit : Hit} {mo : MemoryObj} {p : Bytes} (h : hit.Fills mo p)
    (hroom : p.length ≤ mo.byte_array.length) : hit.mo.byte_array.take p.length = p := by
  rw [h.payload, List.take_of_length_le hroom]

theorem Hit.Fills.length_filled {hit : Hit} {mo : MemoryObj} {p : Bytes} (h : hit.Fills mo p) :
    hit.filled.byte_array.length = mo.byte_array.length := by
  rw [h.filled]
  exact MemoryObj.length_byte_array_copied (Nat.zero_le _)

/-- A hit has received one payload. -/
theorem Hit.Fills.unique {hit : Hit} {mo mo' : MemoryObj} {p p' : Bytes}
    (h : hit.Fills mo p) (h' : hit.Fills mo' p') : p = p' := by
  have hraw : ∀ {mo : MemoryObj} {p : Bytes}, hit.Fills mo p →
      hit.filled.raw_data.take hit.total_written = p := by
    intro mo p h
    rw [h.filled, h.written, mo.raw_data_filledWith, List.take_left]
  rw [← hraw h, ← hraw h']

/-- The bytes of the buffer past the payload are the ones it had. -/
theorem Hit.Fills.drop_filled {hit : Hit} {mo : MemoryObj} {p : Bytes} (h : hit.Fills mo p)
    (hroom : p.length ≤ mo.byte_array.length) :
    hit.filled.byte_array.drop p.length = mo.byte_array.drop p.length := by
  rw [h.filled, MemoryObj.filledWith_of_fits hroom]
  show (splice 0 p mo.byte_array).drop p.length = _
  rw [splice_zero, List.drop_left]

/-! ## What the answers may be -/

/-- What a ready meta record says when the payload is in `pieces`. -/
def NamesPieces (pieces : List Bytes) (bins : Bins) : Prop :=
  bins .state = some (.str "ready") →
    bins .nseg = some (.int pieces.length) ∧
      (pieces.length = 1 → bins .b = some (.blob pieces.flatten))

/-- The protocol lets a read of `k` meet nothing but the pieces. -/
structure Protocol.Reads {env : World → World → Prop}
    {Does : RecOp → World → RecRes → World → Prop} (P : Protocol (serve Does) env)
    (eng : Engine) (k : Text) (pieces : List Bytes) : Prop where
  good_get : P.Good (.get (eng.metaKey k))
  good_batch_read : P.Good
    (.batch_read (segment_keys eng.cfg.ns eng.cfg.set_name k pieces.length) [.b])
  good_ref_count_down : P.Good .ref_count_down
  of_get : ∀ bins, P.ResOk (.get (eng.metaKey k)) (.ok bins) → NamesPieces pieces bins
  of_batch_read : pieces.length ≠ 1 → ∀ recs, P.ResOk
    (.batch_read (segment_keys eng.cfg.ns eng.cfg.set_name k pieces.length) [.b]) (.ok recs) →
    List.Forall₂ BatchRecord.AtMost recs pieces

section Reader

variable {env : World → World → Prop} {Does : RecOp → World → RecRes → World → Prop}
  {P : Protocol (serve Does) env} {eng : Engine} {k : Text} {pieces : List Bytes}

/-! ## `read_payload`, `fill` and `get` -/

/-- What reading the payload may end in: `p`, written once at the start of the buffer. -/
def FilledWith (p : Bytes) (mo : MemoryObj) :
    Except PyExc (Option (MemoryObj × ℕ)) → Prop
  | .ok (some (filled, n)) => n = p.length ∧ p.length ≤ mo.room ∧ filled = mo.filledWith p
  | _ => True

theorem read_payload_safe (hP : P.Reads eng k pieces) (heng : eng.LawfulMemory) {bins : Bins}
    (hb : pieces.length = 1 → bins .b = some (.blob pieces.flatten)) (mo : MemoryObj) :
    P.Safe (FilledWith pieces.flatten mo) (eng.read_payload k bins pieces.length mo) := by
  unfold Engine.read_payload
  by_cases hn : pieces.length = 1
  · rw [if_pos (by omega), hb hn]
    show Protocol.Safe _ _ (Prog.bind _ _)
    refine Protocol.safe_bind _ _ _ (Protocol.safe_ofExcept _ _ rfl) (fun filled hf => ?_)
      fun e _ => trivial
    obtain ⟨h₁, h₂, h₃⟩ := write_payload_ok heng.copiesBytes hf
    exact ⟨h₁, by omega, h₃⟩
  · rw [if_neg (by omega), Int.toNat_natCast]
    refine ⟨hP.good_batch_read, fun x hx => ?_⟩
    cases x with
    | error exc => trivial
    | ok recs =>
      have hpieces := hP.of_batch_read hn recs hx
      show Protocol.Safe _ _ (Prog.bind (Prog.ofExcept _) _)
      refine Protocol.safe_bind _ _ _ (Protocol.safe_ofExcept _ _ rfl) (fun filled hf => ?_)
        fun e _ => trivial
      rcases filled with _ | ⟨filled, n⟩
      · exact ⟨hP.good_ref_count_down, fun _ _ => trivial⟩
      · obtain ⟨h₁, h₂, h₃⟩ := write_segments_ok heng.copiesBytes hpieces (Nat.zero_le _) hf
        exact ⟨by omega, by omega, h₃⟩

/-- What `get` may end in, once it has its receive buffer. -/
def HitFills (p : Bytes) (mo : MemoryObj) : Except PyExc (Option Hit) → Prop
  | .ok (some hit) => hit.Fills mo p
  | _ => True

theorem fill_safe (hP : P.Reads eng k pieces) (heng : eng.LawfulMemory) {bins : Bins}
    (hb : pieces.length = 1 → bins .b = some (.blob pieces.flatten)) (mo : MemoryObj)
    (expect_reshape : Bool) :
    P.Safe (HitFills pieces.flatten mo)
      (eng.fill k bins pieces.length mo expect_reshape) := by
  refine Protocol.safe_bind _ _ _ (read_payload_safe hP heng hb mo)
    (fun filled hf => ?_) fun e _ => trivial
  rcases filled with _ | ⟨filled, n⟩
  · trivial
  · obtain ⟨rfl, hroom, rfl⟩ := hf
    show Protocol.Safe _ _ (if _ then _ else _)
    split_ifs with hcrc hshape
    · refine Protocol.safe_bind _ _ _ (Protocol.safe_ofExcept _ _ rfl) (fun shaped hs => ?_)
        fun e _ => trivial
      refine ⟨rfl, hroom, rfl, ?_⟩
      rw [heng.reshape_take hs]
      exact mo.take_filledWith _
    · exact ⟨rfl, hroom, rfl, mo.take_filledWith _⟩
    · exact ⟨hP.good_ref_count_down, fun _ _ => trivial⟩

/-- What `get` may end in. -/
def GetDelivers (eng : Engine) (preallocated : Option MemoryObj) (p : Bytes) :
    Except PyExc (Option Hit) → Prop
  | .ok (some hit) => hit.Delivers eng preallocated p
  | _ => True

/-- **An object that `get` returns has received the pieces**, whatever the read met. -/
theorem get_safe (hP : P.Reads eng k pieces) (heng : eng.LawfulMemory)
    (preallocated : Option MemoryObj) :
    P.Safe (GetDelivers eng preallocated pieces.flatten) (eng.get k preallocated) := by
  refine ⟨hP.good_get, fun x hx => ?_⟩
  cases x with
  | error exc =>
    show Protocol.Safe _ _ (if _ then _ else _)
    split_ifs <;> trivial
  | ok bins =>
    show Protocol.Safe _ _ (eng.get_with_meta k preallocated bins)
    unfold Engine.get_with_meta
    by_cases hstate : bins .state = some (.str "ready")
    · obtain ⟨hnseg, hb⟩ := hP.of_get bins hx hstate
      rw [if_neg (not_not.mpr hstate), hnseg]
      show Protocol.Safe _ _ (Prog.bind (Prog.ofExcept (eng.receive_buffer bins preallocated)) _)
      refine Protocol.safe_bind _ _ _ (Protocol.safe_ofExcept _ _ rfl)
        (fun buffer hbuffer => ?_) fun e _ => trivial
      obtain ⟨mo?, expect_reshape⟩ := buffer
      cases mo? with
      | none => trivial
      | some mo =>
        refine Protocol.safe_tryCatch _ _ _ (fill_safe hP heng hb mo expect_reshape)
          (fun hit hh => ?_) fun e _ => ⟨hP.good_ref_count_down, fun _ _ => trivial⟩
        cases hit with
        | none => trivial
        | some hit => exact ⟨bins, mo, expect_reshape, hbuffer, hh⟩
    · rw [if_pos hstate]
      trivial

end Reader
