/-
# A batch of loads and loads one by one

`batched_get_preallocated` has its own reading of the meta records and leaves the sharded items
to `get`.  Without client errors it answers for each item what `get` alone would, unless the
`get` of a sharded item raises (`chunks_return`): an inline payload that cannot be copied is only
logged, a segment that cannot be copied ends the whole batch.
-/
import LmcacheAerospike.GetExits

/-! ## Nothing refused -/

theorem performAll_nothing (ops : List RecOp) (w : World) :
    Refusals.nothing.performAll ops w = performAll ops w := by
  induction ops generalizing w with
  | nil => rfl
  | cons op ops ih =>
    have hone : Refusals.nothing.perform op w = op.perform w := by cases op <;> rfl
    rw [Refusals.performAll, performAll, hone, ih]

/-- Where nothing is refused the calls are those without failures. -/
theorem call_nothing : Refusals.nothing.call = Op.perform := by
  funext o w
  have hraised : Refusals.nothing.raised o = none := by cases o <;> rfl
  unfold Refusals.call
  rw [hraised]
  dsimp only
  rw [performAll_nothing]
  rfl

/-! ## What the store holds -/

/-- The meta record of the key is ready, and this is its `nseg`. -/
def Engine.ReadyWith (eng : Engine) (w : World) (ck : Text) (value : BinVal) : Prop :=
  ∃ r, w.records (eng.metaKey ck) = some r ∧ r.bins .state = some (.str "ready") ∧
    r.bins .nseg = some value

/-- The segments of a payload, up to the first that is missing. -/
def Engine.foundSegments (eng : Engine) (w : World) (ck : Text) (nseg : ℤ) : List Key :=
  (segment_keys eng.cfg.ns eng.cfg.set_name ck nseg.toNat).takeWhile fun key =>
    (w.records key).isSome

/-- The bytes in the bin `b` of a record. -/
def World.bytesAt (w : World) (key : Key) : Bytes :=
  match (w.records key).bind fun r => r.bins .b with
  | some (.blob bytes) => bytes
  | _ => []

/-- The bin `b` of the record can be copied into a buffer with room for it: it has bytes, and
some of them when the buffer is a tensor. -/
def World.Copyable (w : World) (tensor : Bool) (key : Key) : Prop :=
  ∃ r bytes, w.records key = some r ∧ r.bins .b = some (.blob bytes) ∧
    (tensor = true → bytes ≠ [])

/-- The ready meta record of the item counts its segments, and when it is sharded all segments
before the first missing one can be copied. -/
def Engine.Loadable (eng : Engine) (w : World) (item : Text × MemoryObj) : Prop :=
  ∀ value, eng.ReadyWith w item.1 value → ∃ nseg, Engine.pyInt value = .ok nseg ∧
    (nseg ≠ 1 → ∀ key ∈ eng.foundSegments w item.1 nseg, w.Copyable item.2.raw_is_tensor key)

/-- The store is well formed for the item, and the buffer is large enough: a ready meta record
has the bin `nseg`, segment records have the bin `b`, and there is room for the segments that
are there. -/
structure Engine.StoreFits (eng : Engine) (w : World) (item : Text × MemoryObj) : Prop where
  nseg_there : ∀ r, w.records (eng.metaKey item.1) = some r →
    r.bins .state = some (.str "ready") → ∃ value, r.bins .nseg = some value
  b_there : ∀ i r, w.records (eng.segmentKey item.1 i) = some r → ∃ value, r.bins .b = some value
  room : ∀ value nseg, eng.ReadyWith w item.1 value → Engine.pyInt value = .ok nseg →
    nseg ≠ 1 →
    ((eng.foundSegments w item.1 nseg).flatMap w.bytesAt).length ≤ item.2.room

/-- The ready meta record of the item names another number of segments than one. -/
def Engine.sharded (eng : Engine) (w : World) (item : Text × MemoryObj) : Bool :=
  match w.records (eng.metaKey item.1) with
  | none => false
  | some r => r.bins .state = some (.str "ready") &&
    match (r.bins .nseg).map Engine.pyInt with
    | some (.ok nseg) => nseg ≠ 1
    | _ => false

/-- The pieces of a payload of `nseg` segments are stored as bytes. -/
def Engine.HasPieces (eng : Engine) (w : World) (ck : Text) (bins : Bins) (nseg : ℤ)
    (pieces : List Bytes) : Prop :=
  if nseg = 1 then ∃ p, bins .b = some (.blob p) ∧ pieces = [p]
  else List.Forall₂ (fun key piece => ∃ r, w.records key = some r ∧ r.bins .b = some (.blob piece))
    (segment_keys eng.cfg.ns eng.cfg.set_name ck nseg.toNat) pieces

/-- The buffer takes these pieces under a meta record with these bins: there is room for them,
none is empty when the buffer is a tensor, and what of them lies in the `byte_array` passes the
CRC check. -/
structure Engine.Takes (eng : Engine) (mo : MemoryObj) (bins : Bins) (pieces : List Bytes) :
    Prop where
  room : pieces.flatten.length ≤ mo.room
  torch : mo.raw_is_tensor = true → ∀ piece ∈ pieces, piece ≠ []
  crc : eng.cfg.enable_crc32 = true → ∀ expected, bins .crc32 = some expected →
    Engine.pyEqInt expected (crc32 (pieces.flatten.take mo.byte_array.length)) = true

/-- **The payload of the item is whole**: its meta record is ready, all pieces are stored and
the buffer takes them. -/
def Engine.Whole (eng : Engine) (w : World) (item : Text × MemoryObj) : Prop :=
  ∃ r value nseg pieces, w.records (eng.metaKey item.1) = some r ∧
    r.bins .state = some (.str "ready") ∧ r.bins .nseg = some value ∧
    Engine.pyInt value = .ok nseg ∧ eng.HasPieces w item.1 r.bins nseg pieces ∧
    eng.Takes item.2 r.bins pieces

/-! ## One item -/

/-- What `get` alone loads into the buffer of an item. -/
def Engine.loadedAlone (eng : Engine) (w : World) (item : Text × MemoryObj) :
    Option MemoryObj :=
  loaded ((eng.get item.1 (some item.2)).run Op.perform w).1

/-- `get` alone does not raise. -/
def Engine.ReturnsAlone (eng : Engine) (w : World) (item : Text × MemoryObj) : Prop :=
  ∃ hit, ((eng.get item.1 (some item.2)).run Op.perform w).1 = .ok hit

/-- The batch gets past the item: the loop over the meta records, and `get` when the item is
left to it. -/
def Engine.Settles (eng : Engine) (w : World) (item : Text × MemoryObj) : Prop :=
  ∃ read, eng.read_meta_record (w.readRecord Engine.META_READ_BINS (eng.metaKey item.1)) item.2
    = .ok read ∧ (read = .multi_seg → eng.ReturnsAlone w item)

/-- The item raises by itself: in the loop over the meta records, or in `get` when it is left
to it. -/
def Engine.RaisesAlone (eng : Engine) (w : World) (e : PyExc) (item : Text × MemoryObj) : Prop :=
  eng.read_meta_record (w.readRecord Engine.META_READ_BINS (eng.metaKey item.1)) item.2
      = .error e ∨
    eng.read_meta_record (w.readRecord Engine.META_READ_BINS (eng.metaKey item.1)) item.2
        = .ok .multi_seg ∧
      ((eng.get item.1 (some item.2)).run Op.perform w).1 = .error e

section Item

variable {eng : Engine} {w : World}

theorem own_nothing : Refusals.nothing.own eng w = eng.loadedAlone w := by
  funext item
  unfold Refusals.own Refusals.loads Engine.loadedAlone
  rw [call_nothing]

/-- What is copied into a tensor has bytes. -/
theorem write_payload_copied (htorch : eng.TorchReads) {mo : MemoryObj} {value : BinVal}
    {offset : ℕ} {written : MemoryObj × ℕ}
    (h : write_payload_into eng.frombuffer mo value offset = .ok written) :
    ∃ bytes, value = .blob bytes ∧ (mo.raw_is_tensor = true → bytes ≠ []) := by
  cases value with
  | blob bytes =>
    refine ⟨bytes, rfl, ?_⟩
    rintro ht rfl
    obtain ⟨e, he⟩ := htorch.of_nil
    simp only [write_payload_into] at h
    split_ifs at h
    rw [he] at h
    cases h
  | str s =>
    simp only [write_payload_into] at h
    split_ifs at h
  | collection entries =>
    simp only [write_payload_into] at h
    split_ifs at h
  | int i => cases h
  | bool v => cases h
  | double bits => cases h
  | geojson => cases h

/-- The loop over the segments, on segments that are in the store: it raises at the first one
that cannot be copied. -/
theorem write_segments_returns_iff (htorch : eng.TorchReads) {keys : List Key}
    (hb : ∀ key ∈ keys, ∀ r, w.records key = some r → ∃ value, r.bins .b = some value)
    {mo : MemoryObj} {offset total : ℕ}
    (hroom : offset + ((keys.takeWhile fun key => (w.records key).isSome).flatMap w.bytesAt).length
      ≤ mo.room) :
    (∃ filled, eng.write_segments mo offset total (keys.map (w.readRecord [.b])) = .ok filled) ↔
      ∀ key ∈ keys.takeWhile fun key => (w.records key).isSome,
        w.Copyable mo.raw_is_tensor key := by
  induction keys generalizing mo offset total with
  | nil => exact iff_of_true ⟨_, rfl⟩ fun key hkey => by cases hkey
  | cons key keys ih =>
    rw [List.forall_mem_cons] at hb
    rw [List.map_cons, Engine.write_segments]
    cases hrec : w.records key with
    | none =>
      have hmissing : ((w.readRecord [.b] key).result ≠ AEROSPIKE_OK) := by
        rw [Ne, World.readRecord_result, hrec]
        exact Bool.false_ne_true
      rw [if_pos hmissing, List.takeWhile_cons_of_neg (by rw [hrec]; exact Bool.false_ne_true)]
      exact iff_of_true ⟨_, rfl⟩ fun key hkey => by cases hkey
    | some r =>
      obtain ⟨value, hvalue⟩ := hb.1 r hrec
      have hbin : selectBins (some [.b]) r.bins .b = some value := by
        rw [← hvalue]
        rfl
      rw [World.readRecord_found hrec, if_neg (not_not.mpr rfl)]
      dsimp only
      rw [hbin]
      dsimp only
      rw [List.takeWhile_cons_of_pos (by rw [hrec]; rfl)] at hroom ⊢
      rw [List.forall_mem_cons]
      rw [List.flatMap_cons, List.length_append] at hroom
      by_cases hcopy : w.Copyable mo.raw_is_tensor key
      · -- this segment is copied; `ih` says what becomes of the others
        obtain ⟨r', bytes, hr', hbytes, hne⟩ := hcopy
        cases hrec.symm.trans hr'
        cases hvalue.symm.trans hbytes
        have hlen : w.bytesAt key = bytes := by
          unfold World.bytesAt
          rw [hrec, Option.bind_some, hbytes]
        rw [hlen] at hroom
        have hfit : offset + bytes.length ≤ mo.room := by omega
        have hsame := MemoryObj.room_copied hfit
        rw [write_payload_fits hfit fun ht => htorch.of_ne_nil bytes (hne ht)]
        dsimp only
        rw [ih hb.2 (by rw [hsame]; omega)]
        exact (and_iff_right ⟨r, bytes, hrec, hbytes, hne⟩).symm
      · refine iff_of_false ?_ fun hall => hcopy hall.1
        rintro ⟨filled, hfilled⟩
        cases hwrite : write_payload_into eng.frombuffer mo value offset with
        | error e =>
          rw [hwrite] at hfilled
          cases hfilled
        | ok written =>
          refine hcopy ?_
          obtain ⟨bytes, rfl, htensor⟩ := write_payload_copied htorch hwrite
          exact ⟨r, bytes, hrec, hvalue, htensor⟩

/-! ### A sharded item -/

/-- What `get` does with the answer to its segment read. -/
def Engine.finishSegments (eng : Engine) (bins : Bins) (mo : MemoryObj) :
    Except AxError (List BatchRecord) → EngineM (Option Hit)
  | .error exc => Engine.release (.aerospike exc)
  | .ok recs => ((Prog.ofExcept (eng.write_segments mo 0 0 recs)).bind fun
    | none => ref_count_down.bind fun _ => .ret none
    | some (filled, n) => eng.finish bins filled n false).tryCatch Engine.release

/-- It makes no call that goes to the server. -/
theorem finishSegments_calls (bins : Bins) (mo : MemoryObj)
    (x : Except AxError (List BatchRecord)) :
    (eng.finishSegments bins mo x).AllCalls fun o => o = .ref_count_down := by
  have hrelease : ∀ e, (Engine.release e : EngineM (Option Hit)).AllCalls
      fun o => o = .ref_count_down := fun e => ⟨rfl, fun _ => trivial⟩
  cases x with
  | error exc => exact hrelease _
  | ok recs =>
    refine Prog.allCalls_tryCatch _ _ (Prog.allCalls_bind _ _ (Prog.allCalls_ofExcept _) ?_)
      hrelease
    intro filled
    cases filled with
    | none => exact ⟨rfl, fun _ => trivial⟩
    | some filled =>
      show Prog.AllCalls _ (eng.finish bins filled.1 filled.2 false)
      unfold Engine.finish
      by_cases hcrc : eng.crc_matches bins filled.1 filled.2 = true
      · rw [if_pos hcrc]
        trivial
      · rw [if_neg hcrc]
        exact ⟨rfl, fun _ => trivial⟩

section Handler

variable {S : Type} {h : ∀ o : Op, S → o.Res × S} {s s₁ : S} {ck : Text} {mo : MemoryObj}
  {bins : Bins} {value : BinVal} {nseg : ℤ}

theorem run_finishSegments (recs : List BatchRecord) :
    ((eng.finishSegments bins mo (.ok recs)).run h s).1
      = match eng.write_segments mo 0 0 recs with
        | .error e => .error e
        | .ok none => .ok none
        | .ok (some (filled, n)) =>
          .ok (if eng.crc_matches bins filled n then some ⟨filled, filled, n⟩ else none) := by
  unfold Engine.finishSegments
  dsimp only
  rcases eng.write_segments mo 0 0 recs with e | _ | ⟨filled, n⟩
  · rfl
  · rfl
  · show (Prog.run h ((eng.finish bins filled n false).tryCatch Engine.release) s).1 = _
    unfold Engine.finish
    by_cases hcrc : eng.crc_matches bins filled n = true
    · rw [if_pos hcrc]
      dsimp only
      rw [if_pos hcrc]
      rfl
    · rw [if_neg hcrc]
      dsimp only
      rw [if_neg hcrc]
      rfl

/-- **`get` of a sharded item**: the meta read, the segment read, and the rest. -/
theorem run_get_sharded (hmeta : h (.get (eng.metaKey ck)) s = (.ok bins, s₁))
    (hstate : bins .state = some (.str "ready")) (hnseg : bins .nseg = some value)
    (hint : Engine.pyInt value = .ok nseg) (hn : nseg ≠ 1) {s₂ : S}
    {x : Except AxError (List BatchRecord)} (hread : h
      (.batch_read (segment_keys eng.cfg.ns eng.cfg.set_name ck nseg.toNat) [.b]) s₁ = (x, s₂)) :
    (eng.get ck (some mo)).run h s = (eng.finishSegments bins mo x).run h s₂ := by
  show Prog.run h (.call (Op.get _) _) s = _
  rw [Prog.run_call, hmeta]
  show Prog.run h (eng.get_with_meta ck (some mo) bins) s₁ = _
  unfold Engine.get_with_meta
  rw [if_neg (not_not.mpr hstate), hnseg]
  dsimp only
  rw [hint]
  show Prog.run h ((eng.fill ck bins nseg mo false).tryCatch Engine.release) s₁ = _
  unfold Engine.fill Engine.read_payload
  rw [if_neg hn]
  show Prog.run h (.call (Op.batch_read _ _) _) s₁ = _
  rw [Prog.run_call, hread]
  cases x with
  | error exc => rfl
  | ok recs =>
    unfold Engine.finishSegments
    show Prog.run h (Prog.tryCatch (Prog.bind (Prog.bind (Prog.ofExcept
      (eng.write_segments mo 0 0 recs)) _) _) _) s₂ = _
    dsimp only
    rcases eng.write_segments mo 0 0 recs with e | _ | filled <;> rfl

end Handler

/-- `get` alone, of a sharded item. -/
theorem run_get_sharded_alone {ck : Text} {mo : MemoryObj} {r : Record} {value : BinVal} {nseg : ℤ}
    (hrec : w.records (eng.metaKey ck) = some r) (hstate : r.bins .state = some (.str "ready"))
    (hnseg : r.bins .nseg = some value) (hint : Engine.pyInt value = .ok nseg) (hn : nseg ≠ 1) :
    (eng.get ck (some mo)).run Op.perform w
      = (eng.finishSegments r.bins mo (.ok ((segment_keys eng.cfg.ns eng.cfg.set_name ck
          nseg.toNat).map (w.readRecord [.b])))).run Op.perform w :=
  run_get_sharded (perform_get_found hrec) hstate hnseg hint hn (perform_batch_read ..)

/-- A sharded item: `get` raises exactly where its loop over the segments does. -/
theorem returns_sharded_iff {ck : Text} {mo : MemoryObj} {r : Record} {value : BinVal} {nseg : ℤ}
    (hrec : w.records (eng.metaKey ck) = some r) (hstate : r.bins .state = some (.str "ready"))
    (hnseg : r.bins .nseg = some value) (hint : Engine.pyInt value = .ok nseg) (hn : nseg ≠ 1) :
    eng.ReturnsAlone w (ck, mo) ↔ ∃ filled, eng.write_segments mo 0 0
      ((segment_keys eng.cfg.ns eng.cfg.set_name ck nseg.toNat).map (w.readRecord [.b]))
        = .ok filled := by
  unfold Engine.ReturnsAlone
  rw [run_get_sharded_alone hrec hstate hnseg hint hn, run_finishSegments]
  rcases eng.write_segments mo 0 0 _ with e | _ | ⟨filled, n⟩
  · exact iff_of_false (by rintro ⟨hit, hhit⟩; cases hhit) (by rintro ⟨filled, h⟩; cases h)
  · exact iff_of_true ⟨_, rfl⟩ ⟨_, rfl⟩
  · exact iff_of_true ⟨_, rfl⟩ ⟨_, rfl⟩

/-- The loop over the meta records, at a ready one. -/
theorem read_meta_record_ready {bins : Bins} {mo : MemoryObj} {value : BinVal}
    (hstate : bins .state = some (.str "ready")) (hvalue : bins .nseg = some value) :
    eng.read_meta_record ⟨AEROSPIKE_OK, some (selectBins (some Engine.META_READ_BINS) bins)⟩ mo
      = match Engine.pyInt value with
        | .error e => .error e
        | .ok nseg =>
          if nseg ≠ 1 then .ok .multi_seg
          else .ok (.result ((bins .b).bind fun payload =>
            eng.read_inline (selectBins (some Engine.META_READ_BINS) bins) payload mo)) := by
  unfold Engine.read_meta_record
  rw [if_neg (not_not.mpr rfl)]
  dsimp only
  rw [selectBins_meta bins (n := .state) (by decide),
    selectBins_meta bins (n := .nseg) (by decide), selectBins_meta bins (n := .b) (by decide),
    if_neg (not_not.mpr hstate), hvalue]
  dsimp only
  cases Engine.pyInt value with
  | error e => rfl
  | ok nseg =>
    dsimp only
    cases bins .b <;> rfl

theorem sharded_iff {item : Text × MemoryObj} : eng.sharded w item = true ↔
    ∃ r value nseg, w.records (eng.metaKey item.1) = some r ∧
      r.bins .state = some (.str "ready") ∧ r.bins .nseg = some value ∧
      Engine.pyInt value = .ok nseg ∧ nseg ≠ 1 := by
  unfold Engine.sharded
  cases hrec : w.records (eng.metaKey item.1) with
  | none => exact iff_of_false Bool.false_ne_true nofun
  | some r =>
    dsimp only
    rw [Bool.and_eq_true, decide_eq_true_eq]
    constructor
    · rintro ⟨hstate, hmatch⟩
      cases hvalue : r.bins .nseg with
      | none =>
        rw [hvalue] at hmatch
        cases hmatch
      | some value =>
        rw [hvalue, Option.map_some] at hmatch
        cases hint : Engine.pyInt value with
        | error e =>
          rw [hint] at hmatch
          cases hmatch
        | ok nseg =>
          rw [hint] at hmatch
          exact ⟨r, value, nseg, rfl, hstate, hvalue, hint, of_decide_eq_true hmatch⟩
    · rintro ⟨r', value, nseg, hr, hstate, hvalue, hint, hn⟩
      cases hr
      refine ⟨hstate, ?_⟩
      rw [hvalue, Option.map_some, hint]
      exact decide_eq_true hn

/-- The loop over the meta records leaves the sharded items to `get`, and no others. -/
theorem multi_seg_iff {item : Text × MemoryObj} :
    eng.read_meta_record (w.readRecord Engine.META_READ_BINS (eng.metaKey item.1)) item.2
      = .ok .multi_seg ↔ eng.sharded w item = true := by
  rw [sharded_iff]
  constructor
  · intro hread
    cases hrec : w.records (eng.metaKey item.1) with
    | none =>
      rw [World.readRecord, hrec] at hread
      cases hread
    | some r =>
      rw [World.readRecord_found hrec] at hread
      by_cases hstate : r.bins .state = some (.str "ready")
      · cases hvalue : r.bins .nseg with
        | none =>
          unfold Engine.read_meta_record at hread
          rw [if_neg (not_not.mpr rfl)] at hread
          dsimp only at hread
          rw [selectBins_meta r.bins (n := .state) (by decide), if_neg (not_not.mpr hstate),
            selectBins_meta r.bins (n := .nseg) (by decide), hvalue] at hread
          cases hread
        | some value =>
          rw [@read_meta_record_ready eng r.bins item.2 value hstate hvalue] at hread
          cases hint : Engine.pyInt value with
          | error e =>
            rw [hint] at hread
            cases hread
          | ok nseg =>
            rw [hint] at hread
            dsimp only at hread
            split_ifs at hread with hn
            · exact ⟨r, value, nseg, rfl, hstate, hvalue, hint, hn⟩
            · cases hread
      · unfold Engine.read_meta_record at hread
        rw [if_neg (not_not.mpr rfl)] at hread
        dsimp only at hread
        rw [selectBins_meta r.bins (by decide), if_pos hstate] at hread
        cases hread
  · rintro ⟨r, value, nseg, hrec, hstate, hvalue, hint, hn⟩
    rw [World.readRecord_found hrec]
    refine (read_meta_record_ready hstate hvalue).trans ?_
    rw [hint]
    exact if_pos hn

/-! ### What `get` alone loads -/

/-- An inline payload that is loaded was taken. -/
theorem read_inline_isSome_iff (htorch : eng.TorchReads) {bins : Bins} {payload : BinVal}
    {mo : MemoryObj} : (eng.read_inline bins payload mo).isSome = true ↔
      ∃ p, payload = .blob p ∧ eng.Takes mo bins [p] := by
  unfold Engine.read_inline
  constructor
  · intro hsome
    cases hwrite : write_payload_into eng.frombuffer mo payload 0 with
    | error e =>
      rw [hwrite] at hsome
      cases hsome
    | ok written =>
      obtain ⟨bytes, rfl, hne⟩ := write_payload_copied htorch hwrite
      obtain ⟨filled, n⟩ := written
      obtain ⟨rfl, hroom, rfl⟩ := write_payload_ok htorch.copiesBytes hwrite
      rw [hwrite] at hsome
      dsimp only at hsome
      split_ifs at hsome with hcrc
      · refine ⟨bytes, rfl, ?_, fun ht => List.forall_mem_singleton.mpr (hne ht), ?_⟩
        · rw [List.flatten_singleton]
          omega
        · rw [List.flatten_singleton]
          exact (crc_matches_take eng bins mo bytes).mp hcrc
      · cases hsome
  · rintro ⟨p, rfl, htakes⟩
    have hroom := htakes.room
    have hcrc := htakes.crc
    rw [List.flatten_singleton] at hroom hcrc
    rw [write_payload_fits (by omega) fun ht =>
      htorch.of_ne_nil p (htakes.torch ht p (List.mem_singleton_self p))]
    dsimp only
    rw [show mo.copied 0 p = mo.filledWith p from rfl,
      if_pos ((crc_matches_take eng bins mo p).mpr hcrc)]
    rfl

/-- A record that a segment read finds carries the bytes of its bin. -/
theorem readRecord_carries_iff {key : Key} {piece : Bytes} :
    (w.readRecord [.b] key).Carries piece ↔
      ∃ r, w.records key = some r ∧ r.bins .b = some (.blob piece) := by
  constructor
  · rintro ⟨hres, bins, hbins, hb⟩
    cases hrec : w.records key with
    | none =>
      rw [World.readRecord, hrec] at hres
      exact absurd hres (by decide)
    | some r =>
      rw [World.readRecord_found hrec] at hbins
      cases hbins
      exact ⟨r, rfl, hb⟩
  · rintro ⟨r, hrec, hb⟩
    rw [World.readRecord_found hrec]
    exact ⟨rfl, _, rfl, hb⟩

/-- A sharded payload that is loaded was there and was taken. -/
theorem loads_sharded_iff (htorch : eng.TorchReads) {ck : Text} {mo : MemoryObj} {r : Record}
    {value : BinVal} {nseg : ℤ} (hrec : w.records (eng.metaKey ck) = some r)
    (hstate : r.bins .state = some (.str "ready")) (hnseg : r.bins .nseg = some value)
    (hint : Engine.pyInt value = .ok nseg) (hn : nseg ≠ 1) :
    (eng.loadedAlone w (ck, mo)).isSome = true ↔
      ∃ pieces, eng.HasPieces w ck r.bins nseg pieces ∧ eng.Takes mo r.bins pieces := by
  have hpieces : ∀ pieces, eng.HasPieces w ck r.bins nseg pieces ↔
      List.Forall₂ BatchRecord.Carries ((segment_keys eng.cfg.ns eng.cfg.set_name ck
        nseg.toNat).map (w.readRecord [.b])) pieces := fun pieces => by
    rw [Engine.HasPieces, if_neg hn, List.forall₂_map_left_iff]
    simp only [readRecord_carries_iff]
  unfold Engine.loadedAlone
  rw [run_get_sharded_alone hrec hstate hnseg hint hn, run_finishSegments]
  simp only [hpieces]
  constructor
  · intro hsome
    rcases hwrite : eng.write_segments mo 0 0 ((segment_keys eng.cfg.ns eng.cfg.set_name ck
      nseg.toNat).map (w.readRecord [.b])) with e | _ | ⟨filled, n⟩
    · rw [hwrite] at hsome
      cases hsome
    · rw [hwrite] at hsome
      cases hsome
    · obtain ⟨pieces, hcarries, hroom, hread⟩ :=
        write_segments_some htorch.copiesBytes (Nat.zero_le _) hwrite
      rw [write_segments_carries hcarries hroom hread] at hwrite hsome
      dsimp only at hsome
      split_ifs at hsome with hcrc
      · refine ⟨pieces, hcarries, by omega, fun ht piece hpiece hnil => ?_, ?_⟩
        · obtain ⟨e, he⟩ := htorch.of_nil
          have hok := hread ht piece hpiece
          rw [hnil, he] at hok
          cases hok
        · rw [Nat.zero_add] at hcrc
          exact (crc_matches_take eng r.bins mo _).mp hcrc
      · cases hsome
  · rintro ⟨pieces, hcarries, htakes⟩
    have hroom := htakes.room
    rw [write_segments_carries hcarries (by omega) fun ht piece hpiece =>
      htorch.of_ne_nil piece (htakes.torch ht piece hpiece)]
    dsimp only
    rw [Nat.zero_add, show mo.copied 0 pieces.flatten = mo.filledWith pieces.flatten from rfl,
      if_pos ((crc_matches_take eng r.bins mo _).mpr htakes.crc)]
    rfl

/-- An item whose meta record is there is loaded from its bins. -/
theorem loadedAlone_found {ck : Text} {mo : MemoryObj} {r : Record}
    (hrec : w.records (eng.metaKey ck) = some r) :
    eng.loadedAlone w (ck, mo)
      = loaded ((eng.get_with_meta ck (some mo) r.bins).run Op.perform w).1 := by
  rw [← own_nothing, ← call_nothing]
  exact loads_found rfl hrec

/-- An inline payload that is loaded was there and was taken. -/
theorem loads_inline_iff (htorch : eng.TorchReads) {ck : Text} {mo : MemoryObj} {r : Record}
    {value : BinVal} (hrec : w.records (eng.metaKey ck) = some r)
    (hstate : r.bins .state = some (.str "ready")) (hnseg : r.bins .nseg = some value)
    (hint : Engine.pyInt value = .ok 1) :
    (eng.loadedAlone w (ck, mo)).isSome = true ↔
      ∃ pieces, eng.HasPieces w ck r.bins 1 pieces ∧ eng.Takes mo r.bins pieces := by
  have hinline := @run_get_inline Refusals.nothing eng w ck mo r.bins hstate value hnseg hint
  rw [call_nothing, ← loadedAlone_found hrec] at hinline
  rw [hinline]
  simp only [Engine.HasPieces, if_true]
  cases hb : r.bins .b with
  | none =>
    refine iff_of_false Bool.false_ne_true ?_
    rintro ⟨pieces, ⟨p, hp, -⟩, -⟩
    cases hp
  | some payload =>
    rw [Option.bind_some, read_inline_isSome_iff htorch]
    constructor
    · rintro ⟨p, rfl, htakes⟩
      exact ⟨[p], ⟨p, rfl, rfl⟩, htakes⟩
    · rintro ⟨pieces, ⟨p, hp, rfl⟩, htakes⟩
      exact ⟨p, Option.some.inj hp, htakes⟩

/-- Under a ready meta record whose number of segments is known, a whole payload is one whose
pieces are there and are taken. -/
theorem whole_iff {ck : Text} {mo : MemoryObj} {r : Record} {value : BinVal} {nseg : ℤ}
    (hrec : w.records (eng.metaKey ck) = some r) (hstate : r.bins .state = some (.str "ready"))
    (hnseg : r.bins .nseg = some value) (hint : Engine.pyInt value = .ok nseg) :
    eng.Whole w (ck, mo) ↔
      ∃ pieces, eng.HasPieces w ck r.bins nseg pieces ∧ eng.Takes mo r.bins pieces := by
  constructor
  · rintro ⟨r', value', nseg', pieces, hr, -, hvalue', hint', hhas, htakes⟩
    cases hrec.symm.trans hr
    cases hnseg.symm.trans hvalue'
    cases hint.symm.trans hint'
    exact ⟨pieces, hhas, htakes⟩
  · rintro ⟨pieces, hhas, htakes⟩
    exact ⟨r, value, nseg, pieces, hrec, hstate, hnseg, hint, hhas, htakes⟩

/-- Where a whole payload would have what is missing, `get` loads nothing. -/
theorem loads_nothing_iff {ck : Text} {mo : MemoryObj} {r : Record}
    {e : Except PyExc (Option Hit)} (hrec : w.records (eng.metaKey ck) = some r)
    (hrun : ((eng.get_with_meta ck (some mo) r.bins).run Op.perform w).1 = e)
    (hnone : loaded e = none)
    (hno : ∀ value nseg, r.bins .state = some (.str "ready") → r.bins .nseg = some value →
      Engine.pyInt value ≠ .ok nseg) :
    (eng.loadedAlone w (ck, mo)).isSome = true ↔ eng.Whole w (ck, mo) := by
  rw [loadedAlone_found hrec, hrun, hnone]
  refine iff_of_false Bool.false_ne_true ?_
  rintro ⟨r', value, nseg, pieces, hr, hstate, hvalue, hint, -⟩
  cases hrec.symm.trans hr
  exact hno value nseg hstate hvalue hint

/-- **`get` alone loads an item exactly when its payload is whole.** -/
theorem loadedAlone_isSome_iff (htorch : eng.TorchReads) (item : Text × MemoryObj) :
    (eng.loadedAlone w item).isSome = true ↔ eng.Whole w item := by
  obtain ⟨ck, mo⟩ := item
  cases hrec : w.records (eng.metaKey ck) with
  | none =>
    unfold Engine.loadedAlone
    rw [run_get_absent hrec]
    refine iff_of_false Bool.false_ne_true ?_
    rintro ⟨r, value, nseg, pieces, hr, -⟩
    cases hrec.symm.trans hr
  | some r =>
    by_cases hstate : r.bins .state = some (.str "ready")
    · cases hvalue : r.bins .nseg with
      | none =>
        refine loads_nothing_iff hrec (e := .error (.builtin .KeyError)) ?_ rfl
          fun value nseg _ h => ?_
        · unfold Engine.get_with_meta
          rw [if_neg (not_not.mpr hstate), hvalue]
          rfl
        · rw [hvalue] at h
          cases h
      | some value =>
        cases hint : Engine.pyInt value with
        | error e =>
          refine loads_nothing_iff hrec (e := .error e) ?_ rfl fun value' nseg _ h => ?_
          · unfold Engine.get_with_meta
            rw [if_neg (not_not.mpr hstate), hvalue]
            dsimp only
            rw [hint]
            rfl
          · rw [hvalue] at h
            cases h
            rw [hint]
            exact nofun
        | ok nseg =>
          rw [whole_iff hrec hstate hvalue hint]
          by_cases hn : nseg = 1
          · subst hn
            exact loads_inline_iff htorch hrec hstate hvalue hint
          · exact loads_sharded_iff htorch hrec hstate hvalue hint hn
    · refine loads_nothing_iff hrec (e := .ok none) ?_ rfl fun value nseg h => absurd h hstate
      unfold Engine.get_with_meta
      rw [if_pos hstate]
      rfl

/-- **The batch gets past an item exactly when it is loadable.** -/
theorem settles_iff (htorch : eng.TorchReads) {item : Text × MemoryObj}
    (hfits : eng.StoreFits w item) : eng.Settles w item ↔ eng.Loadable w item := by
  obtain ⟨ck, mo⟩ := item
  -- without a ready meta record there is nothing to load
  have hmiss : eng.read_meta_record (w.readRecord Engine.META_READ_BINS (eng.metaKey ck)) mo
      = .ok (.result none) → (∀ value, ¬ eng.ReadyWith w ck value) →
      (eng.Settles w (ck, mo) ↔ eng.Loadable w (ck, mo)) := fun hread hready =>
    iff_of_true ⟨_, hread, nofun⟩ fun value hvalue => absurd hvalue (hready value)
  cases hrec : w.records (eng.metaKey ck) with
  | none =>
    refine hmiss ?_ ?_
    · unfold Engine.read_meta_record
      rw [if_pos ?_]
      rw [Ne, World.readRecord_result, hrec]
      exact Bool.false_ne_true
    · rintro value ⟨r, hr, -⟩
      cases hrec.symm.trans hr
  | some r =>
    have hfound : w.readRecord Engine.META_READ_BINS (eng.metaKey ck)
        = ⟨AEROSPIKE_OK, some (selectBins (some Engine.META_READ_BINS) r.bins)⟩ :=
      World.readRecord_found hrec _
    by_cases hstate : r.bins .state = some (.str "ready")
    · obtain ⟨value, hvalue⟩ := hfits.nseg_there r hrec hstate
      have hready : eng.ReadyWith w ck value := ⟨r, hrec, hstate, hvalue⟩
      have hunique : ∀ value', eng.ReadyWith w ck value' → value' = value := by
        rintro value' ⟨r', hr', -, hvalue'⟩
        cases hrec.symm.trans hr'
        exact Option.some.inj (hvalue'.symm.trans hvalue)
      have hread := @read_meta_record_ready eng r.bins mo value hstate hvalue
      unfold Engine.Settles Engine.Loadable
      dsimp only
      rw [hfound, hread]
      cases hint : Engine.pyInt value with
      | error e =>
        refine iff_of_false (by rintro ⟨read, h, -⟩; cases h) fun hload => ?_
        obtain ⟨nseg, hok, -⟩ := hload value hready
        rw [hint] at hok
        cases hok
      | ok nseg =>
        dsimp only
        by_cases hn : nseg = 1
        · rw [if_neg (not_not.mpr hn)]
          refine iff_of_true ⟨_, rfl, nofun⟩ fun value' hready' => ⟨nseg, ?_, absurd hn⟩
          rw [hunique value' hready', hint]
        · rw [if_pos hn]
          have hsegments : eng.ReturnsAlone w (ck, mo) ↔
              ∀ key ∈ eng.foundSegments w ck nseg, w.Copyable mo.raw_is_tensor key := by
            rw [returns_sharded_iff hrec hstate hvalue hint hn]
            refine write_segments_returns_iff htorch (fun key hkey r' hr' => ?_) ?_
            · obtain ⟨i, -, rfl⟩ := List.mem_map.mp hkey
              exact hfits.b_there i r' hr'
            · rw [Nat.zero_add]
              exact hfits.room value nseg hready hint hn
          constructor
          · rintro ⟨read, hok, hreturns⟩ value' hready'
            cases hok
            rw [hunique value' hready']
            exact ⟨nseg, hint, fun _ => hsegments.mp (hreturns rfl)⟩
          · intro hload
            obtain ⟨nseg', hint', hcopy⟩ := hload value hready
            cases hint.symm.trans hint'
            exact ⟨_, rfl, fun _ => hsegments.mpr (hcopy hn)⟩
    · refine hmiss ?_ ?_
      · unfold Engine.read_meta_record
        rw [hfound, if_neg (not_not.mpr rfl)]
        dsimp only
        rw [selectBins_meta r.bins (by decide), if_pos hstate]
      · rintro value ⟨r', hr', hstate', -⟩
        cases hrec.symm.trans hr'
        exact hstate hstate'

end Item

/-! ## One chunk -/

section Chunk

variable {eng : Engine} {w : World} {S : Type} {h : ∀ o : Op, S → o.Res × S} {I : S → Prop}

/-- Every `get` of the run has the outcome that it has alone, and keeps the invariant. -/
def Engine.GetsAsAlone (eng : Engine) (w : World) (h : ∀ o : Op, S → o.Res × S) (I : S → Prop) :
    Prop :=
  ∀ ck mo s, I s →
    ((eng.get ck (some mo)).run h s).1 = ((eng.get ck (some mo)).run Op.perform w).1 ∧
      I ((eng.get ck (some mo)).run h s).2

/-- The loop over the meta records raises unless each of them can be read, and leaves the
sharded ones to `get`. -/
theorem read_meta_records_returns {items : List (Text × MemoryObj)} {i : ℕ} {st : LoadState}
    (f : Text × MemoryObj → BatchRecord) {P : Text × MemoryObj → Prop} :
    ∃ st' raised, eng.read_meta_records i st (items.map f) items = (st', raised) ∧
      ((raised = none ∧ ∀ x ∈ st'.multi_seg, P x.2) ↔
        (∀ x ∈ st.multi_seg, P x.2) ∧ ∀ item ∈ items, ∃ read,
          eng.read_meta_record (f item) item.2 = .ok read ∧ (read = .multi_seg → P item)) := by
  induction items generalizing i st with
  | nil => exact ⟨st, none, rfl, by simp⟩
  | cons item items ih =>
    obtain ⟨ck, mo⟩ := item
    rw [List.map_cons, Engine.read_meta_records]
    cases hread : eng.read_meta_record (f (ck, mo)) mo with
    | error e =>
      refine ⟨st, some e, rfl, iff_of_false (fun h => Option.some_ne_none e h.1) fun hall => ?_⟩
      obtain ⟨read, hok, -⟩ := (List.forall_mem_cons.mp hall.2).1
      rw [hread] at hok
      cases hok
    | ok read =>
      -- an item that is answered at once adds nothing to what `get` has to do
      have hanswered : ∀ st₁ : LoadState, st₁.multi_seg = st.multi_seg →
          (read = .multi_seg → False) → ∃ st' raised,
            eng.read_meta_records (i + 1) st₁ (items.map f) items = (st', raised) ∧
            ((raised = none ∧ ∀ x ∈ st'.multi_seg, P x.2) ↔
              (∀ x ∈ st.multi_seg, P x.2) ∧ ∀ item ∈ (ck, mo) :: items, ∃ read,
                eng.read_meta_record (f item) item.2 = .ok read ∧
                  (read = .multi_seg → P item)) := by
        intro st₁ hst hresult
        obtain ⟨st', raised, hloop, hiff⟩ := @ih (i + 1) st₁
        refine ⟨st', raised, hloop, hiff.trans ?_⟩
        have hfirst : ∃ read, eng.read_meta_record (f (ck, mo)) mo = .ok read ∧
            (read = .multi_seg → P (ck, mo)) :=
          ⟨read, hread, fun hmulti => (hresult hmulti).elim⟩
        rw [hst, List.forall_mem_cons, and_iff_right hfirst]
      cases read with
      | multi_seg =>
        obtain ⟨st', raised, hloop, hiff⟩ :=
          @ih (i + 1) { st with multi_seg := st.multi_seg ++ [(i, ck, mo)] }
        refine ⟨st', raised, hloop, hiff.trans ?_⟩
        rw [List.forall_mem_append, List.forall_mem_singleton, List.forall_mem_cons, and_assoc]
        refine and_congr_right fun _ => and_congr_left fun _ => ?_
        constructor
        · exact fun hP => ⟨_, hread, fun _ => hP⟩
        · rintro ⟨read, hok, hP⟩
          cases hread.symm.trans hok
          exact hP rfl
      | result filled =>
        cases filled with
        | none => exact hanswered st rfl fun h => by cases h
        | some filled => exact hanswered _ rfl fun h => by cases h

/-- What the loop over the meta records raises, the reading of one of them raises. -/
theorem read_meta_records_raised {items : List (Text × MemoryObj)} {i : ℕ} {st : LoadState}
    (f : Text × MemoryObj → BatchRecord) {e : PyExc}
    (h : (eng.read_meta_records i st (items.map f) items).2 = some e) :
    ∃ item ∈ items, eng.read_meta_record (f item) item.2 = .error e := by
  induction items generalizing i st with
  | nil => cases h
  | cons item items ih =>
    obtain ⟨ck, mo⟩ := item
    rw [List.map_cons, Engine.read_meta_records] at h
    cases hread : eng.read_meta_record (f (ck, mo)) mo with
    | error e' =>
      rw [hread] at h
      cases h
      exact ⟨(ck, mo), List.mem_cons_self, hread⟩
    | ok read =>
      rw [hread] at h
      have hrest : ∃ item ∈ items, eng.read_meta_record (f item) item.2 = .error e := by
        rcases read with (_ | filled) | _ <;> exact ih h
      obtain ⟨other, hother, herror⟩ := hrest
      exact ⟨other, List.mem_cons_of_mem _ hother, herror⟩

/-- What the loop leaves to `get` are sharded items of the chunk. -/
theorem multi_seg_mem {items : List (Text × MemoryObj)} {i : ℕ} {results : List (Option MemoryObj)}
    {st : LoadState} {f : Text × MemoryObj → BatchRecord}
    (h : eng.read_meta_records i ⟨results, []⟩ (items.map f) items = (st, none))
    {x : ℕ × Text × MemoryObj} (hx : x ∈ st.multi_seg) :
    x.2 ∈ items ∧ eng.read_meta_record (f x.2) x.2.2 = .ok .multi_seg := by
  have hread : ∀ {P : Text × MemoryObj → Prop}, (∀ x ∈ st.multi_seg, P x.2) ↔
      ∀ item ∈ items, ∃ read, eng.read_meta_record (f item) item.2 = .ok read ∧
        (read = .multi_seg → P item) := by
    intro P
    obtain ⟨st', raised, hloop, hiff⟩ := @read_meta_records_returns eng items i ⟨results, []⟩ f P
    cases h.symm.trans hloop
    rw [and_iff_right rfl, and_iff_right (by simp)] at hiff
    exact hiff
  have hall := (@hread fun _ => True).mp fun _ _ => trivial
  refine (@hread fun item => item ∈ items ∧ eng.read_meta_record (f item) item.2
    = .ok .multi_seg).mpr (fun item hitem => ?_) x hx
  obtain ⟨read, hok, -⟩ := hall item hitem
  exact ⟨read, hok, fun hmulti => ⟨hitem, hmulti ▸ hok⟩⟩

/-- The loop over the sharded items. -/
theorem get_multi_seg_returns (hget : eng.GetsAsAlone w h I)
    (multi_seg : List (ℕ × Text × MemoryObj)) (results : List (Option MemoryObj)) {s : S}
    (hs : I s) :
    ∃ results' raised s', (eng.get_multi_seg results multi_seg).run h s
        = (.ok (results', raised), s') ∧ I s' ∧
      (raised = none ↔ ∀ x ∈ multi_seg, eng.ReturnsAlone w x.2) ∧
      ∀ e, raised = some e → ∃ x ∈ multi_seg,
        ((eng.get x.2.1 (some x.2.2)).run Op.perform w).1 = .error e := by
  induction multi_seg generalizing results s with
  | nil => exact ⟨results, none, s, rfl, hs, iff_of_true rfl (fun x hx => by cases hx), nofun⟩
  | cons x multi_seg ih =>
    obtain ⟨i, ck, mo⟩ := x
    obtain ⟨halone, hkeeps⟩ := hget ck mo s hs
    unfold Engine.get_multi_seg
    rw [Prog.bind_eq, Prog.run_bind, Prog.run_attempt, Prog.andThen_ok, List.forall_mem_cons]
    rcases hone : (eng.get ck (some mo)).run h s with ⟨r, s₁⟩
    rw [hone] at halone hkeeps
    cases r with
    | error e =>
      refine ⟨results, some e, s₁, rfl, hkeeps, iff_of_false (Option.some_ne_none e) ?_, ?_⟩
      · rintro ⟨⟨hit, hhit⟩, -⟩
        cases halone.trans hhit
      · rintro e' ⟨⟩
        exact ⟨_, List.mem_cons_self, halone.symm⟩
    | ok hit =>
      have hreturns : eng.ReturnsAlone w (ck, mo) := ⟨hit, halone.symm⟩
      simp only [and_iff_right hreturns, List.exists_mem_cons_iff]
      have hrest : ∀ results, _ := fun results => ih results hkeeps
      cases hit with
      | none =>
        obtain ⟨results', raised, s', hrun, hs', hiff, hraised⟩ := hrest results
        exact ⟨results', raised, s', hrun, hs', hiff, fun e he => .inr (hraised e he)⟩
      | some hit =>
        obtain ⟨results', raised, s', hrun, hs', hiff, hraised⟩ :=
          hrest (results.set i (some hit.mo))
        exact ⟨results', raised, s', hrun, hs', hiff, fun e he => .inr (hraised e he)⟩

/-- **A chunk whose meta records are read.**  It raises nothing if and only if every item
settles, and then each has the answer it has alone; what it raises, an item raises alone. -/
theorem chunk_returns (hget : eng.GetsAsAlone w h I) {before items : List (Text × MemoryObj)}
    {after : List (Option MemoryObj)} {s s₁ : S}
    (hread : h (.batch_read (items.map fun item => eng.metaKey item.1) Engine.META_READ_BINS) s
      = (.ok (items.map fun item =>
          w.readRecord Engine.META_READ_BINS (eng.metaKey item.1)), s₁)) (hs : I s₁) :
    ∃ results' raised s', (eng.batched_get_preallocated_chunk items
        (before.map (eng.loadedAlone w) ++ ((items.map fun _ => none) ++ after))
        before.length).run h s = (.ok (results', raised), s') ∧ I s' ∧
      (raised = none ↔ ∀ item ∈ items, eng.Settles w item) ∧
      (raised = none →
        results' = before.map (eng.loadedAlone w) ++ (items.map (eng.loadedAlone w) ++ after)) ∧
      ∀ e, raised = some e → ∃ item ∈ items, eng.RaisesAlone w e item := by
  have hown : ∀ ck mo s, I s → loaded ((eng.get ck (some mo)).run h s).1
      = Refusals.nothing.own eng w (ck, mo) ∧ I ((eng.get ck (some mo)).run h s).2 := by
    intro ck mo s hs
    rw [own_nothing, (hget ck mo s hs).1]
    exact ⟨rfl, (hget ck mo s hs).2⟩
  have hvalue : ∀ results' s', (eng.batched_get_preallocated_chunk items
      (before.map (eng.loadedAlone w) ++ ((items.map fun _ => none) ++ after))
      before.length).run h s = (.ok (results', none), s') →
      results' = before.map (eng.loadedAlone w) ++ (items.map (eng.loadedAlone w) ++ after) := by
    intro results' s' hrun
    have hpend : Pending (eng.loadedAlone w)
        (before.map (eng.loadedAlone w) ++ (items.map (eng.loadedAlone w) ++ after))
        (before.map (eng.loadedAlone w) ++ ((items.map fun _ => none) ++ after))
        (places before.length items ++ []) := by
      rw [List.append_nil]
      exact pending_stretch _ before items after
    rw [← own_nothing] at hrun hpend ⊢
    exact (run_batched_get_chunk hown hread hrun hs hpend).2.eq_target
  obtain ⟨st, raised, hloop, hsettles⟩ := @read_meta_records_returns eng items before.length
    ⟨before.map (eng.loadedAlone w) ++ ((items.map fun _ => none) ++ after), []⟩
    (fun item => w.readRecord Engine.META_READ_BINS (eng.metaKey item.1)) (eng.ReturnsAlone w)
  rw [and_iff_right (show ∀ x ∈ [], _ from fun x hx => by cases hx)] at hsettles
  have hrun : (eng.batched_get_preallocated_chunk items
      (before.map (eng.loadedAlone w) ++ ((items.map fun _ => none) ++ after))
      before.length).run h s
      = (match raised with
          | some e => .ret (st.results, some e)
          | none => eng.get_multi_seg st.results st.multi_seg : EngineM _).run h s₁ := by
    unfold Engine.batched_get_preallocated_chunk
    show Prog.run _ (.call (Op.batch_read _ _) _) s = _
    rw [Prog.run_call, hread]
    dsimp only [Prog.ret_bind]
    rw [hloop]
    cases raised <;> rfl
  cases raised with
  | some e =>
    have hne := Option.some_ne_none e
    refine ⟨st.results, some e, s₁, hrun, hs, ?_, fun h => absurd h hne, fun e' he' => ?_⟩
    · exact iff_of_false hne fun hall => hne (hsettles.mpr hall).1
    · cases he'
      obtain ⟨item, hitem, herror⟩ := read_meta_records_raised _ (congrArg Prod.snd hloop)
      exact ⟨item, hitem, .inl herror⟩
  | none =>
    obtain ⟨results', raised, s', hloop', hs', hiff, hraised⟩ :=
      get_multi_seg_returns hget st.multi_seg st.results hs
    refine ⟨results', raised, s', hrun.trans hloop', hs', ?_, ?_, fun e he => ?_⟩
    · exact hiff.trans ((and_iff_right rfl).symm.trans hsettles)
    · rintro rfl
      exact hvalue results' s' (hrun.trans hloop')
    · obtain ⟨x, hx, hraises⟩ := hraised e he
      obtain ⟨hitem, hmulti⟩ := multi_seg_mem hloop hx
      exact ⟨x.2, hitem, .inr ⟨hmulti, hraises⟩⟩

end Chunk

/-! ## The chunks, without failures -/

section Perform

variable {eng : Engine} {w : World}

theorem answer_same_records {K : Text → Prop} {o : Op} (h : EngineReadCall eng K o)
    {w w' : World} (hw : w'.records = w.records) :
    (o.perform w').1 = (o.perform w).1 ∧ (o.perform w').2.records = (o.perform w).2.records := by
  rw [← call_nothing]
  exact call_same_records h hw

theorem get_keeps_records (ck : Text) (mo : MemoryObj) :
    ((eng.get ck (some mo)).run Op.perform w).2.records = w.records := by
  rw [← call_nothing]
  exact (loads_same_records rfl).2

theorem getsAsAlone_perform :
    eng.GetsAsAlone w Op.perform fun s => s.records = w.records := by
  intro ck mo s hs
  have hcalls : (eng.get ck (some mo)).AllCalls (EngineReadCall eng fun _ => True) :=
    get_calls ck (some mo) trivial
  obtain ⟨hres, hrecords⟩ := Prog.run_similar (R := fun (s w : World) => s.records = w.records)
    (fun o _ _ ho hs => answer_same_records ho hs) _ hcalls hs
  exact ⟨hres, hrecords.trans (get_keeps_records ck mo)⟩

theorem perform_read_metas {w₁ : World} (hw : w₁.records = w.records)
    (items : List (Text × MemoryObj)) :
    (Op.batch_read (items.map fun item => eng.metaKey item.1) Engine.META_READ_BINS).perform w₁
      = (.ok (items.map fun item =>
          w.readRecord Engine.META_READ_BINS (eng.metaKey item.1)), w₁) := by
  rw [← call_nothing]
  exact call_read_metas hw items

/-- **The loop over the chunks.**  It raises nothing if and only if every item settles, and what
it raises, an item raises alone. -/
theorem chunks_return (chunks : List (List (Text × MemoryObj)))
    (before : List (Text × MemoryObj)) {w₁ : World} (hw : w₁.records = w.records) :
    ∃ results' raised w', (eng.batched_get_preallocated_chunks
        (before.map (eng.loadedAlone w) ++ chunks.flatten.map fun _ => none)
        before.length chunks).run Op.perform w₁ = (.ok (results', raised), w') ∧
      (raised = none ↔ ∀ item ∈ chunks.flatten, eng.Settles w item) ∧
      (raised = none → results' = (before ++ chunks.flatten).map (eng.loadedAlone w)) ∧
      ∀ e, raised = some e → ∃ item ∈ chunks.flatten, eng.RaisesAlone w e item := by
  induction chunks generalizing before w₁ with
  | nil =>
    refine ⟨_, none, w₁, rfl, iff_of_true rfl fun item hitem => (by cases hitem),
      fun _ => ?_, nofun⟩
    rw [List.flatten_nil, List.map_nil, List.append_nil, List.append_nil]
  | cons chunk chunks ih =>
    obtain ⟨results', raised, w', hrun, hw', hiff, hvalue, hraised⟩ :=
      @chunk_returns eng w World Op.perform _ getsAsAlone_perform before chunk
        (chunks.flatten.map fun _ => none) w₁ w₁ (perform_read_metas hw chunk) hw
    rw [List.flatten_cons, List.map_append, List.forall_mem_append]
    unfold Engine.batched_get_preallocated_chunks
    rw [Prog.bind_eq, Prog.run_bind, hrun, Prog.andThen_ok]
    cases raised with
    | some e =>
      have hne := Option.some_ne_none e
      refine ⟨results', some e, w', rfl, iff_of_false hne (fun hall => hne (hiff.mpr hall.1)),
        fun h => absurd h hne, fun e' he' => ?_⟩
      obtain ⟨item, hitem, hraises⟩ := hraised e' he'
      exact ⟨item, List.mem_append_left _ hitem, hraises⟩
    | none =>
      rw [and_iff_right (hiff.mp rfl)]
      have hrest := ih (before ++ chunk) hw'
      rw [List.map_append, List.append_assoc, List.append_assoc, List.length_append] at hrest
      rw [hvalue rfl]
      obtain ⟨results', raised, w'', hrun', hiff', hvalue', hraised'⟩ := hrest
      refine ⟨results', raised, w'', hrun', hiff', hvalue', fun e he => ?_⟩
      obtain ⟨item, hitem, hraises⟩ := hraised' e he
      exact ⟨item, List.mem_append_right _ hitem, hraises⟩

end Perform
