/-
# Where the bytes of a read come from

A read makes several client calls, and other clients act between any two of them.  Whatever
answers it gets, the bytes that it hands on are put together from these answers in one way:

* a Python `get` that hits has filled its buffer with the payload of the meta record that it
  was answered, or with those of as many segment records as that record names (`get_gathers`);
* `batched_get_preallocated` has filled each buffer that it reports from a meta record of its
  key, or by such a `get` (`batched_get_preallocated_safe`);
* a native `do_single_get` that returns has copied the same, each piece of the length that the
  meta record led it to expect (`do_single_get_gathers`).

These are the rules by which a protocol of the store says what its readers deliver.
-/
import LmcacheAerospike.EngineRuns
import LmcacheAerospike.NativeReads
import LmcacheAerospike.Reader

section Sources

variable {env : World → World → Prop} {Does : RecOp → World → RecRes → World → Prop}

/-! ## A Python `get` -/

/-- The number of segments that a meta record names. -/
def NamesSegments (bins : Bins) (n : ℤ) : Prop :=
  ∃ value, bins .nseg = some value ∧ Engine.pyInt value = .ok n

theorem NamesSegments.eq_of_int {bins : Bins} {n m : ℤ} (h : NamesSegments bins n)
    (hbin : bins .nseg = some (.int m)) : n = m := by
  obtain ⟨value, hvalue, hn⟩ := h
  rw [hbin] at hvalue
  cases hvalue
  cases hn
  rfl

/-- The pieces that a reader of the meta record `bins` of `k` may put together. -/
inductive Gathered (P : Protocol (serve Does) env) (eng : Engine) (k : Text) (bins : Bins) :
    List Bytes → Prop
  | inline {payload : Bytes} : NamesSegments bins 1 → bins .b = some (.blob payload) →
      Gathered P eng k bins [payload]
  | segments {n : ℤ} {recs : List BatchRecord} {pieces : List Bytes} :
      NamesSegments bins n → n ≠ 1 →
      P.ResOk (.batch_read (segment_keys eng.cfg.ns eng.cfg.set_name k n.toNat) [.b])
        (.ok recs) →
      List.Forall₂ BatchRecord.Carries recs pieces → Gathered P eng k bins pieces

/-- What a hit of `get` has put together, and the checks that it has passed. -/
def HitGathers (P : Protocol (serve Does) env) (eng : Engine) (k : Text)
    (preallocated : Option MemoryObj) (hit : Hit) : Prop :=
  ∃ bins mo reshaped pieces, P.ResOk (.get (eng.metaKey k)) (.ok bins) ∧
    bins .state = some (.str "ready") ∧
    eng.receive_buffer bins preallocated = .ok (some mo, reshaped) ∧
    Gathered P eng k bins pieces ∧ hit.Fills mo pieces.flatten ∧
    eng.crc_matches bins hit.filled hit.total_written = true ∧
    (reshaped = false → hit.mo = hit.filled)

/-- What reading the payload may end in: pieces of the answers, written one after the other. -/
def PayloadGathers (P : Protocol (serve Does) env) (eng : Engine) (k : Text) (bins : Bins)
    (mo : MemoryObj) : Except PyExc (Option (MemoryObj × ℕ)) → Prop
  | .ok (some (filled, n)) => ∃ pieces, Gathered P eng k bins pieces ∧
      n = pieces.flatten.length ∧ pieces.flatten.length ≤ mo.room ∧
      filled = mo.filledWith pieces.flatten
  | _ => True

variable {P : Protocol (serve Does) env} {eng : Engine} {k : Text}

/-- Records that carry pieces deliver at most these. -/
theorem atMost_of_carries {recs : List BatchRecord} {pieces : List Bytes}
    (h : List.Forall₂ BatchRecord.Carries recs pieces) :
    List.Forall₂ BatchRecord.AtMost recs pieces := by
  apply h.imp
  rintro rec piece ⟨-, bins, hrecord, hb⟩ bins' hbins' chunk hchunk
  rw [hrecord] at hbins'
  cases hbins'
  rw [hb] at hchunk
  exact (Option.some.inj hchunk).symm

theorem read_payload_gathers (hG : GetCalls eng k P.Good) (heng : eng.LawfulMemory)
    {bins : Bins} {n : ℤ} (hn : NamesSegments bins n) (mo : MemoryObj) :
    P.Safe (PayloadGathers P eng k bins mo) (eng.read_payload k bins n mo) := by
  unfold Engine.read_payload
  by_cases hone : n = 1
  · subst hone
    rw [if_pos rfl]
    cases hb : bins .b with
    | none => trivial
    | some payload =>
      show Protocol.Safe _ _ (Prog.bind (Prog.ofExcept _) _)
      refine Protocol.safe_bind _ _ _ (Protocol.safe_ofExcept _ _ rfl) (fun filled hf => ?_)
        fun e _ => trivial
      obtain ⟨bytes, rfl, -, -⟩ := write_payload_blob heng.copiesBytes hf
      obtain ⟨h₁, h₂, h₃⟩ := write_payload_ok heng.copiesBytes hf
      rw [Nat.zero_add] at h₂
      refine ⟨[bytes], .inline hn hb, ?_⟩
      rw [List.flatten_singleton]
      exact ⟨h₁, h₂, h₃⟩
  · rw [if_neg hone]
    refine ⟨hG.read_segments n.toNat, fun x hx => ?_⟩
    cases x with
    | error exc => trivial
    | ok recs =>
      show Protocol.Safe _ _ (Prog.bind (Prog.ofExcept _) _)
      refine Protocol.safe_bind _ _ _ (Protocol.safe_ofExcept _ _ rfl) (fun filled hf => ?_)
        fun e _ => trivial
      rcases filled with _ | ⟨filled, total⟩
      · exact ⟨hG.release, fun _ _ => trivial⟩
      · obtain ⟨pieces, hpieces, -, -⟩ := write_segments_some heng.copiesBytes (Nat.zero_le _) hf
        obtain ⟨h₁, h₂, h₃⟩ :=
          write_segments_ok heng.copiesBytes (atMost_of_carries hpieces) (Nat.zero_le _) hf
        exact ⟨pieces, .segments hn hone hx hpieces, by omega, by omega, h₃⟩

/-- What `get` may end in, once it has its receive buffer. -/
def FillGathers (P : Protocol (serve Does) env) (eng : Engine) (k : Text) (bins : Bins)
    (mo : MemoryObj) (reshaped : Bool) : Except PyExc (Option Hit) → Prop
  | .ok (some hit) => ∃ pieces, Gathered P eng k bins pieces ∧ hit.Fills mo pieces.flatten ∧
      eng.crc_matches bins hit.filled hit.total_written = true ∧
      (reshaped = false → hit.mo = hit.filled)
  | _ => True

theorem fill_gathers (hG : GetCalls eng k P.Good) (heng : eng.LawfulMemory) {bins : Bins}
    {n : ℤ} (hn : NamesSegments bins n) (mo : MemoryObj) (expect_reshape : Bool) :
    P.Safe (FillGathers P eng k bins mo expect_reshape)
      (eng.fill k bins n mo expect_reshape) := by
  refine Protocol.safe_bind _ _ _ (read_payload_gathers hG heng hn mo)
    (fun filled hf => ?_) fun e _ => trivial
  rcases filled with _ | ⟨filled, total⟩
  · trivial
  · obtain ⟨pieces, hpieces, rfl, hroom, rfl⟩ := hf
    show Protocol.Safe _ _ (if _ then _ else _)
    split_ifs with hcrc hshape
    · refine Protocol.safe_bind _ _ _ (Protocol.safe_ofExcept _ _ rfl) (fun shaped hs => ?_)
        fun e _ => trivial
      refine ⟨pieces, hpieces, ⟨rfl, hroom, rfl, ?_⟩, hcrc, fun h => ?_⟩
      · rw [heng.reshape_take hs]
        exact mo.take_filledWith _
      · rw [hshape] at h
        cases h
    · exact ⟨pieces, hpieces, ⟨rfl, hroom, rfl, mo.take_filledWith _⟩, hcrc, fun _ => rfl⟩
    · exact ⟨hG.release, fun _ _ => trivial⟩

/-- What `get` may end in. -/
def GetGathers (P : Protocol (serve Does) env) (eng : Engine) (k : Text)
    (preallocated : Option MemoryObj) (r : Except PyExc (Option Hit)) : Prop :=
  ∀ hit, r = .ok (some hit) → HitGathers P eng k preallocated hit

/-- **A hit of `get` is put together from the answers.** -/
theorem get_gathers (hG : GetCalls eng k P.Good) (heng : eng.LawfulMemory)
    (preallocated : Option MemoryObj) :
    P.Safe (GetGathers P eng k preallocated) (eng.get k preallocated) := by
  have hmiss : GetGathers P eng k preallocated (.ok none) := fun hit h => by cases h
  have hraise : ∀ e, GetGathers P eng k preallocated (.error e) := fun e hit h => by cases h
  refine ⟨hG.read_meta, fun x hx => ?_⟩
  cases x with
  | error exc =>
    show Protocol.Safe _ _ (if _ then _ else _)
    split_ifs
    · exact hmiss
    · exact hmiss
    · exact hraise _
    · exact hraise _
  | ok bins =>
    show Protocol.Safe _ _ (eng.get_with_meta k preallocated bins)
    unfold Engine.get_with_meta
    by_cases hstate : bins .state = some (.str "ready")
    · rw [if_neg (not_not.mpr hstate)]
      cases hvalue : bins .nseg with
      | none => exact hraise _
      | some value =>
        show Protocol.Safe _ _ (Prog.bind (Prog.ofExcept (Engine.pyInt value)) _)
        refine Protocol.safe_bind _ _ _ (Protocol.safe_ofExcept _ _ rfl) (fun n hn => ?_)
          fun e _ => hraise e
        show Protocol.Safe _ _
          (Prog.bind (Prog.ofExcept (eng.receive_buffer bins preallocated)) _)
        refine Protocol.safe_bind _ _ _ (Protocol.safe_ofExcept _ _ rfl)
          (fun buffer hbuffer => ?_) fun e _ => hraise e
        obtain ⟨mo?, reshaped⟩ := buffer
        cases mo? with
        | none => exact hmiss
        | some mo =>
          refine Protocol.safe_tryCatch _ _ _
            (fill_gathers hG heng ⟨value, hvalue, hn⟩ mo reshaped) (fun hit hh => ?_)
            fun e _ => ⟨hG.release, fun _ _ => hraise e⟩
          cases hit with
          | none => exact hmiss
          | some hit =>
            intro hit' heq
            cases heq
            obtain ⟨pieces, hpieces, hfills, hcrc, hmo⟩ := hh
            exact ⟨bins, mo, reshaped, pieces, hx, hstate, hbuffer, hpieces, hfills, hcrc, hmo⟩
    · rw [if_pos hstate]
      exact hmiss

/-! ## A batched load -/

/-- What the protocol says of the buffers of a batched load: an inline payload is read into a
buffer, and a `get` fills one, only as `Q` allows. -/
structure Protocol.Loads (P : Protocol (serve Does) env) (eng : Engine)
    (Q : Text → MemoryObj → MemoryObj → Prop) : Prop where
  good_metas : ∀ items : List (Text × MemoryObj), P.Good
    (.batch_read (items.map fun item => eng.metaKey item.1) Engine.META_READ_BINS)
  of_metas : ∀ (items : List (Text × MemoryObj)) (recs : List BatchRecord),
    P.ResOk (.batch_read (items.map fun item => eng.metaKey item.1) Engine.META_READ_BINS)
      (.ok recs) →
    List.Forall₂ (fun item rec => ∀ filled,
      eng.read_meta_record rec item.2 = .ok (.result (some filled)) →
      Q item.1 item.2 filled) items recs
  of_get : ∀ ck mo, P.Safe (fun r => ∀ hit, r = .ok (some hit) → Q ck mo hit.mo)
    (eng.get ck (some mo))

/-- Every buffer that is reported belongs to its item. -/
def ResultsOf (Q : Text → MemoryObj → MemoryObj → Prop) (items : List (Text × MemoryObj))
    (results : List (Option MemoryObj)) : Prop :=
  ∀ (i : ℕ) (item : Text × MemoryObj) (filled : MemoryObj), items[i]? = some item →
    results[i]? = some (some filled) → Q item.1 item.2 filled

section Loads

variable {Q : Text → MemoryObj → MemoryObj → Prop} {items : List (Text × MemoryObj)}
  {results : List (Option MemoryObj)}

theorem ResultsOf.set (h : ResultsOf Q items results) {i : ℕ} {item : Text × MemoryObj}
    {filled : MemoryObj} (hitem : items[i]? = some item) (hQ : Q item.1 item.2 filled) :
    ResultsOf Q items (results.set i (some filled)) := by
  intro j item' filled' hitem' hres
  by_cases hij : i = j
  · subst hij
    rw [hitem] at hitem'
    cases hitem'
    rw [List.getElem?_set, if_pos rfl] at hres
    split_ifs at hres
    cases hres
    exact hQ
  · rw [List.getElem?_set_ne hij] at hres
    exact h j item' filled' hitem' hres

/-- The items left to `get` stand at their places. -/
def PlacesOf (items : List (Text × MemoryObj)) (multi_seg : List (ℕ × Text × MemoryObj)) :
    Prop :=
  ∀ x ∈ multi_seg, items[x.1]? = some x.2

/-- What the loop over the meta records has put into its locals. -/
structure LoadOf (Q : Text → MemoryObj → MemoryObj → Prop) (items : List (Text × MemoryObj))
    (st : LoadState) : Prop where
  results : ResultsOf Q items st.results
  multi_seg : PlacesOf items st.multi_seg

theorem read_meta_records_of {recs : List BatchRecord} {chunk before : List (Text × MemoryObj)}
    {st : LoadState}
    (hrecs : List.Forall₂ (fun item rec => ∀ filled,
      eng.read_meta_record rec item.2 = .ok (.result (some filled)) →
      Q item.1 item.2 filled) chunk recs)
    (hitems : ∃ after, items = before ++ chunk ++ after) (hst : LoadOf Q items st) :
    LoadOf Q items (eng.read_meta_records before.length st recs chunk).1 := by
  induction hrecs generalizing before st with
  | nil => exact hst
  | @cons item rec chunk recs hrec _ ih =>
    obtain ⟨after, hafter⟩ := hitems
    obtain ⟨ck, mo⟩ := item
    have hplace : items[before.length]? = some (ck, mo) := by
      rw [hafter, List.append_assoc, List.getElem?_append_right (Nat.le_refl _), Nat.sub_self]
      rfl
    have hnext := @ih (before ++ [(ck, mo)])
    rw [List.length_append, List.length_singleton] at hnext
    have hsplit : ∃ after, items = before ++ [(ck, mo)] ++ chunk ++ after :=
      ⟨after, by rw [hafter]; simp⟩
    rw [Engine.read_meta_records]
    cases hread : eng.read_meta_record rec mo with
    | error e => exact hst
    | ok read =>
      cases read with
      | multi_seg =>
        refine hnext hsplit ⟨hst.results, fun x hx => ?_⟩
        rcases List.mem_append.mp hx with hx | hx
        · exact hst.multi_seg x hx
        · rw [List.mem_singleton] at hx
          rw [hx]
          exact hplace
      | result filled =>
        cases filled with
        | none => exact hnext hsplit hst
        | some filled =>
          exact hnext hsplit ⟨hst.results.set hplace (hrec filled hread), hst.multi_seg⟩

/-- What the loops of a batched load may end in. -/
def LoopLoads (Q : Text → MemoryObj → MemoryObj → Prop) (items : List (Text × MemoryObj))
    (r : Except PyExc (List (Option MemoryObj) × Option PyExc)) : Prop :=
  ∀ results raised, r = .ok (results, raised) → ResultsOf Q items results

theorem loopLoads_ret (h : ResultsOf Q items results) (raised : Option PyExc) :
    LoopLoads Q items (.ok (results, raised)) := by
  intro results' raised' heq
  cases heq
  exact h

theorem loopLoads_raise (e : PyExc) : LoopLoads Q items (.error e) := by
  intro results' raised' heq
  cases heq

theorem get_multi_seg_loads (hP : P.Loads eng Q) {multi_seg : List (ℕ × Text × MemoryObj)}
    (hplaces : PlacesOf items multi_seg) (hres : ResultsOf Q items results) :
    P.Safe (LoopLoads Q items) (eng.get_multi_seg results multi_seg) := by
  induction multi_seg generalizing results with
  | nil => exact loopLoads_ret hres none
  | cons x multi_seg ih =>
    obtain ⟨i, ck, mo⟩ := x
    obtain ⟨hplace, hrest⟩ := List.forall_mem_cons.mp hplaces
    have hattempt : P.Safe (fun r => ∀ hit, r = .ok (.ok (some hit)) → Q ck mo hit.mo)
        (eng.get ck (some mo)).attempt := by
      have hget : P.Safe (fun r : Except PyExc (Except PyExc (Option Hit)) =>
          ∀ hit, r = .ok (.ok (some hit)) → Q ck mo hit.mo)
          ((eng.get ck (some mo)).bind fun a => .ret (.ok a)) := by
        refine Protocol.safe_bind _ _ _ (hP.of_get ck mo) (fun a ha hit heq => ?_)
          fun e _ hit heq => ?_
        · cases heq
          exact ha hit rfl
        · cases heq
      refine Protocol.safe_tryCatch _ _ _ hget (fun a ha => ha) fun e _ hit heq => ?_
      cases heq
    refine Protocol.safe_bind _ _ _ hattempt (fun r hr => ?_) fun e _ => loopLoads_raise e
    rcases r with e | hit
    · exact loopLoads_ret hres (some e)
    · rcases hit with _ | hit
      · exact ih hrest hres
      · exact ih hrest (hres.set hplace (hr hit rfl))

theorem batched_get_chunks_loads (hP : P.Loads eng Q) {chunks : List (List (Text × MemoryObj))}
    {before : List (Text × MemoryObj)} (hitems : items = before ++ chunks.flatten)
    (hres : ResultsOf Q items results) :
    P.Safe (LoopLoads Q items)
      (eng.batched_get_preallocated_chunks results before.length chunks) := by
  induction chunks generalizing before results with
  | nil => exact loopLoads_ret hres none
  | cons chunk chunks ih =>
    rw [List.flatten_cons, ← List.append_assoc] at hitems
    have hchunk : P.Safe (LoopLoads Q items)
        (eng.batched_get_preallocated_chunk chunk results before.length) := by
      refine ⟨hP.good_metas chunk, fun x hx => ?_⟩
      cases x with
      | error exc => exact loopLoads_ret hres (some (.aerospike exc))
      | ok recs =>
        have hst : LoadOf Q items
            (eng.read_meta_records before.length ⟨results, []⟩ recs chunk).1 :=
          read_meta_records_of (hP.of_metas chunk recs hx) ⟨_, hitems⟩
            ⟨hres, fun x hx => by cases hx⟩
        dsimp only [Prog.ret_bind]
        rcases hloop : eng.read_meta_records before.length ⟨results, []⟩ recs chunk
          with ⟨st, raised⟩
        rw [hloop] at hst
        cases raised with
        | some e => exact loopLoads_ret hst.results (some e)
        | none => exact get_multi_seg_loads hP hst.multi_seg hst.results
    refine Protocol.safe_bind _ _ _ hchunk (fun r hr => ?_) fun e _ => loopLoads_raise e
    obtain ⟨results', raised⟩ := r
    have hres' := hr results' raised rfl
    cases raised with
    | some e => exact loopLoads_ret hres' (some e)
    | none =>
      have hrest := ih hitems hres'
      rwa [List.length_append] at hrest

/-- **What a batched load reports.** -/
theorem batched_get_preallocated_safe (hP : P.Loads eng Q) (items : List (Text × MemoryObj)) :
    P.Safe (fun r => ∀ results, r = .ok results → ResultsOf Q items results)
      (eng.batched_get_preallocated items) := by
  unfold Engine.batched_get_preallocated
  split_ifs with hnil
  · intro results heq i item filled hitem
    rw [hnil] at hitem
    cases hitem
  · have hstart : ResultsOf Q items (items.map fun _ => none) := by
      intro i item filled _ hres
      rw [List.getElem?_map] at hres
      cases hi : items[i]? with
      | none =>
        rw [hi] at hres
        cases hres
      | some item' =>
        rw [hi] at hres
        cases hres
    have hflatten : items = [] ++ (Engine.chunked items Engine.BATCH_KEYS_CHUNK).flatten := by
      rw [flatten_chunked items (by decide), List.nil_append]
    have hloops := batched_get_chunks_loads hP hflatten hstart
    refine Protocol.safe_bind _ _ _ hloops (fun r hr => ?_) fun e _ results heq => ?_
    · obtain ⟨results, raised⟩ := r
      have hres := hr results raised rfl
      have hret : ∀ results', (Except.ok results : Except PyExc _) = .ok results' →
          ResultsOf Q items results' := by
        intro results' heq
        cases heq
        exact hres
      have hthrow : ∀ (e : PyExc) results', (Except.error e : Except PyExc _) = .ok results' →
          ResultsOf Q items results' := by
        intro e results' heq
        cases heq
      cases raised with
      | none => exact hret
      | some e =>
        cases e with
        | aerospike exc =>
          show Protocol.Safe _ _ (if _ then _ else _)
          split_ifs
          · exact hret
          · exact hthrow _
          · exact hthrow _
        | connector kind text => exact hthrow _
        | builtin err => exact hthrow _
    · cases heq

end Loads

/-! ## A native read -/

section Native

variable {conn : NativeConnector} {ck key : Text} {len : ℕ}

/-- The keys that the native functions on `ck` read. -/
structure NativeReadsGood (P : Protocol (serve Does) env) (conn : NativeConnector) (ck : Text) :
    Prop where
  read_meta : P.Good (.get (conn.as_key (meta_user_key ck)))
  read_segment : ∀ i, P.Good (.get (conn.as_key (segment_user_key ck i)))

/-- Segment `i` may be answered with this payload. -/
def NativeAnswers (P : Protocol (serve Does) env) (conn : NativeConnector) (ck : Text) (i : ℕ)
    (payload : Bytes) : Prop :=
  ∃ bins, P.ResOk (.get (conn.as_key (segment_user_key ck i))) (.ok bins) ∧
    as_record_get_bytes bins .b = some payload

/-- The pieces that a native reader of the meta record `rec` may copy. -/
def NativeGathered (P : Protocol (serve Does) env) (conn : NativeConnector) (ck : Text)
    (rec : Bins) (chunks : List Bytes) : Prop :=
  if meta_nseg rec = 1 then ∃ payload, as_record_get_bytes rec .b = some payload ∧
    chunks = [payload]
  else List.Forall₂ (NativeAnswers P conn ck) (List.range (meta_nseg rec)) chunks

/-- What the loop over the segments may end in. -/
def SegmentsGather (P : Protocol (serve Does) env) (conn : NativeConnector) (ck : Text)
    (len seg_b offset : ℕ) (buf : Bytes) (i n : ℕ) (r : Except (RuntimeError × Bytes) Bytes) :
    Prop :=
  ∀ buf', r = .ok buf' → ∃ chunks, List.Forall₂ (NativeAnswers P conn ck) (List.range' i n) chunks ∧
    chunks.map List.length = chunk_lengths len seg_b offset n ∧
    buf' = splice offset chunks.flatten buf

theorem get_segments_gathers (hP : NativeReadsGood P conn ck) (hlen : len < 2 ^ 64) {seg_b : ℕ}
    {n i offset : ℕ} (hoff : offset ≤ len) {buf : Bytes} (hbuf : len ≤ buf.length) :
    P.Safe (SegmentsGather P conn ck len seg_b offset buf i n)
      (conn.get_segments ck len seg_b offset buf i n) := by
  induction n generalizing i offset buf with
  | zero =>
    intro buf' heq
    cases heq
    exact ⟨[], .nil, rfl, (splice_nil offset _).symm⟩
  | succ n ih =>
    have hthrow : ∀ e, SegmentsGather P conn ck len seg_b offset buf i (n + 1) (.error e) := by
      intro e buf' heq
      cases heq
    unfold NativeConnector.get_segments
    dsimp only
    rw [size_sub_of_le hoff hlen]
    -- one segment: nothing is copied, or its answer, of the length asked for
    have hpiece : P.Safe (fun r => ∀ buf₁, r = .ok (true, buf₁) →
        ∃ payload, NativeAnswers P conn ck i payload ∧
          payload.length = min seg_b (len - offset) ∧ buf₁ = memcpy buf offset payload)
        (conn.read_payload_record (segment_user_key ck i) buf offset
          (min seg_b (len - offset))) := by
      refine ⟨hP.read_segment i, fun x hx => ?_⟩
      cases x with
      | error err =>
        show Protocol.Safe _ _ (if _ then _ else _)
        split_ifs
        · intro buf₁ heq
          cases heq
        · intro buf₁ heq
          cases heq
      | ok bins =>
        dsimp only [Prog.ret_bind]
        cases hb : as_record_get_bytes bins .b with
        | none =>
          intro buf₁ heq
          cases heq
        | some payload =>
          dsimp only
          split_ifs with hsize
          · intro buf₁ heq
            cases heq
            exact ⟨payload, ⟨bins, hx, hb⟩, hsize, rfl⟩
          · intro buf₁ heq
            cases heq
    refine Protocol.safe_bind _ _ _ hpiece ?_ fun e _ => hthrow e
    rintro ⟨found, buf₁⟩ hread
    cases found with
    | false => exact hthrow _
    | true =>
      obtain ⟨payload, hanswer, hsize, rfl⟩ := hread buf₁ rfl
      have hkeeps : KeepsTail len buf (memcpy buf offset payload) :=
        memcpy_keepsTail hbuf (by omega)
      dsimp only
      rw [Nat.mod_eq_of_lt (by omega)]
      have hrest := @ih (i + 1) (offset + min seg_b (len - offset)) (by omega)
        (memcpy buf offset payload) (by rw [hkeeps.length_eq]; exact hbuf)
      refine Protocol.safe_mono P (fun r hr buf' heq => ?_) _ hrest
      obtain ⟨chunks, hchunks, hlengths, rfl⟩ := hr buf' heq
      refine ⟨payload :: chunks, ?_, ?_, ?_⟩
      · rw [List.range'_succ]
        exact .cons hanswer hchunks
      · rw [List.map_cons, chunk_lengths, hlengths, hsize]
      · rw [List.flatten_cons, memcpy, ← hsize, splice_append _ _ _ _ (by omega)]

/-- What a native read may end in. -/
def NativeGetGathers (P : Protocol (serve Does) env) (conn : NativeConnector) (ck : Text)
    (len : ℕ) (buf : Bytes) (r : Except (RuntimeError × Bytes) Bytes) : Prop :=
  ∀ buf', r = .ok buf' → ∃ rec chunks,
    P.ResOk (.get (conn.as_key (meta_user_key ck))) (.ok rec) ∧
    as_record_get_str rec .state = some "ready".toList ∧ meta_total_b rec len = len ∧
    NativeGathered P conn ck rec chunks ∧
    chunks.map List.length = NativeConnector.asked_lengths rec len ∧
    buf' = splice 0 chunks.flatten buf

/-- **What a native read copies is put together from the answers.** -/
theorem do_single_get_gathers (hP : NativeReadsGood P conn ck)
    (hkey : native_key_to_cache_engine_key key conn.dtype = .ok ck) (hlen : len < 2 ^ 64)
    {buf : Bytes} (hbuf : len ≤ buf.length) :
    P.Safe (NativeGetGathers P conn ck len buf) (conn.do_single_get key buf len) := by
  have hthrow : ∀ e, NativeGetGathers P conn ck len buf (.error e) := by
    intro e buf' heq
    cases heq
  rw [do_single_get_eq hkey]
  refine ⟨hP.read_meta, fun x hx => ?_⟩
  cases x with
  | error err => exact hthrow _
  | ok rec =>
    show Protocol.Safe _ _ (conn.get_with_record ck buf len rec)
    by_cases hready : as_record_get_str rec .state = some "ready".toList
    · by_cases htotal : meta_total_b rec len = len
      · rw [get_with_record_eq hready htotal]
        by_cases hn : meta_nseg rec = 1
        · rw [if_pos hn]
          cases hb : as_record_get_bytes rec .b with
          | none => exact hthrow _
          | some payload =>
            dsimp only
            split_ifs with hsize
            · exact hthrow _
            · intro buf' heq
              cases heq
              refine ⟨rec, [payload], hx, hready, htotal, ?_, ?_, ?_⟩
              · rw [NativeGathered, if_pos hn]
                exact ⟨payload, hb, rfl⟩
              · rw [NativeConnector.asked_lengths, if_pos hn, List.map_singleton,
                  not_not.mp hsize]
              · rw [List.flatten_singleton]
                rfl
        · rw [if_neg hn]
          refine Protocol.safe_mono P (fun r hr buf' heq => ?_) _
            (get_segments_gathers hP hlen (Nat.zero_le _) hbuf)
          obtain ⟨chunks, hchunks, hlengths, rfl⟩ := hr buf' heq
          refine ⟨rec, chunks, hx, hready, htotal, ?_, ?_, rfl⟩
          · rw [NativeGathered, if_neg hn, List.range_eq_range']
            exact hchunks
          · rw [NativeConnector.asked_lengths, if_neg hn]
            exact hlengths
      · unfold NativeConnector.get_with_record
        rw [if_neg (not_not.mpr hready)]
        dsimp only
        rw [if_pos (show int64_to_size _ ≠ len from htotal)]
        exact hthrow _
    · unfold NativeConnector.get_with_record
      rw [if_pos hready]
      exact hthrow _

end Native

end Sources
