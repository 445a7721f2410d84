/-
# A batch of loads that times out

`batched_get_preallocated` reads the meta records of a chunk at once, and then, in the `get` of
each sharded item, its segments.  Any of these reads may time out; the batch then returns what it
has.  It answers for the items of earlier chunks what `get` alone would.  Of the chunk that fails
nothing is answered when its meta records are not read; when the segments of a sharded item are
not read, the items that were settled before it keep their answers.

So the batch agrees with `get`, timeouts of later chunks included, if and only if no `get` of a
sharded item raises and in no later chunk a whole payload is settled before a sharded item
(`batched_get_agrees_iff`).
-/
import LmcacheAerospike.LoadAgreement

/-! ## A read that times out -/

/-- A call of a run in which one `batch_read` raises `exc`; the state counts the ones before. -/
def Op.timesOut (exc : AxError) (o : Op) (s : World × ℕ) : o.Res × (World × ℕ) :=
  match o, s with
  | .batch_read _ _, (w, 0) => (.error exc, w, 0)
  | .batch_read keys bins, (w, n + 1) =>
    (((Op.batch_read keys bins).perform w).1, ((Op.batch_read keys bins).perform w).2, n)
  | o, (w, n) => ((o.perform w).1, (o.perform w).2, n)

/-- The number of `batch_read`s for some chunks: one for the meta records of each, and one for
the segments of each sharded item. -/
def Engine.batchReads (eng : Engine) (w : World) (chunks : List (List (Text × MemoryObj))) : ℕ :=
  (chunks.map fun chunk => 1 + chunk.countP (eng.sharded w)).sum

/-- The sharded items, with their positions from `i` on. -/
def Engine.leftToGet (eng : Engine) (w : World) (i : ℕ) (items : List (Text × MemoryObj)) :
    List (ℕ × Text × MemoryObj) :=
  (places i items).filter fun x => eng.sharded w x.2

/-- The answer that an item has before the sharded items of its chunk are read. -/
def Engine.atOnce (eng : Engine) (w : World) (item : Text × MemoryObj) : Option MemoryObj :=
  if eng.sharded w item then none else eng.loadedAlone w item

/-- The list is split at the element that satisfies the predicate after `n` others. -/
theorem exists_split_of_lt_countP {α : Type} (p : α → Bool) {l : List α} {n : ℕ}
    (h : n < l.countP p) :
    ∃ a y b, l = a ++ y :: b ∧ p y = true ∧ a.countP p = n := by
  induction l generalizing n with
  | nil => cases h
  | cons x l ih =>
    by_cases hx : p x = true
    · rw [List.countP_cons_of_pos hx] at h
      cases n with
      | zero => exact ⟨[], x, l, rfl, hx, rfl⟩
      | succ n =>
        obtain ⟨a, y, b, rfl, hy, hcount⟩ := ih (Nat.lt_of_succ_lt_succ h)
        exact ⟨x :: a, y, b, rfl, hy, by rw [List.countP_cons_of_pos hx, hcount]⟩
    · rw [List.countP_cons_of_neg hx] at h
      obtain ⟨a, y, b, rfl, hy, hcount⟩ := ih h
      exact ⟨x :: a, y, b, rfl, hy, by rw [List.countP_cons_of_neg hx, hcount]⟩

section TimesOut

variable {eng : Engine} {w w₁ : World} (exc : AxError)

theorem readRecord_same {names : List BinName} (hw : w₁.records = w.records) :
    w₁.readRecord names = w.readRecord names := by
  funext key
  simp only [World.readRecord, hw]

/-! ## One item -/

/-- **The `get` of a sharded item whose segment read times out** raises what the client does. -/
theorem get_timed_out {item : Text × MemoryObj} (hsharded : eng.sharded w item = true)
    (hw : w₁.records = w.records) :
    ((eng.get item.1 (some item.2)).run (Op.timesOut exc) (w₁, 0)).1
      = .error (.aerospike exc) := by
  obtain ⟨r, value, nseg, hrec, hstate, hvalue, hint, hn⟩ := sharded_iff.mp hsharded
  rw [← hw] at hrec
  have hmeta : Op.timesOut exc (.get (eng.metaKey item.1)) (w₁, 0) = (.ok r.bins, w₁, 0) := by
    show (((Op.get _).perform w₁).1, ((Op.get _).perform w₁).2, 0) = _
    rw [perform_get_found hrec]
  have hread : Op.timesOut exc
      (.batch_read (segment_keys eng.cfg.ns eng.cfg.set_name item.1 nseg.toNat) [.b]) (w₁, 0)
        = (.error exc, w₁, 0) := rfl
  rw [run_get_sharded hmeta hstate hvalue hint hn hread]
  rfl

/-- A `get` of a sharded item before the timeout is as it is alone, and makes one `batch_read`. -/
theorem get_in_time {item : Text × MemoryObj} (hsharded : eng.sharded w item = true)
    (hw : w₁.records = w.records) (n : ℕ) :
    ((eng.get item.1 (some item.2)).run (Op.timesOut exc) (w₁, n + 1)).1
        = ((eng.get item.1 (some item.2)).run Op.perform w).1 ∧
      ∃ w', ((eng.get item.1 (some item.2)).run (Op.timesOut exc) (w₁, n + 1)).2 = (w', n) ∧
        w'.records = w.records := by
  obtain ⟨r, value, nseg, hrec, hstate, hvalue, hint, hn⟩ := sharded_iff.mp hsharded
  have hrec₁ : w₁.records (eng.metaKey item.1) = some r := by rw [hw, hrec]
  have hmeta : Op.timesOut exc (.get (eng.metaKey item.1)) (w₁, n + 1)
      = (.ok r.bins, w₁, n + 1) := by
    show (((Op.get _).perform w₁).1, ((Op.get _).perform w₁).2, n + 1) = _
    rw [perform_get_found hrec₁]
  have hread : Op.timesOut exc
      (.batch_read (segment_keys eng.cfg.ns eng.cfg.set_name item.1 nseg.toNat) [.b]) (w₁, n + 1)
        = (.ok ((segment_keys eng.cfg.ns eng.cfg.set_name item.1 nseg.toNat).map
            (w.readRecord [.b])), w₁, n) := by
    show (((Op.batch_read _ _).perform w₁).1, ((Op.batch_read _ _).perform w₁).2, n) = _
    rw [perform_batch_read, readRecord_same hw]
  rw [run_get_sharded hmeta hstate hvalue hint hn hread,
    run_get_sharded_alone hrec hstate hvalue hint hn]
  -- what is left of `get` makes no call that goes to the server
  have hcalls := @finishSegments_calls eng r.bins item.2
    (.ok ((segment_keys eng.cfg.ns eng.cfg.set_name item.1 nseg.toNat).map (w.readRecord [.b])))
  generalize eng.finishSegments r.bins item.2 _ = rest at hcalls ⊢
  obtain ⟨hres, hrecords, hcount⟩ :
      (rest.run (Op.timesOut exc) (w₁, n)).1 = (rest.run Op.perform w).1 ∧
      (rest.run (Op.timesOut exc) (w₁, n)).2.1.records = (rest.run Op.perform w).2.records ∧
      (rest.run (Op.timesOut exc) (w₁, n)).2.2 = n :=
    Prog.run_similar (R := fun (s : World × ℕ) (w' : World) => s.1.records = w'.records ∧ s.2 = n)
      (by
        rintro o s w' rfl hs
        exact ⟨rfl, hs⟩) _ hcalls ⟨hw, rfl⟩
  refine ⟨hres, _, Prod.ext rfl hcount, hrecords.trans ?_⟩
  exact Prog.run_keeps (I := fun w' : World => w'.records = w.records)
    (by
      rintro o w' rfl hs
      exact hs) _ hcalls rfl

/-! ## One chunk -/

theorem leftToGet_of_sharded {item : Text × MemoryObj} (h : eng.sharded w item = true) (i : ℕ)
    (items : List (Text × MemoryObj)) :
    eng.leftToGet w i (item :: items) = (i, item) :: eng.leftToGet w (i + 1) items :=
  List.filter_cons_of_pos h

theorem leftToGet_of_not_sharded {item : Text × MemoryObj} (h : ¬ eng.sharded w item = true)
    (i : ℕ) (items : List (Text × MemoryObj)) :
    eng.leftToGet w i (item :: items) = eng.leftToGet w (i + 1) items :=
  List.filter_cons_of_neg h

theorem atOnce_of_sharded {item : Text × MemoryObj} (h : eng.sharded w item = true) :
    eng.atOnce w item = none := if_pos h

theorem atOnce_of_not_sharded {item : Text × MemoryObj} (h : ¬ eng.sharded w item = true) :
    eng.atOnce w item = eng.loadedAlone w item := if_neg h

/-- The list with the answer of one position set. -/
theorem set_at_length {α : Type} (before : List α) (x y : α) (after : List α) :
    (before ++ x :: after).set before.length y = before ++ [y] ++ after := by
  rw [List.set_append_right _ _ (Nat.le_refl _), Nat.sub_self, List.set_cons_zero,
    List.append_assoc, List.singleton_append]

/-- **The loop over the meta records of items that settle** answers the inline ones and leaves
the sharded ones to `get`, in order. -/
theorem read_meta_records_settled {items : List (Text × MemoryObj)}
    (hsettle : ∀ item ∈ items, eng.Settles w item) (before after : List (Option MemoryObj))
    (multi_seg : List (ℕ × Text × MemoryObj)) :
    eng.read_meta_records before.length
        ⟨before ++ ((items.map fun _ => none) ++ after), multi_seg⟩
        (items.map fun item => w.readRecord Engine.META_READ_BINS (eng.metaKey item.1)) items
      = (⟨before ++ (items.map (eng.atOnce w) ++ after),
          multi_seg ++ eng.leftToGet w before.length items⟩, none) := by
  induction items generalizing before multi_seg with
  | nil => rw [Engine.leftToGet, places, List.filter_nil, List.append_nil]; rfl
  | cons item items ih =>
    obtain ⟨ck, mo⟩ := item
    obtain ⟨⟨read, hread, -⟩, hrest⟩ := List.forall_mem_cons.mp hsettle
    have hlength : ∀ x : Option MemoryObj, (before ++ [x]).length = before.length + 1 :=
      fun x => List.length_append
    simp only [List.map_cons, List.cons_append]
    rw [Engine.read_meta_records, show eng.read_meta_record _ mo = _ from hread]
    cases read with
    | multi_seg =>
      have hsharded : eng.sharded w (ck, mo) = true := multi_seg_iff.mp hread
      have hnext := ih hrest (before ++ [none]) (multi_seg ++ [(before.length, ck, mo)])
      rw [hlength, List.append_assoc, List.append_assoc, List.append_assoc] at hnext
      rw [leftToGet_of_sharded hsharded, atOnce_of_sharded hsharded]
      exact hnext
    | result filled =>
      have hsharded : ¬ eng.sharded w (ck, mo) = true := fun h => by
        cases hread.symm.trans (multi_seg_iff.mpr h)
      have hown : eng.loadedAlone w (ck, mo) = filled := by
        rw [← own_nothing]
        exact read_meta_record_loads hread
      have hnext := ih hrest (before ++ [filled]) multi_seg
      rw [hlength, List.append_assoc, List.append_assoc] at hnext
      rw [leftToGet_of_not_sharded hsharded, atOnce_of_not_sharded hsharded, hown]
      cases filled with
      | none => exact hnext
      | some filled =>
        dsimp only
        rw [set_at_length, List.append_assoc]
        exact hnext

/-- One item of a chunk: when `get` returns for it, it has the answer that it has alone, and the
loop over the sharded items goes on with those after it. -/
theorem get_multi_seg_item {item : Text × MemoryObj} (items : List (Text × MemoryObj))
    (hreturns : eng.sharded w item = true → eng.ReturnsAlone w item)
    (before after : List (Option MemoryObj)) (hw : w₁.records = w.records) (n : ℕ) :
    ∃ w', w'.records = w.records ∧
      (eng.get_multi_seg (before ++ ((item :: items).map (eng.atOnce w) ++ after))
          (eng.leftToGet w before.length (item :: items))).run
        (Op.timesOut exc) (w₁, [item].countP (eng.sharded w) + n)
      = (eng.get_multi_seg (before ++ [eng.loadedAlone w item]
            ++ (items.map (eng.atOnce w) ++ after))
          (eng.leftToGet w (before.length + 1) items)).run (Op.timesOut exc) (w', n) := by
  rw [List.map_cons, List.cons_append]
  by_cases hsharded : eng.sharded w item = true
  · rw [leftToGet_of_sharded hsharded, atOnce_of_sharded hsharded,
      List.countP_cons_of_pos hsharded, List.countP_nil, Nat.zero_add, Nat.add_comm 1 n]
    obtain ⟨halone, w', hstate, hw'⟩ := get_in_time exc hsharded hw n
    obtain ⟨hit, hhit⟩ := hreturns hsharded
    obtain ⟨ck, mo⟩ := item
    refine ⟨w', hw', ?_⟩
    rw [Engine.get_multi_seg, Prog.bind_eq, Prog.run_bind, Prog.run_attempt, Prog.andThen_ok]
    unfold Engine.loadedAlone
    rw [hstate, halone, hhit]
    cases hit with
    | none =>
      rw [List.append_assoc]
      rfl
    | some hit =>
      dsimp only
      rw [set_at_length]
      rfl
  · refine ⟨w₁, hw, ?_⟩
    rw [leftToGet_of_not_sharded hsharded, atOnce_of_not_sharded hsharded,
      List.countP_cons_of_neg hsharded, List.countP_nil, Nat.zero_add, List.append_assoc]
    rfl

/-- **The loop over the sharded items, up to the timeout**: the items of the first part have the
answers that they have alone. -/
theorem get_multi_seg_prefix {first : List (Text × MemoryObj)} (rest : List (Text × MemoryObj))
    (hreturns : ∀ item ∈ first, eng.sharded w item = true → eng.ReturnsAlone w item)
    (before after : List (Option MemoryObj)) (hw : w₁.records = w.records) (n : ℕ) :
    ∃ w', w'.records = w.records ∧
      (eng.get_multi_seg (before ++ ((first ++ rest).map (eng.atOnce w) ++ after))
          (eng.leftToGet w before.length (first ++ rest))).run
        (Op.timesOut exc) (w₁, first.countP (eng.sharded w) + n)
      = (eng.get_multi_seg
          (before ++ (first.map (eng.loadedAlone w) ++ (rest.map (eng.atOnce w) ++ after)))
          (eng.leftToGet w (before.length + first.length) rest)).run
        (Op.timesOut exc) (w', n) := by
  induction first generalizing before w₁ with
  | nil => exact ⟨w₁, hw, by rw [List.countP_nil, Nat.zero_add]; rfl⟩
  | cons item first ih =>
    obtain ⟨hitem, hfirst⟩ := List.forall_mem_cons.mp hreturns
    obtain ⟨w₂, hw₂, hstep⟩ := get_multi_seg_item exc (first ++ rest) hitem before after hw
      (first.countP (eng.sharded w) + n)
    rw [← Nat.add_assoc, ← List.countP_append, List.singleton_append] at hstep
    obtain ⟨w', hw', hrest⟩ := ih hfirst (before ++ [eng.loadedAlone w item]) hw₂
    refine ⟨w', hw', hstep.trans ?_⟩
    have hlength : (before ++ [eng.loadedAlone w item]).length = before.length + 1 :=
      List.length_append
    rw [hlength] at hrest
    rw [hrest, List.append_assoc, List.length_cons, Nat.add_assoc, Nat.add_comm 1]
    rfl

/-- A chunk of items that settle: after its first `batch_read`, the sharded items are left. -/
theorem run_chunk_settled {items : List (Text × MemoryObj)}
    (hsettle : ∀ item ∈ items, eng.Settles w item) (before after : List (Option MemoryObj))
    (hw : w₁.records = w.records) (n : ℕ) :
    (eng.batched_get_preallocated_chunk items (before ++ ((items.map fun _ => none) ++ after))
        before.length).run (Op.timesOut exc) (w₁, n + 1)
      = (eng.get_multi_seg (before ++ (items.map (eng.atOnce w) ++ after))
          (eng.leftToGet w before.length items)).run (Op.timesOut exc) (w₁, n) := by
  have hread : Op.timesOut exc
      (.batch_read (items.map fun item => eng.metaKey item.1) Engine.META_READ_BINS) (w₁, n + 1)
      = (.ok (items.map fun item =>
          w.readRecord Engine.META_READ_BINS (eng.metaKey item.1)), w₁, n) := by
    show (((Op.batch_read _ _).perform w₁).1, ((Op.batch_read _ _).perform w₁).2, n) = _
    rw [perform_read_metas hw items]
  unfold Engine.batched_get_preallocated_chunk
  show Prog.run _ (.call (Op.batch_read _ _) _) (w₁, n + 1) = _
  rw [Prog.run_call, hread]
  dsimp only [Prog.ret_bind]
  rw [read_meta_records_settled hsettle]
  rfl

/-- A sharded item that settles is one whose `get` returns. -/
theorem returns_of_settles {item : Text × MemoryObj} (h : eng.Settles w item)
    (hsharded : eng.sharded w item = true) : eng.ReturnsAlone w item := by
  obtain ⟨read, hread, hreturns⟩ := h
  cases hread.symm.trans (multi_seg_iff.mpr hsharded)
  exact hreturns rfl

/-- What a chunk has answered when its `m`-th `batch_read` times out: nothing if it is the one for
the meta records; else the sharded items before the one whose segments are not read, and the
inline ones. -/
inductive Engine.AnswersUntil (eng : Engine) (w : World) :
    List (Text × MemoryObj) → ℕ → List (Option MemoryObj) → Prop
  | metas (chunk : List (Text × MemoryObj)) : AnswersUntil eng w chunk 0 (chunk.map fun _ => none)
  | segments (first : List (Text × MemoryObj)) (item : Text × MemoryObj)
      (rest : List (Text × MemoryObj)) : eng.sharded w item = true →
      AnswersUntil eng w (first ++ item :: rest) (first.countP (eng.sharded w) + 1)
        (first.map (eng.loadedAlone w) ++ (item :: rest).map (eng.atOnce w))

/-- Every call of a chunk may be the one that times out. -/
theorem answersUntil_exists {chunk : List (Text × MemoryObj)} {m : ℕ}
    (hm : m < 1 + chunk.countP (eng.sharded w)) :
    ∃ answers, eng.AnswersUntil w chunk m answers := by
  cases m with
  | zero => exact ⟨_, .metas chunk⟩
  | succ m =>
    obtain ⟨first, item, rest, rfl, hsharded, rfl⟩ :=
      exists_split_of_lt_countP (eng.sharded w) (show m < chunk.countP (eng.sharded w) by omega)
    exact ⟨_, .segments first item rest hsharded⟩

/-- **A chunk before the timeout** answers for its items as `get` does alone. -/
theorem chunk_in_time {items : List (Text × MemoryObj)}
    (hsettle : ∀ item ∈ items, eng.Settles w item) (before after : List (Option MemoryObj))
    (hw : w₁.records = w.records) (n : ℕ) :
    ∃ w', w'.records = w.records ∧
      (eng.batched_get_preallocated_chunk items (before ++ ((items.map fun _ => none) ++ after))
          before.length).run (Op.timesOut exc) (w₁, 1 + items.countP (eng.sharded w) + n)
        = (.ok (before ++ (items.map (eng.loadedAlone w) ++ after), none), w', n) := by
  obtain ⟨w', hw', hloop⟩ := get_multi_seg_prefix exc []
    (fun item hitem => returns_of_settles (hsettle item hitem)) before after hw n
  rw [List.append_nil] at hloop
  refine ⟨w', hw', ?_⟩
  rw [Nat.add_right_comm, Nat.add_comm 1 n, Nat.add_right_comm, Nat.add_comm n,
    run_chunk_settled exc hsettle before after hw]
  exact hloop

/-- **The chunk that times out.** -/
theorem chunk_times_out {chunk : List (Text × MemoryObj)} {m : ℕ}
    {answers : List (Option MemoryObj)} (hanswers : eng.AnswersUntil w chunk m answers)
    (hsettle : ∀ item ∈ chunk, eng.Settles w item) (before after : List (Option MemoryObj))
    (hw : w₁.records = w.records) :
    ((eng.batched_get_preallocated_chunk chunk (before ++ ((chunk.map fun _ => none) ++ after))
        before.length).run (Op.timesOut exc) (w₁, m)).1
      = .ok (before ++ (answers ++ after), some (.aerospike exc)) := by
  cases hanswers with
  | metas => rfl
  | segments first item rest hsharded =>
    obtain ⟨w', hw', hloop⟩ := get_multi_seg_prefix exc (item :: rest)
      (fun item hitem => returns_of_settles (hsettle item (List.mem_append_left _ hitem)))
      before after hw 0
    rw [Nat.add_zero] at hloop
    rw [run_chunk_settled exc hsettle before after hw, hloop, leftToGet_of_sharded hsharded]
    obtain ⟨ck, mo⟩ := item
    have hraised := get_timed_out exc hsharded hw'
    rw [Engine.get_multi_seg, Prog.bind_eq, Prog.run_bind, Prog.run_attempt, Prog.andThen_ok,
      hraised, List.append_assoc]
    rfl

/-! ## The chunks -/

/-- The loop over the chunks, up to the one that times out. -/
theorem chunks_in_time {first : List (List (Text × MemoryObj))}
    (hsettle : ∀ item ∈ first.flatten, eng.Settles w item)
    (rest : List (List (Text × MemoryObj))) (before : List (Text × MemoryObj))
    (hw : w₁.records = w.records) (n : ℕ) :
    ∃ w', w'.records = w.records ∧
      (eng.batched_get_preallocated_chunks
          (before.map (eng.loadedAlone w) ++ (first ++ rest).flatten.map fun _ => none)
          before.length (first ++ rest)).run (Op.timesOut exc) (w₁, eng.batchReads w first + n)
        = (eng.batched_get_preallocated_chunks
            ((before ++ first.flatten).map (eng.loadedAlone w) ++ rest.flatten.map fun _ => none)
            (before ++ first.flatten).length rest).run (Op.timesOut exc) (w', n) := by
  induction first generalizing before w₁ with
  | nil =>
    refine ⟨w₁, hw, ?_⟩
    rw [List.flatten_nil, List.append_nil, Engine.batchReads, List.map_nil, List.sum_nil,
      Nat.zero_add]
    rfl
  | cons chunk first ih =>
    rw [List.flatten_cons, List.forall_mem_append] at hsettle
    have hreads : eng.batchReads w (chunk :: first) + n
        = 1 + chunk.countP (eng.sharded w) + (eng.batchReads w first + n) := by
      rw [Engine.batchReads, List.map_cons, List.sum_cons, Nat.add_assoc]
      rfl
    obtain ⟨w₂, hw₂, hchunk⟩ := chunk_in_time exc hsettle.1
      (before.map (eng.loadedAlone w)) ((first ++ rest).flatten.map fun _ => none) hw
      (eng.batchReads w first + n)
    obtain ⟨w', hw', hrest⟩ := ih hsettle.2 (before ++ chunk) hw₂
    refine ⟨w', hw', ?_⟩
    rw [List.length_map] at hchunk
    rw [hreads, List.cons_append, List.flatten_cons, List.map_append]
    rw [Engine.batched_get_preallocated_chunks, Prog.bind_eq, Prog.run_bind, hchunk,
      Prog.andThen_ok]
    rw [List.map_append, List.append_assoc, List.length_append, List.append_assoc] at hrest
    exact hrest

/-- **The loop over the chunks that times out.** -/
theorem chunks_time_out {first rest : List (List (Text × MemoryObj))}
    {chunk : List (Text × MemoryObj)} {m : ℕ} {answers : List (Option MemoryObj)}
    (hanswers : eng.AnswersUntil w chunk m answers)
    (hsettle : ∀ item ∈ (first ++ chunk :: rest).flatten, eng.Settles w item) :
    ((eng.batched_get_preallocated_chunks ((first ++ chunk :: rest).flatten.map fun _ => none) 0
        (first ++ chunk :: rest)).run (Op.timesOut exc) (w, eng.batchReads w first + m)).1
      = .ok (first.flatten.map (eng.loadedAlone w) ++ (answers ++ rest.flatten.map fun _ => none),
          some (.aerospike exc)) := by
  rw [List.flatten_append, List.flatten_cons, List.forall_mem_append,
    List.forall_mem_append] at hsettle
  obtain ⟨w', hw', hrun⟩ := chunks_in_time exc hsettle.1 (chunk :: rest) [] rfl m
  rw [List.map_nil, List.nil_append, List.nil_append] at hrun
  have hfails := chunk_times_out exc hanswers hsettle.2.1
    (first.flatten.map (eng.loadedAlone w)) (rest.flatten.map fun _ => none) hw'
  rw [List.length_map] at hfails
  rw [show (0 : ℕ) = ([] : List (Text × MemoryObj)).length from rfl, hrun, List.flatten_cons,
    List.map_append]
  unfold Engine.batched_get_preallocated_chunks
  rw [Prog.bind_eq, Prog.run_bind]
  rcases hchunk : (eng.batched_get_preallocated_chunk chunk
    (first.flatten.map (eng.loadedAlone w) ++ ((chunk.map fun _ => none)
      ++ rest.flatten.map fun _ => none)) first.flatten.length).run (Op.timesOut exc) (w', m)
    with ⟨r, s⟩
  rw [hchunk] at hfails
  obtain rfl := hfails
  rfl

end TimesOut

/-! ## The whole batch -/

/-- The first chunks are the first items. -/
theorem take_chunked {α : Type} (items : List α) {n : ℕ} (k : ℕ)
    (hk : k ≤ (Engine.chunked items n).length) :
    ((Engine.chunked items n).take k).flatten = items.take (k * n) := by
  rw [Engine.chunked, List.length_map, List.length_range] at hk
  rw [Engine.chunked, ← List.map_take, List.take_range, Nat.min_eq_left hk, ← List.flatMap_def,
    flatMap_slice]

/-- The chunks from the number `k` on hold the items from `k * n` on. -/
theorem drop_chunked {α : Type} (items : List α) {n : ℕ} (hn : 0 < n) (k : ℕ)
    (hk : k ≤ (Engine.chunked items n).length) :
    ((Engine.chunked items n).drop k).flatten = items.drop (k * n) := by
  have hall := flatten_chunked items hn
  rw [← List.take_append_drop k (Engine.chunked items n), List.flatten_append,
    take_chunked items k hk] at hall
  exact List.append_cancel_left (hall.trans (List.take_append_drop (k * n) items).symm)

/-- **The batch agrees with `get`.**  Without client errors it answers for every item, in order,
with what `get` alone loads into the item's buffer, or nothing.  When any `batch_read` of a later
chunk times out, the items before that chunk have these answers and the others none. -/
def Engine.AgreesWithGet (eng : Engine) (w : World) (items : List (Text × MemoryObj)) : Prop :=
  ((eng.batched_get_preallocated items).run Op.perform w).1
      = .ok (items.map (eng.loadedAlone w)) ∧
    ∀ exc k n, classify (.ax exc) = .timeout →
      0 < k → k < (Engine.chunked items Engine.BATCH_KEYS_CHUNK).length →
      eng.batchReads w ((Engine.chunked items Engine.BATCH_KEYS_CHUNK).take k) ≤ n →
      n < eng.batchReads w ((Engine.chunked items Engine.BATCH_KEYS_CHUNK).take (k + 1)) →
      ((eng.batched_get_preallocated items).run (Op.timesOut exc) (w, n)).1
        = .ok ((items.take (k * Engine.BATCH_KEYS_CHUNK)).map (eng.loadedAlone w)
            ++ (items.drop (k * Engine.BATCH_KEYS_CHUNK)).map fun _ => none)

/-- In the chunk no whole payload is settled before a sharded item is read: neither that of an
item before it, nor that of an inline item after it. -/
def Engine.NothingBefore (eng : Engine) (w : World) (chunk : List (Text × MemoryObj)) : Prop :=
  ∀ first item rest, chunk = first ++ item :: rest → eng.sharded w item = true →
    (∀ other ∈ first, ¬ eng.Whole w other) ∧
      ∀ other ∈ rest, eng.sharded w other = false → ¬ eng.Whole w other

section Batch

variable {eng : Engine} {w : World} {items : List (Text × MemoryObj)}

/-- The loop over the chunks as the batch starts it. -/
theorem batch_chunks_return (eng : Engine) (w : World) (items : List (Text × MemoryObj)) :
    ∃ results' raised w', (eng.batched_get_preallocated_chunks (items.map fun _ => none) 0
        (Engine.chunked items Engine.BATCH_KEYS_CHUNK)).run Op.perform w
          = (.ok (results', raised), w') ∧
      (raised = none ↔ ∀ item ∈ items, eng.Settles w item) ∧
      (raised = none → results' = items.map (eng.loadedAlone w)) ∧
      ∀ e, raised = some e → ∃ item ∈ items, eng.RaisesAlone w e item := by
  have hchunks := @chunks_return eng w (Engine.chunked items Engine.BATCH_KEYS_CHUNK) [] w rfl
  rw [flatten_chunked items (by decide)] at hchunks
  exact hchunks

/-- **Without client errors** the batch answers as `get` does alone, or raises what an item
raises alone. -/
theorem run_batch_cases (hraises : eng.TorchRaises) (items : List (Text × MemoryObj)) :
    (((eng.batched_get_preallocated items).run Op.perform w).1
        = .ok (items.map (eng.loadedAlone w)) ∧ ∀ item ∈ items, eng.Settles w item) ∨
      ∃ e, ((eng.batched_get_preallocated items).run Op.perform w).1 = .error e ∧
        (¬ ∀ item ∈ items, eng.Settles w item) ∧ ∃ item ∈ items, eng.RaisesAlone w e item := by
  unfold Engine.batched_get_preallocated
  by_cases hnil : items = []
  · subst hnil
    exact .inl ⟨rfl, fun item hitem => by cases hitem⟩
  · obtain ⟨results', raised, w', hrun, hiff, hvalue, hraised⟩ := batch_chunks_return eng w items
    -- an exception of the client could be a timeout, with which the batch returns
    have hother : RaisesOther (.ok (results', raised)) := by
      have hmeets := Prog.run_meets (fun o w => call_answersBatch (R := .nothing) o w) _
        (batched_get_chunks_raises hraises (items.map fun _ => none) 0
          (Engine.chunked items Engine.BATCH_KEYS_CHUNK)) w
      rwa [call_nothing, hrun] at hmeets
    rw [if_neg hnil, Prog.bind_eq, Prog.run_bind, hrun, Prog.andThen_ok]
    cases raised with
    | none =>
      rw [hvalue rfl]
      exact .inl ⟨rfl, hiff.mp rfl⟩
    | some e =>
      refine .inr ⟨e, ?_, fun hall => Option.some_ne_none e (hiff.mpr hall), hraised e rfl⟩
      cases e with
      | aerospike exc => exact (hother results' exc rfl).elim
      | connector kind text => rfl
      | builtin err => rfl

theorem run_batch_iff (hraises : eng.TorchRaises) :
    ((eng.batched_get_preallocated items).run Op.perform w).1
        = .ok (items.map (eng.loadedAlone w)) ↔ ∀ item ∈ items, eng.Settles w item := by
  obtain ⟨hrun, hall⟩ | ⟨e, hrun, hnot, -⟩ := @run_batch_cases eng w hraises items
  · exact iff_of_true hrun hall
  · rw [hrun]
    exact iff_of_false nofun hnot

/-- A `batch_read` of a chunk times out. -/
theorem run_batch_times_out {exc : AxError} (hexc : classify (.ax exc) = .timeout)
    {first rest : List (List (Text × MemoryObj))} {chunk : List (Text × MemoryObj)} {m : ℕ}
    {answers : List (Option MemoryObj)} (hanswers : eng.AnswersUntil w chunk m answers)
    (hchunks : Engine.chunked items Engine.BATCH_KEYS_CHUNK = first ++ chunk :: rest)
    (hsettle : ∀ item ∈ items, eng.Settles w item) :
    ((eng.batched_get_preallocated items).run (Op.timesOut exc)
        (w, eng.batchReads w first + m)).1
      = .ok (first.flatten.map (eng.loadedAlone w)
          ++ (answers ++ rest.flatten.map fun _ => none)) := by
  have hall := flatten_chunked items (show 0 < Engine.BATCH_KEYS_CHUNK by decide)
  rw [hchunks] at hall
  have hrun := chunks_time_out exc hanswers (hall.symm ▸ hsettle)
  rw [hall] at hrun
  have hne : items ≠ [] := by
    rintro rfl
    have hlength := congrArg List.length hchunks
    rw [List.length_append, List.length_cons] at hlength
    cases hlength
  unfold Engine.batched_get_preallocated
  rw [if_neg hne, hchunks, Prog.bind_eq, Prog.run_bind]
  rcases hloop : (eng.batched_get_preallocated_chunks (items.map fun _ => none) 0
    (first ++ chunk :: rest)).run (Op.timesOut exc) (w, eng.batchReads w first + m) with ⟨r, s⟩
  rw [hloop] at hrun
  obtain rfl := hrun
  rw [Prog.andThen_ok]
  show (Prog.run _ (if classify (.ax exc) = .timeout then _ else _) s).1 = _
  rw [if_pos hexc]
  rfl

/-- The reads up to a chunk and its own are those of the chunks up to and with it. -/
theorem batchReads_take_succ (eng : Engine) (w : World)
    {chunks : List (List (Text × MemoryObj))} {k : ℕ} {chunk : List (Text × MemoryObj)}
    (hchunk : chunks[k]? = some chunk) :
    eng.batchReads w (chunks.take (k + 1))
      = eng.batchReads w (chunks.take k) + (1 + chunk.countP (eng.sharded w)) := by
  rw [List.take_add_one, hchunk, Engine.batchReads, List.map_append, List.sum_append]
  rfl

/-- The batch answers for nothing but earlier chunks when it times out in a chunk that has no
answer until then. -/
theorem chunk_unanswered_iff (hsettle : ∀ item ∈ items, eng.Settles w item) {k m : ℕ}
    {chunk : List (Text × MemoryObj)}
    (hchunk : (Engine.chunked items Engine.BATCH_KEYS_CHUNK)[k]? = some chunk) {exc : AxError}
    (hexc : classify (.ax exc) = .timeout) {answers : List (Option MemoryObj)}
    (hanswers : eng.AnswersUntil w chunk m answers) :
    ((eng.batched_get_preallocated items).run (Op.timesOut exc)
        (w, eng.batchReads w ((Engine.chunked items Engine.BATCH_KEYS_CHUNK).take k) + m)).1
      = .ok ((items.take (k * Engine.BATCH_KEYS_CHUNK)).map (eng.loadedAlone w)
          ++ (items.drop (k * Engine.BATCH_KEYS_CHUNK)).map fun _ => none) ↔
      answers = chunk.map fun _ => none := by
  obtain ⟨hk, hget⟩ := List.getElem?_eq_some_iff.mp hchunk
  have hdrop := List.drop_eq_getElem_cons hk
  rw [hget] at hdrop
  have hsplit := (List.take_append_drop k (Engine.chunked items Engine.BATCH_KEYS_CHUNK)).symm
  rw [hdrop] at hsplit
  rw [run_batch_times_out hexc hanswers hsplit hsettle, take_chunked items k hk.le,
    ← drop_chunked items (by decide) k hk.le, hdrop, List.flatten_cons, List.map_append,
    Except.ok.injEq, List.append_cancel_left_eq, List.append_cancel_right_eq]

/-- A chunk that times out leaves no answer, whichever of its reads does so, if and only if
nothing is settled before its sharded items. -/
theorem nothingBefore_iff (htorch : eng.TorchReads) {chunk : List (Text × MemoryObj)} :
    eng.NothingBefore w chunk ↔ ∀ m answers, eng.AnswersUntil w chunk m answers →
      answers = chunk.map fun _ => none := by
  have hown : ∀ item, eng.loadedAlone w item = none ↔ ¬ eng.Whole w item := fun item => by
    rw [← loadedAlone_isSome_iff htorch, Bool.not_eq_true, Option.isSome_eq_false_iff,
      Option.isNone_iff_eq_none]
  have hatOnce : ∀ item, eng.atOnce w item = none ↔
      (eng.sharded w item = false → ¬ eng.Whole w item) := fun item => by
    by_cases hsharded : eng.sharded w item = true
    · simp [Engine.atOnce, hsharded]
    · rw [atOnce_of_not_sharded hsharded, hown]
      exact ⟨fun h _ => h, fun h => h (Bool.eq_false_iff.mpr hsharded)⟩
  constructor
  · intro hnothing m answers hanswers
    cases hanswers with
    | metas => rfl
    | segments first item rest hsharded =>
      obtain ⟨hfirst, hrest⟩ := hnothing first item rest rfl hsharded
      rw [List.map_append]
      congr 1
      · exact List.map_congr_left fun other hother => (hown other).mpr (hfirst other hother)
      · rw [List.map_cons, List.map_cons, atOnce_of_sharded hsharded]
        congr 1
        exact List.map_congr_left fun other hother => (hatOnce other).mpr (hrest other hother)
  · rintro hnone first item rest rfl hsharded
    have hanswers := hnone _ _ (.segments first item rest hsharded)
    rw [List.map_append] at hanswers
    obtain ⟨hfirst, hrest⟩ := List.append_inj hanswers (by rw [List.length_map, List.length_map])
    rw [List.map_cons, List.map_cons] at hrest
    refine ⟨fun other hother => ?_, fun other hother => ?_⟩
    · exact (hown other).mp (List.map_inj_left.mp hfirst other hother)
    · exact (hatOnce other).mp (List.map_inj_left.mp (List.cons.inj hrest).2 other hother)

end Batch

/-- **When a batch of loads agrees with `get`.**  On a store whose ready meta records have their
`nseg` and whose segments have their `b`, with room in the buffers: the batch agrees with `get`,
timeouts of later chunks included, if and only if every item is loadable and in every chunk but
the first nothing is settled before a sharded item. -/
theorem batched_get_agrees_iff (eng : Engine) (htorch : eng.TorchReads)
    (hraises : eng.TorchRaises) (w : World) (items : List (Text × MemoryObj))
    (hfits : ∀ item ∈ items, eng.StoreFits w item) :
    eng.AgreesWithGet w items ↔ (∀ item ∈ items, eng.Loadable w item) ∧
      ∀ k chunk, 0 < k → (Engine.chunked items Engine.BATCH_KEYS_CHUNK)[k]? = some chunk →
        eng.NothingBefore w chunk := by
  have hsettles : (∀ item ∈ items, eng.Settles w item) ↔ ∀ item ∈ items, eng.Loadable w item :=
    forall₂_congr fun item hitem => settles_iff htorch (hfits item hitem)
  unfold Engine.AgreesWithGet
  rw [run_batch_iff hraises, ← hsettles]
  refine and_congr_right fun hall => ?_
  constructor
  · intro htimes k chunk hk hchunk
    have hreads := batchReads_take_succ eng w hchunk
    refine (nothingBefore_iff htorch).mpr fun m answers hanswers => ?_
    have hm : m < 1 + chunk.countP (eng.sharded w) := by
      cases hanswers with
      | metas => omega
      | segments first item rest hsharded =>
        rw [List.countP_append, List.countP_cons_of_pos hsharded]
        omega
    have htimeout : classify (.ax ⟨.TimeoutError, 9, "", "", ""⟩) = .timeout := rfl
    exact (chunk_unanswered_iff hall hchunk htimeout hanswers).mp (htimes _ k _ htimeout hk
      (List.getElem?_eq_some_iff.mp hchunk).1 (Nat.le_add_right _ _) (by rw [hreads]; omega))
  · intro hnothing exc k n hexc hk hlt hle hn
    obtain ⟨m, rfl⟩ := Nat.exists_eq_add_of_le hle
    have hchunk := List.getElem?_eq_getElem hlt
    rw [batchReads_take_succ eng w hchunk] at hn
    obtain ⟨answers, hanswers⟩ := answersUntil_exists (Nat.lt_of_add_lt_add_left hn)
    exact (chunk_unanswered_iff hall hchunk hexc hanswers).mpr
      ((nothingBefore_iff htorch).mp (hnothing k _ hk hchunk) m answers hanswers)

/-- A store with one sharded payload, the bytes of its second segment being these. -/
def twoSegments (bytes : Bytes) : World :=
  ((World.empty.setRecord (shortSegments.metaKey "k".toList)
      (some ⟨readyBins 2 none, 0, 0, none⟩)).setRecord (shortSegments.segmentKey "k".toList 0)
      (some ⟨readyBins 0 (some (.blob [1, 2])), 0, 0, none⟩)).setRecord
    (shortSegments.segmentKey "k".toList 1) (some ⟨readyBins 0 (some (.blob bytes)), 0, 0, none⟩)

/-- The payload and a tensor of eight bytes to load it into. -/
def tensorItem : Text × MemoryObj :=
  ("k".toList, { byte_array := List.replicate 8 0, raw_is_tensor := true })

/-- The store with an inline payload beside it. -/
def inlineAndSegments : World :=
  (twoSegments [3]).setRecord (shortSegments.metaKey "a".toList)
    (some ⟨readyBins 1 (some (.blob [7])), 0, 0, none⟩)

/-- A chunk of absent keys, and then the inline payload and the sharded one. -/
def secondChunkItems : List (Text × MemoryObj) :=
  List.replicate 32 ("absent".toList, .zeros 8) ++ [("a".toList, .zeros 8), tensorItem]

theorem found_setRecord {w : World} {key k : Key} {r r' : Record}
    (h : (w.setRecord k (some r)).records key = some r') :
    key = k ∧ r' = r ∨ w.records key = some r' := by
  by_cases hkey : key = k
  · subst hkey
    rw [World.setRecord_self] at h
    exact Or.inl ⟨rfl, (Option.some.inj h).symm⟩
  · rw [World.setRecord_of_ne _ hkey] at h
    exact Or.inr h

/-- The segments of these stores have their `b`. -/
theorem twoSegments_b {bytes : Bytes} {ck : Text} {i : ℕ} {r : Record}
    (h : (twoSegments bytes).records (shortSegments.segmentKey ck i) = some r) :
    ∃ value, r.bins .b = some value := by
  rcases found_setRecord h with ⟨-, rfl⟩ | h
  · exact ⟨_, rfl⟩
  · rcases found_setRecord h with ⟨-, rfl⟩ | h
    · exact ⟨_, rfl⟩
    · rcases found_setRecord h with ⟨hkey, -⟩ | h
      · exact absurd hkey.symm (meta_key_ne_segment_key _ _ _ _ _ _ _)
      · cases h

theorem inlineAndSegments_b {ck : Text} {i : ℕ} {r : Record}
    (h : inlineAndSegments.records (shortSegments.segmentKey ck i) = some r) :
    ∃ value, r.bins .b = some value := by
  rcases found_setRecord h with ⟨hkey, -⟩ | h
  · exact absurd hkey.symm (meta_key_ne_segment_key _ _ _ _ _ _ _)
  · exact twoSegments_b h

theorem twoSegments_fits {bytes : Bytes} (hlen : bytes.length ≤ 6) :
    shortSegments.StoreFits (twoSegments bytes) tensorItem where
  nseg_there := fun r hr _ => by
    cases hr
    exact ⟨_, rfl⟩
  b_there := fun i r hr => twoSegments_b hr
  room := fun value nseg hready hint _ => by
    obtain ⟨r, hr, -, hvalue⟩ := hready
    cases hr
    cases hvalue
    cases hint
    show ([1, 2] ++ (bytes ++ [])).length ≤ 8
    rw [List.append_nil, List.length_append]
    show 2 + bytes.length ≤ 8
    omega

theorem secondChunk_fits :
    ∀ item ∈ secondChunkItems, shortSegments.StoreFits inlineAndSegments item := by
  intro item hitem
  rcases List.mem_append.mp hitem with habsent | hmem
  · rw [List.eq_of_mem_replicate habsent]
    refine ⟨fun r hr => (by cases hr), fun i r hr => inlineAndSegments_b hr, ?_⟩
    rintro value nseg ⟨r, hr, -⟩
    cases hr
  · rcases List.mem_cons.mp hmem with rfl | hmem
    · refine ⟨fun r hr _ => ?_, fun i r hr => inlineAndSegments_b hr, ?_⟩
      · cases hr
        exact ⟨_, rfl⟩
      · rintro value nseg ⟨r, hr, -, hvalue⟩ hint hn
        cases hr
        cases hvalue
        cases hint
        exact absurd rfl hn
    · rw [List.mem_singleton.mp hmem]
      refine ⟨fun r hr _ => ?_, fun i r hr => inlineAndSegments_b hr, ?_⟩
      · cases hr
        exact ⟨_, rfl⟩
      · rintro value nseg ⟨r, hr, -, hvalue⟩ hint -
        cases hr
        cases hvalue
        cases hint
        exact (by decide : 3 ≤ 8)

/-- More than a chunk of sharded payloads without empty segments, of which the last may time out
in its meta read or in its segment read. -/
theorem batched_get_agrees_sharded :
    shortSegments.AgreesWithGet (twoSegments [3]) (List.replicate 33 tensorItem) := by
  refine (batched_get_agrees_iff shortSegments (fakeEngine_torchReads _ _ _ _)
    (fakeEngine_raisesLocally _ _ _ _).torch (twoSegments [3]) _ ?_).mpr ⟨?_, ?_⟩
  · intro item hitem
    rw [List.eq_of_mem_replicate hitem]
    exact twoSegments_fits (by decide)
  · intro item hitem
    rw [List.eq_of_mem_replicate hitem]
    refine fun value hready => ⟨2, ?_, fun _ => ?_⟩
    · obtain ⟨r, hr, -, hvalue⟩ := hready
      cases hr
      cases hvalue
      rfl
    · have hfound : shortSegments.foundSegments (twoSegments [3]) "k".toList 2
          = [shortSegments.segmentKey "k".toList 0, shortSegments.segmentKey "k".toList 1] := rfl
      rw [show shortSegments.foundSegments _ tensorItem.1 2 = _ from hfound,
        List.forall_mem_cons, List.forall_mem_singleton]
      exact ⟨⟨_, [1, 2], rfl, rfl, fun _ => nofun⟩, ⟨_, [3], rfl, rfl, fun _ => nofun⟩⟩
  · intro k chunk hk hchunk
    have hchunks : Engine.chunked (List.replicate 33 tensorItem) Engine.BATCH_KEYS_CHUNK
        = [List.replicate 32 tensorItem, [tensorItem]] := rfl
    obtain rfl : k = 1 := by
      have hlt := (List.getElem?_eq_some_iff.mp hchunk).1
      rw [hchunks] at hlt
      exact Nat.le_antisymm (Nat.le_of_lt_succ hlt) hk
    rw [hchunks] at hchunk
    obtain rfl : [tensorItem] = chunk := Option.some.inj hchunk
    intro first item rest hsplit _
    have hlength := congrArg List.length hsplit
    rw [List.length_append, List.length_singleton, List.length_cons] at hlength
    rw [List.length_eq_zero_iff.mp (show first.length = 0 by omega),
      List.length_eq_zero_iff.mp (show rest.length = 0 by omega)]
    exact ⟨nofun, nofun⟩

/-- An empty segment ends the batch that loads it into a tensor.  And when the segments of the
sharded payload time out, the inline one of the same chunk is answered. -/
theorem batched_get_disagrees :
    (∀ item ∈ [tensorItem], shortSegments.StoreFits (twoSegments []) item) ∧
      ((shortSegments.batched_get_preallocated [tensorItem]).run Op.perform (twoSegments [])).1
        = .error (.builtin .ValueError) ∧
      ¬ shortSegments.AgreesWithGet (twoSegments []) [tensorItem] ∧
    (∀ item ∈ secondChunkItems, shortSegments.StoreFits inlineAndSegments item) ∧
    ((shortSegments.batched_get_preallocated secondChunkItems).run
        (Op.timesOut ⟨.TimeoutError, 9, "", "", ""⟩) (inlineAndSegments, 2)).1
      = .ok (List.replicate 32 none ++ [some ((MemoryObj.zeros 8).filledWith [7]), none]) ∧
    ¬ shortSegments.AgreesWithGet inlineAndSegments secondChunkItems := by
  have hraises : ((shortSegments.batched_get_preallocated [tensorItem]).run Op.perform
      (twoSegments [])).1 = .error (.builtin .ValueError) := rfl
  have htimes : ((shortSegments.batched_get_preallocated secondChunkItems).run
      (Op.timesOut ⟨.TimeoutError, 9, "", "", ""⟩) (inlineAndSegments, 2)).1
        = .ok (List.replicate 32 none ++ [some ((MemoryObj.zeros 8).filledWith [7]), none]) := rfl
  refine ⟨List.forall_mem_singleton.mpr (twoSegments_fits (Nat.zero_le _)), hraises, ?_,
    secondChunk_fits, htimes, ?_⟩
  · rintro ⟨hmain, -⟩
    cases hraises.symm.trans hmain
  · rintro ⟨-, hpart⟩
    have hagreed := hpart ⟨.TimeoutError, 9, "", "", ""⟩ 1 2 rfl (by decide) (by decide)
      (by decide) (by decide)
    rw [htimes] at hagreed
    cases hagreed
