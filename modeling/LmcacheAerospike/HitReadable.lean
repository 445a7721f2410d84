/-
# A reported hit is readable

Presence of a meta record is all that `batched_contains` looks at.  Operations that
complete one after the other keep every meta record complete: it has all its segments, and
they hold the payload that was put last (`completed_stores`).  So the counted prefix can be
read, and the key after it is a miss (`reported_hit_iff`).

The only hit that cannot be read is an empty payload in a buffer that is a tensor, which
torch does not copy from (`empty_tensor_hit_raises`).
-/
import LmcacheAerospike.PutWorld
import LmcacheAerospike.RoundTrip

/-! ## Histories -/

/-- The puts of a list of items, in order: meta keys and payloads. -/
def itemPuts (eng : Engine) (items : List (Text × MemoryObj)) : List (Key × Bytes) :=
  items.map fun item => (eng.metaKey item.1, item.2.byte_array)

/-- The puts of an operation. -/
def ClientOp.puts : ClientOp → List (Key × Bytes)
  | .put eng ck mo _ => itemPuts eng [(ck, mo)]
  | .batched_put eng items _ => itemPuts eng items
  | _ => []

/-- The payload last put under each meta key, when `last` was there before. -/
def recordPuts (puts : List (Key × Bytes)) (last : Key → Option Bytes) : Key → Option Bytes :=
  puts.foldl (fun last put => Function.update last put.1 (some put.2)) last

/-- The most recently put payload under a meta key. -/
def lastPut (ops : List ClientOp) : Key → Option Bytes :=
  recordPuts (ops.flatMap ClientOp.puts) fun _ => none

/-- Every operation but a `pin_keys` on keys that nobody has counted. -/
def ClientOp.Sequential : ClientOp → Prop
  | .pin_keys _ _ => False
  | _ => True

/-- The store after operations that completed one after the other, from the empty store, by
engines that agree on CRCs.  Time may pass, but no record expires. -/
inductive Completed (crc : Bool) : List ClientOp → World → Prop
  | start : Completed crc [] World.empty
  | step {ops : List ClientOp} {o : ClientOp} {w w' : World} {result : OpResult} :
      Completed crc ops w → o.Sequential → o.eng.cfg.enable_crc32 = crc →
      o.prog.run Op.perform w = (.ok result, w') → Completed crc (ops ++ [o]) w'
  | tick {ops : List ClientOp} {w : World} (t : ℕ) :
      Completed crc ops w → Completed crc ops { w with now := t }

/-! ## The invariant -/

/-- The records of `ck` hold all of `p`, and its CRC when CRCs are on. -/
def World.Stores (w : World) (crc : Bool) (ns set_name ck : Text) (p : Bytes) : Prop :=
  ∃ (pl : ShardPlan) (bins : Bins), pl.Covers p.length ∧
    w.Holds ns set_name ck (pl.pieces p) bins ∧
    (crc = true → bins .crc32 = some (.int (crc32 p)))

/-- **The invariant**: under every meta record the payload that was put last is stored. -/
def World.StoresLast (w : World) (crc : Bool) (last : Key → Option Bytes) : Prop :=
  ∀ ns set_name ck, w.hasMeta ns set_name ck = true →
    ∃ p, last (meta_key ns set_name ck) = some p ∧ w.Stores crc ns set_name ck p

/-- The records of the logical key are as they were. -/
def World.SameFor (w w' : World) (ns set_name ck : Text) : Prop :=
  w'.records (meta_key ns set_name ck) = w.records (meta_key ns set_name ck) ∧
    ∀ i, w'.records (segment_key ns set_name ck i) = w.records (segment_key ns set_name ck i)

section Invariant

variable {crc : Bool} {last : Key → Option Bytes} {w w' : World}

theorem World.Stores.congr {ns set_name ck : Text} {p : Bytes}
    (h : w.Stores crc ns set_name ck p) (hsame : w.SameFor w' ns set_name ck) :
    w'.Stores crc ns set_name ck p := by
  obtain ⟨pl, bins, hcov, hholds, hcrc⟩ := h
  exact ⟨pl, bins, hcov, hholds.congr hsame.1 fun _ i _ => hsame.2 i, hcrc⟩

/-- A step that touches the records of one logical key keeps the invariant for the others. -/
theorem World.StoresLast.frame {last' : Key → Option Bytes} (h : w.StoresLast crc last)
    (ns set_name ck : Text)
    (hlast : ∀ key, key ≠ meta_key ns set_name ck → last' key = last key)
    (hframe : ∀ ns' set_name' ck', meta_key ns' set_name' ck' ≠ meta_key ns set_name ck →
      w.SameFor w' ns' set_name' ck')
    (hown : w'.hasMeta ns set_name ck = true →
      ∃ p, last' (meta_key ns set_name ck) = some p ∧ w'.Stores crc ns set_name ck p) :
    w'.StoresLast crc last' := by
  intro ns' set_name' ck' hmeta
  by_cases heq : meta_key ns' set_name' ck' = meta_key ns set_name ck
  · obtain rfl : ns' = ns := congrArg Key.ns heq
    obtain rfl : set_name' = set_name := congrArg Key.set_name heq
    obtain rfl : ck' = ck := meta_key_inj heq
    exact hown hmeta
  · have hsame := hframe ns' set_name' ck' heq
    rw [World.hasMeta, hsame.1] at hmeta
    obtain ⟨p, hp, hstores⟩ := h ns' set_name' ck' hmeta
    exact ⟨p, by rw [hlast _ heq, hp], hstores.congr hsame⟩

/-! ### Puts -/

/-- The payload of a completed put is stored under its key. -/
theorem Engine.PutDone.storesLast {eng : Engine} {ck : Text} {mo : MemoryObj} {pinned : Bool}
    {pl : ShardPlan} {now : ℕ} (hcrc : eng.cfg.enable_crc32 = crc)
    (hplan : eng.resolved.shard_plan mo.byte_array.length = .ok pl)
    (hdone : eng.PutDone ck mo pinned pl now w w') (h : w.StoresLast crc last) :
    w'.StoresLast crc (Function.update last (eng.metaKey ck) (some mo.byte_array)) := by
  have hcov := plan_covers _ _ _ _ _ _ hplan
  refine h.frame eng.cfg.ns eng.cfg.set_name ck (fun key hne => Function.update_of_ne hne ..)
    (fun ns' set_name' ck' hne => ?_) fun _ =>
      ⟨mo.byte_array, Function.update_self .., pl, _, hcov, hdone.holds hcov, fun hc => ?_⟩
  · constructor
    · exact hdone.frame _ hne fun i => meta_key_ne_segment_key _ _ _ _ _ _ _
    · intro i
      exact hdone.frame _ (fun heq => meta_key_ne_segment_key _ _ _ _ _ _ _ heq.symm)
        (segment_key_ne hne i)
  · exact (meta_write_bins mo pl pinned now .crc32).trans (if_pos (hcrc.trans hc))

section BatchedPut

variable {eng : Engine} {pinned : Bool}

/-- The puts of some items, one after the other. -/
theorem storesLast_puts (hcrc : eng.cfg.enable_crc32 = crc) {items : List (Text × MemoryObj)}
    (hplans : ∀ item ∈ items,
      ∃ pl, eng.resolved.shard_plan item.2.byte_array.length = .ok pl)
    (h : w.StoresLast crc last) :
    (items.foldl (eng.afterPut pinned) w).StoresLast crc
      (recordPuts (itemPuts eng items) last) := by
  induction items generalizing w last with
  | nil => exact h
  | cons item items ih =>
    rw [List.forall_mem_cons] at hplans
    obtain ⟨⟨pl, hplan⟩, hrest⟩ := hplans
    have hput : (eng.put item.1 item.2 pinned).run Op.perform w
        = (.ok (), eng.afterPut pinned w item) := run_put_world hplan
    obtain ⟨pl', now, hpl', hdone⟩ := run_put_done hput
    rw [List.foldl_cons]
    exact ih hrest (hdone.storesLast hcrc hpl' h)

/-- **A completed `batched_put`**: every item is stored, the last one of each key. -/
theorem storesLast_batched_put (hcrc : eng.cfg.enable_crc32 = crc)
    {items : List (Text × MemoryObj)} {flags : List Bool}
    (hrun : (eng.batched_put items pinned).run Op.perform w = (.ok flags, w'))
    (h : w.StoresLast crc last) :
    w'.StoresLast crc (recordPuts (itemPuts eng items) last) := by
  obtain ⟨hplans, rfl⟩ := run_batched_put_world hrun
  exact storesLast_puts hcrc hplans h

end BatchedPut

/-! ### Writes of the pin bin -/

/-- The bins of a record but the pin bin. -/
def Record.data (r : Record) : Bins := Function.update r.bins .pin none

/-- The records but their pin bins and TTLs. -/
def World.data (w : World) : Key → Option Bins := fun key => (w.records key).map Record.data

/-- A record is found again in a store of the same data. -/
theorem found_of_data (hdata : w'.data = w.data) {key : Key} {r : Record}
    (hr : w.records key = some r) :
    ∃ r', w'.records key = some r' ∧ ∀ n, n ≠ BinName.pin → r'.bins n = r.bins n := by
  have hkey : w'.data key = some r.data := by
    rw [hdata, World.data, hr]
    rfl
  obtain ⟨r', hr', heq⟩ := Option.map_eq_some_iff.mp hkey
  refine ⟨r', hr', fun n hn => ?_⟩
  have hbin : r'.data n = r.data n := congrFun heq n
  rw [Record.data, Record.data, Function.update_of_ne hn, Function.update_of_ne hn] at hbin
  exact hbin

/-- Replacing a record by one with the same data. -/
theorem data_setRecord {key : Key} {r r' : Record} (hr : w.records key = some r)
    (hsame : r'.data = r.data) : (w.setRecord key (some r')).data = w.data := by
  funext key'
  by_cases hk : key' = key
  · subst hk
    rw [World.data, World.data, World.setRecord_self, hr, Option.map_some, Option.map_some,
      hsame]
  · rw [World.data, World.data, World.setRecord_of_ne w hk]

/-- A pin write on a record that is there keeps the data. -/
theorem data_pin_write {eng : Engine} {ck : Text} {r : Record}
    (hr : w.records (eng.metaKey ck) = some r) (v : Bool) (ttl : ℤ) :
    (w.applyWrite (eng.pin_write ck v ttl)).data = w.data := by
  refine data_setRecord hr ?_
  funext n
  rw [Record.data, Record.data]
  by_cases hn : n = .pin
  · rw [hn, Function.update_self, Function.update_self]
  · rw [Function.update_of_ne hn, Function.update_of_ne hn, pin_write_of_ne hn]
    show oldBins (w.records (eng.metaKey ck)) n = _
    rw [hr]
    rfl

/-- Pinning keys whose meta records are there keeps the data. -/
theorem data_afterPins (eng : Engine) {keys : List Text}
    (hkeys : ∀ ck ∈ keys, w.hasMeta eng.cfg.ns eng.cfg.set_name ck = true) :
    (eng.afterPins keys w).data = w.data := by
  induction keys generalizing w with
  | nil => rfl
  | cons ck keys ih =>
    rw [List.forall_mem_cons] at hkeys
    obtain ⟨r, hr⟩ := Option.isSome_iff_exists.mp hkeys.1
    have hdata := data_pin_write hr true eng.pin_ttl
    refine (ih fun ck' hck' => ?_).trans hdata
    obtain ⟨r', hr'⟩ := Option.isSome_iff_exists.mp (hkeys.2 ck' hck')
    obtain ⟨r'', hr'', -⟩ := found_of_data hdata hr'
    exact Option.isSome_iff_exists.mpr ⟨r'', hr''⟩

/-- **The invariant is about the data.** -/
theorem World.StoresLast.of_data (h : w.StoresLast crc last) (hdata : w'.data = w.data) :
    w'.StoresLast crc last := by
  intro ns set_name ck hmeta
  obtain ⟨r', hr'⟩ := Option.isSome_iff_exists.mp hmeta
  obtain ⟨r, hr, hbins⟩ := found_of_data hdata.symm hr'
  obtain ⟨p, hp, pl, bins, hcov, hholds, hcrc⟩ :=
    h ns set_name ck (Option.isSome_iff_exists.mpr ⟨r, hr⟩)
  obtain ⟨r₁, hr₁, rfl⟩ := hholds.found
  obtain rfl : r = r₁ := Option.some.inj (hr.symm.trans hr₁)
  refine ⟨p, hp, pl, r'.bins, hcov, ⟨⟨r', hr', rfl⟩, ?_, ?_, fun hn => ?_, fun hn i hi => ?_⟩,
    fun hc => ?_⟩
  · rw [← hbins _ (by decide)]
    exact hholds.state
  · rw [← hbins _ (by decide)]
    exact hholds.nseg
  · rw [← hbins _ (by decide)]
    exact hholds.inline hn
  · obtain ⟨r₂, hr₂, hb⟩ := hholds.segment hn i hi
    obtain ⟨r₃, hr₃, hbins₃⟩ := found_of_data hdata hr₂
    exact ⟨r₃, hr₃, (hbins₃ _ (by decide)).trans hb⟩
  · rw [← hbins _ (by decide)]
    exact hcrc hc

/-! ### Removals -/

/-- A removal leaves the records of other logical keys as they are. -/
theorem sameFor_remove {eng : Engine} {ck ns set_name ck' : Text} (n : ℕ)
    (hne : meta_key ns set_name ck' ≠ eng.metaKey ck) :
    w.SameFor ((segment_keys eng.cfg.ns eng.cfg.set_name ck n).foldl World.removeRecord
      (w.removeRecord (eng.metaKey ck))) ns set_name ck' := by
  constructor
  · rw [foldl_removeRecord_of_notMem _ _ fun hmem => ?_, removeRecord_of_ne w hne]
    obtain ⟨i, -, hi⟩ := List.mem_map.mp hmem
    exact meta_key_ne_segment_key _ _ _ _ _ _ _ hi.symm
  · intro i
    rw [foldl_removeRecord_of_notMem _ _ fun hmem => ?_, removeRecord_of_ne w fun heq =>
      meta_key_ne_segment_key _ _ _ _ _ _ _ heq.symm]
    obtain ⟨j, -, hj⟩ := List.mem_map.mp hmem
    exact segment_key_ne hne i j hj.symm

/-- A removal leaves no meta record. -/
theorem meta_removed {eng : Engine} {ck : Text} (n : ℕ) :
    ((segment_keys eng.cfg.ns eng.cfg.set_name ck n).foldl World.removeRecord
      (w.removeRecord (eng.metaKey ck))).records (eng.metaKey ck) = none := by
  rw [foldl_removeRecord_of_notMem _ _ fun hmem => ?_]
  · exact w.setRecord_self _ none
  · obtain ⟨i, -, hi⟩ := List.mem_map.mp hmem
    exact meta_key_ne_segment_key _ _ _ _ _ _ _ hi.symm

/-- A removal that completes leaves the other keys alone, and no meta record of its own. -/
theorem storesLast_remove {eng : Engine} {ck : Text} {removed : Bool}
    (hrun : (eng.remove ck).run Op.perform w = (.ok removed, w'))
    (h : w.StoresLast crc last) : w'.StoresLast crc last := by
  rcases run_remove_ok hrun with ⟨-, -, rfl⟩ | ⟨-, n, rfl⟩
  · exact h
  · refine h.frame eng.cfg.ns eng.cfg.set_name ck (fun _ _ => rfl)
      (fun ns' set_name' ck' hne => sameFor_remove n hne) fun hmeta => ?_
    · exfalso
      rw [World.hasMeta, meta_removed n] at hmeta
      cases hmeta

/-! ### Every operation -/

/-- A read leaves the records as they are. -/
theorem records_of_read {op : RecOp} (hread : IsRead op) (w : World) :
    (op.perform w).2.records = w.records := by
  cases op with
  | read key names =>
    simp only [RecOp.perform]
    cases w.records key with
    | none => rfl
    | some r => rfl
  | clock => rfl
  | ref_count_down => rfl
  | write wr => exact hread.elim
  | touch key ttl => exact hread.elim
  | remove key => exact hread.elim

theorem records_of_performAll {ops : List RecOp} (hreads : ∀ op ∈ ops, IsRead op) (w : World) :
    (performAll ops w).2.records = w.records := by
  induction ops generalizing w with
  | nil => rfl
  | cons op ops ih =>
    rw [List.forall_mem_cons] at hreads
    simp only [performAll]
    rw [ih hreads.2, records_of_read hreads.1]

/-- A program that only reads leaves the records as they are. -/
theorem records_of_reads {E α : Type} (p : Prog Op Op.Res E α)
    (hp : p.AllCalls fun o => ∀ op ∈ o.items, IsRead op) (w : World) :
    (p.run Op.perform w).2.records = w.records := by
  induction p generalizing w with
  | ret a => rfl
  | raise e => rfl
  | call o k ih =>
    rw [Prog.run_call, ih _ (hp.2 _)]
    exact records_of_performAll hp.1 w

theorem isRead_of_read {eng : Engine} {K : Text → Prop} {op : RecOp}
    (h : EngineReadOp eng K op) : IsRead op := by
  cases h <;> trivial

/-- The result of an operation is that of the engine's function. -/
theorem run_of_result {α : Type} {p : EngineM α} {f : α → OpResult} {result : OpResult}
    (h : (p.bind fun a => .ret (f a)).run Op.perform w = (.ok result, w')) :
    ∃ a, p.run Op.perform w = (.ok a, w') := by
  rw [Prog.run_bind] at h
  rcases hp : p.run Op.perform w with ⟨r, w₁⟩
  rw [hp] at h
  cases r with
  | error e => cases h
  | ok a =>
    cases h
    exact ⟨a, rfl⟩

/-- **The step lemma**: an operation that completes stores what it puts, and keeps the rest. -/
theorem storesLast_step {op : ClientOp} {result : OpResult} (hop : op.Sequential)
    (hcrc : op.eng.cfg.enable_crc32 = crc)
    (hrun : op.prog.run Op.perform w = (.ok result, w')) (h : w.StoresLast crc last) :
    w'.StoresLast crc (recordPuts op.puts last) := by
  cases op with
  | get eng ck pre =>
    -- a read; it may still count down a reference of the buffer
    obtain ⟨hit, hget⟩ := run_of_result hrun
    have hcalls : (eng.get ck pre).AllCalls (EngineReadCall eng fun _ => True) :=
      get_calls ck pre trivial
    have hreads := records_of_reads _
      (Prog.allCalls_mono (fun _ ho i hi => isRead_of_read (ho i hi)) _ hcalls) w
    rw [hget] at hreads
    refine h.of_data (funext fun key => ?_)
    rw [World.data, World.data, hreads]
  | put eng ck mo pinned =>
    obtain ⟨u, hput⟩ := run_of_result hrun
    obtain ⟨pl, now, hplan, hdone⟩ := run_put_done hput
    exact hdone.storesLast hcrc hplan h
  | batched_put eng items pinned =>
    obtain ⟨flags, hput⟩ := run_of_result hrun
    exact storesLast_batched_put hcrc hput h
  | exists_ eng ck =>
    obtain ⟨v, hexists⟩ := run_of_result hrun
    rw [run_exists] at hexists
    cases hexists
    exact h
  | batched_contains eng keys =>
    obtain ⟨n, hcontains⟩ := run_of_result hrun
    rw [run_batched_contains] at hcontains
    cases hcontains
    exact h
  | batched_async_contains eng keys pin =>
    obtain ⟨n, hcontains⟩ := run_of_result hrun
    rw [run_batched_async_contains eng w keys pin rfl] at hcontains
    obtain rfl := congrArg Prod.snd hcontains
    dsimp only
    split_ifs
    · exact h.of_data (data_afterPins eng fun ck hck => hasMeta_of_counted w hck)
    · exact h
  | pin_keys eng keys => exact hop.elim
  | unpin eng ck =>
    obtain ⟨v, hunpin⟩ := run_of_result hrun
    cases hr : w.records (eng.metaKey ck) with
    | none =>
      rw [run_unpin_absent eng w hr] at hunpin
      cases hunpin
      exact h
    | some r =>
      -- the touch keeps the bins, and the pin write falls on the same record
      rw [run_unpin_found eng w hr] at hunpin
      cases hunpin
      exact h.of_data ((data_pin_write (World.setRecord_self ..) false _).trans
        (data_setRecord hr rfl))
  | pin eng ck =>
    obtain ⟨v, hpin⟩ := run_of_result hrun
    rw [run_pin] at hpin
    by_cases hmeta : w.hasMeta eng.cfg.ns eng.cfg.set_name ck = true
    · rw [if_pos hmeta] at hpin
      cases hpin
      exact h.of_data (data_afterPins eng fun ck' hck' => by rwa [List.mem_singleton.mp hck'])
    · rw [if_neg hmeta] at hpin
      cases hpin
      exact h
  | remove eng ck =>
    obtain ⟨removed, hremove⟩ := run_of_result hrun
    exact storesLast_remove hremove h

/-- **The run lemma**: in every store that completed operations have left, each meta record
stands for the payload last put under its key. -/
theorem completed_stores {ops : List ClientOp} (h : Completed crc ops w) :
    w.StoresLast crc (lastPut ops) := by
  induction h with
  | start =>
    intro ns set_name ck hmeta
    cases hmeta
  | step _ hop hcrc hrun ih =>
    rw [lastPut, List.flatMap_append, recordPuts, List.foldl_append, List.flatMap_singleton]
    exact storesLast_step hop hcrc hrun ih
  | tick t _ ih => exact ih.of_data rfl

end Invariant

/-! ## What is reported and what is read -/

/-- **A reported hit is readable.**  After any operations that completed one after the other,
`batched_contains` counts the longest prefix of keys that `exists` reports; each counted key
has been put, and a `get` into a buffer with room hits with the payload put last, if and
only if that is not an empty payload for a tensor; and a `get` of the key after the prefix
is a miss. -/
theorem reported_hit_iff (crc : Bool) (ops : List ClientOp) (w : World)
    (hrun : Completed crc ops w) (eng : Engine) (hcrc : eng.cfg.enable_crc32 = crc)
    (htorch : eng.TorchReads) (ks : List Text) :
    ∃ n mask, (eng.batched_contains ks).run Op.perform w = (.ok n, w) ∧
      (eng.batched_exists_mask ks).run Op.perform w = (.ok mask, w) ∧
      mask.length = ks.length ∧ n = (mask.takeWhile id).length ∧
      (∀ (i : ℕ) (ck : Text), ks[i]? = some ck →
        ∃ v, mask[i]? = some v ∧ (eng.exists_ ck).run Op.perform w = (.ok v, w)) ∧
      (∀ (i : ℕ) (ck : Text), i < n → ks[i]? = some ck →
        ∃ p, lastPut ops (eng.metaKey ck) = some p ∧
          ∀ (preallocated : Option MemoryObj) (buf : MemoryObj) (expect_reshape : Bool),
            (∀ r, w.records (eng.metaKey ck) = some r →
              eng.receive_buffer r.bins preallocated = .ok (some buf, expect_reshape)) →
            p.length ≤ buf.byte_array.length →
            (expect_reshape = true → ∃ shaped,
              eng.reshape (buf.filledWith p) p.length = .ok shaped ∧
                shaped.byte_array.take p.length = p) →
            ((∃ hit w', (eng.get ck preallocated).run Op.perform w = (.ok (some hit), w') ∧
                hit.Fills buf p) ↔
              (buf.raw_is_tensor = true → p ≠ []))) ∧
      (∀ ck, ks[n]? = some ck → ∀ preallocated,
        (eng.get ck preallocated).run Op.perform w = (.ok none, w)) := by
  have hstores := completed_stores hrun
  refine ⟨_, _, run_batched_contains eng w ks, run_batched_exists_mask eng w ks,
    List.length_map .., ?_, ?_, ?_, ?_⟩
  · rw [List.takeWhile_map, List.length_map]
    rfl
  · intro i ck hck
    exact ⟨_, by rw [List.getElem?_map, hck]; rfl, run_exists eng w ck⟩
  · intro i ck hi hck
    have hmeta : w.hasMeta eng.cfg.ns eng.cfg.set_name ck = true := by
      have hmem : ck ∈ ks.take _ := List.mem_of_getElem? ((List.getElem?_take_of_lt hi).trans hck)
      exact hasMeta_of_counted w hmem
    obtain ⟨p, hp, pl, bins, hcov, hholds, hbin⟩ := hstores _ _ _ hmeta
    refine ⟨p, hp, ?_⟩
    intro preallocated buf expect_reshape hbuf hroom hshape
    obtain ⟨r, hr, rfl⟩ := hholds.found
    rw [run_get_hit_iff hcov hholds (hbuf r hr) hroom htorch hshape, and_iff_right]
    -- a reader that checks CRCs finds the one of `p`, since all writers write it
    rw [crc_matches_iff _ _ hroom]
    intro hc expected hexpected
    rw [hbin (hcrc ▸ hc)] at hexpected
    cases hexpected
    rw [pyEqInt_crc32]
  · intro ck hck pre
    have hnot := not_of_getElem?_takeWhile hck
    apply run_get_absent
    rwa [World.hasMeta, Option.isSome_eq_false_iff, Option.isNone_iff_eq_none] at hnot

/-- The engine of the examples: segments of two bytes, CRCs on. -/
abbrev hitReader : Engine := fakeEngine (.ofTarget 2) true true 8

/-- Three bytes in two segments are put over one byte and pinned with a key that is not
there; the count is one, and the get is a hit. -/
theorem reported_hit_readable :
    ∃ w w' hit, Completed true [.put hitReader "k".toList { byte_array := [7] } false,
        .put hitReader "k".toList { byte_array := [1, 2, 3] } false,
        .batched_async_contains hitReader ["k".toList, "l".toList] true] w ∧
      (hitReader.batched_contains ["k".toList, "l".toList]).run Op.perform w = (.ok 1, w) ∧
      (hitReader.get "k".toList (some { byte_array := [0, 0, 0, 0] })).run Op.perform w
        = (.ok (some hit), w') ∧
      hit.Fills { byte_array := [0, 0, 0, 0] } [1, 2, 3] := by
  have hput₁ := Completed.start.step (o := .put hitReader "k".toList { byte_array := [7] } false)
    trivial rfl rfl
  have hput₂ := hput₁.step (o := .put hitReader "k".toList { byte_array := [1, 2, 3] } false)
    trivial rfl rfl
  have hpin := hput₂.step
    (o := .batched_async_contains hitReader ["k".toList, "l".toList] true) trivial rfl rfl
  obtain ⟨n, mask, hcontains, -, -, -, -, hhits, -⟩ := reported_hit_iff true _ _ hpin hitReader rfl
    (fakeEngine_torchReads _ _ _ _) ["k".toList, "l".toList]
  obtain ⟨p, hp, hget⟩ := hhits 0 "k".toList (by cases hcontains; decide) rfl
  cases hp
  obtain ⟨hit, w', hrun, hfills⟩ := (hget (some { byte_array := [0, 0, 0, 0] })
    { byte_array := [0, 0, 0, 0] } false (fun _ _ => rfl) (by decide)
    (fun h => by cases h)).mpr fun h => by cases h
  exact ⟨_, w', hit, hpin, rfl, hrun, hfills⟩

/-- An empty payload is put and counted, and the get into a tensor raises. -/
theorem empty_tensor_hit_raises :
    ∃ w, Completed true [.put hitReader "k".toList { byte_array := [] } false] w ∧
      (hitReader.batched_contains ["k".toList]).run Op.perform w = (.ok 1, w) ∧
      ((hitReader.get "k".toList
        (some { byte_array := [0, 0], raw_is_tensor := true })).run Op.perform w).1
          = .error (.builtin .ValueError) := by
  have hput := Completed.start.step (o := .put hitReader "k".toList { byte_array := [] } false)
    trivial rfl rfl
  exact ⟨_, hput, rfl, rfl⟩
