/-
# Batched loads of a written key

`batched_get_preallocated` reads the meta records of a chunk in one batch, fills the buffers of
inline payloads, and hands the other items to `get`.  With a client that answers reads, a load
that is begun once a key is committed and returns has filled every buffer for it that fits, and
a buffer that it reports shows that the key is committed (`batched_get_preallocated_key`).
-/
import LmcacheAerospike.FleetServed

section FleetLoads

variable {F : Fleet} {eng : Engine} {k : Text} {items : List (Text × MemoryObj)} {served : Prop}
  {w w' : World}

/-! ## How far a load has come -/

/-- What holds of a load in the state `w` whose first `upto` items have had their turn, those in
`pending` but for the call of `get`: `served` says that the key was committed at its begin. -/
structure LoadsKey (F : Fleet) (eng : Engine) (k : Text) (items : List (Text × MemoryObj))
    (served : Prop) (w : World) (upto : ℕ) (results : List (Option MemoryObj))
    (pending : List (ℕ × Text × MemoryObj)) : Prop where
  length : results.length = items.length
  places : PlacesOf items pending
  shows : ∀ (i : ℕ) (mo filled : MemoryObj), items[i]? = some (k, mo) →
    results[i]? = some (some filled) → KeyCommitted eng.cfg.ns eng.cfg.set_name k w
  serves : served → ∀ i < upto, ∀ mo : MemoryObj, items[i]? = some (k, mo) → mo.Fits (F.payload k) →
    results[i]? = some (some (mo.filledWith (F.payload k))) ∨ (i, k, mo) ∈ pending

section Steps

variable {upto : ℕ} {results : List (Option MemoryObj)}
  {pending pending' : List (ℕ × Text × MemoryObj)}

theorem LoadsKey.later (h : LoadsKey F eng k items served w upto results pending)
    (hlasts : F.Lasts eng.cfg.ns eng.cfg.set_name k w w') :
    LoadsKey F eng k items served w' upto results pending :=
  ⟨h.length, h.places,
    fun i mo filled hitem hres => hlasts.committed (h.shows i mo filled hitem hres), h.serves⟩

/-- An item has its turn. -/
theorem LoadsKey.push (h : LoadsKey F eng k items served w upto results pending)
    {item : Text × MemoryObj} (hitem : items[upto]? = some item) :
    LoadsKey F eng k items served w (upto + 1) results (pending ++ [(upto, item)]) where
  length := h.length
  places := fun x hx => by
    rcases List.mem_append.mp hx with hx | hx
    · exact h.places x hx
    · rw [List.mem_singleton.mp hx]
      exact hitem
  shows := h.shows
  serves := fun hserved i hi mo hmo hfits => by
    rcases Nat.lt_succ_iff_lt_or_eq.mp hi with hi | rfl
    · exact (h.serves hserved i hi mo hmo hfits).imp_right fun hmem =>
        List.mem_append_left _ hmem
    · rw [hitem, Option.some.injEq] at hmo
      subst hmo
      exact Or.inr (List.mem_append_right _ List.mem_cons_self)

/-- An item that is no longer pending, nothing being loaded for it. -/
theorem LoadsKey.skip (h : LoadsKey F eng k items served w upto results pending) {j : ℕ}
    {item : Text × MemoryObj} (hsub : pending' ⊆ pending)
    (hmem : ∀ x ∈ pending, x = (j, item) ∨ x ∈ pending')
    (hnot : served → item.1 = k → ¬ item.2.Fits (F.payload k)) :
    LoadsKey F eng k items served w upto results pending' where
  length := h.length
  places := fun x hx => h.places x (hsub hx)
  shows := h.shows
  serves := fun hserved i hi mo hmo hfits => by
    rcases h.serves hserved i hi mo hmo hfits with hres | hpending
    · exact Or.inl hres
    · rcases hmem _ hpending with heq | hpending
      · cases heq
        exact (hnot hserved rfl hfits).elim
      · exact Or.inr hpending

/-- An item that is no longer pending, its buffer being loaded. -/
theorem LoadsKey.set (h : LoadsKey F eng k items served w upto results pending) {j : ℕ}
    {item : Text × MemoryObj} {filled : MemoryObj} (hitem : items[j]? = some item)
    (hsub : pending' ⊆ pending) (hmem : ∀ x ∈ pending, x = (j, item) ∨ x ∈ pending')
    (hshows : item.1 = k → KeyCommitted eng.cfg.ns eng.cfg.set_name k w)
    (hserves : served → item.1 = k → item.2.Fits (F.payload k) →
      filled = item.2.filledWith (F.payload k)) :
    LoadsKey F eng k items served w upto (results.set j (some filled)) pending' where
  length := by rw [List.length_set, h.length]
  places := fun x hx => h.places x (hsub hx)
  shows := fun i mo filled' hmo hres => by
    by_cases hij : j = i
    · subst hij
      rw [hitem, Option.some.injEq] at hmo
      exact hshows (by rw [hmo])
    · rw [List.getElem?_set_ne hij] at hres
      exact h.shows i mo filled' hmo hres
  serves := fun hserved i hi mo hmo hfits => by
    by_cases hij : j = i
    · subst hij
      rw [hitem, Option.some.injEq] at hmo
      subst hmo
      have hlt : j < results.length := by
        rw [h.length]
        exact (List.getElem?_eq_some_iff.mp hitem).1
      exact Or.inl (by rw [List.getElem?_set_self hlt, hserves hserved rfl hfits])
    · rw [List.getElem?_set_ne hij]
      rcases h.serves hserved i hi mo hmo hfits with hres | hpending
      · exact Or.inl hres
      · rcases hmem _ hpending with heq | hpending
        · cases heq
          exact (hij rfl).elim
        · exact Or.inr hpending

end Steps

/-! ## The loop over the meta records -/

/-- What the answer for one item tells. -/
structure TurnTold (F : Fleet) (eng : Engine) (k : Text) (served : Prop) (w : World)
    (item : Text × MemoryObj) (rec : BatchRecord) : Prop where
  shows : ∀ filled, eng.read_meta_record rec item.2 = .ok (.result (some filled)) →
    item.1 = k → KeyCommitted eng.cfg.ns eng.cfg.set_name k w
  serves : served → item.1 = k → item.2.Fits (F.payload k) →
    eng.read_meta_record rec item.2 = .ok .multi_seg ∨
      eng.read_meta_record rec item.2
        = .ok (.result (some (item.2.filledWith (F.payload k))))

theorem read_meta_records_key {recs : List BatchRecord} {chunk : List (Text × MemoryObj)}
    (hrecs : List.Forall₂ (TurnTold F eng k served w) chunk recs) {upto : ℕ} {st st' : LoadState}
    (hitems : ∀ j item, chunk[j]? = some item → items[upto + j]? = some item)
    (h : LoadsKey F eng k items served w upto st.results st.multi_seg)
    (hloop : eng.read_meta_records upto st recs chunk = (st', none)) :
    LoadsKey F eng k items served w (upto + chunk.length) st'.results st'.multi_seg := by
  induction hrecs generalizing upto st with
  | nil =>
    cases hloop
    exact h
  | @cons item rec chunk recs hrec _ ih =>
    obtain ⟨ck, mo⟩ := item
    have hitem : items[upto]? = some (ck, mo) := hitems 0 _ rfl
    have hrest : ∀ j item, chunk[j]? = some item → items[upto + 1 + j]? = some item := by
      intro j item hj
      have hnext := hitems (j + 1) item (by rwa [List.getElem?_cons_succ])
      rwa [show upto + (j + 1) = upto + 1 + j by omega] at hnext
    have hpush := h.push hitem
    have hdrop : ∀ x ∈ st.multi_seg ++ [(upto, ck, mo)], x = (upto, ck, mo) ∨ x ∈ st.multi_seg := by
      intro x hx
      simpa [or_comm] using hx
    rw [List.length_cons, show upto + (chunk.length + 1) = upto + 1 + chunk.length by omega]
    rw [Engine.read_meta_records] at hloop
    rcases hread : eng.read_meta_record rec mo with e | read
    · rw [hread] at hloop
      cases hloop
    · rw [hread] at hloop
      rcases read with filled | _
      · rcases filled with _ | filled
        · refine ih hrest (hpush.skip (List.subset_append_left _ _) hdrop ?_) hloop
          intro hserved hck hfits
          rcases hrec.serves hserved hck hfits with hmulti | hfilled
          · rw [hread] at hmulti
            cases hmulti
          · rw [hread] at hfilled
            cases hfilled
        · refine ih hrest (hpush.set hitem (List.subset_append_left _ _) hdrop
            (hrec.shows filled hread) ?_) hloop
          intro hserved hck hfits
          rcases hrec.serves hserved hck hfits with hmulti | hfilled
          · rw [hread] at hmulti
            cases hmulti
          · rw [hread] at hfilled
            cases hfilled
            rfl
      · exact ih hrest hpush hloop

/-- A buffer is filled at once only from a record with a state. -/
theorem read_meta_record_state {rec : BatchRecord} {mo filled : MemoryObj}
    (h : eng.read_meta_record rec mo = .ok (.result (some filled))) :
    ∃ bins state, rec.record = some bins ∧ bins .state = some state := by
  unfold Engine.read_meta_record at h
  split_ifs at h
  · cases h
  rcases hrecord : rec.record with _ | bins
  · rw [hrecord] at h
    cases h
  · rw [hrecord] at h
    dsimp only at h
    split_ifs at h with hstate
    · cases h
    · exact ⟨bins, _, rfl, not_not.mp hstate⟩

/-- The meta record of a committed key settles its item at once, or leaves it to `get`. -/
theorem read_meta_record_key {pl : ShardPlan} {bins : Bins} {mo : MemoryObj}
    (hmeta : F.MetaOf eng.cfg.ns eng.cfg.set_name k pl bins) (htorch : eng.TorchReads)
    (hfits : mo.Fits (F.payload k)) :
    eng.read_meta_record ⟨AEROSPIKE_OK, some (selectBins (some Engine.META_READ_BINS) bins)⟩ mo
        = .ok .multi_seg ∨
      eng.read_meta_record ⟨AEROSPIKE_OK, some (selectBins (some Engine.META_READ_BINS) bins)⟩ mo
        = .ok (.result (some (mo.filledWith (F.payload k)))) := by
  rw [read_meta_record_ready hmeta.state hmeta.nseg]
  by_cases hn : pl.nseg = 1
  · right
    have hwrite : write_payload_into eng.frombuffer mo (.blob (F.payload k)) 0
        = .ok (mo.filledWith (F.payload k), (F.payload k).length) := by
      apply write_payload_fits
      · rw [Nat.zero_add]
        exact hfits.room.trans mo.length_byte_array_le
      · exact fun ht => htorch.of_ne_nil _ (hfits.torch ht)
    show (if (pl.nseg : ℤ) ≠ 1 then _ else _) = _
    rw [if_neg (by omega), hmeta.inline hn, Option.bind_some, Engine.read_inline, hwrite]
    dsimp only
    rw [crc_matches_selectBins, MetaOf.crc_matches hmeta hfits.room, if_pos rfl]
  · left
    show (if (pl.nseg : ℤ) ≠ 1 then _ else _) = _
    rw [if_pos (by omega)]

/-! ## The programs -/

section Programs

variable {hagree : F.CutsAgree eng.cfg.ns eng.cfg.set_name k}

/-- What the loops of a load may end in: no exception of the client. -/
def LoopsKey (F : Fleet) (eng : Engine) (k : Text) (items : List (Text × MemoryObj))
    (served : Prop) (upto : ℕ) (w : World)
    (r : Except PyExc (List (Option MemoryObj) × Option PyExc)) : Prop :=
  RaisesOther r ∧
    ∀ results, r = .ok (results, none) → LoadsKey F eng k items served w upto results []

theorem loopsKey_ret {upto : ℕ} {results : List (Option MemoryObj)}
    (h : LoadsKey F eng k items served w upto results []) :
    LoopsKey F eng k items served upto w (.ok (results, none)) := by
  refine ⟨raisesOther_none _, fun results' heq => ?_⟩
  cases heq
  exact h

theorem loopsKey_raised {upto : ℕ} {results : List (Option MemoryObj)} {e : PyExc}
    (h : NoClientError (.error e : Except PyExc Unit)) :
    LoopsKey F eng k items served upto w (.ok (results, some e)) := by
  refine ⟨raisesOther_of_noClientError h _, fun results' heq => ?_⟩
  cases heq

theorem loopsKey_error {upto : ℕ} (e : PyExc) :
    LoopsKey F eng k items served upto w (.error e) := by
  refine ⟨fun results' exc heq => ?_, fun results' heq => ?_⟩ <;> cases heq

/-- The answers to the read of the meta records of a chunk. -/
theorem turns_told {w₀ : World} (htorch : eng.TorchReads)
    (hserved : served → KeyCommitted eng.cfg.ns eng.cfg.set_name k w₀)
    {chunk : List (Text × MemoryObj)} {x : Except AxError (List BatchRecord)}
    (h : (answeringProtocol hagree).ResOk w₀ w
      (.batch_read (chunk.map fun item => eng.metaKey item.1) Engine.META_READ_BINS) x) :
    ∃ recs, x = .ok recs ∧ List.Forall₂ (TurnTold F eng k served w) chunk recs := by
  obtain ⟨recs, rfl, hrecs⟩ := answered_batch h
  refine ⟨recs, rfl, ?_⟩
  rw [List.forall₂_map_left_iff] at hrecs
  apply hrecs.imp
  rintro ⟨ck, mo⟩ rec ⟨r, htold, rfl⟩
  refine ⟨fun filled hread hck => ?_, fun hs hck hfits => ?_⟩
  · obtain rfl : ck = k := hck
    obtain ⟨bins, state, hrecord, hstate⟩ := read_meta_record_state hread
    cases r with
    | found bins' =>
      cases hrecord
      exact htold.shows _ _ _ rfl rfl hstate
    | _ => cases hrecord
  · obtain rfl : ck = k := hck
    obtain ⟨pl, bins, hmeta, rfl, -⟩ := htold.found _ rfl (hserved hs)
    exact read_meta_record_key hmeta htorch hfits

/-- A `get` of the load raises no exception of the client. -/
theorem get_raises_other (hraises : eng.TorchRaises) (ck : Text) (mo : MemoryObj) :
    (answeringProtocol hagree).Safe (fun _ r => NoClientError r) w (eng.get ck (some mo)) := by
  apply LastingProtocol.safe_of_meets _ (G := fun o => EngineReadCall eng (fun _ => True) o ∧
    ∀ ops, o ≠ .batch_write ops) (fun _ _ h => answering_good_read h.1) _ _ _
    (get_noClientError hraises ck mo)
  · rintro w₀ w₁ o x ⟨-, hwrite⟩ hx
    cases o with
    | batch_read keys names =>
      obtain ⟨recs, rfl, -⟩ := answered_batch hx
      exact ⟨recs, rfl⟩
    | batch_write ops => exact (hwrite ops rfl).elim
    | _ => trivial
  · exact get_calls_of ⟨⟨engineReadCall_single rfl (.read_meta trivial), by simp⟩,
      fun n => ⟨engineCall_read_segments n trivial, by simp⟩,
      ⟨engineReadCall_single rfl .ref_count_down, by simp⟩⟩ (some mo)

/-- A `get` of the load: of the key it shows what it hits, and hits what is committed. -/
theorem get_key (htorch : eng.TorchReads) (hraises : eng.TorchRaises)
    (hserved : served → KeyCommitted eng.cfg.ns eng.cfg.set_name k w) (ck : Text) (mo : MemoryObj) :
    (answeringProtocol hagree).Safe (fun w' r => NoClientError r ∧
      (∀ hit, r = .ok (some hit) → ck = k → KeyCommitted eng.cfg.ns eng.cfg.set_name k w') ∧
      (served → ck = k → mo.Fits (F.payload k) → r = .ok (some ⟨mo.filledWith (F.payload k),
        mo.filledWith (F.payload k), (F.payload k).length⟩))) w (eng.get ck (some mo)) := by
  have hother : (answeringProtocol hagree).Safe (fun _ r => NoClientError r) w
    (eng.get ck (some mo)) := get_raises_other hraises ck mo
  apply LastingProtocol.safe_and _ _ hother
  by_cases hck : ck = k
  · subst hck
    apply LastingProtocol.safe_and
    · exact LastingProtocol.safe_mono _ (fun _ _ hr hit heq _ => hr hit heq) _
        (get_shows (some mo))
    · by_cases hs : served ∧ mo.Fits (F.payload ck)
      · exact LastingProtocol.safe_mono _ (fun _ _ hr _ _ _ => hr) _
          (get_served (hserved hs.1) htorch hs.2)
      · exact LastingProtocol.safe_mono _ (fun _ _ _ h₁ _ h₂ => absurd ⟨h₁, h₂⟩ hs) _ hother
  · exact LastingProtocol.safe_mono _
      (fun _ _ _ => ⟨fun _ _ h => absurd h hck, fun _ h => absurd h hck⟩) _ hother

/-- The loop over the items that `get` loads. -/
theorem get_multi_seg_key (htorch : eng.TorchReads) (hraises : eng.TorchRaises)
    (hserved : served → KeyCommitted eng.cfg.ns eng.cfg.set_name k w) {upto : ℕ}
    {results : List (Option MemoryObj)} {pending : List (ℕ × Text × MemoryObj)}
    (h : LoadsKey F eng k items served w upto results pending) :
    (answeringProtocol hagree).Safe (LoopsKey F eng k items served upto) w
      (eng.get_multi_seg results pending) := by
  induction pending generalizing results w with
  | nil => exact fun w' hlasts => loopsKey_ret (h.later hlasts)
  | cons x pending ih =>
    obtain ⟨j, ck, mo⟩ := x
    have hitem : items[j]? = some (ck, mo) := h.places _ List.mem_cons_self
    have hdrop : ∀ x ∈ (j, ck, mo) :: pending, x = (j, ck, mo) ∨ x ∈ pending :=
      fun x hx => List.mem_cons.mp hx
    apply LastingProtocol.safe_bind _ _ _ (LastingProtocol.safe_attempt _ _
      (get_key htorch hraises hserved ck mo))
    · rintro w₁ r (hlasts : F.Lasts _ _ k w w₁) ⟨x, hx, hother, hshows, hserves⟩
      cases hx
      have hlater := h.later hlasts
      have hserved₁ : served → KeyCommitted eng.cfg.ns eng.cfg.set_name k w₁ := fun hs =>
        hlasts.committed (hserved hs)
      rcases r with e | hit
      · exact fun _ _ => loopsKey_raised hother.cast
      · rcases hit with _ | hit
        · refine ih hserved₁ (hlater.skip (List.subset_cons_self _ _) hdrop fun hs hck hfits => ?_)
          have hhit := hserves hs hck hfits
          cases hhit
        · refine ih hserved₁ (hlater.set hitem (List.subset_cons_self _ _) hdrop
            (hshows hit rfl) fun hs hck hfits => ?_)
          have hhit := hserves hs hck hfits
          cases hhit
          rfl
    · rintro w₁ e _ ⟨x, hx, -⟩
      cases hx

/-- The loop over the chunks, the items `before` having had their turn. -/
theorem batched_get_chunks_key (htorch : eng.TorchReads) (hraises : eng.TorchRaises)
    (hserved : served → KeyCommitted eng.cfg.ns eng.cfg.set_name k w)
    {chunks : List (List (Text × MemoryObj))} {before : List (Text × MemoryObj)}
    (hitems : items = before ++ chunks.flatten) {results : List (Option MemoryObj)}
    (h : LoadsKey F eng k items served w before.length results []) :
    (answeringProtocol hagree).Safe (LoopsKey F eng k items served items.length) w
      (eng.batched_get_preallocated_chunks results before.length chunks) := by
  induction chunks generalizing before results w with
  | nil =>
    rw [List.flatten_nil, List.append_nil] at hitems
    rw [hitems] at h ⊢
    exact fun w' hlasts => loopsKey_ret (h.later hlasts)
  | cons chunk chunks ih =>
    rw [List.flatten_cons, ← List.append_assoc] at hitems
    have hchunk : (answeringProtocol hagree).Safe
        (LoopsKey F eng k items served (before ++ chunk).length) w
        (eng.batched_get_preallocated_chunk chunk results before.length) := by
      have hreads : EngineReadCall eng (fun _ => True)
          (.batch_read (chunk.map fun item => eng.metaKey item.1) Engine.META_READ_BINS) := by
        have h := @engineCall_read_metas eng (fun _ => True) (chunk.map Prod.fst)
          Engine.META_READ_BINS fun _ _ => trivial
        rwa [List.map_map] at h
      refine ⟨answering_good_read hreads, fun w₁ x (hlasts : F.Lasts _ _ k w w₁) hx => ?_⟩
      obtain ⟨recs, rfl, hrecs⟩ := turns_told htorch hserved hx
      dsimp only [Prog.ret_bind]
      rcases hloop : eng.read_meta_records before.length ⟨results, []⟩ recs chunk
        with ⟨st, raised⟩
      rcases raised with _ | e
      · have hst := read_meta_records_key hrecs (fun j item hj => ?_) (h.later hlasts) hloop
        · rw [← List.length_append] at hst
          exact get_multi_seg_key htorch hraises (fun hs => hlasts.committed (hserved hs)) hst
        · rw [hitems, List.append_assoc, List.getElem?_append_right (by omega),
            Nat.add_sub_cancel_left, List.getElem?_append_left (List.getElem?_eq_some_iff.mp hj).1]
          exact hj
      · exact fun _ _ => loopsKey_raised (read_meta_records_raises hloop)
    apply LastingProtocol.safe_bind _ _ _ hchunk
    · rintro w₁ ⟨results₁, raised⟩ (hlasts : F.Lasts _ _ k w w₁) ⟨hother, hresults⟩
      rcases raised with _ | e
      · have hrest := ih (fun hs => hlasts.committed (hserved hs)) hitems (hresults results₁ rfl)
        rwa [List.length_append] at hrest
      · refine fun _ _ => loopsKey_raised fun exc heq => ?_
        cases heq
        exact hother _ _ rfl
    · exact fun _ e _ _ => loopsKey_error e

/-- **A batched load that returns** has filled the fitting buffers of a key that was committed at
its begin, and what it reports of a key shows that the key is committed. -/
theorem batched_get_preallocated_key (htorch : eng.TorchReads) (hraises : eng.TorchRaises)
    (hserved : served → KeyCommitted eng.cfg.ns eng.cfg.set_name k w) :
    (answeringProtocol hagree).Safe (fun w r => ∀ results, r = .ok results →
      LoadsKey F eng k items served w items.length results []) w
      (eng.batched_get_preallocated items) := by
  unfold Engine.batched_get_preallocated
  split_ifs with hnil
  · intro w' _ results heq
    cases heq
    subst hnil
    exact ⟨rfl, fun x hx => by simp at hx, fun i mo filled hmo => by simp at hmo,
      fun _ i hi => by simp at hi⟩
  · have hstart : LoadsKey F eng k items served w 0 (items.map fun _ => none) [] :=
      ⟨by simp, fun x hx => by simp at hx,
        fun i mo filled _ hres => by simp [List.getElem?_replicate] at hres,
        fun _ i hi => absurd hi (by omega)⟩
    have hflatten : items = [] ++ (Engine.chunked items Engine.BATCH_KEYS_CHUNK).flatten := by
      rw [flatten_chunked items (by decide), List.nil_append]
    apply LastingProtocol.safe_bind _ _ _
      (batched_get_chunks_key htorch hraises hserved hflatten hstart)
    · rintro w₁ ⟨results, raised⟩ _ ⟨hother, hresults⟩
      rcases raised with _ | e
      · intro w₂ (hlasts' : F.Lasts _ _ k w₁ w₂) results' heq
        cases heq
        exact (hresults results rfl).later hlasts'
      · cases e with
        | aerospike exc => exact (hother results exc rfl).elim
        | _ =>
          intro w₂ _ results' heq
          cases heq
    · intro w₁ e _ _ results heq
      cases heq

end Programs

end FleetLoads
