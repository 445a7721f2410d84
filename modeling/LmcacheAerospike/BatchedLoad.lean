/-
# Loading a batch

`batched_get_preallocated` goes through its items in chunks, sets the answers of inline
payloads at once and those of sharded ones after the chunk.  Whatever the server refuses, each
answer is the one that `get` has for the item alone (`run_batched_get`).
-/
import LmcacheAerospike.EngineCalls
import LmcacheAerospike.EngineRuns
import LmcacheAerospike.LabelledRun
import LmcacheAerospike.ReadBack
import LmcacheAerospike.Refusals

/-! ## Positions that are still open -/

/-- The list is `target`, but for the positions of the pending entries, which have no answer
yet and whose answer is `own`. -/
structure Pending {β γ : Type} (own : β → Option γ) (target results : List (Option γ))
    (pend : List (ℕ × β)) : Prop where
  owns : ∀ x ∈ pend, target[x.1]? = some (own x.2)
  agrees : ∀ i : ℕ, results[i]? = target[i]? ∨
    results[i]? = some none ∧ ∃ x ∈ pend, x.1 = i

section Pending

variable {β γ : Type} {own : β → Option γ} {target results : List (Option γ)}
  {pend : List (ℕ × β)}

/-- An entry without an answer is settled as it is. -/
theorem Pending.drop {i : ℕ} {b : β} (h : Pending own target results ((i, b) :: pend))
    (hown : own b = none) : Pending own target results pend where
  owns := fun x hx => h.owns x (List.mem_cons_of_mem _ hx)
  agrees := fun j => by
    rcases h.agrees j with heq | ⟨hnone, x, hx, hxj⟩
    · exact Or.inl heq
    · rcases List.mem_cons.mp hx with rfl | hmem
      · left
        have htarget := h.owns (i, b) List.mem_cons_self
        dsimp only at hxj htarget
        rw [hnone, ← hxj, htarget, hown]
      · exact Or.inr ⟨hnone, x, hmem, hxj⟩

/-- An entry is settled when its answer is set. -/
theorem Pending.settle {i : ℕ} {b : β} {c : γ}
    (h : Pending own target results ((i, b) :: pend)) (hown : own b = some c) :
    Pending own target (results.set i (some c)) pend where
  owns := fun x hx => h.owns x (List.mem_cons_of_mem _ hx)
  agrees := fun j => by
    have htarget : target[i]? = some (some c) := by
      rw [← hown]
      exact h.owns (i, b) List.mem_cons_self
    by_cases hij : i = j
    · subst hij
      left
      rw [htarget]
      rcases h.agrees i with heq | ⟨hnone, -⟩
      · rw [htarget] at heq
        exact getElem?_set_at heq
      · exact getElem?_set_at hnone
    · rw [List.getElem?_set_ne hij]
      rcases h.agrees j with heq | ⟨hnone, x, hx, hxj⟩
      · exact Or.inl heq
      · rcases List.mem_cons.mp hx with rfl | hmem
        · exact absurd hxj hij
        · exact Or.inr ⟨hnone, x, hmem, hxj⟩

/-- Where nothing is pending the list is complete. -/
theorem Pending.eq_target (h : Pending own target results []) : results = target := by
  apply List.ext_getElem?
  intro i
  rcases h.agrees i with heq | ⟨-, x, hx, -⟩
  · exact heq
  · cases hx

/-- The order of the pending entries makes no difference. -/
theorem Pending.perm {pend' : List (ℕ × β)} (h : Pending own target results pend)
    (hmem : ∀ x, x ∈ pend' ↔ x ∈ pend) : Pending own target results pend' where
  owns := fun x hx => h.owns x ((hmem x).mp hx)
  agrees := fun i => by
    rcases h.agrees i with heq | ⟨hnone, x, hx, hxi⟩
    · exact Or.inl heq
    · exact Or.inr ⟨hnone, x, (hmem x).mpr hx, hxi⟩

end Pending

/-! ## One item -/

/-- The object that `get` returns, unless it misses or raises. -/
def loaded : Except PyExc (Option Hit) → Option MemoryObj
  | .ok (some hit) => some hit.mo
  | _ => none

section Item

variable (R : Refusals) (eng : Engine) (w : World)

/-- What `get` fills the buffer with. -/
def Refusals.loads (ck : Text) (mo : MemoryObj) : Option MemoryObj :=
  loaded ((eng.get ck (some mo)).run R.call w).1

variable {R} {eng} {w} {ck : Text} {mo : MemoryObj}

/-- `get` on a store where the meta record cannot be read. -/
theorem loads_refused {r : Refusal} (h : R.read (eng.metaKey ck) = some r) :
    R.loads eng w ck mo = none := by
  have hrun : (eng.get ck (some mo)).run R.call w
      = Prog.run R.call (if r.exc.kind = .RecordNotFound then .ret none
          else if classify (.ax r.exc) = .timeout then .ret none
          else if classify (.ax r.exc) = .connection then
            .raise (.connector .connection r.exc.str)
          else .raise (map_aerospike_error "get" (.ax r.exc))) w := by
    show Prog.run _ (.call (Op.get _) _) w = _
    rw [Prog.run_call, call_get_refused h]
    rfl
  unfold Refusals.loads
  rw [hrun]
  split_ifs <;> rfl

/-- `get` on a store without the meta record. -/
theorem loads_absent (h : R.read (eng.metaKey ck) = none)
    (hrec : w.records (eng.metaKey ck) = none) : R.loads eng w ck mo = none := by
  have hrun : (eng.get ck (some mo)).run R.call w = (.ok none, w) := by
    show Prog.run _ (.call (Op.get _) _) w = _
    rw [Prog.run_call, call_get_accepted h, perform_get_absent hrec]
    rfl
  unfold Refusals.loads
  rw [hrun]
  rfl

/-- `get` on a store with the meta record. -/
theorem loads_found {r : Record} (h : R.read (eng.metaKey ck) = none)
    (hrec : w.records (eng.metaKey ck) = some r) :
    R.loads eng w ck mo
      = loaded ((eng.get_with_meta ck (some mo) r.bins).run R.call w).1 := by
  have hrun : (eng.get ck (some mo)).run R.call w
      = (eng.get_with_meta ck (some mo) r.bins).run R.call w := by
    show Prog.run _ (.call (Op.get _) _) w = _
    rw [Prog.run_call, call_get_accepted h, perform_get_found hrec]
    rfl
  unfold Refusals.loads
  rw [hrun]

/-- What a `batch_read` of the meta record finds is what `get` finds. -/
theorem selectBins_meta (bins : Bins) {n : BinName} (hn : n ∈ Engine.META_READ_BINS) :
    selectBins (some Engine.META_READ_BINS) bins n = bins n := if_pos hn

/-- The CRC check looks at a bin that the `batch_read` names. -/
theorem crc_matches_selectBins (bins : Bins) (mo : MemoryObj) (n : ℕ) :
    eng.crc_matches (selectBins (some Engine.META_READ_BINS) bins) mo n
      = eng.crc_matches bins mo n := by
  unfold Engine.crc_matches
  rw [selectBins_meta bins (by decide)]

/-- An inline payload: `get` fills the buffer exactly when `batched_get_preallocated` does. -/
theorem run_get_inline {bins : Bins} (hstate : bins .state = some (.str "ready"))
    {value : BinVal} (hnseg : bins .nseg = some value) (hone : Engine.pyInt value = .ok 1) :
    loaded ((eng.get_with_meta ck (some mo) bins).run R.call w).1
      = (bins .b).bind fun payload => eng.read_inline bins payload mo := by
  unfold Engine.get_with_meta
  rw [if_neg (not_not.mpr hstate), hnseg]
  dsimp only
  rw [hone]
  show loaded (Prog.run R.call ((eng.fill ck bins 1 mo false).tryCatch Engine.release) w).1 = _
  unfold Engine.fill Engine.read_payload
  rw [if_pos rfl]
  cases hb : bins .b with
  | none => rfl
  | some payload =>
    rw [Option.bind_some]
    unfold Engine.read_inline
    dsimp only
    cases hwrite : write_payload_into eng.frombuffer mo payload 0 with
    | error e => rfl
    | ok filled =>
      obtain ⟨filled, total_written⟩ := filled
      show loaded (Prog.run R.call ((eng.finish bins filled total_written false).tryCatch
        Engine.release) w).1 = _
      unfold Engine.finish
      by_cases hcrc : eng.crc_matches bins filled total_written = true
      · rw [if_pos hcrc]
        dsimp only
        rw [if_pos hcrc]
        rfl
      · rw [if_neg hcrc]
        dsimp only
        rw [if_neg hcrc]
        rfl

/-- A record that the `batch_read` finds: what the loop answers at once is what `get` makes of
its bins. -/
theorem read_meta_record_found {bins : Bins} {filled : Option MemoryObj}
    (h : eng.read_meta_record ⟨AEROSPIKE_OK, some (selectBins (some Engine.META_READ_BINS) bins)⟩ mo
      = .ok (.result filled)) :
    loaded ((eng.get_with_meta ck (some mo) bins).run R.call w).1 = filled := by
  unfold Engine.read_meta_record at h
  rw [if_neg (not_not.mpr rfl)] at h
  dsimp only at h
  rw [selectBins_meta bins (n := .state) (by decide),
    selectBins_meta bins (n := .nseg) (by decide),
    selectBins_meta bins (n := .b) (by decide)] at h
  by_cases hstate : bins .state = some (.str "ready")
  · rw [if_neg (not_not.mpr hstate)] at h
    cases hnseg : bins .nseg with
    | none =>
      rw [hnseg] at h
      cases h
    | some value =>
      rw [hnseg] at h
      dsimp only at h
      cases hint : Engine.pyInt value with
      | error e =>
        rw [hint] at h
        cases h
      | ok nseg =>
        rw [hint] at h
        dsimp only at h
        by_cases hone : nseg = 1
        · subst hone
          rw [if_neg (not_not.mpr rfl)] at h
          rw [run_get_inline hstate hnseg hint]
          cases hb : bins .b with
          | none =>
            rw [hb] at h
            cases h
            rfl
          | some payload =>
            rw [hb] at h
            cases h
            rw [Option.bind_some]
            unfold Engine.read_inline
            cases write_payload_into eng.frombuffer mo payload 0 with
            | error e => rfl
            | ok filled =>
              dsimp only
              rw [crc_matches_selectBins]
        · rw [if_pos hone] at h
          cases h
  · rw [if_pos hstate] at h
    cases h
    unfold Engine.get_with_meta
    rw [if_pos hstate]
    rfl

/-- **One record of a chunk**: the answer that the loop sets is that of `get`. -/
theorem read_meta_record_loads {filled : Option MemoryObj}
    (h : eng.read_meta_record (R.readRecord w Engine.META_READ_BINS (eng.metaKey ck)) mo
      = .ok (.result filled)) : R.loads eng w ck mo = filled := by
  unfold Refusals.readRecord at h
  cases hread : R.read (eng.metaKey ck) with
  | some r =>
    rw [hread] at h
    dsimp only [Engine.read_meta_record] at h
    rw [if_pos r.code_ne] at h
    cases h
    exact loads_refused hread
  | none =>
    rw [hread] at h
    dsimp only at h
    cases hrec : w.records (eng.metaKey ck) with
    | none =>
      have habsent : w.readRecord Engine.META_READ_BINS (eng.metaKey ck)
          = ⟨AEROSPIKE_ERR_RECORD_NOT_FOUND, none⟩ := by
        rw [World.readRecord, hrec]
      rw [habsent] at h
      dsimp only [Engine.read_meta_record] at h
      rw [if_pos (by decide)] at h
      cases h
      exact loads_absent hread hrec
    | some r =>
      rw [World.readRecord_found hrec] at h
      rw [loads_found hread hrec]
      exact read_meta_record_found h

/-! ### Reads leave the records as they are -/

/-- A reading operation is answered from the records alone, and keeps them. -/
theorem perform_same_records {K : Text → Prop} {op : RecOp} (h : EngineReadOp eng K op)
    {w w' : World} (hw : w'.records = w.records) :
    (R.perform op w').1 = (R.perform op w).1 ∧
      (R.perform op w').2.records = (R.perform op w).2.records := by
  have hread : ∀ key names, (R.perform (.read key names) w').1 = (R.perform (.read key names) w).1 ∧
      (R.perform (.read key names) w').2.records = (R.perform (.read key names) w).2.records := by
    intro key names
    unfold Refusals.perform
    cases R.of (.read key names) with
    | some r => exact ⟨rfl, hw⟩
    | none =>
      simp only [RecOp.perform, hw]
      cases w.records key with
      | none => exact ⟨rfl, hw⟩
      | some r => exact ⟨rfl, hw⟩
  cases h with
  | read_meta hk => exact hread _ _
  | read_segment hk => exact hread _ _
  | ref_count_down => exact ⟨rfl, hw⟩

theorem performAll_same_records {K : Text → Prop} {ops : List RecOp}
    (h : ∀ op ∈ ops, EngineReadOp eng K op) {w w' : World} (hw : w'.records = w.records) :
    (R.performAll ops w').1 = (R.performAll ops w).1 ∧
      (R.performAll ops w').2.records = (R.performAll ops w).2.records := by
  induction ops generalizing w w' with
  | nil => exact ⟨rfl, hw⟩
  | cons op ops ih =>
    rw [List.forall_mem_cons] at h
    obtain ⟨hres, hnext⟩ := perform_same_records (R := R) h.1 hw
    obtain ⟨hres', hnext'⟩ := ih h.2 hnext
    simp only [Refusals.performAll]
    rw [hres, hres']
    exact ⟨rfl, hnext'⟩

/-- A reading call is answered alike on stores with the same records. -/
theorem call_same_records {K : Text → Prop} {o : Op} (h : EngineReadCall eng K o)
    {w w' : World} (hw : w'.records = w.records) :
    (R.call o w').1 = (R.call o w).1 ∧ (R.call o w').2.records = (R.call o w).2.records := by
  obtain ⟨hres, hnext⟩ := performAll_same_records (R := R) h hw
  unfold Refusals.call
  cases R.raised o with
  | some x => exact ⟨rfl, hw⟩
  | none =>
    dsimp only
    rw [hres]
    exact ⟨rfl, hnext⟩

theorem perform_keeps_records {K : Text → Prop} {op : RecOp} (h : EngineReadOp eng K op)
    (w : World) : (R.perform op w).2.records = w.records := by
  have hread : ∀ key names, (R.perform (.read key names) w).2.records = w.records := by
    intro key names
    unfold Refusals.perform
    cases R.of (.read key names) with
    | some r => rfl
    | none =>
      simp only [RecOp.perform]
      cases w.records key with
      | none => rfl
      | some r => rfl
  cases h with
  | read_meta hk => exact hread _ _
  | read_segment hk => exact hread _ _
  | ref_count_down => rfl

/-- A reading call leaves the records as they are. -/
theorem call_keeps_records {K : Text → Prop} {o : Op} (h : EngineReadCall eng K o)
    (w : World) : (R.call o w).2.records = w.records := by
  have hall : ∀ (ops : List RecOp), (∀ op ∈ ops, EngineReadOp eng K op) → ∀ w : World,
      (R.performAll ops w).2.records = w.records := by
    intro ops
    induction ops with
    | nil => exact fun _ _ => rfl
    | cons op ops ih =>
      intro hops w
      rw [List.forall_mem_cons] at hops
      simp only [Refusals.performAll]
      rw [ih hops.2, perform_keeps_records hops.1]
  unfold Refusals.call
  cases R.raised o with
  | some x => rfl
  | none => exact hall o.items h w

/-- `get` on a store with the same records. -/
theorem loads_same_records {w w' : World} (hw : w'.records = w.records) :
    R.loads eng w' ck mo = R.loads eng w ck mo ∧
      ((eng.get ck (some mo)).run R.call w').2.records = w'.records := by
  have hcalls : (eng.get ck (some mo)).AllCalls (EngineReadCall eng fun _ => True) :=
    get_calls ck (some mo) trivial
  constructor
  · unfold Refusals.loads
    rw [(Prog.run_similar (R := fun (w' w : World) => w'.records = w.records)
      (fun o _ _ ho hs => call_same_records ho hs) _ hcalls hw).1]
  · exact Prog.run_keeps (I := fun w => w.records = w'.records)
      (fun o w ho hs => (call_keeps_records ho w).trans hs) _ hcalls rfl

end Item

/-! ## The loops -/

/-- The items with their positions, from `i` on. -/
def places {β : Type} (i : ℕ) : List β → List (ℕ × β)
  | [] => []
  | b :: bs => (i, b) :: places (i + 1) bs

/-- The places of two lists after each other. -/
theorem places_append {β : Type} (i : ℕ) (bs cs : List β) :
    places i (bs ++ cs) = places i bs ++ places (i + bs.length) cs := by
  induction bs generalizing i with
  | nil => rfl
  | cons b bs ih =>
    rw [List.cons_append, places, places, ih, List.length_cons, List.cons_append]
    congr 3
    omega

/-- A pair is in the list of places if its index points at its value. -/
theorem mem_places {β : Type} {i j : ℕ} {b : β} {bs : List β} :
    (j, b) ∈ places i bs ↔ i ≤ j ∧ bs[j - i]? = some b := by
  induction bs generalizing i with
  | nil => simp [places]
  | cons c bs ih =>
    rw [places, List.mem_cons, ih]
    constructor
    · rintro (heq | ⟨hle, hb⟩)
      · cases heq
        exact ⟨Nat.le_refl _, by rw [Nat.sub_self]; rfl⟩
      · refine ⟨by omega, ?_⟩
        rwa [show j - i = j - (i + 1) + 1 by omega, List.getElem?_cons_succ]
    · rintro ⟨hle, hb⟩
      by_cases hij : j = i
      · subst hij
        rw [Nat.sub_self] at hb
        cases hb
        exact Or.inl rfl
      · right
        rw [show j - i = j - (i + 1) + 1 by omega, List.getElem?_cons_succ] at hb
        exact ⟨by omega, hb⟩

/-- A stretch of the list without answers: its positions are pending, where those before it
have their answers and those after it are left as they are. -/
theorem pending_stretch {β γ : Type} (own : β → Option γ) (before bs : List β)
    (after : List (Option γ)) :
    Pending own (before.map own ++ (bs.map own ++ after))
      (before.map own ++ ((bs.map fun _ => none) ++ after)) (places before.length bs) where
  owns := fun x hx => by
    obtain ⟨hle, hb⟩ := mem_places.mp (show (x.1, x.2) ∈ places before.length bs from hx)
    have hlt := (List.getElem?_eq_some_iff.mp hb).1
    rw [List.getElem?_append_right (by rwa [List.length_map]), List.length_map,
      List.getElem?_append_left (by rwa [List.length_map]), List.getElem?_map, hb]
    rfl
  agrees := fun i => by
    by_cases hi : i < before.length
    · left
      rw [List.getElem?_append_left (by rwa [List.length_map]),
        List.getElem?_append_left (by rwa [List.length_map])]
    · have hle : before.length ≤ i := Nat.not_lt.mp hi
      have hshift : ∀ tail : List (Option γ),
          (before.map own ++ tail)[i]? = tail[i - before.length]? := fun tail => by
        rw [List.getElem?_append_right (by rwa [List.length_map]), List.length_map]
      rw [hshift, hshift]
      cases hb : bs[i - before.length]? with
      | none =>
        have hge := List.getElem?_eq_none_iff.mp hb
        have hlast : ∀ c : β → Option γ,
            (bs.map c ++ after)[i - before.length]? = after[i - before.length - bs.length]? :=
          fun c => by rw [List.getElem?_append_right (by rwa [List.length_map]), List.length_map]
        left
        rw [hlast, hlast]
      | some b =>
        have hlt := (List.getElem?_eq_some_iff.mp hb).1
        refine Or.inr ⟨?_, (i, b), mem_places.mpr ⟨hle, hb⟩, rfl⟩
        rw [List.getElem?_append_left (by rwa [List.length_map]), List.getElem?_map, hb]
        rfl

/-- At the start every position is pending. -/
theorem pending_start {β γ : Type} (own : β → Option γ) (bs : List β) :
    Pending own (bs.map own) (bs.map fun _ => none) (places 0 bs) := by
  have hall := pending_stretch own [] bs []
  rwa [List.append_nil, List.append_nil] at hall

section Loops

variable {R : Refusals} {eng : Engine} {w : World} {target : List (Option MemoryObj)}
  {rest : List (ℕ × Text × MemoryObj)}

variable (R eng w) in
/-- The answer of one item. -/
def Refusals.own (item : Text × MemoryObj) : Option MemoryObj := R.loads eng w item.1 item.2

/-- **The loop over the records of a chunk.** -/
theorem read_meta_records_pending {items : List (Text × MemoryObj)} {i : ℕ}
    {st st' : LoadState}
    (h : eng.read_meta_records i st (items.map fun item =>
      R.readRecord w Engine.META_READ_BINS (eng.metaKey item.1)) items = (st', none))
    (hpend : Pending (R.own eng w) target st.results
      (st.multi_seg ++ (places i items ++ rest))) :
    Pending (R.own eng w) target st'.results (st'.multi_seg ++ rest) := by
  induction items generalizing i st with
  | nil =>
    cases h
    exact hpend
  | cons item items ih =>
    obtain ⟨ck, mo⟩ := item
    -- the item at hand comes first among the pending ones
    have hfirst : Pending (R.own eng w) target st.results
        ((i, (ck, mo)) :: (st.multi_seg ++ (places (i + 1) items ++ rest))) :=
      hpend.perm fun x => by
        simp only [places, List.mem_cons, List.mem_append]
        tauto
    rw [List.map_cons, Engine.read_meta_records] at h
    cases hrec : eng.read_meta_record
        (R.readRecord w Engine.META_READ_BINS (eng.metaKey ck)) mo with
    | error e =>
      rw [hrec] at h
      cases h
    | ok read =>
      rw [hrec] at h
      cases read with
      | multi_seg =>
        refine ih h (hpend.perm fun x => ?_)
        simp only [places, List.mem_cons, List.mem_append, List.not_mem_nil, or_false]
        tauto
      | result filled =>
        have hown : R.own eng w (ck, mo) = filled := read_meta_record_loads hrec
        cases filled with
        | none => exact ih h (hfirst.drop hown)
        | some filled => exact ih h (hfirst.settle hown)

section Handlers

variable {S : Type} {h : ∀ o : Op, S → o.Res × S} {I : S → Prop}
  {own : Text × MemoryObj → Option MemoryObj}

/-- **The loop over the sharded items of a chunk**, when every `get` answers what the item has
alone. -/
theorem run_get_multi_seg
    (hget : ∀ ck mo s, I s → loaded ((eng.get ck (some mo)).run h s).1 = own (ck, mo) ∧
      I ((eng.get ck (some mo)).run h s).2)
    {multi_seg : List (ℕ × Text × MemoryObj)} {results results' : List (Option MemoryObj)}
    {s s' : S} (hrun : (eng.get_multi_seg results multi_seg).run h s = (.ok (results', none), s'))
    (hs : I s) (hpend : Pending own target results (multi_seg ++ rest)) :
    I s' ∧ Pending own target results' rest := by
  induction multi_seg generalizing results s with
  | nil =>
    cases hrun
    exact ⟨hs, hpend⟩
  | cons x multi_seg ih =>
    obtain ⟨i, ck, mo⟩ := x
    obtain ⟨hown, hkeeps⟩ := hget ck mo s hs
    unfold Engine.get_multi_seg at hrun
    rw [Prog.bind_eq, Prog.run_bind, Prog.run_attempt, Prog.andThen_ok] at hrun
    rcases hone : (eng.get ck (some mo)).run h s with ⟨r, s₁⟩
    rw [hone] at hrun hkeeps hown
    cases r with
    | error e => cases hrun
    | ok hit =>
      cases hit with
      | none => exact ih hrun hkeeps (hpend.drop hown.symm)
      | some hit => exact ih hrun hkeeps (hpend.settle hown.symm)

/-- **One chunk**, the meta records of its items read. -/
theorem run_batched_get_chunk
    (hget : ∀ ck mo s, I s → loaded ((eng.get ck (some mo)).run h s).1 = R.own eng w (ck, mo) ∧
      I ((eng.get ck (some mo)).run h s).2)
    {items : List (Text × MemoryObj)} {offset : ℕ} {results results' : List (Option MemoryObj)}
    {s s₁ s' : S}
    (hread : h (.batch_read (items.map fun item => eng.metaKey item.1) Engine.META_READ_BINS) s
      = (.ok (items.map fun item => R.readRecord w Engine.META_READ_BINS (eng.metaKey item.1)), s₁))
    (hrun : (eng.batched_get_preallocated_chunk items results offset).run h s
      = (.ok (results', none), s'))
    (hs : I s₁)
    (hpend : Pending (R.own eng w) target results (places offset items ++ rest)) :
    I s' ∧ Pending (R.own eng w) target results' rest := by
  unfold Engine.batched_get_preallocated_chunk at hrun
  change Prog.run _ (.call (Op.batch_read _ _) _) s = _ at hrun
  rw [Prog.run_call, hread] at hrun
  dsimp only [Prog.ret_bind] at hrun
  rcases hloop : eng.read_meta_records offset ⟨results, []⟩ (items.map fun item =>
    R.readRecord w Engine.META_READ_BINS (eng.metaKey item.1)) items with ⟨st, raised⟩
  rw [hloop] at hrun
  cases raised with
  | some e => cases hrun
  | none => exact run_get_multi_seg hget hrun hs (read_meta_records_pending hloop hpend)

end Handlers

/-- The meta records of a chunk, read on a store with the same records. -/
theorem call_read_metas {w₁ : World} (hw : w₁.records = w.records)
    (items : List (Text × MemoryObj)) :
    R.call (.batch_read (items.map fun item => eng.metaKey item.1) Engine.META_READ_BINS) w₁
      = (.ok (items.map fun item =>
          R.readRecord w Engine.META_READ_BINS (eng.metaKey item.1)), w₁) := by
  rw [call_batch_read, List.map_map]
  congr 2
  apply List.map_congr_left
  intro item _
  simp only [Function.comp, Refusals.readRecord, World.readRecord, hw]

/-- **The loop over the chunks.** -/
theorem run_batched_get_chunks {chunks : List (List (Text × MemoryObj))} {offset : ℕ}
    {results results' : List (Option MemoryObj)} {w₁ w₂ : World}
    (h : (eng.batched_get_preallocated_chunks results offset chunks).run R.call w₁
      = (.ok (results', none), w₂))
    (hw : w₁.records = w.records)
    (hpend : Pending (R.own eng w) target results (places offset chunks.flatten)) :
    w₂.records = w.records ∧ results' = target := by
  induction chunks generalizing results offset w₁ with
  | nil =>
    cases h
    exact ⟨hw, hpend.eq_target⟩
  | cons chunk chunks ih =>
    unfold Engine.batched_get_preallocated_chunks at h
    rw [Prog.bind_eq, Prog.run_bind] at h
    rw [List.flatten_cons, places_append] at hpend
    rcases hchunk : (eng.batched_get_preallocated_chunk chunk results offset).run R.call w₁
      with ⟨r, w'⟩
    rw [hchunk] at h
    cases r with
    | error e => cases h
    | ok x =>
      obtain ⟨results₁, raised⟩ := x
      cases raised with
      | some e => cases h
      | none =>
        have hget : ∀ ck mo s, s.records = w.records →
            loaded ((eng.get ck (some mo)).run R.call s).1 = R.own eng w (ck, mo) ∧
              ((eng.get ck (some mo)).run R.call s).2.records = w.records := fun ck mo s hs =>
          ⟨(loads_same_records hs).1, (loads_same_records hs).2.trans hs⟩
        obtain ⟨hw', hpend'⟩ := run_batched_get_chunk hget (call_read_metas hw chunk) hchunk hw
          hpend
        exact ih h hw' hpend'

end Loops

/-! ## The whole batch -/

/-- What `torch.frombuffer` raises is no exception of the client. -/
def Engine.TorchRaises (eng : Engine) : Prop :=
  ∀ bytes exc, eng.frombuffer bytes ≠ .error (.aerospike exc)

/-- The outcome is no exception of the client. -/
def NoClientError {α : Type} (r : Except PyExc α) : Prop := ∀ exc, r ≠ .error (.aerospike exc)

theorem noClientError_ok {α : Type} (a : α) : NoClientError (.ok a) := by
  intro exc h
  cases h

/-- An exception is no exception of the client, whatever the computation was to return. -/
theorem NoClientError.cast {α β : Type} {e : PyExc}
    (h : NoClientError (.error e : Except PyExc α)) :
    NoClientError (.error e : Except PyExc β) := by
  intro exc heq
  cases heq
  exact h exc rfl

/-- A batch is answered, whatever is refused in it. -/
def AnswersBatch : (o : Op) → o.Res → Prop
  | .batch_read _ _, x | .batch_write _, x => ∃ recs, x = .ok recs
  | _, _ => True

/-- Under refusals a batch is answered: they are in its elements. -/
theorem call_answersBatch {R : Refusals} (o : Op) (w : World) :
    AnswersBatch o (R.call o w).1 := by
  cases o with
  | batch_read keys bins => exact ⟨_, rfl⟩
  | batch_write ops => exact ⟨_, rfl⟩
  | _ => trivial

theorem noClientError_builtin {α : Type} (err : BuiltinError) :
    NoClientError (.error (.builtin err) : Except PyExc α) := by
  intro exc h
  cases h

theorem pyInt_noClientError (value : BinVal) : NoClientError (Engine.pyInt value) := by
  have hliteral : ∀ n : Option ℤ,
      NoClientError (n.elim (.error (.builtin .ValueError)) Except.ok) := by
    intro n
    cases n with
    | none => exact noClientError_builtin _
    | some n => exact noClientError_ok n
  cases value with
  | int i => exact noClientError_ok _
  | bool v => exact noClientError_ok _
  | str s => exact hliteral _
  | blob b =>
    show NoClientError (if _ then _ else _)
    split_ifs
    · exact hliteral _
    · exact noClientError_builtin _
  | double bits =>
    show NoClientError (if _ then _ else _)
    by_cases hfinite : Engine.doubleExponent bits = 2047
    · rw [if_pos hfinite]
      exact noClientError_builtin _
    · rw [if_neg hfinite]
      exact noClientError_ok _
  | collection entries => exact noClientError_builtin _
  | geojson => exact noClientError_builtin _

section Errors

variable {eng : Engine} (htorch : eng.TorchRaises)

include htorch

/-- A copy into an object raises nothing of the client. -/
theorem write_payload_noClientError (mo : MemoryObj) (payload : BinVal) (offset : ℕ) :
    NoClientError (write_payload_into eng.frombuffer mo payload offset) := by
  intro exc h
  unfold write_payload_into at h
  cases payload with
  | blob bytes =>
    dsimp only at h
    split_ifs at h with hroom htensor
    · cases h
    · cases hsrc : eng.frombuffer bytes with
      | ok src =>
        rw [hsrc] at h
        cases h
      | error e =>
        rw [hsrc] at h
        cases h
        exact htorch bytes exc hsrc
  | str s =>
    dsimp only at h
    split_ifs at h <;> cases h
  | collection entries =>
    dsimp only at h
    split_ifs at h <;> cases h
  | int i => cases h
  | bool v => cases h
  | double bits => cases h
  | geojson => cases h

/-- Neither does the loop over the segments. -/
theorem write_segments_noClientError (recs : List BatchRecord) (mo : MemoryObj)
    (offset total_written : ℕ) :
    NoClientError (eng.write_segments mo offset total_written recs) := by
  induction recs generalizing mo offset total_written with
  | nil => exact noClientError_ok _
  | cons rec recs ih =>
    unfold Engine.write_segments
    split_ifs
    · exact noClientError_ok _
    · cases rec.record with
      | none => exact noClientError_ok _
      | some bins =>
        dsimp only
        cases bins .b with
        | none => exact noClientError_builtin _
        | some chunk =>
          dsimp only
          have hwrite := write_payload_noClientError htorch mo chunk offset
          cases hw : write_payload_into eng.frombuffer mo chunk offset with
          | error e =>
            rw [hw] at hwrite
            exact hwrite.cast
          | ok filled => exact ih _ _ _

theorem read_payload_noClientError (ck : Text) (bins : Bins) (nseg : ℤ) (mo : MemoryObj) :
    (eng.read_payload ck bins nseg mo).Meets AnswersBatch NoClientError := by
  unfold Engine.read_payload
  split_ifs
  · cases bins .b with
    | none => exact noClientError_ok _
    | some payload =>
      refine Prog.meets_bind (M := NoClientError) _ _
        (Prog.meets_ofExcept (write_payload_noClientError htorch mo payload 0))
        (fun a _ => noClientError_ok _) fun e he => he.cast
  · rintro x ⟨recs, rfl⟩
    show Prog.Meets _ _ (Prog.bind (Prog.ofExcept (eng.write_segments mo 0 0 recs)) _)
    refine Prog.meets_bind (M := NoClientError) _ _
      (Prog.meets_ofExcept (write_segments_noClientError htorch recs mo 0 0)) ?_
      fun e he => he.cast
    intro filled _
    cases filled with
    | none => exact fun _ _ => noClientError_ok _
    | some filled => exact noClientError_ok _

theorem fill_noClientError (ck : Text) (bins : Bins) (nseg : ℤ) (mo : MemoryObj) :
    (eng.fill ck bins nseg mo false).Meets AnswersBatch NoClientError := by
  refine Prog.meets_bind (M := NoClientError) _ _
    (read_payload_noClientError htorch ck bins nseg mo) ?_ fun e he => he.cast
  intro filled _
  cases filled with
  | none => exact noClientError_ok _
  | some filled =>
    show Prog.Meets _ _ (eng.finish bins filled.1 filled.2 false)
    unfold Engine.finish
    by_cases hcrc : eng.crc_matches bins filled.1 filled.2 = true
    · rw [if_pos hcrc, if_neg Bool.false_ne_true]
      exact noClientError_ok _
    · rw [if_neg hcrc]
      exact fun _ _ => noClientError_ok _

/-- With a buffer of the caller, what follows the meta read raises nothing of the client. -/
theorem get_with_meta_noClientError (ck : Text) (bins : Bins) (mo : MemoryObj) :
    (eng.get_with_meta ck (some mo) bins).Meets AnswersBatch NoClientError := by
  unfold Engine.get_with_meta
  split_ifs
  · exact noClientError_ok _
  · cases bins .nseg with
    | none => exact noClientError_builtin _
    | some value =>
      refine Prog.meets_bind (M := NoClientError) _ _ (Prog.meets_ofExcept ?_) ?_
        fun e he => he.cast
      · exact pyInt_noClientError value
      · intro nseg _
        refine Prog.meets_tryCatch _ _ (fill_noClientError htorch ck bins nseg mo)
          (fun a _ => noClientError_ok a) ?_
        intro e he
        exact fun _ _ => he

/-- **`get` into the caller's buffer raises no exception of the client**, when batches are
answered. -/
theorem get_noClientError (ck : Text) (mo : MemoryObj) :
    (eng.get ck (some mo)).Meets AnswersBatch NoClientError := by
  intro x _
  cases x with
  | error exc =>
    show Prog.Meets _ _ (if _ then _ else _)
    split_ifs
    · exact noClientError_ok _
    · exact noClientError_ok _
    · intro exc h
      cases h
    · intro exc' h
      unfold map_aerospike_error at h
      dsimp only at h
      split at h <;> cases h
  | ok bins => exact get_with_meta_noClientError htorch ck bins mo

/-- What the loops over the items raise is no exception of the client. -/
def RaisesOther (r : Except PyExc (List (Option MemoryObj) × Option PyExc)) : Prop :=
  ∀ results exc, r ≠ .ok (results, some (.aerospike exc))

omit htorch in
theorem raisesOther_none (results : List (Option MemoryObj)) :
    RaisesOther (.ok (results, none)) := by
  intro results' exc h
  cases h

omit htorch in
theorem raisesOther_of_noClientError {α : Type} {e : PyExc}
    (h : NoClientError (.error e : Except PyExc α)) (results : List (Option MemoryObj)) :
    RaisesOther (.ok (results, some e)) := by
  intro results' exc heq
  cases heq
  exact h exc rfl

omit htorch in
theorem read_meta_record_noClientError (rec : BatchRecord) (mo : MemoryObj) :
    NoClientError (eng.read_meta_record rec mo) := by
  unfold Engine.read_meta_record
  split_ifs
  · exact noClientError_ok _
  · cases rec.record with
    | none => exact noClientError_ok _
    | some bins =>
      dsimp only
      split_ifs
      · exact noClientError_ok _
      · cases bins .nseg with
        | none => exact noClientError_builtin _
        | some value =>
          dsimp only
          have hint := pyInt_noClientError value
          cases hv : Engine.pyInt value with
          | error e =>
            rw [hv] at hint
            exact hint.cast
          | ok nseg =>
            dsimp only
            split_ifs
            · exact noClientError_ok _
            · cases bins .b <;> exact noClientError_ok _

omit htorch in
/-- What the loop over the meta records raises is nothing of the client. -/
theorem read_meta_records_raises {recs : List BatchRecord} {items : List (Text × MemoryObj)}
    {i : ℕ} {st st' : LoadState} {e : PyExc}
    (h : eng.read_meta_records i st recs items = (st', some e)) :
    NoClientError (.error e : Except PyExc Unit) := by
  induction recs generalizing i st items with
  | nil => cases h
  | cons rec recs ih =>
    cases items with
    | nil =>
      cases h
      exact noClientError_builtin _
    | cons item items =>
      obtain ⟨ck, mo⟩ := item
      rw [Engine.read_meta_records] at h
      have hread : NoClientError (eng.read_meta_record rec mo) :=
        read_meta_record_noClientError rec mo
      cases hrec : eng.read_meta_record rec mo with
      | error e' =>
        rw [hrec] at h hread
        cases h
        exact hread.cast
      | ok read =>
        rw [hrec] at h
        cases read with
        | multi_seg => exact ih h
        | result filled =>
          cases filled with
          | none => exact ih h
          | some filled => exact ih h

theorem get_multi_seg_raises (results : List (Option MemoryObj))
    (multi_seg : List (ℕ × Text × MemoryObj)) :
    (eng.get_multi_seg results multi_seg).Meets AnswersBatch RaisesOther := by
  induction multi_seg generalizing results with
  | nil => exact raisesOther_none _
  | cons x multi_seg ih =>
    obtain ⟨i, ck, mo⟩ := x
    unfold Engine.get_multi_seg
    refine Prog.meets_bind _ _ (Prog.meets_attempt _ (get_noClientError htorch ck mo)) ?_ ?_
    · rintro r ⟨x, hx, hr⟩
      cases hx
      cases r with
      | error e => exact raisesOther_of_noClientError hr results
      | ok hit =>
        cases hit with
        | none => exact ih results
        | some hit => exact ih _
    · rintro e ⟨x, hx, -⟩
      cases hx

/-- **The chunks of a load** raise no exception of the client either. -/
theorem batched_get_chunks_raises (results : List (Option MemoryObj)) (offset : ℕ)
    (chunks : List (List (Text × MemoryObj))) :
    (eng.batched_get_preallocated_chunks results offset chunks).Meets AnswersBatch
      RaisesOther := by
  induction chunks generalizing results offset with
  | nil => exact raisesOther_none _
  | cons chunk chunks ih =>
    have hchunk : (eng.batched_get_preallocated_chunk chunk results offset).Meets AnswersBatch
        RaisesOther := by
      rintro x ⟨recs, rfl⟩
      dsimp only [Prog.ret_bind]
      rcases hloop : eng.read_meta_records offset ⟨results, []⟩ recs chunk with ⟨st, raised⟩
      cases raised with
      | some e => exact raisesOther_of_noClientError (read_meta_records_raises hloop) _
      | none => exact get_multi_seg_raises htorch _ _
    unfold Engine.batched_get_preallocated_chunks
    refine Prog.meets_bind _ _ hchunk ?_ fun e _ results exc h => by cases h
    rintro ⟨results₁, raised⟩ hr
    cases raised with
    | none => exact ih _ _
    | some e =>
      intro results' exc h
      cases h
      exact hr _ _ rfl

end Errors

/-- **A batch that returns has the answer of `get` for every item alone**, in the order of the
items: the object with its buffer filled, or nothing. -/
theorem run_batched_get {R : Refusals} {eng : Engine} (htorch : eng.TorchRaises)
    {items : List (Text × MemoryObj)} {results : List (Option MemoryObj)} {w w' : World}
    (h : (eng.batched_get_preallocated items).run R.call w = (.ok results, w')) :
    w'.records = w.records ∧ results = items.map (R.own eng w) := by
  unfold Engine.batched_get_preallocated at h
  by_cases hnil : items = []
  · subst hnil
    cases h
    exact ⟨rfl, rfl⟩
  · rw [if_neg hnil, Prog.bind_eq, Prog.run_bind] at h
    have hraises := Prog.run_meets (fun o w => call_answersBatch (R := R) o w) _
      (batched_get_chunks_raises htorch (items.map fun _ => none) 0
        (Engine.chunked items Engine.BATCH_KEYS_CHUNK)) w
    rcases hrun : (eng.batched_get_preallocated_chunks (items.map fun _ => none) 0
      (Engine.chunked items Engine.BATCH_KEYS_CHUNK)).run R.call w with ⟨r, w₁⟩
    rw [hrun] at h hraises
    cases r with
    | error e => cases h
    | ok x =>
      obtain ⟨results₁, raised⟩ := x
      cases raised with
      | none =>
        cases h
        refine run_batched_get_chunks hrun rfl ?_
        rw [flatten_chunked items (by decide)]
        exact pending_start _ items
      | some e =>
        cases e with
        | connector kind text => cases h
        | builtin err => cases h
        | aerospike exc => exact (hraises results₁ exc rfl).elim
