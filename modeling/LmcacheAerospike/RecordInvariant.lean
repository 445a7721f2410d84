/-
# Invariants of single records

An invariant that speaks about each record by itself is kept by every interleaving as
soon as it is kept by each write: removals and expiry only take records away, a touch
keeps the bins, and a read changes nothing.  `recordProtocol` is the rely-guarantee
protocol of such an invariant, and it says what a read of the record may deliver.
-/
import LmcacheAerospike.Records

/-- Every record meets `I`, which may depend on its key. -/
def World.Each (I : Key → Bins → Prop) (w : World) : Prop :=
  ∀ key r, w.records key = some r → I key r.bins

theorem World.each_empty (I : Key → Bins → Prop) : World.empty.Each I := by
  intro key r h
  simp [World.empty] at h

/-- Setting a record that meets the invariant keeps it. -/
theorem World.Each.setRecord {I : Key → Bins → Prop} {w : World} (h : w.Each I)
    (key : Key) (r? : Option Record) (hr : ∀ r, r? = some r → I key r.bins) :
    (w.setRecord key r?).Each I := by
  intro key' r hget
  by_cases hk : key' = key
  · subst hk
    rw [World.setRecord_self] at hget
    exact hr r hget
  · rw [World.setRecord_of_ne w hk] at hget
    exact h key' r hget

/-- What a read of a record that meets `I` may deliver. -/
def ReadOf (I : Key → Bins → Prop) (key : Key) (names : Option (List BinName))
    (bins : Bins) : Prop :=
  ∃ full, I key full ∧ bins = selectBins names full

/-- What the invariant promises of the result of one operation. -/
def ReadResult (I : Key → Bins → Prop) (op : RecOp) (r : RecRes) : Prop :=
  ∀ key names bins, op = .read key names → r = .found bins → ReadOf I key names bins

/-- A write keeps `I`, wherever the guard allows it. -/
def KeepsRecords (I : Key → Bins → Prop) (G : RecOp → World → Prop) (Good : RecOp → Prop) :
    Prop :=
  ∀ wr w, Good (.write wr) → G (.write wr) w →
    (∀ r, w.records wr.key = some r → I wr.key r.bins) →
    I wr.key (wr.applyTo w.now (w.records wr.key)).bins

/-- One operation keeps the invariant of the records. -/
theorem perform_each {I : Key → Bins → Prop} {G : RecOp → World → Prop}
    {Good : RecOp → Prop} (hkeeps : KeepsRecords I G Good) {op : RecOp} {w : World}
    (hgood : Good op) (hG : G op w) (h : w.Each I) : (op.perform w).2.Each I := by
  cases op with
  | read key names =>
    simp only [RecOp.perform]
    split <;> exact h
  | write wr =>
    apply h.setRecord _ _
    intro r hr
    cases hr
    exact hkeeps wr w hgood hG (h wr.key)
  | touch key ttl =>
    simp only [RecOp.perform]
    cases hrec : w.records key with
    | none => exact h
    | some r =>
      apply h.setRecord _ _
      intro r' hr'
      cases hr'
      exact h key r hrec
  | remove key =>
    simp only [RecOp.perform]
    cases w.records key with
    | none => exact h
    | some r => exact h.setRecord _ _ fun r' hr' => by cases hr'
  | clock => exact h
  | ref_count_down => exact h

/-- What an operation reads from records that meet the invariant meets it. -/
theorem perform_readResult {I : Key → Bins → Prop} {op : RecOp} {w : World}
    (h : w.Each I) : ReadResult I op (op.perform w).1 := by
  intro key names bins hop hr
  subst hop
  simp only [RecOp.perform] at hr
  cases hrec : w.records key with
  | none =>
    rw [hrec] at hr
    cases hr
  | some r =>
    rw [hrec] at hr
    cases hr
    exact ⟨r.bins, h key r hrec, rfl⟩

theorem failed_readResult (I : Key → Bins → Prop) (op : RecOp) (code : ℤ) :
    ReadResult I op (.failed code) := by
  intro key names bins _ hr
  cases hr

/-- The client itself, under the guard that allows everything. -/
theorem faulty_unguarded (op : RecOp) (w : World) (r : RecRes) (w' : World)
    (h : Faulty op w r w') : Faulty op w r w' ∧ (w' = w ∨ True) := ⟨h, Or.inr trivial⟩

/-- **The protocol of a record invariant**, for a client whose operations are guarded by `G`
whenever they change the store. -/
def recordProtocol {Does : RecOp → World → RecRes → World → Prop}
    {G : RecOp → World → Prop}
    (hdoes : ∀ op w r w', Does op w r w' → Faulty op w r w' ∧ (w' = w ∨ G op w))
    (I : Key → Bins → Prop) (Good : RecOp → Prop) (hkeeps : KeepsRecords I G Good) :
    Protocol (serve Does) Expiry :=
  Protocol.itemwise (World.Each I) Good (ReadResult I)
    (fun {w w'} henv hinv => by
      cases henv with
      | expire key => exact hinv.setRecord key none fun r hr => by cases hr
      | tick t ht => exact hinv)
    (fun {op w r w'} hgood hinv hd => by
      obtain ⟨hf, hG⟩ := hdoes op w r w' hd
      have hresult : ReadResult I op r := by
        rcases hf with hp | ⟨⟨code, -, rfl⟩, -⟩
        · rw [show r = (op.perform w).1 from congrArg Prod.fst hp]
          exact perform_readResult hinv
        · exact failed_readResult I op code
      refine ⟨?_, hresult⟩
      rcases hG with rfl | hG
      · exact hinv
      · rcases hf with hp | ⟨-, rfl | rfl⟩
        · rw [show w' = (op.perform w).2 from congrArg Prod.snd hp]
          exact perform_each hkeeps hgood hG hinv
        · exact hinv
        · exact perform_each hkeeps hgood hG hinv)

/-! ## What the answers to reads may be -/

section Answers

variable {Does : RecOp → World → RecRes → World → Prop} {G : RecOp → World → Prop}
  {hdoes : ∀ op w r w', Does op w r w' → Faulty op w r w' ∧ (w' = w ∨ G op w)}
  {I : Key → Bins → Prop} {Good : RecOp → Prop} {hkeeps : KeepsRecords I G Good}

/-- What `get` answers is a record that meets the invariant. -/
theorem resOk_get {key : Key} {bins : Bins}
    (h : (recordProtocol hdoes I Good hkeeps).ResOk (.get key) (.ok bins)) :
    I key bins := by
  rcases h with ⟨rs, hrs, hx⟩ | ⟨e, he⟩
  · rw [show Op.items (.get key) = [.read key none] from rfl,
      List.forall₂_cons_left_iff] at hrs
    obtain ⟨r, rs, hr, hnil, rfl⟩ := hrs
    rw [List.forall₂_nil_left_iff] at hnil
    subst hnil
    cases r with
    | found found =>
      cases hx
      obtain ⟨full, hfull, rfl⟩ := hr key none _ rfl rfl
      exact hfull
    | applied => cases hx
    | absent => cases hx
    | failed code => cases hx
    | clock t => cases hx
  · cases he

/-- What `batch_read` answers are selections of records that meet the invariant. -/
theorem resOk_batch_read {keys : List Key} {names : List BinName} {recs : List BatchRecord}
    (h : (recordProtocol hdoes I Good hkeeps).ResOk (.batch_read keys names) (.ok recs)) :
    List.Forall₂ (fun key rec => ∀ bins, rec.record = some bins →
      ReadOf I key (some names) bins) keys recs := by
  rcases h with ⟨rs, hrs, hx⟩ | ⟨e, he⟩
  · rw [show Op.items (.batch_read keys names) = keys.map fun k => .read k (some names)
      from rfl, List.forall₂_map_left_iff] at hrs
    have hrecs : recs = rs.map RecRes.toBatchRecord := by
      cases hx
      rfl
    rw [hrecs, List.forall₂_map_right_iff]
    apply hrs.imp
    intro key r hr bins hbins
    cases r with
    | found found =>
      cases hbins
      exact hr key (some names) _ rfl rfl
    | applied => cases hbins
    | absent => cases hbins
    | failed code => cases hbins
    | clock t => cases hbins
  · cases he

end Answers
