/-
# Failures inside a `batched_put`

A chunk with an item of several segments is stored by one `put` after the other.  `put` turns
every exception of the client into one of the package's own, and the loop catches three of
those: an exception or a result code of another class ends the whole batch.  Over all answers
that the calls can have, the batch keeps the failures of its items apart if and only if every
failure is of the three classes (`batched_put_isolates_iff`).
-/
import LmcacheAerospike.GetExits

/-! ## The failures that the loop catches -/

/-- The exceptions that the loop of `_batched_put_chunk` turns into `False`. -/
def PyExc.caughtPerItem : PyExc → Bool
  | .connector .recordTooBig _ | .connector .ttlConfig _ | .connector .busy _ => true
  | .aerospike _ => true
  | _ => false

/-- A client exception that `put` raises as one of the three classes. -/
def AxError.Contained (exc : AxError) : Prop :=
  exc.kind = .RecordTooBig ∨ classify (.ax exc) = .forbidden_ttl ∨ classify (.ax exc) = .busy

/-- What a write was answered is no failure, or one of the three classes: of the segments of a
batch the first that failed counts. -/
def Op.Contained : (o : Op) → o.Res → Prop
  | .put _, .error exc | .batch_write _, .error exc => exc.Contained
  | .batch_write _, .ok recs =>
    ∀ rec, recs.find? (fun rec => rec.result ≠ AEROSPIKE_OK) = some rec →
      rec.result = AEROSPIKE_ERR_KEY_BUSY ∨ rec.result = AEROSPIKE_ERR_FAIL_FORBIDDEN
  | _, _ => True

/-- Only a `RecordTooBig` is in its bucket. -/
theorem kind_of_classify_too_big {exc : AxError} (h : classify (.ax exc) = .too_big) :
    exc.kind = .RecordTooBig := by
  unfold classify at h
  split_ifs at h
  dsimp only at h
  cases hkind : exc.kind <;> rw [hkind] at h <;> first | rfl | cases h

/-- The buckets whose class the loop catches. -/
theorem caught_map_iff (op_name : String) (exc : Mappable) :
    (map_aerospike_error op_name exc).caughtPerItem = true ↔
      classify exc = .too_big ∨ classify exc = .forbidden_ttl ∨ classify exc = .busy := by
  unfold map_aerospike_error
  dsimp only
  cases classify exc <;> simp [PyExc.caughtPerItem]

/-- The `except` clauses of `put`, on an exception of the client. -/
theorem reraise_aerospike {α : Type} (op_name : String) (too_big : AxError → String)
    (exc : AxError) :
    ∃ e, (Engine.reraise op_name too_big (.aerospike exc) : EngineM α) = .raise e ∧
      (e.caughtPerItem = true ↔ exc.Contained) := by
  unfold Engine.reraise AxError.Contained
  dsimp only
  by_cases hbig : exc.kind = .RecordTooBig
  · rw [if_pos hbig]
    exact ⟨_, rfl, iff_of_true rfl (Or.inl hbig)⟩
  by_cases httl : classify (.ax exc) = .forbidden_ttl
  · rw [if_neg hbig, if_pos httl]
    exact ⟨_, rfl, iff_of_true rfl (Or.inr (Or.inl httl))⟩
  by_cases hbusy : classify (.ax exc) = .busy
  · rw [if_neg hbig, if_neg httl, if_pos hbusy]
    exact ⟨_, rfl, iff_of_true rfl (Or.inr (Or.inr hbusy))⟩
  · rw [if_neg hbig, if_neg httl, if_neg hbusy]
    refine ⟨_, rfl, ?_⟩
    have hbucket : classify (.ax exc) ≠ .too_big := fun h => hbig (kind_of_classify_too_big h)
    rw [caught_map_iff]
    simp only [hbig, httl, hbusy, hbucket]

/-- The `except` clauses let nothing pass that returns. -/
theorem reraise_trace {α : Type} {op_name : String} {too_big : AxError → String} {e : PyExc}
    {calls : Calls} {r : Except PyExc α} (h : (Engine.reraise op_name too_big e).Trace calls r) :
    calls = [] ∧ ∃ e', r = .error e' := by
  cases e with
  | aerospike exc =>
    obtain ⟨e', hraise, -⟩ := @reraise_aerospike α op_name too_big exc
    rw [hraise] at h
    exact ⟨(Prog.trace_raise h).1, e', (Prog.trace_raise h).2⟩
  | connector kind text => exact ⟨(Prog.trace_raise h).1, _, (Prog.trace_raise h).2⟩
  | builtin err => exact ⟨(Prog.trace_raise h).1, _, (Prog.trace_raise h).2⟩

/-- A segment's result code. -/
theorem caught_segment_iff (code : ℤ) :
    (map_aerospike_error "put-segment" (result_to_exc code)).caughtPerItem = true ↔
      code = AEROSPIKE_ERR_KEY_BUSY ∨ code = AEROSPIKE_ERR_FAIL_FORBIDDEN := by
  rw [caught_map_iff]
  unfold classify result_to_exc
  dsimp only [Mappable.code]
  by_cases hbusy : code = AEROSPIKE_ERR_KEY_BUSY
  · simp [hbusy]
  · by_cases hforbidden : code = AEROSPIKE_ERR_FAIL_FORBIDDEN
    · simp [hforbidden, AEROSPIKE_ERR_KEY_BUSY, AEROSPIKE_ERR_FAIL_FORBIDDEN]
    · simp [hbusy, hforbidden]

/-- The check of the segments raises for the first that failed. -/
theorem check_segments_eq (recs : List BatchRecord) :
    Engine.check_segments recs
      = match recs.find? (fun rec => rec.result ≠ AEROSPIKE_OK) with
        | none => .ok ()
        | some rec => .error (map_aerospike_error "put-segment" (result_to_exc rec.result)) := by
  induction recs with
  | nil => rfl
  | cons rec recs ih =>
    rw [Engine.check_segments]
    by_cases hok : rec.result = AEROSPIKE_OK
    · rw [if_neg (not_not.mpr hok), List.find?_cons_of_neg (by simp [hok]), ih]
    · rw [if_pos hok, List.find?_cons_of_pos (by simp [hok])]

theorem contained_batch_of_ok {ops : List BatchOp} {recs : List BatchRecord}
    (h : Engine.check_segments recs = .ok ()) : (Op.batch_write ops).Contained (.ok recs) := by
  intro rec hrec
  rw [check_segments_eq, hrec] at h
  cases h

theorem contained_batch_of_error {ops : List BatchOp} {recs : List BatchRecord} {e : PyExc}
    (h : Engine.check_segments recs = .error e) :
    (Op.batch_write ops).Contained (.ok recs) ↔ e.caughtPerItem = true := by
  rw [check_segments_eq] at h
  cases hfind : recs.find? (fun rec => rec.result ≠ AEROSPIKE_OK) with
  | none =>
    rw [hfind] at h
    cases h
  | some rec =>
    rw [hfind] at h
    cases h
    rw [caught_segment_iff]
    constructor
    · exact fun hcontained => hcontained rec hfind
    · intro hcode rec' hrec'
      cases hfind.symm.trans hrec'
      exact hcode

/-! ## The exits of `put` -/

section Put

variable {eng : Engine} {pinned : Bool} {ck : Text} {mo : MemoryObj} {pl : ShardPlan}

/-- The `batch_write` of the segments. -/
abbrev Engine.segmentBatch (eng : Engine) (pinned : Bool) (ck : Text) (mo : MemoryObj)
    (pl : ShardPlan) : Op :=
  .batch_write ((eng.segment_writes ck mo.byte_array pl (eng.ttl_value pinned)).map .write)

/-- The calls before the meta write: the segments, all of them written. -/
def Engine.SegmentsWritten (eng : Engine) (pinned : Bool) (ck : Text) (mo : MemoryObj)
    (pl : ShardPlan) (calls : Calls) : Prop :=
  if pl.nseg = 1 then calls = []
  else ∃ recs, Engine.check_segments recs = .ok () ∧
    calls = [⟨eng.segmentBatch pinned ck mo pl, .ok recs⟩]

/-- The exits of `put` after its plan. -/
inductive PutExit (eng : Engine) (pinned : Bool) (ck : Text) (mo : MemoryObj) (pl : ShardPlan)
    (now : ℕ) : Calls → Except PyExc Unit → Prop
  | segments_raised (exc : AxError) {e : PyExc} : (e.caughtPerItem = true ↔ exc.Contained) →
      PutExit eng pinned ck mo pl now [⟨eng.segmentBatch pinned ck mo pl, .error exc⟩] (.error e)
  | segment_failed (recs : List BatchRecord) {e : PyExc} :
      Engine.check_segments recs = .error e →
      PutExit eng pinned ck mo pl now [⟨eng.segmentBatch pinned ck mo pl, .ok recs⟩] (.error e)
  | meta_raised {before : Calls} (exc : AxError) {e : PyExc} :
      eng.SegmentsWritten pinned ck mo pl before → (e.caughtPerItem = true ↔ exc.Contained) →
      PutExit eng pinned ck mo pl now
        (before ++ [⟨.put (eng.meta_write ck mo pl pinned now), .error exc⟩]) (.error e)
  | stored {before : Calls} : eng.SegmentsWritten pinned ck mo pl before →
      PutExit eng pinned ck mo pl now
        (before ++ [⟨.put (eng.meta_write ck mo pl pinned now), .ok ()⟩]) (.ok ())

/-- The meta write, guarded. -/
theorem PutExit.of_meta {before calls : Calls} {r : Except PyExc Unit} {now : ℕ} {op_name : String}
    {too_big : AxError → String} (hbefore : eng.SegmentsWritten pinned ck mo pl before)
    (h : ((raising (client_put (eng.meta_write ck mo pl pinned now))).tryCatch
      (Engine.reraise op_name too_big)).Trace calls r) :
    PutExit eng pinned ck mo pl now (before ++ calls) r := by
  obtain ⟨x, rest, rfl, hrest⟩ := Prog.trace_call h
  cases x with
  | ok u =>
    obtain ⟨rfl, rfl⟩ := Prog.trace_ret hrest
    exact .stored hbefore
  | error exc =>
    obtain ⟨e, hraise, hcaught⟩ := @reraise_aerospike Unit op_name too_big exc
    change (Engine.reraise op_name too_big (.aerospike exc)).Trace rest r at hrest
    rw [hraise] at hrest
    obtain ⟨rfl, rfl⟩ := Prog.trace_raise hrest
    exact .meta_raised exc hbefore hcaught

/-- **Every trace of `put` reads the clock and is then one of its exits.** -/
theorem put_trace {calls : Calls} {r : Except PyExc Unit}
    (hplan : eng.resolved.shard_plan mo.byte_array.length = .ok pl)
    (h : (eng.put ck mo pinned).Trace calls r) :
    ∃ now rest, calls = ⟨.time, now⟩ :: rest ∧ PutExit eng pinned ck mo pl now rest r := by
  rw [put_planned hplan] at h
  obtain ⟨now, rest, rfl, hrest⟩ := Prog.trace_call h
  refine ⟨now, rest, rfl, ?_⟩
  unfold Engine.put_records at hrest
  by_cases hn : pl.nseg = 1
  · rw [if_pos hn] at hrest
    have hbefore : eng.SegmentsWritten pinned ck mo pl [] := by
      unfold Engine.SegmentsWritten
      rw [if_pos hn]
    exact .of_meta hbefore hrest
  · rw [if_neg hn] at hrest
    obtain ⟨x, rest, rfl, hafter⟩ := Prog.trace_call hrest
    cases x with
    | error exc =>
      obtain ⟨e, hraise, hcaught⟩ := @reraise_aerospike Unit "put"
        (fun _ => eng.put_too_big mo.byte_array.length) exc
      change (Engine.reraise "put" _ (.aerospike exc)).Trace rest r at hafter
      rw [hraise] at hafter
      obtain ⟨rfl, rfl⟩ := Prog.trace_raise hafter
      exact .segments_raised exc hcaught
    | ok recs =>
      change Prog.Trace (Prog.tryCatch (Prog.bind (.ofExcept (Engine.check_segments recs)) _) _)
        rest r at hafter
      cases hcheck : Engine.check_segments recs with
      | error e =>
        rw [hcheck] at hafter
        -- what the check raises is no exception of the client any more
        obtain ⟨kind, text, hkind⟩ : ∃ kind text, e = .connector kind text := by
          rw [check_segments_eq] at hcheck
          split at hcheck
          · cases hcheck
          · cases hcheck
            exact map_aerospike_error_connector _ _
        subst hkind
        obtain ⟨rfl, rfl⟩ := Prog.trace_raise hafter
        exact .segment_failed recs hcheck
      | ok u =>
        rw [hcheck] at hafter
        have hbefore : eng.SegmentsWritten pinned ck mo pl
            [⟨eng.segmentBatch pinned ck mo pl, .ok recs⟩] := by
          unfold Engine.SegmentsWritten
          rw [if_neg hn]
          exact ⟨recs, hcheck, rfl⟩
        exact .of_meta hbefore hafter

end Put

/-! ## One attempt for each item -/

/-- In the calls of a `put`, the writes of all segments and of the meta record succeeded. -/
def Engine.PutSucceeded (eng : Engine) (pinned : Bool) (item : Text × MemoryObj) (calls : Calls) :
    Prop :=
  ∃ pl now, eng.resolved.shard_plan item.2.byte_array.length = .ok pl ∧
    (pl.nseg ≠ 1 → ∃ recs, (∀ rec ∈ recs, rec.result = AEROSPIKE_OK) ∧
      (⟨eng.segmentBatch pinned item.1 item.2 pl, .ok recs⟩ : Σ o : Op, o.Res) ∈ calls) ∧
    (⟨.put (eng.meta_write item.1 item.2 pl pinned now), .ok ()⟩ : Σ o : Op, o.Res) ∈ calls

/-- The calls are a `put` of the item, and the flag is its success. -/
structure Engine.Attempt (eng : Engine) (pinned : Bool) (item : Text × MemoryObj) (calls : Calls)
    (flag : Bool) : Prop where
  attempted : ∃ r, (eng.put item.1 item.2 pinned).Trace calls r
  flag_iff : flag = true ↔ eng.PutSucceeded pinned item calls

/-- **Every item has its own answer.**  The batch returns one flag for each item, in order; the
calls of one `put` for each item follow one another, and the flag is the success of that
`put`. -/
def Engine.IsolatesFailures (eng : Engine) (pinned : Bool) (items : List (Text × MemoryObj))
    (calls : Calls) (r : Except PyExc (List Bool)) : Prop :=
  ∃ attempts : List (Calls × Bool), r = .ok (attempts.map Prod.snd) ∧
    (attempts.map Prod.fst).flatten.Sublist calls ∧
    List.Forall₂ (fun item attempt => eng.Attempt pinned item attempt.1 attempt.2) items attempts

/-- Every failed write is of the three classes. -/
def Contained (calls : Calls) : Prop := ∀ c ∈ calls, c.1.Contained c.2

theorem contained_append {calls calls' : Calls} :
    Contained (calls ++ calls') ↔ Contained calls ∧ Contained calls' := List.forall_mem_append

/-- How a loop over the items ends: with an answer for each of them when every failure is
contained, and with an exception when some is not. -/
def Engine.BatchExit (eng : Engine) (pinned : Bool) (items : List (Text × MemoryObj))
    (calls : Calls) (r : Except PyExc (List Bool)) : Prop :=
  (eng.IsolatesFailures pinned items calls r ∧ Contained calls) ∨
    (∃ e, r = .error e) ∧ ¬ Contained calls

section Attempts

variable {eng : Engine} {pinned : Bool} {items items' : List (Text × MemoryObj)}
  {calls calls' : Calls}

/-- The calls before the meta write are no meta write, and have not failed. -/
theorem Engine.SegmentsWritten.harmless {ck : Text} {mo : MemoryObj} {pl : ShardPlan}
    (h : eng.SegmentsWritten pinned ck mo pl calls) :
    Contained calls ∧ ∀ c ∈ calls, ∀ wr, c.1 ≠ .put wr := by
  unfold Engine.SegmentsWritten at h
  split_ifs at h with hn
  · subst h
    exact ⟨fun c hc => (by cases hc), fun c hc => (by cases hc)⟩
  · obtain ⟨recs, hcheck, rfl⟩ := h
    constructor
    · intro c hc
      cases List.mem_singleton.mp hc
      exact contained_batch_of_ok hcheck
    · intro c hc wr heq
      cases List.mem_singleton.mp hc
      cases heq

/-- Without an accepted meta write the put has not succeeded. -/
theorem not_putSucceeded {item : Text × MemoryObj}
    (h : ∀ wr, (⟨.put wr, .ok ()⟩ : Σ o : Op, o.Res) ∉ calls) :
    ¬ eng.PutSucceeded pinned item calls := by
  rintro ⟨pl, now, -, -, hmem⟩
  exact h _ hmem

/-- A single write that failed, before it nothing that has. -/
theorem contained_concat {c : Σ o : Op, o.Res} (h : Contained calls) :
    Contained (calls ++ [c]) ↔ c.1.Contained c.2 := by
  rw [contained_append, and_iff_right h]
  exact List.forall_mem_singleton

/-- **What one item's `put` comes to**: it returns exactly when its writes have succeeded, and
what it raises is caught exactly when the failure is contained. -/
theorem PutExit.attempt {ck : Text} {mo : MemoryObj} {pl : ShardPlan} {now : ℕ}
    {r : Except PyExc Unit} (hplan : eng.resolved.shard_plan mo.byte_array.length = .ok pl)
    (h : PutExit eng pinned ck mo pl now calls r) :
    (r = .ok () ↔ eng.PutSucceeded pinned (ck, mo) (⟨.time, now⟩ :: calls)) ∧
      (Contained (⟨.time, now⟩ :: calls) ↔ ∀ e, r = .error e → e.caughtPerItem = true) := by
  have htime : Contained [⟨.time, now⟩] := by
    intro c hc
    cases List.mem_singleton.mp hc
    trivial
  have hclock : Contained (⟨.time, now⟩ :: calls) ↔ Contained calls :=
    contained_append.trans (and_iff_right htime)
  have hraised : ∀ e : PyExc, (∀ e' : PyExc, (.error e : Except PyExc Unit) = .error e' →
      e'.caughtPerItem = true) ↔ e.caughtPerItem = true := by
    intro e
    constructor
    · exact fun hall => hall e rfl
    · rintro hcaught e' heq
      cases heq
      exact hcaught
  rw [hclock]
  cases h with
  | @segments_raised exc e hcaught =>
    refine ⟨iff_of_false nofun (not_putSucceeded fun wr hmem => ?_), ?_⟩
    · simp at hmem
    · rw [hraised, hcaught]
      exact List.forall_mem_singleton
  | @segment_failed recs e hcheck =>
    refine ⟨iff_of_false nofun (not_putSucceeded fun wr hmem => ?_), ?_⟩
    · simp at hmem
    · rw [hraised, ← contained_batch_of_error hcheck]
      exact List.forall_mem_singleton
  | @meta_raised before exc e hbefore hcaught =>
    obtain ⟨hcontained, hput⟩ := hbefore.harmless
    refine ⟨iff_of_false nofun (not_putSucceeded fun wr hmem => ?_), ?_⟩
    · -- the only meta write is the one that was refused
      rcases List.mem_cons.mp hmem with heq | hmem
      · cases congrArg Sigma.fst heq
      rcases List.mem_append.mp hmem with hmem | hmem
      · exact hput _ hmem wr rfl
      · cases congrArg (fun c : Σ o : Op, o.Res => c.1.raised c.2) (List.mem_singleton.mp hmem)
    · rw [hraised, hcaught]
      exact contained_concat hcontained
  | @stored before hbefore =>
    obtain ⟨hcontained, -⟩ := hbefore.harmless
    refine ⟨iff_of_true rfl ⟨pl, now, hplan, fun hn => ?_, ?_⟩, ?_⟩
    · unfold Engine.SegmentsWritten at hbefore
      rw [if_neg hn] at hbefore
      obtain ⟨recs, hcheck, rfl⟩ := hbefore
      exact ⟨recs, check_segments_ok hcheck, List.mem_cons_of_mem _ List.mem_cons_self⟩
    · exact List.mem_cons_of_mem _ (List.mem_append_right _ (List.mem_singleton_self _))
    · exact iff_of_true ((contained_concat hcontained).mpr trivial) nofun

/-- The `except` clauses of the loop. -/
theorem put_item_eq (ck : Text) (mo : MemoryObj) :
    eng.put_item pinned ck mo
      = ((eng.put ck mo pinned).bind fun _ => .ret true).tryCatch fun e =>
          if e.caughtPerItem = true then .ret false else .raise e := by
  unfold Engine.put_item
  congr 1
  funext e
  cases e with
  | connector kind text => cases kind <;> rfl
  | aerospike exc => rfl
  | builtin err => rfl

/-- **One turn of the loop.** -/
theorem put_item_trace {ck : Text} {mo : MemoryObj} {pl : ShardPlan} {r : Except PyExc Bool}
    (hplan : eng.resolved.shard_plan mo.byte_array.length = .ok pl)
    (h : (eng.put_item pinned ck mo).Trace calls r) :
    eng.BatchExit pinned [(ck, mo)] calls (r.map fun flag => [flag]) := by
  have hsingle : ∀ {flag : Bool}, eng.Attempt pinned (ck, mo) calls flag →
      eng.IsolatesFailures pinned [(ck, mo)] calls (.ok [flag]) := by
    intro flag hattempt
    refine ⟨[(calls, flag)], rfl, ?_, .cons hattempt .nil⟩
    simp
  rw [put_item_eq] at h
  rcases Prog.trace_tryCatch h with ⟨flag, hbody, rfl⟩ | ⟨e, before, after, hbody, hhandler, rfl⟩
  · rcases Prog.trace_bind hbody with ⟨u, before, after, hput, hret, rfl⟩ | ⟨e, -, he⟩
    · obtain ⟨rfl, hflag⟩ := Prog.trace_ret hret
      cases hflag
      rw [List.append_nil] at hsingle ⊢
      obtain ⟨now, rest, rfl, hexit⟩ := put_trace hplan hput
      obtain ⟨hstored, hcontained⟩ := hexit.attempt hplan
      exact Or.inl ⟨hsingle ⟨⟨_, hput⟩, iff_of_true rfl (hstored.mp rfl)⟩, hcontained.mpr nofun⟩
    · cases he
  · rcases Prog.trace_bind hbody with ⟨u, _, _, -, hret, -⟩ | ⟨e', hput, he⟩
    · cases (Prog.trace_ret hret).2
    · cases he
      obtain ⟨now, rest, rfl, hexit⟩ := put_trace hplan hput
      obtain ⟨hstored, hcontained⟩ := hexit.attempt hplan
      have hfailed : ¬ eng.PutSucceeded pinned (ck, mo) (⟨.time, now⟩ :: rest) :=
        fun hsucceeded => nomatch hstored.mpr hsucceeded
      -- a caught exception is this item's `False`, any other ends the batch
      by_cases hcaught : e.caughtPerItem = true
      · rw [if_pos hcaught] at hhandler
        obtain ⟨rfl, rfl⟩ := Prog.trace_ret hhandler
        rw [List.append_nil] at hsingle ⊢
        refine Or.inl ⟨hsingle ⟨⟨_, hput⟩, iff_of_false Bool.false_ne_true hfailed⟩, ?_⟩
        refine hcontained.mpr fun e' he' => ?_
        cases he'
        exact hcaught
      · rw [if_neg hcaught] at hhandler
        obtain ⟨rfl, rfl⟩ := Prog.trace_raise hhandler
        rw [List.append_nil]
        exact Or.inr ⟨⟨e, rfl⟩, fun hall => hcaught (hcontained.mp hall e rfl)⟩

/-! ## The loops -/

theorem Engine.IsolatesFailures.append {flags flags' : List Bool}
    (h : eng.IsolatesFailures pinned items calls (.ok flags))
    (h' : eng.IsolatesFailures pinned items' calls' (.ok flags')) :
    eng.IsolatesFailures pinned (items ++ items') (calls ++ calls') (.ok (flags ++ flags')) := by
  obtain ⟨attempts, hflags, hcalls, hall⟩ := h
  obtain ⟨attempts', hflags', hcalls', hall'⟩ := h'
  cases hflags
  cases hflags'
  refine ⟨attempts ++ attempts', ?_, ?_, List.rel_append hall hall'⟩
  · rw [List.map_append]
  · rw [List.map_append, List.flatten_append]
    exact hcalls.append hcalls'

/-- The loop over nothing. -/
theorem batchExit_nil : eng.BatchExit pinned [] [] (.ok []) :=
  Or.inl ⟨⟨[], rfl, List.Sublist.slnil, .nil⟩, fun c hc => (by cases hc)⟩

/-- Calls before a loop that cannot fail. -/
theorem Engine.BatchExit.after {before : Calls} {r : Except PyExc (List Bool)}
    (hbefore : Contained before) (h : eng.BatchExit pinned items calls r) :
    eng.BatchExit pinned items (before ++ calls) r := by
  rcases h with ⟨⟨attempts, hflags, hcalls, hall⟩, hcontained⟩ | ⟨hr, hcontained⟩
  · exact Or.inl ⟨⟨attempts, hflags, hcalls.trans (List.sublist_append_right _ _), hall⟩,
      contained_append.mpr ⟨hbefore, hcontained⟩⟩
  · exact Or.inr ⟨hr, fun hall => hcontained (contained_append.mp hall).2⟩

/-- **The loop rule**: a first part whose answer is turned into flags, and the rest. -/
theorem batchExit_bind {α : Type} {p : EngineM α} {f : α → List Bool} {q : EngineM (List Bool)}
    {r : Except PyExc (List Bool)}
    (hp : ∀ calls r, p.Trace calls r → eng.BatchExit pinned items calls (r.map f))
    (hq : ∀ calls r, q.Trace calls r → eng.BatchExit pinned items' calls r)
    (h : (p.bind fun a => q.bind fun rest => .ret (f a ++ rest)).Trace calls r) :
    eng.BatchExit pinned (items ++ items') calls r := by
  rcases Prog.trace_bind h with ⟨a, before, after, hfirst, hrest, rfl⟩ | ⟨e, hfirst, rfl⟩
  · rcases hp _ _ hfirst with ⟨hflags, hbefore⟩ | ⟨⟨e, he⟩, -⟩
    · rcases Prog.trace_bind hrest with ⟨rest, after, last, hloop, hret, rfl⟩ | ⟨e, hloop, rfl⟩
      · obtain ⟨rfl, rfl⟩ := Prog.trace_ret hret
        rw [List.append_nil]
        rcases hq _ _ hloop with ⟨hflags', hafter⟩ | ⟨⟨e, he⟩, -⟩
        · exact Or.inl ⟨hflags.append hflags', contained_append.mpr ⟨hbefore, hafter⟩⟩
        · cases he
      · rcases hq _ _ hloop with ⟨⟨_, hraised, -⟩, -⟩ | ⟨-, hafter⟩
        · cases hraised
        · exact Or.inr ⟨⟨e, rfl⟩, fun hall => hafter (contained_append.mp hall).2⟩
    · cases he
  · rcases hp _ _ hfirst with ⟨⟨_, hraised, -⟩, -⟩ | ⟨-, hcalls⟩
    · cases hraised
    · exact Or.inr ⟨⟨e, rfl⟩, hcalls⟩

theorem put_items_trace {plans : List PlannedPut} {r : Except PyExc (List Bool)}
    (hplans : List.Forall₂ (PlannedPut.PlansAnytime eng pinned) items plans)
    (h : (eng.put_items pinned plans).Trace calls r) :
    eng.BatchExit pinned items calls r := by
  induction hplans generalizing calls r with
  | nil =>
    obtain ⟨rfl, rfl⟩ := Prog.trace_ret h
    exact batchExit_nil
  | @cons item planned items plans hitem _ ih =>
    obtain ⟨now, hitem⟩ := hitem
    unfold Engine.put_items at h
    rw [hitem.ck, hitem.memory_obj] at h
    exact batchExit_bind (f := fun flag => [flag]) (fun _ _ => put_item_trace hitem.p)
      (fun _ _ => ih) h

/-- The first loop reads the clock for each item, and plans it. -/
theorem plan_items_trace {r : Except PyExc (List PlannedPut)}
    (hplan : ∀ item ∈ items, ∃ pl, eng.resolved.shard_plan item.2.byte_array.length = .ok pl)
    (h : (eng.plan_items pinned items).Trace calls r) :
    Contained calls ∧ ∃ plans, r = .ok plans ∧
      List.Forall₂ (PlannedPut.PlansAnytime eng pinned) items plans := by
  induction items generalizing calls r with
  | nil =>
    obtain ⟨rfl, rfl⟩ := Prog.trace_ret h
    exact ⟨fun c hc => (by cases hc), [], rfl, .nil⟩
  | cons item items ih =>
    obtain ⟨ck, mo⟩ := item
    rw [List.forall_mem_cons] at hplan
    obtain ⟨⟨pl, hpl⟩, hrest⟩ := hplan
    unfold Engine.plan_items at h
    rw [hpl] at h
    obtain ⟨now, rest, rfl, hafter⟩ := Prog.trace_call h
    change Prog.Trace (Prog.bind (eng.plan_items pinned items) _) rest r at hafter
    rcases Prog.trace_bind hafter with ⟨plans, before, last, hloop, hret, rfl⟩ | ⟨e, hloop, rfl⟩
    · obtain ⟨rfl, rfl⟩ := Prog.trace_ret hret
      obtain ⟨hbefore, plans', hr, hplans⟩ := ih hrest hloop
      cases hr
      rw [List.append_nil]
      refine ⟨List.forall_mem_cons.mpr ⟨trivial, hbefore⟩, _, rfl, .cons ⟨now, ?_⟩ hplans⟩
      exact ⟨rfl, rfl, hpl, rfl⟩
    · obtain ⟨-, _, he, -⟩ := ih hrest hloop
      cases he

/-- A chunk with an item of several segments. -/
theorem batched_put_chunk_trace {r : Except PyExc (List Bool)}
    (hplan : ∀ item ∈ items, ∃ pl, eng.resolved.shard_plan item.2.byte_array.length = .ok pl)
    (hmulti : ∃ item ∈ items, ∃ pl,
      eng.resolved.shard_plan item.2.byte_array.length = .ok pl ∧ pl.nseg > 1)
    (h : (eng.batched_put_chunk pinned items).Trace calls r) :
    eng.BatchExit pinned items calls r := by
  rcases Prog.trace_bind h with ⟨plans, before, after, hloop, hrest, rfl⟩ | ⟨e, hloop, rfl⟩
  · obtain ⟨hbefore, plans', hr, hplans⟩ := plan_items_trace hplan hloop
    cases hr
    have hany : (plans.any fun item => decide (item.p.nseg > 1)) = true := by
      obtain ⟨item, hitem, pl, hpl, hn⟩ := hmulti
      obtain ⟨i, hi, rfl⟩ := List.getElem_of_mem hitem
      obtain ⟨now, hplanned⟩ := hplans.get hi (hplans.length_eq ▸ hi)
      refine List.any_eq_true.mpr ⟨plans.get ⟨i, hplans.length_eq ▸ hi⟩, List.get_mem _ _,
        decide_eq_true ?_⟩
      cases hpl.symm.trans hplanned.p
      exact hn
    rw [if_pos hany] at hrest
    exact (put_items_trace hplans hrest).after hbefore
  · obtain ⟨-, _, he, -⟩ := plan_items_trace hplan hloop
    cases he

theorem batched_put_chunks_trace {chunks : List (List (Text × MemoryObj))}
    {r : Except PyExc (List Bool)}
    (hchunks : ∀ chunk ∈ chunks,
      (∀ item ∈ chunk, ∃ pl, eng.resolved.shard_plan item.2.byte_array.length = .ok pl) ∧
      ∃ item ∈ chunk, ∃ pl,
        eng.resolved.shard_plan item.2.byte_array.length = .ok pl ∧ pl.nseg > 1)
    (h : (eng.batched_put_chunks pinned chunks).Trace calls r) :
    eng.BatchExit pinned chunks.flatten calls r := by
  induction chunks generalizing calls r with
  | nil =>
    obtain ⟨rfl, rfl⟩ := Prog.trace_ret h
    exact batchExit_nil
  | cons chunk chunks ih =>
    rw [List.forall_mem_cons] at hchunks
    obtain ⟨⟨hplan, hmulti⟩, hrest⟩ := hchunks
    refine batchExit_bind (f := fun flags => flags) (fun calls r htrace => ?_)
      (fun _ _ => ih hrest) h
    have hexit := batched_put_chunk_trace hplan hmulti htrace
    cases r <;> exact hexit

end Attempts

/-- Where one payload has a plan of several segments, every payload has a plan. -/
theorem planned_of_multi {limits : ResolvedLimits} {P : ℕ} {pl : ShardPlan}
    (h : limits.shard_plan P = .ok pl) (hn : pl.nseg > 1) (P' : ℕ) :
    ∃ pl', limits.shard_plan P' = .ok pl' := by
  have hmulti : 0 < P ∧ 0 < limits.target_segment_bytes := by
    have hplan := h
    unfold ResolvedLimits.shard_plan plan at hplan
    split_ifs at hplan with h0 htm hs ht0
    · cases hplan
      exact absurd hn (lt_irrefl 1)
    · cases hplan
      exact absurd hn (lt_irrefl 1)
    · exact ⟨Nat.pos_of_ne_zero h0, Nat.pos_of_ne_zero ht0⟩
  cases hplan' : limits.shard_plan P' with
  | ok pl' => exact ⟨pl', rfl⟩
  | error e =>
    -- the refusal would be that of the limits, whatever the payload
    obtain ⟨-, hlt⟩ := (plan_raises_iff hmulti.2 P' _ _ _).mp ⟨e, hplan'⟩
    obtain ⟨e', he'⟩ := (plan_raises_iff hmulti.2 P _ _ _).mpr ⟨hmulti.1, hlt⟩
    cases h.symm.trans he'

/-- **When a batch isolates the failures of its items.**  For items with one of several segments
in every chunk, in every trace of `batched_put`, whatever its calls are answered: each item is
put and has the success of its own `put` as its answer if and only if every failure is of the
three classes that the loop catches. -/
theorem batched_put_isolates_iff (eng : Engine) (pinned : Bool) (items : List (Text × MemoryObj))
    (hmulti : ∀ chunk ∈ Engine.chunked items Engine.BATCH_KEYS_CHUNK, ∃ item ∈ chunk, ∃ pl,
      eng.resolved.shard_plan item.2.byte_array.length = .ok pl ∧ pl.nseg > 1)
    {calls : Calls} {r : Except PyExc (List Bool)}
    (h : (eng.batched_put items pinned).Trace calls r) :
    eng.IsolatesFailures pinned items calls r ↔ Contained calls := by
  have hexit : eng.BatchExit pinned items calls r := by
    unfold Engine.batched_put at h
    by_cases hnil : items = []
    · rw [if_pos hnil] at h
      obtain ⟨rfl, rfl⟩ := Prog.trace_ret h
      rw [hnil]
      exact batchExit_nil
    · rw [if_neg hnil] at h
      have hchunks : ∀ {calls r}, (eng.batched_put_chunks pinned
          (Engine.chunked items Engine.BATCH_KEYS_CHUNK)).Trace calls r →
          eng.BatchExit pinned items calls r := by
        intro calls r htrace
        rw [← flatten_chunked items (show 0 < Engine.BATCH_KEYS_CHUNK by decide)]
        refine batched_put_chunks_trace (fun chunk hchunk => ?_) htrace
        obtain ⟨_, _, pl, hpl, hn⟩ := hmulti chunk hchunk
        exact ⟨fun item _ => planned_of_multi hpl hn _, hmulti chunk hchunk⟩
      rcases Prog.trace_tryCatch h with
        ⟨flags, hloop, rfl⟩ | ⟨e, before, after, hloop, hhandler, rfl⟩
      · exact hchunks hloop
      · rcases hchunks hloop with ⟨⟨_, hraised, -⟩, -⟩ | ⟨-, hbefore⟩
        · cases hraised
        · obtain ⟨rfl, he⟩ := reraise_trace hhandler
          rw [List.append_nil]
          exact Or.inr ⟨he, hbefore⟩
  rcases hexit with ⟨hisolates, hcontained⟩ | ⟨⟨e, rfl⟩, hcontained⟩
  · exact iff_of_true hisolates hcontained
  · refine iff_of_false ?_ hcontained
    rintro ⟨attempts, hraised, -⟩
    cases hraised

/-- The answer of a server that is busy with a key. -/
def busyError : AxError := ⟨.RecordBusy, 14, "''", "(14, '')", ""⟩

/-- Two items in one chunk, the first of two segments. -/
def mixedItems : List (Text × MemoryObj) :=
  [("a".toList, { byte_array := [1, 2, 3] }), ("b".toList, { byte_array := [4] })]

/-- The calls of a batch that stores the first item and fails at the second. -/
def failsAtSecond (exc : AxError) : Calls :=
  [⟨.time, 0⟩, ⟨.time, 0⟩, ⟨.time, 0⟩,
    ⟨shortSegments.segmentBatch false "a".toList { byte_array := [1, 2, 3] } ⟨2, 2⟩,
      .ok [⟨0, none⟩, ⟨0, none⟩]⟩,
    ⟨.put (shortSegments.meta_write "a".toList { byte_array := [1, 2, 3] } ⟨2, 2⟩ false 0), .ok ()⟩,
    ⟨.time, 0⟩,
    ⟨.put (shortSegments.meta_write "b".toList { byte_array := [4] } ⟨1, 1⟩ false 0), .error exc⟩]

theorem mixedItems_multi : ∀ chunk ∈ Engine.chunked mixedItems Engine.BATCH_KEYS_CHUNK,
    ∃ item ∈ chunk, ∃ pl,
      shortSegments.resolved.shard_plan item.2.byte_array.length = .ok pl ∧ pl.nseg > 1 := by
  intro chunk hchunk
  have hone : Engine.chunked mixedItems Engine.BATCH_KEYS_CHUNK = [mixedItems] := by decide
  rw [hone, List.mem_singleton] at hchunk
  subst hchunk
  exact ⟨_, List.mem_cons_self, ⟨2, 2⟩, by decide, by decide⟩

/-- A busy server costs one item. -/
theorem batched_put_isolates_busy :
    shortSegments.IsolatesFailures false mixedItems (failsAtSecond busyError)
      (.ok [true, false]) := by
  have htrace : (shortSegments.batched_put mixedItems false).Trace (failsAtSecond busyError)
      (.ok [true, false]) :=
    .call _ (.call _ (.call _ (.call _ (.call _ (.call _ (.call _ (.ret _)))))))
  refine (batched_put_isolates_iff shortSegments false mixedItems mixedItems_multi htrace).mpr ?_
  intro c hc
  simp only [failsAtSecond, List.mem_cons, List.not_mem_nil, or_false] at hc
  rcases hc with rfl | rfl | rfl | rfl | rfl | rfl | rfl
  · trivial
  · trivial
  · trivial
  · exact contained_batch_of_ok rfl
  · trivial
  · trivial
  · exact Or.inr (Or.inr rfl)

/-- A timeout of the second item's `put` loses the answer of the first. -/
theorem batched_put_loses_answers :
    (∀ chunk ∈ Engine.chunked mixedItems Engine.BATCH_KEYS_CHUNK, ∃ item ∈ chunk, ∃ pl,
      shortSegments.resolved.shard_plan item.2.byte_array.length = .ok pl ∧ pl.nseg > 1) ∧
    ∃ r, (shortSegments.batched_put mixedItems false).Trace (failsAtSecond timeoutError) r ∧
      ¬ shortSegments.IsolatesFailures false mixedItems (failsAtSecond timeoutError) r := by
  refine ⟨mixedItems_multi, .error (map_aerospike_error "put" (.ax timeoutError)),
    .call _ (.call _ (.call _ (.call _ (.call _ (.call _ (.call _ (.raise _))))))), ?_⟩
  rintro ⟨attempts, hraised, -⟩
  cases hraised
