/-
# Every exit of `get`

Two properties of `get` over all answers that its client calls can have: who releases the
receive buffer, and which exceptions leave.  A trace of `get` reads the meta record and then
gets the payload from the meta record or from one `batch_read` (`PayloadRead`); the exits
follow from what the payload read came to (`fill_trace`).

* A buffer that `get` has allocated is returned or released once, except when a ready meta
  record of one segment has no payload; the caller's buffer is released on every failure after
  the meta record (`get_references_iff`).
* Exceptions are mapped at the meta read only: those of the `batch_read` leave as they are
  (`get_error_contract_iff`).
-/
import LmcacheAerospike.BatchedLoad

/-! ## Calls and their answers -/

/-- The calls of a trace, with their answers. -/
abbrev Calls : Type := List (Σ o : Op, o.Res)

/-- `mo.ref_count_down()` in a trace. -/
abbrev downCall : Σ o : Op, o.Res := ⟨.ref_count_down, ()⟩

/-- How often `ref_count_down()` was called. -/
def released (calls : Calls) : ℕ :=
  calls.countP fun c => match c.1 with
    | .ref_count_down => true
    | _ => false

theorem released_append (calls calls' : Calls) :
    released (calls ++ calls') = released calls + released calls' := List.countP_append

@[simp] theorem released_get (key : Key) (x : Except AxError Bins) (calls : Calls) :
    released (⟨.get key, x⟩ :: calls) = released calls := by
  simp [released]

/-- The exception that an answer raises. -/
def Op.raised : (o : Op) → o.Res → Option AxError
  | .get _, .error exc | .select _ _, .error exc => some exc
  | .put _, .error exc | .operate _, .error exc | .touch _ _, .error exc => some exc
  | .remove _, .error exc => some exc
  | .batch_read _ _, .error exc | .batch_write _, .error exc => some exc
  | _, _ => none

/-! ## The payload -/

section Payload

variable {eng : Engine} {ck : Text} {bins : Bins} {nseg : ℤ} {mo : MemoryObj}

/-- The calls that read the payload of a ready meta record, and what they come to: the filled
buffer, a missing segment, or an exception. -/
inductive PayloadRead (eng : Engine) (ck : Text) (bins : Bins) (nseg : ℤ) (mo : MemoryObj) :
    Calls → Except PyExc (Option (MemoryObj × ℕ)) → Prop
  | inline {payload : BinVal} : nseg = 1 → bins .b = some payload →
      PayloadRead eng ck bins nseg mo []
        ((write_payload_into eng.frombuffer mo payload 0).map some)
  | segments (recs : List BatchRecord) : nseg ≠ 1 →
      PayloadRead eng ck bins nseg mo
        [⟨.batch_read (segment_keys eng.cfg.ns eng.cfg.set_name ck nseg.toNat) [.b], .ok recs⟩]
        (eng.write_segments mo 0 0 recs)
  | raised (exc : AxError) : nseg ≠ 1 →
      PayloadRead eng ck bins nseg mo
        [⟨.batch_read (segment_keys eng.cfg.ns eng.cfg.set_name ck nseg.toNat) [.b], .error exc⟩]
        (.error (.aerospike exc))

theorem PayloadRead.released_eq {reads : Calls} {payload : Except PyExc (Option (MemoryObj × ℕ))}
    (h : PayloadRead eng ck bins nseg mo reads payload) : released reads = 0 := by
  cases h <;> rfl

/-- What `read_payload` does with the payload read; a meta record of one segment may have no
payload. -/
theorem read_payload_trace {calls : Calls} {r : Except PyExc (Option (MemoryObj × ℕ))}
    (h : (eng.read_payload ck bins nseg mo).Trace calls r) :
    (nseg = 1 ∧ bins .b = none ∧ calls = [] ∧ r = .ok none) ∨
      ∃ reads payload, PayloadRead eng ck bins nseg mo reads payload ∧ r = payload ∧
        calls = reads ++ if payload = .ok none then [downCall] else [] := by
  unfold Engine.read_payload at h
  by_cases hn : nseg = 1
  · rw [if_pos hn] at h
    cases hb : bins .b with
    | none =>
      rw [hb] at h
      obtain ⟨rfl, rfl⟩ := Prog.trace_ret h
      exact Or.inl ⟨hn, rfl, rfl, rfl⟩
    | some payload =>
      rw [hb] at h
      refine Or.inr ⟨[], _, .inline hn hb, ?_⟩
      rcases Prog.trace_bind h with ⟨filled, before, after, hp, hr, rfl⟩ | ⟨e, hp, rfl⟩
      · obtain ⟨rfl, hw⟩ := Prog.trace_ofExcept hp
        obtain ⟨rfl, rfl⟩ := Prog.trace_ret hr
        rw [← hw]
        exact ⟨rfl, rfl⟩
      · obtain ⟨rfl, hw⟩ := Prog.trace_ofExcept hp
        rw [← hw]
        exact ⟨rfl, rfl⟩
  · rw [if_neg hn] at h
    obtain ⟨x, rest, rfl, hrest⟩ := Prog.trace_call h
    cases x with
    | error exc =>
      -- not released here: the handler around `fill` does that
      obtain ⟨rfl, rfl⟩ := Prog.trace_raise hrest
      exact Or.inr ⟨_, _, .raised exc hn, rfl, rfl⟩
    | ok recs =>
      refine Or.inr ⟨_, _, .segments recs hn, ?_⟩
      change Prog.Trace (Prog.bind (.ofExcept (eng.write_segments mo 0 0 recs)) _) rest r at hrest
      rcases Prog.trace_bind hrest with ⟨filled, before, after, hp, hr, rfl⟩ | ⟨e, hp, rfl⟩
      · obtain ⟨rfl, hw⟩ := Prog.trace_ofExcept hp
        rw [← hw]
        cases filled with
        | some filled =>
          obtain ⟨rfl, rfl⟩ := Prog.trace_ret hr
          exact ⟨rfl, rfl⟩
        | none =>
          obtain ⟨x, rest, rfl, hret⟩ := Prog.trace_call hr
          obtain ⟨rfl, rfl⟩ := Prog.trace_ret hret
          exact ⟨rfl, rfl⟩
      · obtain ⟨rfl, hw⟩ := Prog.trace_ofExcept hp
        rw [← hw]
        exact ⟨rfl, rfl⟩

/-- The exits of `fill`. -/
inductive FillExit (eng : Engine) (ck : Text) (bins : Bins) (nseg : ℤ) (mo : MemoryObj)
    (expect_reshape : Bool) : Calls → Except PyExc (Option Hit) → Prop
  | no_payload : nseg = 1 → bins .b = none →
      FillExit eng ck bins nseg mo expect_reshape [] (.ok none)
  | missing {reads : Calls} : PayloadRead eng ck bins nseg mo reads (.ok none) →
      FillExit eng ck bins nseg mo expect_reshape (reads ++ [downCall]) (.ok none)
  | crc_mismatch {reads : Calls} {filled : MemoryObj} {n : ℕ} :
      PayloadRead eng ck bins nseg mo reads (.ok (some (filled, n))) →
      eng.crc_matches bins filled n = false →
      FillExit eng ck bins nseg mo expect_reshape (reads ++ [downCall]) (.ok none)
  | hit {reads : Calls} {filled shaped : MemoryObj} {n : ℕ} :
      PayloadRead eng ck bins nseg mo reads (.ok (some (filled, n))) →
      eng.crc_matches bins filled n = true →
      FillExit eng ck bins nseg mo expect_reshape reads (.ok (some ⟨shaped, filled, n⟩))
  | reshape_raised {reads : Calls} {filled : MemoryObj} {n : ℕ} {e : PyExc} :
      PayloadRead eng ck bins nseg mo reads (.ok (some (filled, n))) → expect_reshape = true →
      eng.reshape filled n = .error e →
      FillExit eng ck bins nseg mo expect_reshape reads (.error e)
  | raised {reads : Calls} {e : PyExc} : PayloadRead eng ck bins nseg mo reads (.error e) →
      FillExit eng ck bins nseg mo expect_reshape reads (.error e)

/-- **Every trace of `fill` is one of its exits.** -/
theorem fill_trace {expect_reshape : Bool} {calls : Calls} {r : Except PyExc (Option Hit)}
    (h : (eng.fill ck bins nseg mo expect_reshape).Trace calls r) :
    FillExit eng ck bins nseg mo expect_reshape calls r := by
  rcases Prog.trace_bind h with ⟨filled, before, after, hread, hrest, rfl⟩ | ⟨e, hread, rfl⟩
  · rcases read_payload_trace hread with
      ⟨hn, hb, rfl, hnone⟩ | ⟨reads, payload, hpayload, rfl, rfl⟩
    · cases hnone
      obtain ⟨rfl, rfl⟩ := Prog.trace_ret hrest
      exact .no_payload hn hb
    · cases filled with
      | none =>
        obtain ⟨rfl, rfl⟩ := Prog.trace_ret hrest
        rw [if_pos rfl, List.append_nil]
        exact .missing hpayload
      | some filled =>
        obtain ⟨filled, n⟩ := filled
        rw [if_neg (by simp), List.append_nil]
        change (eng.finish bins filled n expect_reshape).Trace after r at hrest
        unfold Engine.finish at hrest
        cases hcrc : eng.crc_matches bins filled n with
        | false =>
          rw [hcrc, if_neg Bool.false_ne_true] at hrest
          obtain ⟨x, rest, rfl, hret⟩ := Prog.trace_call hrest
          obtain ⟨rfl, rfl⟩ := Prog.trace_ret hret
          exact .crc_mismatch hpayload hcrc
        | true =>
          rw [hcrc, if_pos rfl] at hrest
          cases expect_reshape with
          | false =>
            obtain ⟨rfl, rfl⟩ := Prog.trace_ret hrest
            rw [List.append_nil]
            exact .hit hpayload hcrc
          | true =>
            rcases Prog.trace_bind hrest with
              ⟨shaped, before, after, hp, hret, rfl⟩ | ⟨e, hp, rfl⟩
            · obtain ⟨rfl, -⟩ := Prog.trace_ofExcept hp
              obtain ⟨rfl, rfl⟩ := Prog.trace_ret hret
              rw [List.append_nil, List.append_nil]
              exact .hit hpayload hcrc
            · obtain ⟨rfl, he⟩ := Prog.trace_ofExcept hp
              rw [List.append_nil]
              exact .reshape_raised hpayload rfl he.symm
  · rcases read_payload_trace hread with ⟨-, -, -, hnone⟩ | ⟨reads, payload, hpayload, rfl, rfl⟩
    · cases hnone
    · rw [if_neg (by simp), List.append_nil]
      exact .raised hpayload

end Payload

/-! ## The exits of `get` -/

/-- The meta record with these bins makes `get` read a payload of `nseg` segments into `mo`. -/
structure Engine.StartsFill (eng : Engine) (preallocated : Option MemoryObj) (bins : Bins)
    (nseg : ℤ) (mo : MemoryObj) (expect_reshape : Bool) : Prop where
  ready : bins .state = some (.str "ready")
  nseg_eq : ∃ value, bins .nseg = some value ∧ Engine.pyInt value = .ok nseg
  buffer : eng.receive_buffer bins preallocated = .ok (some mo, expect_reshape)

theorem Engine.StartsFill.unique {eng : Engine} {preallocated : Option MemoryObj} {bins : Bins}
    {nseg nseg' : ℤ} {mo mo' : MemoryObj} {shape shape' : Bool}
    (h : eng.StartsFill preallocated bins nseg mo shape)
    (h' : eng.StartsFill preallocated bins nseg' mo' shape') :
    nseg = nseg' ∧ mo = mo' ∧ shape = shape' := by
  obtain ⟨value, hvalue, hn⟩ := h.nseg_eq
  obtain ⟨value', hvalue', hn'⟩ := h'.nseg_eq
  obtain rfl : value = value' := Option.some.inj (hvalue.symm.trans hvalue')
  have hbuffer := h.buffer.symm.trans h'.buffer
  cases hn.symm.trans hn'
  cases hbuffer
  exact ⟨rfl, rfl, rfl⟩

/-- What `get` makes of an exception of the meta read. -/
def meta_error (exc : AxError) : Except PyExc (Option Hit) :=
  if exc.kind = .RecordNotFound ∨ classify (.ax exc) = .timeout then .ok none
  else if classify (.ax exc) = .connection then .error (.connector .connection exc.str)
  else .error (map_aerospike_error "get" (.ax exc))

/-- The exits of `get`. -/
inductive GetExit (eng : Engine) (ck : Text) (preallocated : Option MemoryObj) :
    Calls → Except PyExc (Option Hit) → Prop
  | meta_raised (exc : AxError) :
      GetExit eng ck preallocated [⟨.get (eng.metaKey ck), .error exc⟩] (meta_error exc)
  | no_buffer (bins : Bins) {r : Except PyExc (Option Hit)} :
      (∀ nseg mo shape, ¬ eng.StartsFill preallocated bins nseg mo shape) →
      (NoClientError r ∨ ∃ e, eng.receive_buffer bins preallocated = .error e ∧ r = .error e) →
      GetExit eng ck preallocated [⟨.get (eng.metaKey ck), .ok bins⟩] r
  | returned {bins : Bins} {nseg : ℤ} {mo : MemoryObj} {shape : Bool} {calls : Calls}
      {hit : Option Hit} : eng.StartsFill preallocated bins nseg mo shape →
      FillExit eng ck bins nseg mo shape calls (.ok hit) →
      GetExit eng ck preallocated (⟨.get (eng.metaKey ck), .ok bins⟩ :: calls) (.ok hit)
  | raised {bins : Bins} {nseg : ℤ} {mo : MemoryObj} {shape : Bool} {calls : Calls}
      {e : PyExc} : eng.StartsFill preallocated bins nseg mo shape →
      FillExit eng ck bins nseg mo shape calls (.error e) →
      GetExit eng ck preallocated
        (⟨.get (eng.metaKey ck), .ok bins⟩ :: (calls ++ [downCall])) (.error e)

/-- **Every trace of `get` is one of its exits.** -/
theorem get_trace {eng : Engine} {ck : Text} {preallocated : Option MemoryObj} {calls : Calls}
    {r : Except PyExc (Option Hit)} (h : (eng.get ck preallocated).Trace calls r) :
    GetExit eng ck preallocated calls r := by
  obtain ⟨x, rest, rfl, hrest⟩ := Prog.trace_call h
  cases x with
  | error exc =>
    change Prog.Trace (if _ then _ else if _ then _ else if _ then _ else _) rest r at hrest
    have hr : rest = [] ∧ r = meta_error exc := by
      unfold meta_error
      split_ifs at hrest with hfound htimeout hconnection
      · rw [if_pos (Or.inl hfound)]
        exact Prog.trace_ret hrest
      · rw [if_pos (Or.inr htimeout)]
        exact Prog.trace_ret hrest
      · rw [if_neg (by simp [hfound, htimeout]), if_pos hconnection]
        exact Prog.trace_raise hrest
      · rw [if_neg (by simp [hfound, htimeout]), if_neg hconnection]
        exact Prog.trace_raise hrest
    obtain ⟨rfl, rfl⟩ := hr
    exact .meta_raised exc
  | ok bins =>
    change (eng.get_with_meta ck preallocated bins).Trace rest r at hrest
    unfold Engine.get_with_meta at hrest
    by_cases hready : bins .state = some (.str "ready")
    · rw [if_neg (not_not.mpr hready)] at hrest
      cases hvalue : bins .nseg with
      | none =>
        rw [hvalue] at hrest
        obtain ⟨rfl, rfl⟩ := Prog.trace_raise hrest
        refine .no_buffer bins (fun nseg mo shape hstart => ?_) (Or.inl (noClientError_builtin _))
        obtain ⟨value, hsome, -⟩ := hstart.nseg_eq
        rw [hvalue] at hsome
        cases hsome
      | some value =>
        rw [hvalue] at hrest
        dsimp only at hrest
        cases hn : Engine.pyInt value with
        | error e =>
          rw [hn] at hrest
          obtain ⟨rfl, rfl⟩ := Prog.trace_raise hrest
          have herror := pyInt_noClientError value
          rw [hn] at herror
          refine .no_buffer bins (fun nseg mo shape hstart => ?_) (Or.inl herror.cast)
          obtain ⟨value', hvalue', hn'⟩ := hstart.nseg_eq
          cases hvalue.symm.trans hvalue'
          rw [hn] at hn'
          cases hn'
        | ok nseg =>
          rw [hn] at hrest
          change Prog.Trace (Prog.bind (.ofExcept (eng.receive_buffer bins preallocated)) _)
            rest r at hrest
          cases hbuffer : eng.receive_buffer bins preallocated with
          | error e =>
            rw [hbuffer] at hrest
            obtain ⟨rfl, rfl⟩ := Prog.trace_raise hrest
            refine .no_buffer bins (fun nseg mo shape hstart => ?_) (Or.inr ⟨e, hbuffer, rfl⟩)
            cases hbuffer.symm.trans hstart.buffer
          | ok received =>
            obtain ⟨mo?, shape⟩ := received
            rw [hbuffer] at hrest
            cases mo? with
            | none =>
              obtain ⟨rfl, rfl⟩ := Prog.trace_ret hrest
              refine .no_buffer bins (fun nseg mo shape hstart => ?_) (Or.inl (noClientError_ok _))
              cases hbuffer.symm.trans hstart.buffer
            | some mo =>
              have hstart : eng.StartsFill preallocated bins nseg mo shape :=
                ⟨hready, ⟨value, hvalue, hn⟩, hbuffer⟩
              rcases Prog.trace_tryCatch hrest with
                ⟨hit, hfill, rfl⟩ | ⟨e, before, after, hfill, hrelease, rfl⟩
              · exact .returned hstart (fill_trace hfill)
              · -- the handler releases the buffer and raises again
                obtain ⟨x, rest, rfl, hraise⟩ := Prog.trace_call hrelease
                obtain ⟨rfl, rfl⟩ := Prog.trace_raise hraise
                exact .raised hstart (fill_trace hfill)
    · rw [if_pos hready] at hrest
      obtain ⟨rfl, rfl⟩ := Prog.trace_ret hrest
      exact .no_buffer bins (fun nseg mo shape hstart => hready hstart.ready)
        (Or.inl (noClientError_ok _))

/-! ## The payload that the answers supply -/

/-- The answers supply the pieces of a payload of `nseg` segments. -/
def Supplies (eng : Engine) (ck : Text) (bins : Bins) (nseg : ℤ) (calls : Calls)
    (pieces : List Bytes) : Prop :=
  if nseg = 1 then ∃ p, bins .b = some (.blob p) ∧ pieces = [p]
  else ∃ recs, (⟨.batch_read (segment_keys eng.cfg.ns eng.cfg.set_name ck nseg.toNat) [.b],
      .ok recs⟩ : Σ o : Op, o.Res) ∈ calls ∧ List.Forall₂ BatchRecord.Carries recs pieces

section Supplied

variable {eng : Engine} {ck : Text} {bins : Bins} {nseg : ℤ} {mo : MemoryObj} {reads : Calls}

/-- Only the `batch_read` among the calls matters. -/
theorem supplies_around {key : Key} {x : Except AxError Bins} {pieces : List Bytes}
    {after : Calls} (hafter : ∀ c ∈ after, c = downCall) :
    Supplies eng ck bins nseg (⟨.get key, x⟩ :: (reads ++ after)) pieces ↔
      Supplies eng ck bins nseg reads pieces := by
  unfold Supplies
  have hmem : ∀ keys (y : Except AxError (List BatchRecord)),
      (⟨.batch_read keys [.b], y⟩ : Σ o : Op, o.Res) ∈ ⟨.get key, x⟩ :: (reads ++ after) ↔
        (⟨.batch_read keys [.b], y⟩ : Σ o : Op, o.Res) ∈ reads := by
    intro keys y
    rw [List.mem_cons, List.mem_append]
    constructor
    · rintro (hget | hreads | hdown)
      · cases hget
      · exact hreads
      · cases hafter _ hdown
    · exact fun h => Or.inr (Or.inl h)
  simp only [hmem]

/-- A payload that is supplied and fits is in the buffer. -/
theorem PayloadRead.eq_of_supplies {payload : Except PyExc (Option (MemoryObj × ℕ))}
    (h : PayloadRead eng ck bins nseg mo reads payload) {pieces : List Bytes}
    (hsupplies : Supplies eng ck bins nseg reads pieces) (hfits : eng.Receives mo pieces) :
    payload = .ok (some (mo.filledWith pieces.flatten, pieces.flatten.length)) := by
  have hroom := hfits.room
  cases h with
  | inline hn hb =>
    rw [Supplies, if_pos hn] at hsupplies
    obtain ⟨p, hp, rfl⟩ := hsupplies
    obtain rfl := Option.some.inj (hb.symm.trans hp)
    rw [List.flatten_singleton] at hroom ⊢
    rw [write_payload_fits (by omega) fun ht => hfits.torch ht p (List.mem_singleton_self p)]
    rfl
  | segments recs hn =>
    rw [Supplies, if_neg hn] at hsupplies
    obtain ⟨recs', hmem, hcarries⟩ := hsupplies
    cases List.mem_singleton.mp hmem
    rw [write_segments_carries hcarries (by omega) hfits.torch, Nat.zero_add]
    rfl
  | raised exc hn =>
    rw [Supplies, if_neg hn] at hsupplies
    obtain ⟨recs', hmem, -⟩ := hsupplies
    cases List.mem_singleton.mp hmem

/-- A buffer that was filled was supplied, and had room. -/
theorem PayloadRead.supplied (heng : eng.LawfulMemory)
    {payload : Except PyExc (Option (MemoryObj × ℕ))}
    (h : PayloadRead eng ck bins nseg mo reads payload) {filled : MemoryObj × ℕ}
    (hpayload : payload = .ok (some filled)) :
    ∃ pieces, Supplies eng ck bins nseg reads pieces ∧ eng.Receives mo pieces := by
  cases h with
  | @inline value hn hb =>
    cases hw : write_payload_into eng.frombuffer mo value 0 with
    | error e =>
      rw [hw] at hpayload
      cases hpayload
    | ok written =>
      obtain ⟨p, rfl, hroom, htorch⟩ := write_payload_blob heng.copiesBytes hw
      refine ⟨[p], ?_, ⟨?_, fun ht piece hpiece => ?_⟩⟩
      · rw [Supplies, if_pos hn]
        exact ⟨p, hb, rfl⟩
      · rw [List.flatten_singleton]
        omega
      · rw [List.mem_singleton.mp hpiece]
        exact htorch ht
  | segments recs hn =>
    obtain ⟨pieces, hcarries, hroom, htorch⟩ :=
      write_segments_some heng.copiesBytes (Nat.zero_le _) hpayload
    refine ⟨pieces, ?_, ⟨by omega, htorch⟩⟩
    rw [Supplies, if_neg hn]
    exact ⟨recs, List.mem_singleton_self _, hcarries⟩
  | raised exc hn => cases hpayload

/-- A payload read has something to read. -/
theorem PayloadRead.not_absent {payload : Except PyExc (Option (MemoryObj × ℕ))}
    (h : PayloadRead eng ck bins nseg mo reads payload) : ¬ (nseg = 1 ∧ bins .b = none) := by
  rintro ⟨hn, hb⟩
  cases h with
  | inline _ hb' =>
    rw [hb] at hb'
    cases hb'
  | segments _ hn' => exact hn' hn
  | raised _ hn' => exact hn' hn

end Supplied

/-! ## The references that `get` owns -/

namespace Engine

variable (eng : Engine) (ck : Text) (preallocated : Option MemoryObj)

/-- `get` releases what it owns: a buffer that it has allocated is in the returned object and
not released, or released once and not returned; the caller's buffer is not released. -/
def BalancesReferences (calls : Calls) (r : Except PyExc (Option Hit)) : Prop :=
  match preallocated with
  | some _ => released calls = 0
  | none => ∀ bins nseg mo shape, calls.head? = some ⟨.get (eng.metaKey ck), .ok bins⟩ →
      eng.StartsFill none bins nseg mo shape →
      (∃ hit, r = .ok (some hit)) ∧ released calls = 0 ∨
        (r = .ok none ∨ ∃ e, r = .error e) ∧ released calls = 1

/-- With an allocated buffer, the meta record does not lack the payload that it should hold.
With the caller's buffer, it lacks it, or all pieces are supplied and fit into the memory, and
what of them lies in the `byte_array` passes the CRC check. -/
def BufferSettled (calls : Calls) : Prop :=
  ∀ bins nseg mo shape, calls.head? = some ⟨.get (eng.metaKey ck), .ok bins⟩ →
    eng.StartsFill preallocated bins nseg mo shape →
    match preallocated with
    | none => ¬ (nseg = 1 ∧ bins .b = none)
    | some _ => (nseg = 1 ∧ bins .b = none) ∨
      ∃ pieces, Supplies eng ck bins nseg calls pieces ∧ eng.Receives mo pieces ∧
        (eng.cfg.enable_crc32 = true → ∀ expected, bins .crc32 = some expected →
          Engine.pyEqInt expected (crc32 (pieces.flatten.take mo.byte_array.length)) = true)

end Engine

section References

variable {eng : Engine} {ck : Text} {bins : Bins} {nseg : ℤ} {mo : MemoryObj} {calls : Calls}

/-- What the exits of `fill` come to, for an allocated buffer: the release is missing where the
payload is. -/
theorem FillExit.releases {shape : Bool} {r : Except PyExc (Option Hit)}
    (h : FillExit eng ck bins nseg mo shape calls r) :
    (nseg = 1 ∧ bins .b = none ∧ r = .ok none ∧ released calls = 0) ∨
      ¬ (nseg = 1 ∧ bins .b = none) ∧ ((r = .ok none ∧ released calls = 1) ∨
        (∃ hit, r = .ok (some hit)) ∧ released calls = 0 ∨
        (∃ e, r = .error e) ∧ released calls = 0) := by
  cases h with
  | no_payload hn hb => exact Or.inl ⟨hn, hb, rfl, rfl⟩
  | missing hread =>
    refine Or.inr ⟨hread.not_absent, Or.inl ⟨rfl, ?_⟩⟩
    rw [released_append, hread.released_eq]
    rfl
  | crc_mismatch hread _ =>
    refine Or.inr ⟨hread.not_absent, Or.inl ⟨rfl, ?_⟩⟩
    rw [released_append, hread.released_eq]
    rfl
  | hit hread _ => exact Or.inr ⟨hread.not_absent, Or.inr (Or.inl ⟨⟨_, rfl⟩, hread.released_eq⟩)⟩
  | reshape_raised hread _ _ =>
    exact Or.inr ⟨hread.not_absent, Or.inr (Or.inr ⟨⟨_, rfl⟩, hread.released_eq⟩)⟩
  | raised hread =>
    exact Or.inr ⟨hread.not_absent, Or.inr (Or.inr ⟨⟨_, rfl⟩, hread.released_eq⟩)⟩

/-- A payload that is supplied, fits and passes the check is a hit. -/
theorem FillExit.hit_iff (heng : eng.LawfulMemory) {r : Except PyExc (Option Hit)}
    (h : FillExit eng ck bins nseg mo false calls r) (key : Key) (x : Except AxError Bins)
    {after : Calls} (hafter : ∀ c ∈ after, c = downCall) :
    (∃ hit, r = .ok (some hit)) ↔
      ∃ pieces, Supplies eng ck bins nseg (⟨.get key, x⟩ :: (calls ++ after)) pieces ∧
        eng.Receives mo pieces ∧
        (eng.cfg.enable_crc32 = true → ∀ expected, bins .crc32 = some expected →
          Engine.pyEqInt expected (crc32 (pieces.flatten.take mo.byte_array.length)) = true) := by
  have hdown : ∀ c ∈ [downCall] ++ after, c = downCall := by
    intro c hc
    rcases List.mem_append.mp hc with hc | hc
    · exact List.mem_singleton.mp hc
    · exact hafter c hc
  constructor
  · rintro ⟨hit, rfl⟩
    cases h with
    | hit hread hcrc =>
      obtain ⟨pieces, hsupplies, hfits⟩ := hread.supplied heng rfl
      cases hread.eq_of_supplies hsupplies hfits
      exact ⟨pieces, (supplies_around hafter).mpr hsupplies, hfits,
        (crc_matches_take eng bins mo _).mp hcrc⟩
  · rintro ⟨pieces, hsupplies, hfits, hcrc⟩
    cases h with
    | no_payload hn hb =>
      rw [Supplies, if_pos hn] at hsupplies
      obtain ⟨p, hp, -⟩ := hsupplies
      rw [hb] at hp
      cases hp
    | missing hread =>
      rw [List.append_assoc, supplies_around hdown] at hsupplies
      cases hread.eq_of_supplies hsupplies hfits
    | crc_mismatch hread hmismatch =>
      rw [List.append_assoc, supplies_around hdown] at hsupplies
      cases hread.eq_of_supplies hsupplies hfits
      rw [(crc_matches_take eng bins mo _).mpr hcrc] at hmismatch
      cases hmismatch
    | hit _ _ => exact ⟨_, rfl⟩
    | reshape_raised _ hshape _ => cases hshape
    | raised hread =>
      rw [supplies_around hafter] at hsupplies
      cases hread.eq_of_supplies hsupplies hfits

/-- With the caller's buffer nothing is reshaped. -/
theorem Engine.StartsFill.not_shaped {preallocated : MemoryObj} {shape : Bool}
    (h : eng.StartsFill (some preallocated) bins nseg mo shape) : shape = false := by
  have hbuffer := h.buffer
  cases hbuffer
  rfl

variable {preallocated : Option MemoryObj} {shape : Bool} {r : Except PyExc (Option Hit)}

/-- Where no buffer is filled, nothing is owned. -/
theorem balances_of_not_started (hrel : released calls = 0)
    (hno : ∀ bins nseg mo shape, calls.head? = some ⟨.get (eng.metaKey ck), .ok bins⟩ →
      ¬ eng.StartsFill preallocated bins nseg mo shape) :
    eng.BalancesReferences ck preallocated calls r ∧
      eng.BufferSettled ck preallocated calls := by
  refine ⟨?_, fun bins nseg mo shape hhead hstart => absurd hstart (hno bins nseg mo shape hhead)⟩
  cases preallocated with
  | none =>
    exact fun bins nseg mo shape hhead hstart => absurd hstart (hno bins nseg mo shape hhead)
  | some mo => exact hrel

section Started

variable (hhead : calls.head? = some ⟨.get (eng.metaKey ck), .ok bins⟩)

include hhead

theorem balances_allocated_iff (hstart : eng.StartsFill none bins nseg mo shape) :
    eng.BalancesReferences ck none calls r ↔
      (∃ hit, r = .ok (some hit)) ∧ released calls = 0 ∨
        (r = .ok none ∨ ∃ e, r = .error e) ∧ released calls = 1 :=
  ⟨fun h => h _ _ _ _ hhead hstart, fun h _ _ _ _ _ _ => h⟩

theorem settled_allocated_iff (hstart : eng.StartsFill none bins nseg mo shape) :
    eng.BufferSettled ck none calls ↔ ¬ (nseg = 1 ∧ bins .b = none) := by
  refine ⟨fun h => h _ _ _ _ hhead hstart, fun h bins' nseg' mo' shape' hhead' hstart' => ?_⟩
  cases hhead.symm.trans hhead'
  obtain ⟨rfl, -, -⟩ := hstart.unique hstart'
  exact h

theorem settled_preallocated_iff {buf : MemoryObj}
    (hstart : eng.StartsFill (some buf) bins nseg mo shape) :
    eng.BufferSettled ck (some buf) calls ↔ (nseg = 1 ∧ bins .b = none) ∨
      ∃ pieces, Supplies eng ck bins nseg calls pieces ∧ eng.Receives mo pieces ∧
        (eng.cfg.enable_crc32 = true → ∀ expected, bins .crc32 = some expected →
          Engine.pyEqInt expected (crc32 (pieces.flatten.take mo.byte_array.length)) = true) := by
  refine ⟨fun h => h _ _ _ _ hhead hstart, fun h bins' nseg' mo' shape' hhead' hstart' => ?_⟩
  cases hhead.symm.trans hhead'
  obtain ⟨rfl, rfl, -⟩ := hstart.unique hstart'
  exact h

end Started

/-- After a fill that returns, nothing more is released. -/
theorem FillExit.returned_references_iff (heng : eng.LawfulMemory) {hit : Option Hit}
    (hexit : FillExit eng ck bins nseg mo shape calls (.ok hit))
    (hstart : eng.StartsFill preallocated bins nseg mo shape) :
    eng.BalancesReferences ck preallocated (⟨.get (eng.metaKey ck), .ok bins⟩ :: calls)
        (.ok hit) ↔
      eng.BufferSettled ck preallocated (⟨.get (eng.metaKey ck), .ok bins⟩ :: calls) := by
  cases preallocated with
  | none =>
    rw [balances_allocated_iff rfl hstart, settled_allocated_iff rfl hstart, released_get]
    rcases hexit.releases with ⟨hn, hb, hr, hzero⟩ | ⟨habsent, hexits⟩
    · -- the exit without the release
      refine iff_of_false ?_ (not_not.mpr ⟨hn, hb⟩)
      rintro (⟨⟨hit', hr'⟩, -⟩ | ⟨-, hone⟩)
      · rw [hr] at hr'
        cases hr'
      · omega
    · refine iff_of_true ?_ habsent
      rcases hexits with ⟨hr, hone⟩ | ⟨hr, hzero⟩ | ⟨⟨e, he⟩, -⟩
      · exact Or.inr ⟨Or.inl hr, hone⟩
      · exact Or.inl ⟨hr, hzero⟩
      · cases he
  | some buf =>
    obtain rfl := hstart.not_shaped
    have hnil : ∀ c ∈ ([] : Calls), c = downCall := fun c hc => by cases hc
    have hhit := hexit.hit_iff heng (eng.metaKey ck) (.ok bins) hnil
    rw [List.append_nil] at hhit
    rw [settled_preallocated_iff rfl hstart, ← hhit]
    show released _ = 0 ↔ _
    rw [released_get]
    rcases hexit.releases with ⟨hn, hb, hr, hzero⟩ | ⟨habsent, hexits⟩
    · exact iff_of_true hzero (Or.inl ⟨hn, hb⟩)
    · rcases hexits with ⟨hr, hone⟩ | ⟨hr, hzero⟩ | ⟨⟨e, he⟩, -⟩
      · -- a miss releases what the caller owns
        refine iff_of_false (by omega) ?_
        rintro (hnone | ⟨hit', hr'⟩)
        · exact habsent hnone
        · rw [hr] at hr'
          cases hr'
      · exact iff_of_true hzero (Or.inr hr)
      · cases he

/-- After a fill that raises, the buffer is released, whoever owns it. -/
theorem FillExit.raised_references_iff (heng : eng.LawfulMemory) {e : PyExc}
    (hexit : FillExit eng ck bins nseg mo shape calls (.error e))
    (hstart : eng.StartsFill preallocated bins nseg mo shape) :
    eng.BalancesReferences ck preallocated
        (⟨.get (eng.metaKey ck), .ok bins⟩ :: (calls ++ [downCall])) (.error e) ↔
      eng.BufferSettled ck preallocated
        (⟨.get (eng.metaKey ck), .ok bins⟩ :: (calls ++ [downCall])) := by
  have hrel : released (⟨.get (eng.metaKey ck), .ok bins⟩ :: (calls ++ [downCall])) = 1 := by
    rw [released_get, released_append]
    rcases hexit.releases with ⟨-, -, hr, -⟩ | ⟨-, ⟨hr, -⟩ | ⟨⟨hit, hr⟩, -⟩ | ⟨-, hzero⟩⟩
    · cases hr
    · cases hr
    · cases hr
    · rw [hzero]
      rfl
  have habsent : ¬ (nseg = 1 ∧ bins .b = none) := by
    rcases hexit.releases with ⟨-, -, hr, -⟩ | ⟨habsent, -⟩
    · cases hr
    · exact habsent
  cases preallocated with
  | none =>
    rw [balances_allocated_iff rfl hstart, settled_allocated_iff rfl hstart]
    exact iff_of_true (Or.inr ⟨Or.inr ⟨e, rfl⟩, hrel⟩) habsent
  | some buf =>
    obtain rfl := hstart.not_shaped
    rw [settled_preallocated_iff rfl hstart, ← hexit.hit_iff heng _ _ fun c hc =>
      List.mem_singleton.mp hc]
    show released _ = 0 ↔ _
    refine iff_of_false (by omega) ?_
    rintro (hnone | ⟨hit, hr⟩)
    · exact habsent hnone
    · cases hr

end References

/-- **When `get` balances the references it owns.**  In every trace of `get`, whatever its
calls are answered: the references are balanced if and only if, with an allocated buffer, the
meta record of one segment does not lack its payload, and with the caller's buffer, nothing
goes wrong once the meta record has been found ready. -/
theorem get_references_iff (eng : Engine) (heng : eng.LawfulMemory) (ck : Text)
    (preallocated : Option MemoryObj) {calls : Calls} {r : Except PyExc (Option Hit)}
    (h : (eng.get ck preallocated).Trace calls r) :
    eng.BalancesReferences ck preallocated calls r ↔ eng.BufferSettled ck preallocated calls := by
  cases get_trace h with
  | meta_raised exc =>
    have hboth : eng.BalancesReferences ck preallocated
        [⟨.get (eng.metaKey ck), .error exc⟩] (meta_error exc) ∧
        eng.BufferSettled ck preallocated [⟨.get (eng.metaKey ck), .error exc⟩] :=
      balances_of_not_started rfl fun bins nseg mo shape hhead => by cases hhead
    exact iff_of_true hboth.1 hboth.2
  | no_buffer bins hno _ =>
    have hboth : eng.BalancesReferences ck preallocated [⟨.get (eng.metaKey ck), .ok bins⟩] r ∧
        eng.BufferSettled ck preallocated [⟨.get (eng.metaKey ck), .ok bins⟩] :=
      balances_of_not_started rfl fun bins' nseg mo shape hhead => by
        cases hhead
        exact hno nseg mo shape
    exact iff_of_true hboth.1 hboth.2
  | returned hstart hexit => exact hexit.returned_references_iff heng hstart
  | raised hstart hexit => exact hexit.raised_references_iff heng hstart

/-- The bins of a ready meta record. -/
def readyBins (nseg : ℤ) (payload : Option BinVal) : Bins
  | .state => some (.str "ready")
  | .nseg => some (.int nseg)
  | .b => payload
  | _ => none

/-- A read whose second segment is missing. -/
def missingSegment : Calls :=
  [⟨.get (shortSegments.metaKey "k".toList), .ok (readyBins 2 none)⟩,
    ⟨.batch_read (segment_keys shortSegments.cfg.ns shortSegments.cfg.set_name "k".toList 2) [.b],
      .ok [⟨0, some (readyBins 0 (some (.blob [1, 2])))⟩, ⟨2, none⟩]⟩, downCall]

/-- The allocated buffer is released once. -/
theorem get_references_missing_segment :
    shortSegments.BalancesReferences "k".toList none missingSegment (.ok none) := by
  have htrace : (shortSegments.get "k".toList none).Trace missingSegment (.ok none) :=
    .call _ (.call _ (.call _ (.ret _)))
  refine (get_references_iff shortSegments (fakeEngine_lawful _ _ _ _) _ none htrace).mpr ?_
  intro bins nseg mo shape hhead hstart
  cases hhead
  obtain ⟨value, hvalue, hn⟩ := hstart.nseg_eq
  cases hvalue
  cases hn
  rintro ⟨hone, -⟩
  exact absurd hone (by decide)

/-- Neither when the payload of a meta record of one segment is absent, nor when a segment for
the caller's buffer is missing. -/
theorem get_references_unbalanced :
    (∃ calls r, (shortSegments.get "k".toList none).Trace calls r ∧
      ¬ shortSegments.BalancesReferences "k".toList none calls r) ∧
    ∃ calls r, (shortSegments.get "k".toList (some { byte_array := List.replicate 8 0 })).Trace
        calls r ∧
      ¬ shortSegments.BalancesReferences "k".toList (some { byte_array := List.replicate 8 0 })
        calls r := by
  constructor
  · refine ⟨[⟨.get (shortSegments.metaKey "k".toList), .ok (readyBins 1 none)⟩], .ok none,
      .call _ (.ret _), fun hbalanced => ?_⟩
    have hstart : shortSegments.StartsFill none (readyBins 1 none) 1 _ _ :=
      ⟨rfl, ⟨.int 1, rfl, rfl⟩, rfl⟩
    rcases hbalanced _ _ _ _ rfl hstart with ⟨⟨hit, hr⟩, -⟩ | ⟨-, hone⟩
    · cases hr
    · cases hone
  · refine ⟨missingSegment, .ok none,
      .call _ (.call _ (.call _ (.ret _))), fun hbalanced => ?_⟩
    cases hbalanced

/-! ## The error contract -/

/-- What LMCache and torch raise is no exception of the client. -/
structure Engine.RaisesLocally (eng : Engine) : Prop where
  torch : eng.TorchRaises
  allocate : ∀ bins, NoClientError (eng.allocate_for_read bins)
  reshape : ∀ mo n, NoClientError (eng.reshape mo n)

/-- The contract of `get` for the exceptions of its client calls: not found and timeout are a
miss, every other one is raised as the class that `map_aerospike_error` chooses, and none
leaves as it is. -/
def KeepsErrorContract (calls : Calls) (r : Except PyExc (Option Hit)) : Prop :=
  (∀ c ∈ calls, ∀ exc, c.1.raised c.2 = some exc →
    if exc.kind = .RecordNotFound ∨ classify (.ax exc) = .timeout then r = .ok none
    else ∃ kind text detail, r = .error (.connector kind text) ∧
      map_aerospike_error "get" (.ax exc) = .connector kind detail) ∧
  NoClientError r

theorem map_aerospike_error_connector (op_name : String) (exc : Mappable) :
    ∃ kind text, map_aerospike_error op_name exc = .connector kind text := by
  unfold map_aerospike_error
  dsimp only
  split <;> exact ⟨_, _, rfl⟩

/-- At the meta read the contract is kept. -/
theorem meta_error_keeps (key : Key) (exc : AxError) :
    KeepsErrorContract [⟨.get key, .error exc⟩] (meta_error exc) := by
  have hcontract : if exc.kind = .RecordNotFound ∨ classify (.ax exc) = .timeout
      then meta_error exc = .ok none
      else ∃ kind text detail, meta_error exc = .error (.connector kind text) ∧
        map_aerospike_error "get" (.ax exc) = .connector kind detail := by
    unfold meta_error
    split_ifs with hmiss hconnection
    · rfl
    · obtain ⟨kind, text, hmap⟩ := map_aerospike_error_connector "get" (.ax exc)
      have hkind : kind = .connection := by
        unfold map_aerospike_error at hmap
        rw [hconnection] at hmap
        cases hmap
        rfl
      exact ⟨.connection, _, text, rfl, hkind ▸ hmap⟩
    · obtain ⟨kind, text, hmap⟩ := map_aerospike_error_connector "get" (.ax exc)
      exact ⟨kind, text, text, by rw [hmap], hmap⟩
  refine ⟨fun c hc exc' hraised => ?_, fun exc' hr => ?_⟩
  · cases List.mem_singleton.mp hc
    cases hraised
    exact hcontract
  · rw [hr] at hcontract
    split_ifs at hcontract
    obtain ⟨_, _, _, hraw, -⟩ := hcontract
    cases hraw

section Contract

variable {eng : Engine} {ck : Text} {bins : Bins} {nseg : ℤ} {mo : MemoryObj} {calls : Calls}

/-- The exception of a `batch_read` goes on; nothing else raises one of the client. -/
theorem PayloadRead.raises (heng : eng.RaisesLocally) {reads : Calls}
    {payload : Except PyExc (Option (MemoryObj × ℕ))}
    (h : PayloadRead eng ck bins nseg mo reads payload) :
    (∃ keys exc, (⟨.batch_read keys [.b], .error exc⟩ : Σ o : Op, o.Res) ∈ reads ∧
        payload = .error (.aerospike exc)) ∨
      (∀ c ∈ reads, c.1.raised c.2 = none) ∧ NoClientError payload := by
  cases h with
  | @inline value hn hb =>
    refine Or.inr ⟨fun c hc => (by cases hc), fun exc herror => ?_⟩
    cases hw : write_payload_into eng.frombuffer mo value 0 with
    | ok written =>
      rw [hw] at herror
      cases herror
    | error e =>
      rw [hw] at herror
      cases herror
      exact write_payload_noClientError heng.torch mo value 0 exc hw
  | segments recs hn =>
    refine Or.inr ⟨fun c hc => ?_, write_segments_noClientError heng.torch recs mo 0 0⟩
    cases List.mem_singleton.mp hc
    rfl
  | raised exc hn => exact Or.inl ⟨_, exc, List.mem_singleton_self _, rfl⟩

theorem FillExit.raises (heng : eng.RaisesLocally) {shape : Bool}
    {r : Except PyExc (Option Hit)} (h : FillExit eng ck bins nseg mo shape calls r) :
    (∃ keys exc, (⟨.batch_read keys [.b], .error exc⟩ : Σ o : Op, o.Res) ∈ calls ∧
        r = .error (.aerospike exc)) ∨
      (∀ c ∈ calls, c.1.raised c.2 = none) ∧ NoClientError r := by
  have hdown : ∀ {reads : Calls}, (∀ c ∈ reads, c.1.raised c.2 = none) →
      ∀ c ∈ reads ++ [downCall], c.1.raised c.2 = none := by
    intro reads hreads c hc
    rcases List.mem_append.mp hc with hc | hc
    · exact hreads c hc
    · rw [List.mem_singleton.mp hc]
      rfl
  cases h with
  | no_payload _ _ => exact Or.inr ⟨fun c hc => (by cases hc), noClientError_ok _⟩
  | missing hread =>
    rcases hread.raises heng with ⟨_, _, -, hraw⟩ | ⟨hreads, -⟩
    · cases hraw
    · exact Or.inr ⟨hdown hreads, noClientError_ok _⟩
  | crc_mismatch hread _ =>
    rcases hread.raises heng with ⟨_, _, -, hraw⟩ | ⟨hreads, -⟩
    · cases hraw
    · exact Or.inr ⟨hdown hreads, noClientError_ok _⟩
  | hit hread _ =>
    rcases hread.raises heng with ⟨_, _, -, hraw⟩ | ⟨hreads, -⟩
    · cases hraw
    · exact Or.inr ⟨hreads, noClientError_ok _⟩
  | @reshape_raised _ filled n e hread _ hreshape =>
    rcases hread.raises heng with ⟨_, _, -, hraw⟩ | ⟨hreads, -⟩
    · cases hraw
    · have herror := heng.reshape filled n
      rw [hreshape] at herror
      exact Or.inr ⟨hreads, herror.cast⟩
  | raised hread =>
    rcases hread.raises heng with ⟨keys, exc, hmem, hraw⟩ | ⟨hreads, herror⟩
    · cases hraw
      exact Or.inl ⟨keys, exc, hmem, rfl⟩
    · exact Or.inr ⟨hreads, herror.cast⟩

end Contract

/-- **When `get` keeps its error contract.**  In every trace of `get`, whatever its calls are
answered: the contract is kept if and only if no `batch_read` raises. -/
theorem get_error_contract_iff (eng : Engine) (heng : eng.RaisesLocally) (ck : Text)
    (preallocated : Option MemoryObj) {calls : Calls} {r : Except PyExc (Option Hit)}
    (h : (eng.get ck preallocated).Trace calls r) :
    KeepsErrorContract calls r ↔
      ∀ keys names exc, (⟨.batch_read keys names, .error exc⟩ : Σ o : Op, o.Res) ∉ calls := by
  have hsilent : (∀ c ∈ calls, c.1.raised c.2 = none) → NoClientError r →
      (KeepsErrorContract calls r ↔
        ∀ keys names exc, (⟨.batch_read keys names, .error exc⟩ : Σ o : Op, o.Res) ∉ calls) := by
    intro hcalls hr
    refine iff_of_true ⟨fun c hc exc hraised => ?_, hr⟩ fun keys names exc hmem => ?_
    · rw [hcalls c hc] at hraised
      cases hraised
    · cases hcalls _ hmem
  cases get_trace h with
  | meta_raised exc =>
    refine iff_of_true (meta_error_keeps _ exc) fun keys names exc' hmem => ?_
    cases List.mem_singleton.mp hmem
  | no_buffer bins _ hr =>
    refine hsilent (fun c hc => ?_) ?_
    · cases List.mem_singleton.mp hc
      rfl
    · rcases hr with hr | ⟨e, hbuffer, rfl⟩
      · exact hr
      · cases preallocated with
        | some mo => cases hbuffer
        | none =>
          have herror := heng.allocate bins
          rw [show eng.allocate_for_read bins = .error e from hbuffer] at herror
          exact herror.cast
  | returned hstart hexit =>
    rcases hexit.raises heng with ⟨_, _, -, hraw⟩ | ⟨hcalls, hr⟩
    · cases hraw
    · refine hsilent (fun c hc => ?_) hr
      rcases List.mem_cons.mp hc with rfl | hc
      · rfl
      · exact hcalls c hc
  | raised hstart hexit =>
    rcases hexit.raises heng with ⟨keys, exc, hmem, hraw⟩ | ⟨hcalls, hr⟩
    · -- no `except` clause maps the exception of a `batch_read`
      cases hraw
      refine iff_of_false (fun hkeeps => hkeeps.2 exc rfl) fun hnone => ?_
      exact hnone keys [.b] exc (List.mem_cons_of_mem _ (List.mem_append_left _ hmem))
    · refine hsilent (fun c hc => ?_) hr
      rcases List.mem_cons.mp hc with rfl | hc
      · rfl
      · rcases List.mem_append.mp hc with hc | hc
        · exact hcalls c hc
        · rw [List.mem_singleton.mp hc]
          rfl

theorem fakeEngine_raisesLocally (limits : ResolvedLimits) (crc save : Bool) (n : ℕ) :
    (fakeEngine limits crc save n).RaisesLocally where
  torch := fun bytes exc h => by
    have h' : fakeFrombuffer bytes = .error (.aerospike exc) := h
    unfold fakeFrombuffer at h'
    split_ifs at h'
    cases h'
  allocate := fun bins => by
    unfold fakeEngine allocate_for_read
    dsimp only
    split
    · exact noClientError_ok _
    · exact noClientError_builtin _
    · exact noClientError_ok _
  reshape := fun _ _ => noClientError_ok _

/-- The timeout of a client call. -/
def timeoutError : AxError := ⟨.TimeoutError, 9, "''", "(9, '')", ""⟩

/-- A read of two segments, which are both there. -/
def foundSegments : Calls :=
  [⟨.get (shortSegments.metaKey "k".toList), .ok (readyBins 2 none)⟩,
    ⟨.batch_read (segment_keys shortSegments.cfg.ns shortSegments.cfg.set_name "k".toList 2) [.b],
      .ok [⟨0, some (readyBins 0 (some (.blob [1, 2])))⟩,
        ⟨0, some (readyBins 0 (some (.blob [3])))⟩]⟩]

/-- A timeout of the meta read is a miss, and segments that the `batch_read` answers are a hit. -/
theorem get_error_contract_answered :
    KeepsErrorContract [⟨.get (shortSegments.metaKey "k".toList), .error timeoutError⟩]
        (.ok none) ∧
      ∃ hit : Hit, KeepsErrorContract foundSegments (.ok (some hit)) ∧
        hit.mo.byte_array.take 3 = [1, 2, 3] := by
  constructor
  · have htrace : (shortSegments.get "k".toList none).Trace
        [⟨.get (shortSegments.metaKey "k".toList), .error timeoutError⟩] (.ok none) :=
      .call _ (.ret _)
    refine (get_error_contract_iff shortSegments (fakeEngine_raisesLocally _ _ _ _) _ none
      htrace).mpr ?_
    intro keys names exc hmem
    cases List.mem_singleton.mp hmem
  · have htrace : (shortSegments.get "k".toList none).Trace foundSegments (.ok (some _)) :=
      .call _ (.call _ (.ret _))
    refine ⟨_, (get_error_contract_iff shortSegments (fakeEngine_raisesLocally _ _ _ _) _ none
      htrace).mpr ?_, rfl⟩
    intro keys names exc hmem
    rcases List.mem_cons.mp hmem with heq | hmem
    · cases heq
    · cases List.mem_singleton.mp hmem

/-- A timeout of the segment read leaves `get` as it is. -/
theorem get_error_contract_broken :
    ∃ calls, (shortSegments.get "k".toList none).Trace calls
        (.error (.aerospike timeoutError)) ∧
      ¬ KeepsErrorContract calls (.error (.aerospike timeoutError)) := by
  refine ⟨[⟨.get (shortSegments.metaKey "k".toList), .ok (readyBins 2 none)⟩,
    ⟨.batch_read (segment_keys shortSegments.cfg.ns shortSegments.cfg.set_name "k".toList 2) [.b],
      .error timeoutError⟩, downCall], .call _ (.call _ (.call _ (.raise _))), ?_⟩
  exact fun hkeeps => hkeeps.2 timeoutError rfl
