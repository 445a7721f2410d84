/-
# What the native connector may ask of the client

Every client call that a native function can make on a cache key, whatever the answers it
gets, is one of the single-record operations listed in `NativeRecOp`: reads, removals, and the
writes of one planned payload.
-/
import LmcacheAerospike.SharedFormat

/-- The single-record operations of a connector that works on `ck` and writes the payloads in
`Puts`. -/
inductive NativeRecOp (conn : NativeConnector) (ck : Text) (Puts : Bytes → Prop) : RecOp → Prop
  | read_meta {bins : Option (List BinName)} :
      NativeRecOp conn ck Puts (.read (conn.as_key (meta_user_key ck)) bins)
  | read_segment {i : ℕ} {bins : Option (List BinName)} :
      NativeRecOp conn ck Puts (.read (conn.as_key (segment_user_key ck i)) bins)
  | write_segment {p : Bytes} {pl : ShardPlan} {i : ℕ} : Puts p →
      conn.limits.plan p.length = .ok pl → pl.nseg ≠ 1 → i < pl.nseg →
      NativeRecOp conn ck Puts (.write (conn.native_segment_write ck pl p i))
  | write_meta {p : Bytes} {pl : ShardPlan} {now : ℕ} : Puts p →
      conn.limits.plan p.length = .ok pl →
      NativeRecOp conn ck Puts (.write (conn.native_meta_write (meta_user_key ck) pl p.length
        (if pl.nseg = 1 then some p else none) now))
  | remove_meta : NativeRecOp conn ck Puts (.remove (conn.as_key (meta_user_key ck)))
  | remove_segment {i : ℕ} :
      NativeRecOp conn ck Puts (.remove (conn.as_key (segment_user_key ck i)))
  | clock : NativeRecOp conn ck Puts .clock

/-- A call made of the connector's operations on `ck` only. -/
def NativeCall (conn : NativeConnector) (ck : Text) (Puts : Bytes → Prop) (o : Op) : Prop :=
  ∀ i ∈ o.items, NativeRecOp conn ck Puts i

section Calls

variable {conn : NativeConnector} {ck key : Text} {Puts : Bytes → Prop}

theorem nativeCall_single {o : Op} {i : RecOp} (ho : o.items = [i])
    (hi : NativeRecOp conn ck Puts i) : NativeCall conn ck Puts o := by
  intro j hj
  rw [ho, List.mem_singleton] at hj
  rw [hj]
  exact hi

open Prog

/-- `put_meta_record` writes the meta record. -/
theorem put_meta_record_calls {p : Bytes} {pl : ShardPlan} (hp : Puts p)
    (hplan : conn.limits.plan p.length = .ok pl) :
    (conn.put_meta_record (meta_user_key ck) pl p.length
      (if pl.nseg = 1 then some p else none)).AllCalls (NativeCall conn ck Puts) := by
  refine ⟨nativeCall_single rfl .clock, fun now => ?_⟩
  refine ⟨nativeCall_single rfl (.write_meta hp hplan), fun x => ?_⟩
  cases x <;> trivial

/-- The loop of `do_single_set` writes segments of the plan. -/
theorem set_segments_calls {p : Bytes} {pl : ShardPlan} (hp : Puts p)
    (hplan : conn.limits.plan p.length = .ok pl) (hn : pl.nseg ≠ 1) {i n : ℕ}
    (hi : i + n ≤ pl.nseg) :
    (conn.set_segments ck pl p p.length i n).AllCalls (NativeCall conn ck Puts) := by
  induction n generalizing i with
  | zero => trivial
  | succ n ih =>
    refine allCalls_bind _ _ ⟨nativeCall_single rfl ?_, fun x => ?_⟩ fun _ => ih (by omega)
    · exact .write_segment hp hplan hn (by omega)
    · cases x <;> trivial

/-- The calls of a write. -/
theorem do_single_set_calls (hkey : native_key_to_cache_engine_key key conn.dtype = .ok ck)
    {p : Bytes} (hp : Puts p) :
    (conn.do_single_set key p).AllCalls (NativeCall conn ck Puts) := by
  cases hplan : conn.limits.plan p.length with
  | error e =>
    unfold NativeConnector.do_single_set
    dsimp only
    rw [hkey, hplan]
    trivial
  | ok pl =>
    have hmeta : (conn.put_meta_record (meta_user_key ck) pl p.length
        (if pl.nseg = 1 then some p else none)).AllCalls (NativeCall conn ck Puts) :=
      put_meta_record_calls hp hplan
    rw [do_single_set_planned hkey hplan]
    split_ifs with hn
    · rwa [if_pos hn] at hmeta
    · rw [if_neg hn] at hmeta
      exact allCalls_bind _ _ (set_segments_calls hp hplan hn (by omega)) fun _ => hmeta

/-- The loop of `do_single_get` reads segments. -/
theorem get_segments_calls {C : Op → Prop}
    (hsegment : ∀ i, C (.get (conn.as_key (segment_user_key ck i)))) {len seg_b : ℕ}
    (offset : ℕ) (buf : Bytes) (i n : ℕ) :
    (conn.get_segments ck len seg_b offset buf i n).AllCalls C := by
  induction n generalizing offset buf i with
  | zero => trivial
  | succ n ih =>
    refine allCalls_bind _ _ ⟨hsegment i, fun x => ?_⟩ fun r => ?_
    · cases x with
      | error err =>
        show AllCalls _ (if _ then _ else _)
        split_ifs <;> trivial
      | ok bins =>
        dsimp only [Prog.ret_bind]
        cases as_record_get_bytes bins .b with
        | none => trivial
        | some payload =>
          dsimp only
          split_ifs <;> trivial
    · obtain ⟨found, buf'⟩ := r
      cases found with
      | false => trivial
      | true => exact ih _ _ _

/-- A read makes no calls but reads of the meta record and of segments. -/
theorem do_single_get_calls (hkey : native_key_to_cache_engine_key key conn.dtype = .ok ck)
    {C : Op → Prop} (hmeta : C (.get (conn.as_key (meta_user_key ck))))
    (hsegment : ∀ i, C (.get (conn.as_key (segment_user_key ck i)))) (buf : Bytes) (len : ℕ) :
    (conn.do_single_get key buf len).AllCalls C := by
  rw [do_single_get_eq hkey]
  refine ⟨hmeta, fun x => ?_⟩
  cases x with
  | error err => trivial
  | ok rec =>
    show AllCalls _ (conn.get_with_record ck buf len rec)
    unfold NativeConnector.get_with_record
    split_ifs
    · trivial
    · dsimp only
      split_ifs
      · trivial
      · cases as_record_get_bytes rec .b with
        | none => trivial
        | some payload =>
          dsimp only
          split_ifs <;> trivial
      · exact get_segments_calls hsegment _ _ _ _

/-- A presence check reads no bins of the meta record. -/
theorem do_single_exists_calls (hkey : native_key_to_cache_engine_key key conn.dtype = .ok ck)
    {C : Op → Prop} (hmeta : C (.select (conn.as_key (meta_user_key ck)) [])) :
    (conn.do_single_exists key).AllCalls C := by
  unfold NativeConnector.do_single_exists
  rw [hkey]
  refine ⟨hmeta, fun x => ?_⟩
  cases x with
  | ok bins => trivial
  | error err =>
    show AllCalls _ (if _ then _ else _)
    split_ifs <;> trivial

/-- The loop of `do_single_delete` removes segments. -/
theorem delete_segments_calls (i n : ℕ) :
    (conn.delete_segments ck i n).AllCalls (NativeCall conn ck Puts) := by
  induction n generalizing i with
  | zero => trivial
  | succ n ih => exact ⟨nativeCall_single rfl .remove_segment, fun _ => ih (i + 1)⟩

/-- A delete removes the meta record and the segments that it names. -/
theorem delete_records_calls (nseg : ℕ) :
    (conn.delete_records ck nseg).AllCalls (NativeCall conn ck Puts) := by
  refine ⟨nativeCall_single rfl .remove_meta, fun x => ?_⟩
  cases x with
  | error err =>
    show AllCalls _ (if _ then _ else _)
    split_ifs <;> trivial
  | ok u =>
    show AllCalls _ (Prog.bind (conn.delete_segments ck 0 nseg) _)
    exact allCalls_bind _ _ (delete_segments_calls 0 nseg) fun _ => trivial

/-- The calls of a removal. -/
theorem do_single_delete_calls (hkey : native_key_to_cache_engine_key key conn.dtype = .ok ck) :
    (conn.do_single_delete key).AllCalls (NativeCall conn ck Puts) := by
  unfold NativeConnector.do_single_delete
  rw [hkey]
  refine ⟨nativeCall_single rfl .read_meta, fun x => ?_⟩
  cases x with
  | error err =>
    show AllCalls _ (if _ then _ else _)
    split_ifs <;> trivial
  | ok rec => exact delete_records_calls _

end Calls
