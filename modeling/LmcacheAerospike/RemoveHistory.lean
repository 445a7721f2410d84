/-
# What a removal leaves behind

`remove` deletes the segments that the meta record names, and a put deletes none.  So when a
put has fewer segments than the one before it, the records beyond them stay, and the next
removal does not find them.  The segments that are there after any history of puts and
removals are computed by `layoutAfter`; `remove_leaves` says which of them a removal leaves
behind, and that there are none when no earlier put had more segments than the last.
-/
import Mathlib.Data.Finset.Range
import LmcacheAerospike.HitReadable

/-! ## The layouts of one key -/

/-- A put of so many segments, or a removal. -/
inductive KeyEvent : Type where
  | put (nseg : ℕ)
  | remove
  deriving DecidableEq, Repr

/-- The records of one key: the number of segments that the meta record names, when there is
one, and the segments that are there. -/
structure Layout : Type where
  last : Option ℕ
  segs : Finset ℕ

/-- A put adds its segments to those that are there; a removal takes away those that the meta
record names, if it names more than one. -/
def Layout.after (l : Layout) : KeyEvent → Layout
  | .put nseg => ⟨some nseg, if nseg = 1 then l.segs else l.segs ∪ Finset.range nseg⟩
  | .remove =>
    match l.last with
    | none => l
    | some nseg => ⟨none, if nseg > 1 then l.segs \ Finset.range nseg else l.segs⟩

/-- The layout that events on a key leave, from no record on. -/
def layoutAfter (events : List KeyEvent) : Layout := events.foldl Layout.after ⟨none, ∅⟩

/-- What the put of one item does to the key of a meta record. -/
def Engine.putEvent (eng : Engine) (key : Key) (item : Text × MemoryObj) : List KeyEvent :=
  if eng.metaKey item.1 = key then
    match eng.resolved.shard_plan item.2.byte_array.length with
    | .ok pl => [.put pl.nseg]
    | .error _ => []
  else []

/-- What an operation does to the key of a meta record. -/
def ClientOp.events (key : Key) : ClientOp → List KeyEvent
  | .put eng ck mo _ => eng.putEvent key (ck, mo)
  | .batched_put eng items _ => items.flatMap (eng.putEvent key)
  | .remove eng ck => if eng.metaKey ck = key then [.remove] else []
  | _ => []

/-- What operations have done to the key of a meta record. -/
def eventsOn (key : Key) (ops : List ClientOp) : List KeyEvent := ops.flatMap (ClientOp.events key)

/-- Every segment that is there has been put. -/
theorem mem_layoutAfter {events : List KeyEvent} {i : ℕ} (h : i ∈ (layoutAfter events).segs) :
    ∃ nseg, KeyEvent.put nseg ∈ events ∧ nseg ≠ 1 ∧ i < nseg := by
  induction events using List.reverseRecOn with
  | nil => cases h
  | append_singleton events event ih =>
    have hold : i ∈ (layoutAfter events).segs →
        ∃ nseg, KeyEvent.put nseg ∈ events ++ [event] ∧ nseg ≠ 1 ∧ i < nseg := by
      intro hi
      obtain ⟨nseg, hmem, hnseg⟩ := ih hi
      exact ⟨nseg, List.mem_append_left _ hmem, hnseg⟩
    rw [layoutAfter, List.foldl_append, List.foldl_cons, List.foldl_nil] at h
    change i ∈ ((layoutAfter events).after event).segs at h
    cases event with
    | put nseg =>
      unfold Layout.after at h
      dsimp only at h
      split_ifs at h with hone
      · exact hold h
      · rcases Finset.mem_union.mp h with hi | hi
        · exact hold hi
        · exact ⟨nseg, by simp, hone, Finset.mem_range.mp hi⟩
    | remove =>
      unfold Layout.after at h
      dsimp only at h
      cases hlast : (layoutAfter events).last with
      | none =>
        rw [hlast] at h
        exact hold h
      | some nseg =>
        rw [hlast] at h
        dsimp only at h
        split_ifs at h
        · exact hold (Finset.mem_sdiff.mp h).1
        · exact hold h

/-! ## Histories -/

/-- A put, a `batched_put` or a removal. -/
def ClientOp.PutsOrRemoves : ClientOp → Prop
  | .put _ _ _ _ | .batched_put _ _ _ | .remove _ _ => True
  | _ => False

/-- The store after puts and removals that completed one after the other, from the empty store,
by engines of any configurations.  Time may pass, but no record expires. -/
inductive PutsAndRemovals : List ClientOp → World → Prop
  | start : PutsAndRemovals [] World.empty
  | step {ops : List ClientOp} {o : ClientOp} {w w' : World} {result : OpResult} :
      PutsAndRemovals ops w → o.PutsOrRemoves → o.prog.run Op.perform w = (.ok result, w') →
      PutsAndRemovals (ops ++ [o]) w'
  | tick {ops : List ClientOp} {w : World} (t : ℕ) :
      PutsAndRemovals ops w → PutsAndRemovals ops { w with now := t }

/-! ## The invariant -/

/-- **The invariant**: the records of `ck` are those of the layout. -/
structure World.LaidOut (w : World) (ns set_name ck : Text) (l : Layout) : Prop where
  absent : l.last = none → w.records (meta_key ns set_name ck) = none
  named : ∀ nseg, l.last = some nseg →
    ∃ r, w.records (meta_key ns set_name ck) = some r ∧ r.bins .nseg = some (.int nseg)
  segment : ∀ i, (w.records (segment_key ns set_name ck i)).isSome ↔ i ∈ l.segs

section Invariant

variable {w w' : World} {eng : Engine} {ck : Text} {l : Layout}

theorem World.LaidOut.congr {ns set_name : Text} (h : w.LaidOut ns set_name ck l)
    (hsame : w.SameFor w' ns set_name ck) : w'.LaidOut ns set_name ck l where
  absent := fun hlast => by
    rw [hsame.1]
    exact h.absent hlast
  named := fun nseg hlast => by
    rw [hsame.1]
    exact h.named nseg hlast
  segment := fun i => by
    rw [hsame.2 i]
    exact h.segment i

/-! ### Puts -/

/-- **The put of one item**, on its own key. -/
theorem World.LaidOut.put {mo : MemoryObj} {pinned : Bool} {pl : ShardPlan}
    (hplan : eng.resolved.shard_plan mo.byte_array.length = .ok pl)
    (h : w.LaidOut eng.cfg.ns eng.cfg.set_name ck l) :
    (eng.afterPut pinned w (ck, mo)).LaidOut eng.cfg.ns eng.cfg.set_name ck
      (l.after (.put pl.nseg)) where
  absent := fun hlast => by cases hlast
  named := fun nseg hlast => by
    cases hlast
    exact ⟨_, afterPut_meta hplan, meta_write_bins mo pl pinned w.now .nseg⟩
  segment := fun i => by
    rw [afterPut_segment hplan i, h.segment i]
    unfold Layout.after
    dsimp only
    split_ifs with hone
    · simp [hone]
    · simp [hone, or_comm]

/-- **The put of one item**, on any key. -/
theorem World.LaidOut.afterPut {ns set_name : Text} {item : Text × MemoryObj} {pinned : Bool}
    (hplan : ∃ pl, eng.resolved.shard_plan item.2.byte_array.length = .ok pl)
    (h : w.LaidOut ns set_name ck l) :
    (eng.afterPut pinned w item).LaidOut ns set_name ck
      ((eng.putEvent (meta_key ns set_name ck) item).foldl Layout.after l) := by
  obtain ⟨pl, hplan⟩ := hplan
  unfold Engine.putEvent
  by_cases hkey : eng.metaKey item.1 = meta_key ns set_name ck
  · rw [if_pos hkey, hplan]
    obtain rfl : eng.cfg.ns = ns := congrArg Key.ns hkey
    obtain rfl : eng.cfg.set_name = set_name := congrArg Key.set_name hkey
    obtain rfl : item.1 = ck := meta_key_inj hkey
    exact h.put hplan
  · rw [if_neg hkey]
    refine h.congr ⟨?_, fun i => ?_⟩
    · exact afterPut_of_ne item (Ne.symm hkey) fun i => meta_key_ne_segment_key _ _ _ _ _ _ _
    · exact afterPut_of_ne item (fun heq => meta_key_ne_segment_key _ _ _ _ _ _ _ heq.symm)
        fun j => segment_key_ne (Ne.symm hkey) i j

/-- The puts of some items, one after the other. -/
theorem World.LaidOut.puts {ns set_name : Text} {items : List (Text × MemoryObj)} {pinned : Bool}
    (hplans : ∀ item ∈ items, ∃ pl, eng.resolved.shard_plan item.2.byte_array.length = .ok pl)
    (h : w.LaidOut ns set_name ck l) :
    (items.foldl (eng.afterPut pinned) w).LaidOut ns set_name ck
      ((items.flatMap (eng.putEvent (meta_key ns set_name ck))).foldl Layout.after l) := by
  induction items generalizing w l with
  | nil => exact h
  | cons item items ih =>
    rw [List.forall_mem_cons] at hplans
    rw [List.foldl_cons, List.flatMap_cons, List.foldl_append]
    exact ih hplans.2 (h.afterPut hplans.1)

/-! ### Removals -/

/-- The store after a removal that found a meta record with so many segments. -/
def Engine.afterRemove (eng : Engine) (ck : Text) (nseg : ℕ) (w : World) : World :=
  if nseg > 1 then (segment_keys eng.cfg.ns eng.cfg.set_name ck nseg).foldl World.removeRecord
    (w.removeRecord (eng.metaKey ck))
  else w.removeRecord (eng.metaKey ck)

/-- A removal that finds the meta record. -/
theorem run_remove_named {r : Record} {nseg : ℕ} (hr : w.records (eng.metaKey ck) = some r)
    (hnseg : r.bins .nseg = some (.int nseg)) :
    (eng.remove ck).run Op.perform w = (.ok true, eng.afterRemove ck nseg w) := by
  show Prog.run _ (.call (Op.select _ _) _) w = _
  rw [Prog.run_call, perform_select_found hr]
  dsimp only [Prog.ret_bind]
  have hselect : selectBins (some [.nseg]) r.bins .nseg = some (.int nseg) := hnseg
  rw [hselect]
  show (eng.remove_records ck nseg).run Op.perform w = _
  rw [run_remove_records hr, Int.toNat_natCast, Engine.afterRemove]
  by_cases hn : nseg > 1
  · rw [if_pos hn, if_pos (by omega)]
  · rw [if_neg hn, if_neg (by omega)]

/-- A removal takes away no record but the meta record and the segments named. -/
theorem afterRemove_of_ne {nseg : ℕ} {key : Key} (hmeta : key ≠ eng.metaKey ck)
    (hsegment : ∀ i, i < nseg → nseg > 1 → key ≠ eng.segmentKey ck i) :
    (eng.afterRemove ck nseg w).records key = w.records key := by
  unfold Engine.afterRemove
  by_cases hn : nseg > 1
  · rw [if_pos hn, foldl_removeRecord_of_notMem _ _ fun hmem => ?_, removeRecord_of_ne w hmeta]
    obtain ⟨i, hi, hkey⟩ := List.mem_map.mp hmem
    exact hsegment i (List.mem_range.mp hi) hn hkey.symm
  · rw [if_neg hn, removeRecord_of_ne w hmeta]

theorem afterRemove_meta (nseg : ℕ) :
    (eng.afterRemove ck nseg w).records (eng.metaKey ck) = none := by
  unfold Engine.afterRemove
  split_ifs
  · exact meta_removed nseg
  · exact w.setRecord_self _ none

/-- The segments after a removal. -/
theorem afterRemove_segment (nseg i : ℕ) :
    ((eng.afterRemove ck nseg w).records (eng.segmentKey ck i)).isSome ↔
      (w.records (eng.segmentKey ck i)).isSome ∧ ¬ (nseg > 1 ∧ i < nseg) := by
  by_cases hi : nseg > 1 ∧ i < nseg
  · have hmem : eng.segmentKey ck i ∈ segment_keys eng.cfg.ns eng.cfg.set_name ck nseg :=
      List.mem_map_of_mem (List.mem_range.mpr hi.2)
    unfold Engine.afterRemove
    rw [if_pos hi.1, foldl_removeRecord_of_mem _ _ hmem]
    simp [hi]
  · rw [and_iff_left hi, afterRemove_of_ne (meta_key_ne_segment_key _ _ _ _ _ _ _).symm]
    intro j hj hn hkey
    obtain rfl : i = j := (segment_key_inj hkey).2
    exact hi ⟨hn, hj⟩

/-- **A removal**, on its own key: it finds the meta record of the layout or none. -/
theorem World.LaidOut.remove (h : w.LaidOut eng.cfg.ns eng.cfg.set_name ck l) :
    ∃ w₁, (eng.remove ck).run Op.perform w = (.ok l.last.isSome, w₁) ∧
      w₁.LaidOut eng.cfg.ns eng.cfg.set_name ck (l.after .remove) ∧
      ∀ key, key ≠ eng.metaKey ck → (∀ i, key ≠ eng.segmentKey ck i) →
        w₁.records key = w.records key := by
  unfold Layout.after
  cases hlast : l.last with
  | none =>
    exact ⟨w, run_remove_absent (h.absent hlast), h, fun _ _ _ => rfl⟩
  | some nseg =>
    obtain ⟨r, hr, hnseg⟩ := h.named nseg hlast
    refine ⟨eng.afterRemove ck nseg w, run_remove_named hr hnseg,
      ⟨fun _ => afterRemove_meta nseg, fun m hm => (by cases hm), fun i => ?_⟩,
      fun key hmeta hsegment => afterRemove_of_ne hmeta fun i _ _ => hsegment i⟩
    rw [afterRemove_segment nseg i, h.segment i]
    dsimp only
    split_ifs with hn
    · simp [hn]
    · simp [hn]

/-! ### Every operation -/

/-- **The step lemma.** -/
theorem laidOut_step {o : ClientOp} {result : OpResult} (ho : o.PutsOrRemoves)
    (hrun : o.prog.run Op.perform w = (.ok result, w')) {ns set_name : Text}
    (h : w.LaidOut ns set_name ck l) :
    w'.LaidOut ns set_name ck ((o.events (meta_key ns set_name ck)).foldl Layout.after l) := by
  cases o with
  | put eng ck' mo pinned =>
    obtain ⟨u, hput⟩ := run_of_result hrun
    obtain ⟨hplan, rfl⟩ := run_put_ok_world hput
    exact h.afterPut hplan
  | batched_put eng items pinned =>
    obtain ⟨flags, hput⟩ := run_of_result hrun
    obtain ⟨hplans, rfl⟩ := run_batched_put_world hput
    exact h.puts hplans
  | remove eng ck' =>
    obtain ⟨removed, hremove⟩ := run_of_result hrun
    dsimp only [ClientOp.events]
    by_cases hkey : eng.metaKey ck' = meta_key ns set_name ck
    · rw [if_pos hkey]
      obtain rfl : eng.cfg.ns = ns := congrArg Key.ns hkey
      obtain rfl : eng.cfg.set_name = set_name := congrArg Key.set_name hkey
      obtain rfl : ck' = ck := meta_key_inj hkey
      obtain ⟨w₁, hown, hlaid, -⟩ := h.remove
      rw [hown] at hremove
      cases hremove
      exact hlaid
    · rw [if_neg hkey]
      -- another key: whatever was removed was not of this one
      rcases run_remove_ok hremove with ⟨-, -, rfl⟩ | ⟨-, n, rfl⟩
      · exact h
      · exact h.congr (sameFor_remove n fun heq => hkey heq.symm)
  | get => exact ho.elim
  | exists_ => exact ho.elim
  | batched_contains => exact ho.elim
  | batched_async_contains => exact ho.elim
  | pin_keys => exact ho.elim
  | unpin => exact ho.elim
  | pin => exact ho.elim

/-- **The run lemma**: the store after any history has the layouts of its events. -/
theorem laidOut_history {ops : List ClientOp} (h : PutsAndRemovals ops w)
    (ns set_name ck : Text) :
    w.LaidOut ns set_name ck (layoutAfter (eventsOn (meta_key ns set_name ck) ops)) := by
  induction h with
  | start =>
    refine ⟨fun _ => rfl, fun nseg hlast => (by cases hlast), fun i => ?_⟩
    simp [World.empty, layoutAfter, eventsOn]
  | step _ ho hrun ih =>
    rw [eventsOn, List.flatMap_append, List.flatMap_singleton, layoutAfter, List.foldl_append]
    exact laidOut_step ho hrun ih
  | tick t _ ih => exact ih.congr ⟨rfl, fun _ => rfl⟩

end Invariant

/-! ## What is left -/

/-- **What a removal leaves behind.**  After any history of completed puts and removals, a
removal that returns `True` has found a meta record naming `n` segments, the number of the last
put.  It leaves no meta record.  The segments it leaves are those that an earlier put has
written and that no removal since, this one included, has covered, where a removal that finds
more than one segment named covers those; and there are none if no put of the key in the history
had more than `n`. -/
theorem remove_leaves (ops : List ClientOp) (w w' : World) (hops : PutsAndRemovals ops w)
    (eng : Engine) (ck : Text)
    (hrun : (eng.remove ck).run Op.perform w = (.ok true, w')) :
    ∃ n, (layoutAfter (eventsOn (eng.metaKey ck) ops)).last = some n ∧
      (∃ r, w.records (eng.metaKey ck) = some r ∧ r.bins .nseg = some (.int n)) ∧
      w'.records (eng.metaKey ck) = none ∧
      (∀ i, (w'.records (eng.segmentKey ck i)).isSome ↔
        i ∈ (layoutAfter (eventsOn (eng.metaKey ck) (ops ++ [.remove eng ck]))).segs) ∧
      ((∀ m, KeyEvent.put m ∈ eventsOn (eng.metaKey ck) ops → m ≤ n) →
        ∀ i, w'.records (eng.segmentKey ck i) = none) := by
  have hlaid := laidOut_history hops eng.cfg.ns eng.cfg.set_name ck
  obtain ⟨w₁, hown, hafter, -⟩ := hlaid.remove
  rw [hown] at hrun
  obtain ⟨n, hlast⟩ := Option.isSome_iff_exists.mp (Except.ok.inj (congrArg Prod.fst hrun))
  obtain rfl : w₁ = w' := congrArg Prod.snd hrun
  have hevents : (layoutAfter (eventsOn (eng.metaKey ck) ops)).after .remove
      = layoutAfter (eventsOn (eng.metaKey ck) (ops ++ [.remove eng ck])) := by
    rw [eventsOn, eventsOn, List.flatMap_append, List.flatMap_singleton, layoutAfter, layoutAfter,
      List.foldl_append]
    dsimp only [ClientOp.events]
    rw [if_pos rfl]
    rfl
  have hsegment := hafter.segment
  refine ⟨n, hlast, hlaid.named n hlast, ?_, hevents ▸ hsegment, fun hmost i => ?_⟩
  · refine hafter.absent ?_
    unfold Layout.after
    dsimp only
    rw [hlast]
  · rw [← Option.not_isSome_iff_eq_none, hsegment i]
    intro hi
    unfold Layout.after at hi
    dsimp only at hi
    rw [hlast] at hi
    dsimp only at hi
    -- a segment that is there lies inside some put, and so inside the last one
    split_ifs at hi with hn
    · obtain ⟨hmem, hnot⟩ := Finset.mem_sdiff.mp hi
      obtain ⟨m, hput, -, hlt⟩ := mem_layoutAfter hmem
      exact hnot (Finset.mem_range.mpr (lt_of_lt_of_le hlt (hmost m hput)))
    · obtain ⟨m, hput, hne, hlt⟩ := mem_layoutAfter hi
      have hle := hmost m hput
      omega

/-- Three bytes in two segments are put twice and removed: nothing is left. -/
theorem remove_leaves_nothing :
    ∃ w w', PutsAndRemovals [.put shortSegments "k".toList { byte_array := [1, 2, 3] } false,
        .put shortSegments "k".toList { byte_array := [4, 5, 6] } false] w ∧
      (shortSegments.remove "k".toList).run Op.perform w = (.ok true, w') ∧
      w'.records (shortSegments.metaKey "k".toList) = none ∧
      ∀ i, w'.records (shortSegments.segmentKey "k".toList i) = none := by
  have hput₁ := PutsAndRemovals.start.step
    (o := .put shortSegments "k".toList { byte_array := [1, 2, 3] } false) trivial rfl
  have hput₂ := hput₁.step
    (o := .put shortSegments "k".toList { byte_array := [4, 5, 6] } false) trivial rfl
  obtain ⟨n, hlast, -, hmeta, -, hnone⟩ :=
    remove_leaves _ _ _ hput₂ shortSegments "k".toList rfl
  refine ⟨_, _, hput₂, rfl, hmeta, hnone fun m hm => ?_⟩
  obtain rfl : n = 2 := (Option.some.inj hlast).symm
  change KeyEvent.put m ∈ [KeyEvent.put 2, KeyEvent.put 2] at hm
  simp only [List.mem_cons, KeyEvent.put.injEq, List.not_mem_nil, or_false, or_self] at hm
  omega

/-- Three bytes in two segments are put, and then one byte inline: a removal returns `True` and
leaves the first segment, which no meta record names any more. -/
theorem remove_leaves_segment :
    ∃ w w' r, PutsAndRemovals [.put shortSegments "k".toList { byte_array := [1, 2, 3] } false,
        .put shortSegments "k".toList { byte_array := [7] } false] w ∧
      (shortSegments.remove "k".toList).run Op.perform w = (.ok true, w') ∧
      w'.records (shortSegments.metaKey "k".toList) = none ∧
      w'.records (shortSegments.segmentKey "k".toList 0) = some r := by
  have hput₁ := PutsAndRemovals.start.step
    (o := .put shortSegments "k".toList { byte_array := [1, 2, 3] } false) trivial rfl
  have hput₂ := hput₁.step
    (o := .put shortSegments "k".toList { byte_array := [7] } false) trivial rfl
  exact ⟨_, _, _, hput₂, rfl, rfl, rfl⟩
