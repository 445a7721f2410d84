/-
# Logical keys do not interfere

Whatever a run on the logical key `s` does, the records of every other logical key stay
as they were (`frameProtocol`), and a read depends on nothing but the records of the
keys it reads (`run_congr`).  So what clients do with `s` cannot be observed on `t`.
-/
import LmcacheAerospike.EngineCalls
import LmcacheAerospike.Payload

/-! ## Which record an operation touches -/

/-- The key an operation reads or writes. -/
def RecOp.target : RecOp → Option Key
  | .read key _ | .touch key _ | .remove key => some key
  | .write wr => some wr.key
  | .clock | .ref_count_down => none

theorem perform_frame {op : RecOp} {key : Key} (h : op.target ≠ some key) (w : World) :
    (op.perform w).2.records key = w.records key := by
  have hne : ∀ k, op.target = some k → key ≠ k := by
    rintro k hk rfl
    exact h hk
  cases op with
  | read k names =>
    simp only [RecOp.perform]
    split <;> rfl
  | write wr => exact w.applyWrite_of_ne (hne _ rfl)
  | touch k ttl =>
    simp only [RecOp.perform]
    cases w.records k with
    | none => rfl
    | some r => exact w.setRecord_of_ne (hne _ rfl) _
  | remove k =>
    simp only [RecOp.perform]
    cases w.records k with
    | none => rfl
    | some r => exact w.setRecord_of_ne (hne _ rfl) _
  | clock => rfl
  | ref_count_down => rfl

theorem faulty_frame {op : RecOp} {key : Key} (h : op.target ≠ some key) {w w' : World}
    {r : RecRes} (hd : Faulty op w r w') : w'.records key = w.records key := by
  rcases hd with hp | ⟨-, rfl | rfl⟩
  · rw [show w' = (op.perform w).2 from congrArg Prod.snd hp]
    exact perform_frame h w
  · rfl
  · exact perform_frame h w

/-- Expiry of records outside `A`, and the passing of time. -/
inductive ExpiryOutside (A : Key → Prop) : World → World → Prop
  | expire (w : World) (k : Key) : ¬ A k → ExpiryOutside A w (w.setRecord k none)
  | tick (w : World) (t : ℕ) : ExpiryOutside A w { w with now := t }

/-- **The frame protocol**: clients that touch no record of `A` leave them all as they are
in `w`. -/
def frameProtocol (A : Key → Prop) (w : World) : Protocol client (ExpiryOutside A) :=
  Protocol.itemwise (fun σ => ∀ key, A key → σ.records key = w.records key)
    (fun op => ∀ key, A key → op.target ≠ some key) (fun _ _ => True)
    (fun {σ σ'} henv h key hkey => by
      cases henv with
      | expire k hk =>
        rw [σ.setRecord_of_ne (by rintro rfl; exact hk hkey)]
        exact h key hkey
      | tick t => exact h key hkey)
    (fun {op σ r σ'} hop h hd =>
      ⟨fun key hkey => (faulty_frame (hop key hkey) hd).trans (h key hkey), trivial⟩)

/-! ## What a read depends on -/

/-- A read of a record in `A`, or `ref_count_down()`. -/
def ReadsIn (A : Key → Prop) : RecOp → Prop
  | .read key _ => A key
  | .ref_count_down => True
  | _ => False

section Congr

variable {A : Key → Prop}

theorem performAll_congr {ops : List RecOp} (hops : ∀ op ∈ ops, ReadsIn A op) {w w' : World}
    (h : ∀ key, A key → w.records key = w'.records key) :
    (performAll ops w).1 = (performAll ops w').1 ∧
      ∀ key, A key → (performAll ops w).2.records key = (performAll ops w').2.records key := by
  induction ops generalizing w w' with
  | nil => exact ⟨rfl, h⟩
  | cons op ops ih =>
    rw [List.forall_mem_cons] at hops
    have hop : (op.perform w).1 = (op.perform w').1 ∧
        ∀ key, A key → (op.perform w).2.records key = (op.perform w').2.records key := by
      cases op with
      | read k names =>
        have hk : A k := hops.1
        simp only [RecOp.perform]
        rw [h k hk]
        cases w'.records k with
        | none => exact ⟨rfl, h⟩
        | some r => exact ⟨rfl, h⟩
      | ref_count_down => exact ⟨rfl, h⟩
      | write wr => exact hops.1.elim
      | touch k ttl => exact hops.1.elim
      | remove k => exact hops.1.elim
      | clock => exact hops.1.elim
    obtain ⟨hres, hrest⟩ := ih hops.2 hop.2
    simp only [performAll]
    exact ⟨by rw [hop.1, hres], hrest⟩

/-- **A program that only reads in `A`** has the same result on stores that agree on `A`. -/
theorem run_congr {α : Type} (p : EngineM α)
    (hp : p.AllCalls fun o => ∀ op ∈ o.items, ReadsIn A op) {w w' : World}
    (h : ∀ key, A key → w.records key = w'.records key) :
    (p.run Op.perform w).1 = (p.run Op.perform w').1 := by
  induction p generalizing w w' with
  | ret a => rfl
  | raise e => rfl
  | call o k ih =>
    obtain ⟨hres, hrest⟩ := performAll_congr hp.1 h
    have hanswer : (o.perform w).1 = (o.perform w').1 := by
      simp only [Op.perform]
      rw [hres]
    rw [Prog.run_call, Prog.run_call, hanswer]
    exact ih _ (hp.2 _) hrest

end Congr

/-! ## Logical keys -/

/-- The keys of the logical keys other than `s`. -/
def KeyOfOther (s : Text) (key : Key) : Prop := ∃ t, t ≠ s ∧ KeyOf t key

/-- The operations of clients on the logical key `s`, with any engine and any payload. -/
def OnKey (s : Text) (op : ClientOp) : Prop :=
  op.Within (fun ck => ck = s) (fun ck _ => ck = s)

theorem keyOf_target {eng : Engine} {s : Text} {op : RecOp} {key : Key}
    (h : EngineRecOp eng (fun ck => ck = s) (fun ck _ => ck = s) op)
    (ht : op.target = some key) : KeyOf s key := by
  cases h with
  | of_read h =>
    cases h with
    | read_meta hk =>
      subst hk
      cases ht
      exact keyOf_meta_key ..
    | read_segment hk =>
      subst hk
      cases ht
      exact keyOf_segment_key ..
    | ref_count_down => cases ht
  | write_segment hp =>
    subst hp
    cases ht
    exact keyOf_segment_key ..
  | write_meta hp =>
    subst hp
    cases ht
    exact keyOf_meta_key ..
  | write_pin hk =>
    subst hk
    cases ht
    exact keyOf_meta_key ..
  | touch_meta hk =>
    subst hk
    cases ht
    exact keyOf_meta_key ..
  | remove_meta hk =>
    subst hk
    cases ht
    exact keyOf_meta_key ..
  | remove_segment hk =>
    subst hk
    cases ht
    exact keyOf_segment_key ..
  | clock => cases ht

theorem readsIn_of_read {eng : Engine} {s : Text} {op : RecOp}
    (h : EngineReadOp eng (fun ck => ck ≠ s) op) : ReadsIn (KeyOfOther s) op := by
  cases h with
  | read_meta hk => exact ⟨_, hk, keyOf_meta_key ..⟩
  | read_segment hk => exact ⟨_, hk, keyOf_segment_key ..⟩
  | ref_count_down => trivial

/-- Every operation on `s` is admitted by the frame protocol of the other logical keys. -/
theorem onKey_safe {s : Text} {op : ClientOp} (h : OnKey s op) (w : World) :
    (frameProtocol (KeyOfOther s) w).Safe (fun _ => True) op.prog := by
  refine Protocol.safe_of_allCalls _ (fun _ => trivial) _ ?_
  refine Prog.allCalls_mono (fun o ho i hi key hkey ht => ?_) _ (op.prog_calls h)
  obtain ⟨t, hne, hkt⟩ := hkey
  exact hne (keyOf_unique hkt (keyOf_target (ho i hi) ht))

/-- The results of reads do not see what happened on `s`. -/
theorem reads_unchanged {α : Type} {eng : Engine} {s : Text} {p : EngineM α}
    (hp : p.AllCalls (EngineReadCall eng fun ck => ck ≠ s)) {w w' : World}
    (h : ∀ key, KeyOfOther s key → w'.records key = w.records key) :
    (p.run Op.perform w').1 = (p.run Op.perform w).1 :=
  run_congr p (Prog.allCalls_mono (fun _ ho i hi => readsIn_of_read (ho i hi)) p hp) h

/-- **Isolation of logical keys.**  Two different logical keys share no user key, and one
logical key has a user key of its own for its meta record and for each segment; and after
any run of clients on `s`, from any store, with any interleaving, crashes and failures,
`exists`, `get` and `batched_contains` on keys other than `s` answer what they answered
before. -/
theorem logical_keys_isolated (s t : Text) (hst : t ≠ s) :
    (∀ k k', KeyOf s k → KeyOf t k' → k.user_key ≠ k'.user_key) ∧
    (∀ ns set_name i j,
      (meta_key ns set_name s).user_key ≠ (segment_key ns set_name s i).user_key ∧
      (i ≠ j → (segment_key ns set_name s i).user_key
        ≠ (segment_key ns set_name s j).user_key)) ∧
    ∀ (w : World) (c : Pool client ClientOp PyExc OpResult),
      Pool.Reachable (ExpiryOutside (KeyOfOther s)) ClientOp.prog (OnKey s) w c →
      ∀ eng : Engine,
        ((eng.exists_ t).run Op.perform c.state).1 = ((eng.exists_ t).run Op.perform w).1 ∧
        (∀ preallocated, ((eng.get t preallocated).run Op.perform c.state).1
          = ((eng.get t preallocated).run Op.perform w).1) ∧
        ∀ keys, (∀ ck ∈ keys, ck ≠ s) →
          ((eng.batched_contains keys).run Op.perform c.state).1
            = ((eng.batched_contains keys).run Op.perform w).1 := by
  refine ⟨?_, ?_, ?_⟩
  · intro k k' hk hk' h
    exact hst (user_key_unique hk hk' h).symm
  · intro ns set_name i j
    constructor
    · exact meta_user_key_ne _ _ _ _ _ _ _
    · intro hij h
      exact hij (segment_user_key_inj h).2
  · intro w c hc eng
    have hframe := ((frameProtocol (KeyOfOther s) w).reachable
      (fun op hop => onKey_safe hop w) (fun _ _ => rfl) hc).1
    refine ⟨reads_unchanged (exists_calls t hst) hframe, ?_, ?_⟩
    · intro preallocated
      exact reads_unchanged (get_calls t preallocated hst) hframe
    · intro keys hkeys
      exact reads_unchanged (batched_contains_calls keys hkeys) hframe

/-- A put of `k|m` in two segments is not seen on `k`, although the user key of the first
begins with that of the second. -/
theorem logical_keys_isolated_suffix :
    ∃ c : Pool client ClientOp PyExc OpResult,
      Pool.Reachable (ExpiryOutside (KeyOfOther "k|m".toList)) ClientOp.prog
        (OnKey "k|m".toList) World.empty c ∧
      ((((fakeEngine (.ofTarget 2) false true 8).exists_ "k|m".toList).run Op.perform
        c.state).1 = .ok true) ∧
      ((((fakeEngine (.ofTarget 2) false true 8).exists_ "k".toList).run Op.perform
        c.state).1 = .ok false) := by
  have hput : OnKey "k|m".toList (.put (fakeEngine (.ofTarget 2) false true 8) "k|m".toList
      { byte_array := [1, 2, 3] } false) := rfl
  have hstart : Pool.Reachable (ExpiryOutside (KeyOfOther "k|m".toList)) ClientOp.prog
      (OnKey "k|m".toList) World.empty
      (⟨World.empty, []⟩ : Pool client ClientOp PyExc OpResult) := Relation.ReflTransGen.refl
  have hrun := Pool.reachable_exec hstart _ hput (exec_run_perform _ _)
  have hiso := (logical_keys_isolated "k|m".toList "k".toList (by decide)).2.2 _ _ hrun
    (fakeEngine (.ofTarget 2) false true 8)
  exact ⟨_, hrun, rfl, hiso.1.trans rfl⟩
