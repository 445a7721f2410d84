/-
# Programs that write one record last

A program commits with the record `last` when it writes it after the record `other`, never
before.  In a pool of such programs whose calls all succeed, a program that is past `other` and
not yet past `last` relies on `other`, and so does everybody once `last` is there.  If `other` is
taken away only while nobody relies on it or some program is still to write it, then whenever
somebody relies on it, it is there or still to be written (`Pool.Ready.step`).
-/
import LmcacheAerospike.Records

/-! ## What a program still writes -/

/-- The call writes the record under the key. -/
def Op.Writes (o : Op) (key : Key) : Prop := ∃ wr, RecOp.write wr ∈ o.items ∧ wr.key = key

theorem Op.writes_put {wr : Write} {key : Key} : (Op.put wr).Writes key ↔ wr.key = key := by
  simp [Op.Writes, Op.items]

theorem Op.writes_batch_write {writes : List Write} {key : Key} :
    (Op.batch_write (writes.map .write)).Writes key ↔ key ∈ writes.map Write.key := by
  simp [Op.Writes, Op.items, BatchOp.toRecOp]

instance (o : Op) : Nonempty o.Res := by
  cases o with
  | time => exact ⟨(0 : ℕ)⟩
  | ref_count_down => exact ⟨()⟩
  | _ => exact ⟨.error .unexpected⟩

namespace Prog

variable {E α β : Type} {key last other : Key} {p : Prog Op Op.Res E α}

/-- For some answers the program writes the record. -/
def MayWrite (key : Key) : Prog Op Op.Res E α → Prop
  | ret _ => False
  | raise _ => False
  | call o k => o.Writes key ∨ ∃ x, (k x).MayWrite key

/-- Whatever the answers, the program writes the record. -/
def WillWrite (key : Key) : Prog Op Op.Res E α → Prop
  | ret _ => False
  | raise _ => False
  | call o k => o.Writes key ∨ ∀ x, (k x).WillWrite key

/-- From its first write of `last` on, the program does not write `other`. -/
def WritesLast (last other : Key) : Prog Op Op.Res E α → Prop
  | ret _ => True
  | raise _ => True
  | call o k =>
    (o.Writes last → ¬ o.Writes other ∧ ∀ x, ¬ (k x).MayWrite other) ∧
      ∀ x, (k x).WritesLast last other

/-- The program does not write the record. -/
abbrev Spares (key : Key) (p : Prog Op Op.Res E α) : Prop := p.AllCalls fun o => ¬ o.Writes key

theorem WillWrite.mayWrite (h : p.WillWrite key) : p.MayWrite key := by
  induction p with
  | ret a => exact h
  | raise e => exact h
  | call o k ih =>
    rcases h with ho | hk
    · exact Or.inl ho
    · obtain ⟨x⟩ : Nonempty o.Res := inferInstance
      exact Or.inr ⟨x, ih x (hk x)⟩

theorem not_mayWrite_of_spares (h : p.Spares key) : ¬ p.MayWrite key := by
  induction p with
  | ret a => exact id
  | raise e => exact id
  | call o k ih =>
    rintro (ho | ⟨x, hx⟩)
    · exact h.1 ho
    · exact ih x (h.2 x) hx

theorem mayWrite_bind {f : α → Prog Op Op.Res E β} (h : (p.bind f).MayWrite key) :
    p.MayWrite key ∨ ∃ a, (f a).MayWrite key := by
  induction p with
  | ret a => exact Or.inr ⟨a, h⟩
  | raise e => exact h.elim
  | call o k ih =>
    rcases h with ho | ⟨x, hx⟩
    · exact Or.inl (Or.inl ho)
    · exact (ih x hx).imp_left fun hkx => Or.inr ⟨x, hkx⟩

theorem mayWrite_tryCatch {handler : E → Prog Op Op.Res E α}
    (h : (p.tryCatch handler).MayWrite key) : p.MayWrite key ∨ ∃ e, (handler e).MayWrite key := by
  induction p with
  | ret a => exact h.elim
  | raise e => exact Or.inr ⟨e, h⟩
  | call o k ih =>
    rcases h with ho | ⟨x, hx⟩
    · exact Or.inl (Or.inl ho)
    · exact (ih x hx).imp_left fun hkx => Or.inr ⟨x, hkx⟩

theorem WillWrite.bind (h : p.WillWrite key) (f : α → Prog Op Op.Res E β) :
    (p.bind f).WillWrite key := by
  induction p with
  | ret a => exact h.elim
  | raise e => exact h.elim
  | call o k ih => exact h.imp_right fun hk x => ih x (hk x)

theorem WillWrite.tryCatch (h : p.WillWrite key) (handler : E → Prog Op Op.Res E α) :
    (p.tryCatch handler).WillWrite key := by
  induction p with
  | ret a => exact h.elim
  | raise e => exact h.elim
  | call o k ih => exact h.imp_right fun hk x => ih x (hk x)

/-- A program that does not write `last`. -/
theorem writesLast_of_spares_last (h : p.Spares last) : p.WritesLast last other := by
  induction p with
  | ret a => trivial
  | raise e => trivial
  | call o k ih => exact ⟨fun ho => absurd ho h.1, fun x => ih x (h.2 x)⟩

/-- A program that does not write `other`. -/
theorem writesLast_of_spares_other (h : p.Spares other) : p.WritesLast last other := by
  induction p with
  | ret a => trivial
  | raise e => trivial
  | call o k ih =>
    exact ⟨fun _ => ⟨h.1, fun x => not_mayWrite_of_spares (h.2 x)⟩, fun x => ih x (h.2 x)⟩

/-- Going on with programs that do not write `other`. -/
theorem WritesLast.bind {f : α → Prog Op Op.Res E β} (h : p.WritesLast last other)
    (hf : ∀ a, (f a).Spares other) : (p.bind f).WritesLast last other := by
  induction p with
  | ret a => exact writesLast_of_spares_other (hf a)
  | raise e => trivial
  | call o k ih =>
    refine ⟨fun ho => ⟨(h.1 ho).1, fun x hx => ?_⟩, fun x => ih x (h.2 x)⟩
    rcases mayWrite_bind hx with hkx | ⟨a, ha⟩
    · exact (h.1 ho).2 x hkx
    · exact not_mayWrite_of_spares (hf a) ha

theorem WritesLast.tryCatch {handler : E → Prog Op Op.Res E α} (h : p.WritesLast last other)
    (hh : ∀ e, (handler e).Spares other) : (p.tryCatch handler).WritesLast last other := by
  induction p with
  | ret a => trivial
  | raise e => exact writesLast_of_spares_other (hh e)
  | call o k ih =>
    refine ⟨fun ho => ⟨(h.1 ho).1, fun x hx => ?_⟩, fun x => ih x (h.2 x)⟩
    rcases mayWrite_tryCatch hx with hkx | ⟨e, he⟩
    · exact (h.1 ho).2 x hkx
    · exact not_mayWrite_of_spares (hh e) he

end Prog

/-! ## What an operation does to a record -/

/-- An operation leaves the bins of a record, removes the record, or writes it. -/
theorem perform_record (op : RecOp) (w : World) (key : Key) :
    ((op.perform w).2.records key).map Record.bins = (w.records key).map Record.bins ∨
      (op = .remove key ∧ (op.perform w).2.records key = none) ∨
      ∃ wr, op = .write wr ∧ wr.key = key ∧
        (op.perform w).2.records key = some (wr.applyTo w.now (w.records key)) := by
  cases op with
  | read key' names =>
    left
    simp only [RecOp.perform]
    split <;> rfl
  | write wr =>
    by_cases hkey : wr.key = key
    · subst hkey
      exact Or.inr (Or.inr ⟨wr, rfl, rfl, World.applyWrite_self w wr⟩)
    · left
      exact congrArg _ (World.applyWrite_of_ne w (Ne.symm hkey))
  | touch key' ttl =>
    left
    simp only [RecOp.perform]
    cases hr : w.records key' with
    | none => rfl
    | some r =>
      by_cases hkey : key = key'
      · subst hkey
        rw [World.setRecord_self, hr]
        rfl
      · rw [World.setRecord_of_ne w hkey]
  | remove key' =>
    simp only [RecOp.perform]
    cases hr : w.records key' with
    | none => exact Or.inl rfl
    | some r =>
      by_cases hkey : key = key'
      · subst hkey
        exact Or.inr (Or.inl ⟨rfl, World.setRecord_self ..⟩)
      · left
        rw [World.setRecord_of_ne w hkey]
  | clock => exact Or.inl rfl
  | ref_count_down => exact Or.inl rfl

/-- Only a removal takes a record away. -/
theorem perform_gone {op : RecOp} {w : World} {key : Key}
    (hsome : (w.records key).isSome = true) (hnone : (op.perform w).2.records key = none) :
    op = .remove key := by
  rcases perform_record op w key with hsame | ⟨hremove, -⟩ | ⟨wr, -, -, hwritten⟩
  · rw [hnone] at hsame
    rw [← Option.isSome_map (f := Record.bins), ← hsame] at hsome
    cases hsome
  · exact hremove
  · rw [hnone] at hwritten
    cases hwritten

/-! ## Threads of the faultless client -/

/-- The client whose calls all succeed, their operations interleaved with those of others. -/
abbrev faultless : Device Op Op.Res World :=
  Device.itemwise Op.items Op.respond (fun _ _ => False) fun op w r w' => (r, w') = op.perform w

/-- Operations that nobody comes between. -/
theorem doesAll_faultless (ops : List RecOp) (w : World) :
    Device.DoesAll (fun op w r w' => (r, w') = RecOp.perform op w) ops w
      (performAll ops w).1 (performAll ops w).2 := by
  induction ops generalizing w with
  | nil => exact Device.DoesAll.nil w
  | cons op ops ih => exact Device.DoesAll.cons rfl (ih _)

/-- Time passes, and no record expires. -/
def TimePasses (w w' : World) : Prop := ∃ t, w.now ≤ t ∧ w' = { w with now := t }

/-- A write of the record that the call has not performed yet. -/
def Op.Pending (o : Op) (s : List (Option RecRes)) (key : Key) : Prop :=
  ∃ (n : ℕ) (wr : Write), o.items[n]? = some (.write wr) ∧ s[n]? = some none ∧ wr.key = key

theorem Op.Pending.writes {o : Op} {s : List (Option RecRes)} {key : Key} (h : o.Pending s key) :
    o.Writes key := by
  obtain ⟨n, wr, hn, -, hkey⟩ := h
  exact ⟨wr, List.mem_of_getElem? hn, hkey⟩

/-- A call that begins has all its writes before it. -/
theorem Op.pending_start {o : Op} {key : Key} (h : o.Writes key) :
    o.Pending (o.items.map fun _ => none) key := by
  obtain ⟨wr, hmem, hkey⟩ := h
  obtain ⟨n, hn⟩ := List.mem_iff_getElem?.mp hmem
  refine ⟨n, wr, hn, ?_, hkey⟩
  rw [List.getElem?_map, hn]
  rfl

/-- A call that ends has none. -/
theorem Op.not_pending_end {o : Op} {rs : List RecRes} {key : Key} :
    ¬ o.Pending (rs.map some) key := by
  rintro ⟨n, wr, -, hnone, -⟩
  rw [List.getElem?_map] at hnone
  cases hr : rs[n]? with
  | none =>
    rw [hr] at hnone
    cases hnone
  | some r =>
    rw [hr] at hnone
    cases hnone

/-- An operation that is performed adds none. -/
theorem Op.Pending.of_set {o : Op} {s : List (Option RecRes)} {key : Key} {n : ℕ} {r : RecRes}
    (hn : s[n]? = some none) (h : o.Pending (s.set n (some r)) key) : o.Pending s key := by
  obtain ⟨m, wr, hm, hout, hkey⟩ := h
  by_cases hmn : m = n
  · subst hmn
    rw [List.getElem?_set_self', hn] at hout
    cases hout
  · rw [List.getElem?_set_ne (Ne.symm hmn)] at hout
    exact ⟨m, wr, hm, hout, hkey⟩

/-- An operation that is performed does away with its own write only. -/
theorem Op.Pending.set {o : Op} {s : List (Option RecRes)} {key : Key} (h : o.Pending s key)
    (n : ℕ) (r : RecRes) : o.Pending (s.set n (some r)) key ∨
      ∃ wr, o.items[n]? = some (.write wr) ∧ wr.key = key := by
  obtain ⟨m, wr, hm, hout, hkey⟩ := h
  by_cases hmn : m = n
  · subst hmn
    exact Or.inr ⟨wr, hm, hkey⟩
  · left
    refine ⟨m, wr, hm, ?_, hkey⟩
    rwa [List.getElem?_set_ne (Ne.symm hmn)]

namespace Thread

variable {L E α : Type}

/-- For some answers the thread still writes the record. -/
def MayWrite (key : Key) : Thread faultless L E α → Prop
  | .at _ p => p.MayWrite key
  | .busy _ o s k => o.Pending s key ∨ ∃ x, (k x).MayWrite key

/-- Whatever the answers, the thread still writes the record. -/
def WillWrite (key : Key) : Thread faultless L E α → Prop
  | .at _ p => p.WillWrite key
  | .busy _ o s k => o.Pending s key ∨ ∀ x, (k x).WillWrite key

def WritesLast (last other : Key) : Thread faultless L E α → Prop
  | .at _ p => p.WritesLast last other
  | .busy _ o _ k => (Prog.call o k).WritesLast last other

/-- What the thread's open call writes under the key meets `Good`. -/
def WritesGood (key : Key) (Good : Bins → Prop) : Thread faultless L E α → Prop
  | .at _ _ => True
  | .busy _ o _ _ => ∀ wr, RecOp.write wr ∈ o.items → wr.key = key →
      ∀ now old, Good (wr.applyTo now old).bins

/-- The thread's program has returned or raised. -/
def Ended : Thread faultless L E α → Prop
  | .at _ (.ret _) | .at _ (.raise _) => True
  | _ => False

variable {t : Thread faultless L E α} {key : Key}

theorem Ended.not_willWrite (h : t.Ended) : ¬ t.WillWrite key := by
  match t, h with
  | .at _ (.ret _), _ => exact id
  | .at _ (.raise _), _ => exact id

end Thread

/-! ## Pools -/

namespace Pool

variable {L E α : Type} {last other : Key} {Good : Bins → Prop}

/-- The record is there, and its bins are good. -/
def HasGood (w : World) (key : Key) (Good : Bins → Prop) : Prop :=
  ∃ r, w.records key = some r ∧ Good r.bins

/-- Somebody relies on `other`: `last` is there, or a thread that is past `other` may still
write it. -/
def Relies (c : Pool faultless L E α) (last other : Key) : Prop :=
  (c.state.records last).isSome = true ∨ ∃ t ∈ c.threads, t.MayWrite last ∧ ¬ t.WillWrite other

/-- A thread is still to write the record. -/
def Due (c : Pool faultless L E α) (key : Key) : Prop := ∃ t ∈ c.threads, t.WillWrite key

/-- **The invariant**: where somebody relies on `other`, it is there or still to be written. -/
def Ready (c : Pool faultless L E α) (last other : Key) (Good : Bins → Prop) : Prop :=
  c.Relies last other → HasGood c.state other Good ∨ c.Due other

/-- **The condition** on a step: it takes `other` away only while nobody relies on it, or some
thread is still to write it. -/
def Spared (c c' : Pool faultless L E α) (last other : Key) : Prop :=
  (c.state.records other).isSome = true → c'.state.records other = none →
    c.Relies last other → c.Due other

variable {σ σ' : World} {f b : List (Thread faultless L E α)} {t t' : Thread faultless L E α}

/-- One thread goes on. -/
theorem Ready.replace (h : Ready ⟨σ, f ++ t :: b⟩ last other Good)
    (hspared : Spared ⟨σ, f ++ t :: b⟩ ⟨σ', f ++ t' :: b⟩ last other)
    (hmay : t'.MayWrite last → t.MayWrite last)
    (hwill : t.WillWrite other → t'.WillWrite other ∨ HasGood σ' other Good)
    (hlast : (σ'.records last).isSome = true → (σ.records last).isSome = true ∨
      t.MayWrite last ∧ ¬ t.WillWrite other)
    (hother : HasGood σ other Good → HasGood σ' other Good ∨ σ'.records other = none) :
    Ready ⟨σ', f ++ t' :: b⟩ last other Good := by
  have hdue : Due ⟨σ, f ++ t :: b⟩ other →
      HasGood σ' other Good ∨ Due ⟨σ', f ++ t' :: b⟩ other := by
    rintro ⟨t'', hmem, hw⟩
    rw [List.mem_append, List.mem_cons] at hmem
    rcases hmem with hf | rfl | hb
    · exact Or.inr ⟨t'', List.mem_append_left _ hf, hw⟩
    · rcases hwill hw with hw' | hgood
      · exact Or.inr ⟨t', List.mem_append_right _ List.mem_cons_self, hw'⟩
      · exact Or.inl hgood
    · exact Or.inr ⟨t'', List.mem_append_right _ (List.mem_cons_of_mem _ hb), hw⟩
  have hrelied : Relies ⟨σ', f ++ t' :: b⟩ last other →
      HasGood σ' other Good ∨ Relies ⟨σ, f ++ t :: b⟩ last other := by
    have hself : t ∈ f ++ t :: b := List.mem_append_right _ List.mem_cons_self
    rintro (hsome | ⟨t'', hmem, hm, hw⟩)
    · rcases hlast hsome with hold | ht
      · exact Or.inr (Or.inl hold)
      · exact Or.inr (Or.inr ⟨t, hself, ht⟩)
    · rw [List.mem_append, List.mem_cons] at hmem
      rcases hmem with hf | rfl | hb
      · exact Or.inr (Or.inr ⟨t'', List.mem_append_left _ hf, hm, hw⟩)
      · by_cases hwt : t.WillWrite other
        · exact Or.inl ((hwill hwt).resolve_left hw)
        · exact Or.inr (Or.inr ⟨t, hself, hmay hm, hwt⟩)
      · exact Or.inr (Or.inr ⟨t'', List.mem_append_right _ (List.mem_cons_of_mem _ hb), hm, hw⟩)
  intro hrelies
  rcases hrelied hrelies with hgood | hbefore
  · exact Or.inl hgood
  · rcases h hbefore with hgood | hd
    · rcases hother hgood with hkept | hgone
      · exact Or.inl hkept
      · obtain ⟨r, hr, -⟩ := hgood
        exact hdue (hspared (Option.isSome_iff_exists.mpr ⟨r, hr⟩) hgone hbefore)
    · exact hdue hd

/-- A thread goes on and leaves the store as it is. -/
theorem Ready.replace_thread (h : Ready ⟨σ, f ++ t :: b⟩ last other Good)
    (hmay : t'.MayWrite last → t.MayWrite last)
    (hwill : t.WillWrite other → t'.WillWrite other) :
    Ready ⟨σ, f ++ t' :: b⟩ last other Good := by
  refine h.replace (fun hsome hnone => ?_) hmay (fun hw => Or.inl (hwill hw)) Or.inl Or.inl
  rw [show σ.records other = none from hnone] at hsome
  cases hsome

/-- **The step lemma for one operation of a call.** -/
theorem Ready.micro {l : L} {o : Op} {s s' : List (Option RecRes)}
    {k : o.Res → Prog Op Op.Res E α} (h : Ready ⟨σ, f ++ .busy l o s k :: b⟩ last other Good)
    (hspared : Spared ⟨σ, f ++ .busy l o s k :: b⟩ ⟨σ', f ++ .busy l o s' k :: b⟩ last other)
    (hm : faultless.micro o s σ s' σ') (hlast : (Prog.call o k).WritesLast last other)
    (hgood : ∀ wr, RecOp.write wr ∈ o.items → wr.key = other →
      ∀ now old, Good (wr.applyTo now old).bins) :
    Ready ⟨σ', f ++ .busy l o s' k :: b⟩ last other Good := by
  obtain ⟨n, i, r, hitem, hnone, rfl, hperform⟩ := hm
  have hσ' : σ' = (i.perform σ).2 := congrArg Prod.snd hperform
  -- what the operation writes is good
  have hwritten : ∀ wr, i = .write wr → wr.key = other → HasGood σ' other Good := by
    intro wr hi hkey
    subst hi
    refine ⟨wr.applyTo σ.now (σ.records wr.key), ?_,
      hgood wr (List.mem_of_getElem? hitem) hkey _ _⟩
    rw [hσ', ← hkey]
    exact World.applyWrite_self σ wr
  refine h.replace hspared ?_ ?_ ?_ ?_
  · exact Or.imp_left (Op.Pending.of_set hnone)
  · rintro (hp | hk)
    · rcases hp.set n r with hp' | ⟨wr, hwr, hkey⟩
      · exact Or.inl (Or.inl hp')
      · exact Or.inr (hwritten wr (Option.some.inj (hitem.symm.trans hwr)) hkey)
    · exact Or.inl (Or.inr hk)
  · intro hsome
    rw [hσ'] at hsome
    rcases perform_record i σ last with hsame | ⟨-, hgone⟩ | ⟨wr, rfl, hkey, -⟩
    · left
      rw [← Option.isSome_map (f := Record.bins), ← hsame, Option.isSome_map]
      exact hsome
    · rw [hgone] at hsome
      cases hsome
    · -- a write of `last`: the thread is past `other`
      have hwrites : o.Writes last := ⟨wr, List.mem_of_getElem? hitem, hkey⟩
      obtain ⟨hnow, hlater⟩ := hlast.1 hwrites
      refine Or.inr ⟨Or.inl ⟨n, wr, hitem, hnone, hkey⟩, ?_⟩
      rintro (hp | hk)
      · exact hnow hp.writes
      · obtain ⟨x⟩ : Nonempty o.Res := inferInstance
        exact hlater x (hk x).mayWrite
  · rintro ⟨r₀, hr₀, hgood₀⟩
    rw [hσ']
    rcases perform_record i σ other with hsame | ⟨-, hgone⟩ | ⟨wr, hi, hkey, -⟩
    · rw [hr₀] at hsame
      obtain ⟨r₁, hr₁, hbins⟩ := Option.map_eq_some_iff.mp hsame
      exact Or.inl ⟨r₁, hr₁, by rwa [hbins]⟩
    · exact Or.inr hgone
    · rw [← hσ']
      exact Or.inl (hwritten wr hi hkey)

/-- **The step lemma**: a step of the pool that meets the condition keeps the invariant. -/
theorem Ready.step {prog : L → Prog Op Op.Res E α} {allowed : L → Prop}
    {c c' : Pool faultless L E α} (h : c.Ready last other Good)
    (hstep : Pool.Step TimePasses prog allowed c c')
    (hcrash : c.threads.length ≤ c'.threads.length) (hspared : c.Spared c' last other)
    (hallowed : ∀ l, allowed l → (prog l).MayWrite last → (prog l).WillWrite other)
    (hlast : ∀ t ∈ c.threads, t.WritesLast last other)
    (hgood : ∀ t ∈ c.threads, t.WritesGood other Good) : c'.Ready last other Good := by
  cases hstep with
  | @spawn σ ts l hl =>
    rintro (hsome | ⟨t, hmem, hm, hw⟩)
    · exact (h (Or.inl hsome)).imp_right fun ⟨t, ht, hw⟩ => ⟨t, List.mem_cons_of_mem _ ht, hw⟩
    · rcases List.mem_cons.mp hmem with rfl | hold
      · exact absurd (hallowed l hl hm) hw
      · exact (h (Or.inr ⟨t, hold, hm, hw⟩)).imp_right fun ⟨t, ht, hw⟩ =>
          ⟨t, List.mem_cons_of_mem _ ht, hw⟩
  | @begin σ f b l o k =>
    refine h.replace_thread ?_ ?_
    · rintro (hp | hk)
      · exact Or.inl hp.writes
      · exact Or.inr hk
    · rintro (ho | hk)
      · exact Or.inl (Op.pending_start ho)
      · exact Or.inr hk
  | @micro σ σ' f b l o s s' k hm =>
    have hself : Thread.busy l o s k ∈ f ++ .busy l o s k :: b :=
      List.mem_append_right _ List.mem_cons_self
    exact h.micro hspared hm (hlast _ hself) (hgood _ hself)
  | @finish σ f b l o s k x hx =>
    obtain ⟨rs, rfl, -⟩ := hx.resolve_right id
    refine h.replace_thread (fun hk => Or.inr ⟨x, hk⟩) ?_
    rintro (hp | hk)
    · exact absurd hp Op.not_pending_end
    · exact hk x
  | @crash σ f b t =>
    rw [List.length_append, List.length_append, List.length_cons] at hcrash
    omega
  | @env σ σ' ts henv =>
    obtain ⟨now, -, rfl⟩ := henv
    exact h

/-- **A step that breaks the condition** leaves somebody who relies on `other`, which is gone and
which nobody is to write. -/
theorem lost_of_not_spared {prog : L → Prog Op Op.Res E α} {allowed : L → Prop}
    {c c' : Pool faultless L E α} (hstep : Pool.Step TimePasses prog allowed c c')
    (hne : last ≠ other) (h : ¬ c.Spared c' last other) :
    c'.Relies last other ∧ c'.state.records other = none ∧ ¬ c'.Due other := by
  obtain ⟨hsome, hnone, hrelies, hdue⟩ : (c.state.records other).isSome = true ∧
      c'.state.records other = none ∧ c.Relies last other ∧ ¬ c.Due other := by
    unfold Spared at h
    simpa only [Classical.not_imp] using h
  have hchanged : c'.state.records other ≠ c.state.records other := by
    intro hsame
    rw [← hsame, hnone] at hsome
    cases hsome
  cases hstep with
  | spawn l hl => exact absurd rfl hchanged
  | begin l o k => exact absurd rfl hchanged
  | finish l o s k x hx => exact absurd rfl hchanged
  | crash t => exact absurd rfl hchanged
  | env henv =>
    obtain ⟨now, -, rfl⟩ := henv
    exact absurd rfl hchanged
  | @micro σ σ' f b l o s s' k hm =>
    obtain ⟨n, i, r, hitem, hout, rfl, hperform⟩ := hm
    obtain rfl : σ' = (i.perform σ).2 := congrArg Prod.snd hperform
    obtain rfl := perform_gone hsome hnone
    -- the operation is a removal, so the thread has the same writes before it as ever
    have hpending : ∀ key, o.Pending s key → o.Pending (s.set n (some r)) key := by
      intro key hp
      refine (hp.set n r).resolve_right ?_
      rintro ⟨wr, hwr, -⟩
      cases hitem.symm.trans hwr
    refine ⟨?_, hnone, ?_⟩
    · rcases hrelies with hlast | ⟨t, hmem, hm, hw⟩
      · left
        rw [Option.isSome_iff_ne_none]
        intro hgone
        exact hne (RecOp.remove.inj (perform_gone hlast hgone)).symm
      · right
        rw [List.mem_append, List.mem_cons] at hmem
        rcases hmem with hf | rfl | hb
        · exact ⟨t, List.mem_append_left _ hf, hm, hw⟩
        · refine ⟨_, List.mem_append_right _ List.mem_cons_self, hm.imp_left (hpending last), ?_⟩
          exact fun hw' => hw (hw'.imp_left (Op.Pending.of_set hout))
        · exact ⟨t, List.mem_append_right _ (List.mem_cons_of_mem _ hb), hm, hw⟩
    · rintro ⟨t, hmem, hw⟩
      rw [List.mem_append, List.mem_cons] at hmem
      rcases hmem with hf | rfl | hb
      · exact hdue ⟨t, List.mem_append_left _ hf, hw⟩
      · exact hdue ⟨_, List.mem_append_right _ List.mem_cons_self,
          hw.imp_left (Op.Pending.of_set hout)⟩
      · exact hdue ⟨t, List.mem_append_right _ (List.mem_cons_of_mem _ hb), hw⟩

/-- Every thread goes on to write `last` last. -/
theorem writesLast_step {env : World → World → Prop} {prog : L → Prog Op Op.Res E α}
    {allowed : L → Prop} {c c' : Pool faultless L E α} (hstep : Pool.Step env prog allowed c c')
    (hallowed : ∀ l, allowed l → (prog l).WritesLast last other)
    (h : ∀ t ∈ c.threads, t.WritesLast last other) :
    ∀ t ∈ c'.threads, t.WritesLast last other := by
  cases hstep with
  | spawn l hl =>
    simp only [List.forall_mem_cons]
    exact ⟨hallowed l hl, h⟩
  | begin l o k =>
    simp only [List.forall_mem_append, List.forall_mem_cons] at h ⊢
    exact h
  | micro l o s s' k hm =>
    simp only [List.forall_mem_append, List.forall_mem_cons] at h ⊢
    exact h
  | finish l o s k x hx =>
    simp only [List.forall_mem_append, List.forall_mem_cons] at h ⊢
    exact ⟨h.1, h.2.1.2 x, h.2.2⟩
  | crash t =>
    simp only [List.forall_mem_append, List.forall_mem_cons] at h ⊢
    exact ⟨h.1, h.2.2⟩
  | env he => exact h

/-- **At the end**, when every thread has ended, `other` is there if `last` is. -/
theorem Ready.ended {c : Pool faultless L E α} (h : c.Ready last other Good)
    (hended : ∀ t ∈ c.threads, t.Ended) (hlast : (c.state.records last).isSome = true) :
    HasGood c.state other Good := by
  rcases h (Or.inl hlast) with hgood | ⟨t, ht, hw⟩
  · exact hgood
  · exact absurd hw (hended t ht).not_willWrite

end Pool
