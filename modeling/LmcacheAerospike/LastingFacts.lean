/-
# Facts that last

The invariant of a `Protocol` promises of an answer only what always holds.  An answer may also
tell something about the state, and what it tells may last: `Later σ σ'` says that `σ'` is what
has become of `σ` while nothing that counts was undone.  Then a call may be admitted only once
its program has learned something, such as a commit once what it commits has been written; what
held when a call began shows in its answer; and what a program has achieved still holds at the
end of the run, and wherever the run goes on from there (`LastingProtocol.steps_ok`).
-/
import LmcacheAerospike.SharedDevice

/-- Two lists that go together still do when an element of the second is replaced by a fitting
one. -/
theorem forall₂_set {α β : Type} {R : α → β → Prop} {xs : List α} {ys : List β}
    (h : List.Forall₂ R xs ys) {n : ℕ} {x : α} (hn : xs[n]? = some x) {y : β} (hr : R x y) :
    List.Forall₂ R xs (ys.set n y) := by
  induction h generalizing n with
  | nil => exact .nil
  | cons hxy hrest ih =>
    rcases n with _ | n
    · rw [List.getElem?_cons_zero, Option.some.injEq] at hn
      subst hn
      exact .cons hr hrest
    · rw [List.getElem?_cons_succ] at hn
      exact .cons hxy (ih hn)

/-- What every element of the second list goes together with. -/
theorem forall₂_mem_right {α β : Type} {R : α → β → Prop} {xs : List α} {ys : List β}
    (h : List.Forall₂ R xs ys) {y : β} (hy : y ∈ ys) : ∃ x ∈ xs, R x y := by
  induction h with
  | nil => simp at hy
  | cons hxy _ ih =>
    rcases List.mem_cons.mp hy with rfl | hy
    · exact ⟨_, List.mem_cons_self, hxy⟩
    · obtain ⟨x, hx, hr⟩ := ih hy
      exact ⟨x, List.mem_cons_of_mem _ hx, hr⟩

/-- Going together, over a list in between. -/
theorem forall₂_trans {α β γ : Type} {R : α → β → Prop} {S : β → γ → Prop} {T : α → γ → Prop}
    (hT : ∀ {x y z}, R x y → S y z → T x z) {xs : List α} {ys : List β} {zs : List γ}
    (h : List.Forall₂ R xs ys) (h' : List.Forall₂ S ys zs) : List.Forall₂ T xs zs := by
  induction h generalizing zs with
  | nil =>
    rw [List.forall₂_nil_left_iff.mp h']
    exact .nil
  | cons hxy _ ih =>
    obtain ⟨z, zs, hyz, hrest, rfl⟩ := List.forall₂_cons_left_iff.mp h'
    exact .cons (hT hxy hyz) (ih hrest)

/-- A protocol whose promises depend on the state and last. -/
structure LastingProtocol {Op : Type} {Res : Op → Type} {S : Type} (D : Device Op Res S)
    (env : S → S → Prop) where
  /-- The invariant of the shared state. -/
  Inv : S → Prop
  /-- What a state may become. -/
  Later : S → S → Prop
  /-- The calls that a program may make once the state has come so far. -/
  Good : S → Op → Prop
  /-- What holds of the open session of a good call that was begun in the first state. -/
  SessOk : S → S → ∀ o, D.Sess o → Prop
  /-- What holds once a good call that was begun in the first state has been answered. -/
  ResOk : S → S → ∀ o, Res o → Prop
  later_refl : ∀ σ, Later σ σ
  later_trans : ∀ {σ σ' σ''}, Later σ σ' → Later σ' σ'' → Later σ σ''
  good_later : ∀ {σ σ' o}, Later σ σ' → Good σ o → Good σ' o
  sess_later : ∀ {σ₀ σ σ' o s}, Later σ σ' → SessOk σ₀ σ o s → SessOk σ₀ σ' o s
  res_earlier : ∀ {σ₀ σ σ' o x}, Later σ₀ σ → ResOk σ σ' o x → ResOk σ₀ σ' o x
  env_ok : ∀ {σ σ'}, env σ σ' → Inv σ → Inv σ' ∧ Later σ σ'
  start_ok : ∀ σ o, Good σ o → SessOk σ σ o (D.start o)
  micro_ok : ∀ o s σ₀ σ s' σ', Later σ₀ σ → Good σ o → SessOk σ₀ σ o s → Inv σ →
    D.micro o s σ s' σ' → Inv σ' ∧ Later σ σ' ∧ SessOk σ₀ σ' o s'
  finish_ok : ∀ σ₀ σ o s x, Good σ o → SessOk σ₀ σ o s → D.finish o s x → ResOk σ₀ σ o x

namespace LastingProtocol

variable {Op : Type} {Res : Op → Type} {S L E α β : Type} {D : Device Op Res S}
  {env : S → S → Prop}

/-- From this state on the program makes only good calls, as long as its answers are as promised,
and from where it ends `Post` holds for good. -/
def Safe (P : LastingProtocol D env) (Post : S → Except E α → Prop) : S → Prog Op Res E α → Prop
  | σ, .ret a => ∀ σ', P.Later σ σ' → Post σ' (.ok a)
  | σ, .raise e => ∀ σ', P.Later σ σ' → Post σ' (.error e)
  | σ, .call o k => P.Good σ o ∧ ∀ σ' x, P.Later σ σ' → P.ResOk σ σ' o x → P.Safe Post σ' (k x)

/-! ## Rules -/

section Rules

variable (P : LastingProtocol D env) {Post : S → Except E α → Prop} {σ σ' : S}

/-- What is safe stays safe. -/
theorem safe_later (hlater : P.Later σ σ') (p : Prog Op Res E α) (hp : P.Safe Post σ p) :
    P.Safe Post σ' p := by
  cases p with
  | ret a => exact fun σ'' h => hp σ'' (P.later_trans hlater h)
  | raise e => exact fun σ'' h => hp σ'' (P.later_trans hlater h)
  | call o k =>
    exact ⟨P.good_later hlater hp.1, fun σ'' x h hx =>
      hp.2 σ'' x (P.later_trans hlater h) (P.res_earlier hlater hx)⟩

/-- **The sequencing rule**: `Mid` is what the first part ends in. -/
theorem safe_bind {Mid : S → Except E α → Prop} {Post : S → Except E β → Prop}
    (p : Prog Op Res E α) (f : α → Prog Op Res E β) (hp : P.Safe Mid σ p)
    (hok : ∀ σ' a, P.Later σ σ' → Mid σ' (.ok a) → P.Safe Post σ' (f a))
    (herror : ∀ σ' e, P.Later σ σ' → Mid σ' (.error e) → Post σ' (.error e)) :
    P.Safe Post σ (p.bind f) := by
  induction p generalizing σ with
  | ret a => exact hok σ a (P.later_refl σ) (hp σ (P.later_refl σ))
  | raise e => exact fun σ' h => herror σ' e h (hp σ' h)
  | call o k ih =>
    refine ⟨hp.1, fun σ₁ x h hx => ih x (hp.2 σ₁ x h hx) ?_ ?_⟩
    · exact fun σ₂ a h' => hok σ₂ a (P.later_trans h h')
    · exact fun σ₂ e h' => herror σ₂ e (P.later_trans h h')

/-- **The exception rule**: `Mid` is what the guarded program ends in. -/
theorem safe_tryCatch {Mid : S → Except E α → Prop} (p : Prog Op Res E α)
    (handler : E → Prog Op Res E α) (hp : P.Safe Mid σ p)
    (hok : ∀ σ' a, P.Later σ σ' → Mid σ' (.ok a) → Post σ' (.ok a))
    (herror : ∀ σ' e, P.Later σ σ' → Mid σ' (.error e) → P.Safe Post σ' (handler e)) :
    P.Safe Post σ (p.tryCatch handler) := by
  induction p generalizing σ with
  | ret a => exact fun σ' h => hok σ' a h (hp σ' h)
  | raise e => exact herror σ e (P.later_refl σ) (hp σ (P.later_refl σ))
  | call o k ih =>
    refine ⟨hp.1, fun σ₁ x h hx => ih x (hp.2 σ₁ x h hx) ?_ ?_⟩
    · exact fun σ₂ a h' => hok σ₂ a (P.later_trans h h')
    · exact fun σ₂ e h' => herror σ₂ e (P.later_trans h h')

/-- A program all of whose calls are good is safe for what is true from here on. -/
theorem safe_of_allCalls (hpost : ∀ σ', P.Later σ σ' → ∀ r, Post σ' r) {G : Op → Prop}
    (hgood : ∀ σ o, G o → P.Good σ o) (p : Prog Op Res E α) (hp : p.AllCalls G) :
    P.Safe Post σ p := by
  induction p generalizing σ with
  | ret a => exact fun σ' h => hpost σ' h _
  | raise e => exact fun σ' h => hpost σ' h _
  | call o k ih =>
    exact ⟨hgood σ o hp.1, fun _ x h _ =>
      ih x (fun σ'' h' => hpost σ'' (P.later_trans h h')) (hp.2 x)⟩

theorem safe_mono {Post' : S → Except E α → Prop} (h : ∀ σ r, Post σ r → Post' σ r)
    (p : Prog Op Res E α) (hp : P.Safe Post σ p) : P.Safe Post' σ p := by
  induction p generalizing σ with
  | ret a => exact fun σ' hlater => h σ' _ (hp σ' hlater)
  | raise e => exact fun σ' hlater => h σ' _ (hp σ' hlater)
  | call o k ih => exact ⟨hp.1, fun σ' x hlater hx => ih x (hp.2 σ' x hlater hx)⟩

/-- **The rule of an outcome that is looked at.** -/
theorem safe_attempt (p : Prog Op Res E α) (hp : P.Safe Post σ p) :
    P.Safe (fun σ (r : Except E (Except E α)) => ∃ x, r = .ok x ∧ Post σ x) σ p.attempt := by
  induction p generalizing σ with
  | ret a => exact fun σ' h => ⟨_, rfl, hp σ' h⟩
  | raise e => exact fun σ' h => ⟨_, rfl, hp σ' h⟩
  | call o k ih => exact ⟨hp.1, fun σ' x h hx => ih x (hp.2 σ' x h hx)⟩

/-- **The rule of two conditions.** -/
theorem safe_and {Post' : S → Except E α → Prop} (p : Prog Op Res E α) (hp : P.Safe Post σ p)
    (hp' : P.Safe Post' σ p) : P.Safe (fun σ r => Post σ r ∧ Post' σ r) σ p := by
  induction p generalizing σ with
  | ret a => exact fun σ' h => ⟨hp σ' h, hp' σ' h⟩
  | raise e => exact fun σ' h => ⟨hp σ' h, hp' σ' h⟩
  | call o k ih =>
    exact ⟨hp.1, fun σ' x h hx => ih x (hp.2 σ' x h hx) (hp'.2 σ' x h hx)⟩

/-- What a program ends in whatever the state, when its answers are as it may rely on. -/
theorem safe_of_meets {G : Op → Prop} {Ans : ∀ o, Res o → Prop} {Q : Except E α → Prop}
    (hgood : ∀ σ o, G o → P.Good σ o) (hans : ∀ {σ σ' o x}, G o → P.ResOk σ σ' o x → Ans o x)
    (p : Prog Op Res E α) (hcalls : p.AllCalls G) (hp : p.Meets Ans Q) :
    P.Safe (fun _ r => Q r) σ p := by
  induction p generalizing σ with
  | ret a => exact fun _ _ => hp
  | raise e => exact fun _ _ => hp
  | call o k ih =>
    exact ⟨hgood σ o hcalls.1, fun σ' x _ hx => ih x (hcalls.2 x) (hp x (hans hcalls.1 hx))⟩

/-- **The rule of renamed exceptions.** -/
theorem safe_mapError {E' : Type} (f : E → E') {Post : S → Except E' α → Prop}
    (p : Prog Op Res E α) (hp : P.Safe (fun σ r => Post σ (r.mapError f)) σ p) :
    P.Safe Post σ (p.mapError f) := by
  induction p generalizing σ with
  | ret a => exact hp
  | raise e => exact hp
  | call o k ih => exact ⟨hp.1, fun σ' x hlater hx => ih x (hp.2 σ' x hlater hx)⟩

/-- **The rule of a result that is passed on.** -/
theorem safe_map (g : α → β) {Post : S → Except E β → Prop} (p : Prog Op Res E α)
    (hp : P.Safe (fun σ r => Post σ (r.map g)) σ p) :
    P.Safe Post σ (p.bind fun a => .ret (g a)) := by
  induction p generalizing σ with
  | ret a => exact hp
  | raise e => exact hp
  | call o k ih => exact ⟨hp.1, fun σ' x hlater hx => ih x (hp.2 σ' x hlater hx)⟩

/-- **The rule of another protocol**, whose answers tell at least as much: what is safe stays
safe, whatever device answers. -/
theorem safe_under {D' : Device Op Res S} (P' : LastingProtocol D' env)
    (hlater : ∀ {σ σ'}, P'.Later σ σ' → P.Later σ σ') (hgood : ∀ {σ o}, P.Good σ o → P'.Good σ o)
    (hres : ∀ {σ σ' o x}, P'.ResOk σ σ' o x → P.ResOk σ σ' o x) (p : Prog Op Res E α)
    (hp : P.Safe Post σ p) : P'.Safe Post σ p := by
  induction p generalizing σ with
  | ret a => exact fun σ' h => hp σ' (hlater h)
  | raise e => exact fun σ' h => hp σ' (hlater h)
  | call o k ih =>
    exact ⟨hgood hp.1, fun σ' x h hx => ih x (hp.2 σ' x (hlater h) (hres hx))⟩

end Rules

/-! ## Itemwise devices -/

/-- **The rule for itemwise devices**: every single good item keeps the invariant, undoes
nothing, and makes its result tell the truth. -/
def itemwise {Item R : Type} {items : Op → List Item} {respond : ∀ o, List R → Res o}
    {raises : ∀ o, Res o → Prop} {Does : Item → S → R → S → Prop}
    (Inv : S → Prop) (Later : S → S → Prop) (GoodItem : S → Item → Prop)
    (ItemRes : S → S → Item → R → Prop) (later_refl : ∀ σ, Later σ σ)
    (later_trans : ∀ {σ σ' σ''}, Later σ σ' → Later σ' σ'' → Later σ σ'')
    (good_later : ∀ {σ σ' i}, Later σ σ' → GoodItem σ i → GoodItem σ' i)
    (res_later : ∀ {σ₀ σ σ' i r}, Later σ σ' → ItemRes σ₀ σ i r → ItemRes σ₀ σ' i r)
    (res_earlier : ∀ {σ₀ σ σ' i r}, Later σ₀ σ → ItemRes σ σ' i r → ItemRes σ₀ σ' i r)
    (henv : ∀ {σ σ'}, env σ σ' → Inv σ → Inv σ' ∧ Later σ σ')
    (hitem : ∀ {i σ₀ σ r σ'}, Later σ₀ σ → GoodItem σ i → Inv σ → Does i σ r σ' →
      Inv σ' ∧ Later σ σ' ∧ ItemRes σ₀ σ' i r) :
    LastingProtocol (Device.itemwise items respond raises Does) env where
  Inv := Inv
  Later := Later
  Good := fun σ o => ∀ i ∈ items o, GoodItem σ i
  SessOk := fun σ₀ σ o s =>
    List.Forall₂ (fun i r? => ∀ r, r? = some r → ItemRes σ₀ σ i r) (items o) s
  ResOk := fun σ₀ σ o x =>
    (∃ rs, List.Forall₂ (ItemRes σ₀ σ) (items o) rs ∧ x = respond o rs) ∨ raises o x
  later_refl := later_refl
  later_trans := later_trans
  good_later := fun hlater h i hi => good_later hlater (h i hi)
  sess_later := fun hlater h => h.imp fun _ _ hr r heq => res_later hlater (hr r heq)
  res_earlier := fun hlater h =>
    h.imp_left fun ⟨rs, hrs, hx⟩ => ⟨rs, hrs.imp fun _ _ hr => res_earlier hlater hr, hx⟩
  env_ok := henv
  start_ok := fun σ o _ => by
    show List.Forall₂ _ (items o) ((items o).map fun _ => none)
    rw [List.forall₂_map_right_iff]
    exact List.forall₂_same.mpr fun i _ r hr => by simp at hr
  micro_ok := fun o s σ₀ σ s' σ' hbegun hgood hs hi hm => by
    obtain ⟨n, i, r, hn, -, rfl, hd⟩ := hm
    obtain ⟨hi', hlater, hr⟩ := hitem hbegun (hgood i (List.mem_of_getElem? hn)) hi hd
    refine ⟨hi', hlater, ?_⟩
    have hs' : List.Forall₂ (fun i r? => ∀ r, r? = some r → ItemRes σ₀ σ' i r) (items o) s :=
      hs.imp fun _ _ hr r heq => res_later hlater (hr r heq)
    apply forall₂_set hs' hn
    intro r' hr'
    cases hr'
    exact hr
  finish_ok := fun σ₀ σ o s x _ hs hx => by
    rcases hx with ⟨rs, rfl, rfl⟩ | hr
    · refine Or.inl ⟨rs, ?_, rfl⟩
      have hs' : List.Forall₂ (fun i r? => ∀ r, r? = some r → ItemRes σ₀ σ i r) (items o)
        (rs.map some) := hs
      rw [List.forall₂_map_right_iff] at hs'
      exact hs'.imp fun i r h => h r rfl
    · exact Or.inr hr

/-! ## Any number of programs interleaved -/

/-- The label that a thread was started with. -/
def threadLabel : Thread D L E α → L
  | .at l _ | .busy l _ _ _ => l

/-- A thread whose remaining program is safe, its open session included. -/
def ThreadOk (P : LastingProtocol D env) (Post : L → S → Except E α → Prop) (σ : S) :
    Thread D L E α → Prop
  | .at l p => P.Safe (Post l) σ p
  | .busy l o s k => ∃ σ₀, P.Later σ₀ σ ∧ P.Good σ o ∧ P.SessOk σ₀ σ o s ∧
      ∀ σ' x, P.Later σ σ' → P.ResOk σ₀ σ' o x → P.Safe (Post l) σ' (k x)

theorem threadOk_later (P : LastingProtocol D env) {Post : L → S → Except E α → Prop} {σ σ' : S}
    (hlater : P.Later σ σ') {t : Thread D L E α} (h : P.ThreadOk Post σ t) :
    P.ThreadOk Post σ' t := by
  cases t with
  | «at» l p => exact P.safe_later hlater p h
  | busy l o s k =>
    obtain ⟨σ₀, hbegun, hgood, hs, hk⟩ := h
    exact ⟨σ₀, P.later_trans hbegun hlater, P.good_later hlater hgood, P.sess_later hlater hs,
      fun σ'' x h' => hk σ'' x (P.later_trans hlater h')⟩

/-- A thread that ends as one condition says ends as a weaker one says. -/
theorem threadOk_mono (P : LastingProtocol D env) {Post Post' : L → S → Except E α → Prop} {σ : S}
    {t : Thread D L E α} (hpost : ∀ σ r, Post (threadLabel t) σ r → Post' (threadLabel t) σ r)
    (h : P.ThreadOk Post σ t) : P.ThreadOk Post' σ t := by
  cases t with
  | «at» l p => exact P.safe_mono hpost p h
  | busy l o s k =>
    obtain ⟨σ₀, hbegun, hgood, hs, hk⟩ := h
    exact ⟨σ₀, hbegun, hgood, hs, fun σ' x h' hx => P.safe_mono hpost _ (hk σ' x h' hx)⟩

/-- **The step lemma**: one step of the pool keeps the invariant, undoes nothing, and keeps the
safety of every thread. -/
theorem step_ok (P : LastingProtocol D env) {Post : L → S → Except E α → Prop}
    {prog : L → Prog Op Res E α} {allowed : L → Prop} {c c' : Pool D L E α}
    (hsafe : ∀ l, allowed l → P.Safe (Post l) c.state (prog l))
    (h : Pool.Step env prog allowed c c') (hi : P.Inv c.state)
    (ht : ∀ t ∈ c.threads, P.ThreadOk Post c.state t) :
    P.Inv c'.state ∧ P.Later c.state c'.state ∧ ∀ t ∈ c'.threads, P.ThreadOk Post c'.state t := by
  cases h with
  | spawn l hl =>
    refine ⟨hi, P.later_refl _, ?_⟩
    simp only [List.forall_mem_cons]
    exact ⟨hsafe l hl, ht⟩
  | begin l o k =>
    simp only [List.forall_mem_append, List.forall_mem_cons] at ht ⊢
    obtain ⟨h₁, ⟨hgood, hk⟩, h₂⟩ := ht
    exact ⟨hi, P.later_refl _, h₁, ⟨_, P.later_refl _, hgood, P.start_ok _ o hgood, hk⟩, h₂⟩
  | micro l o s s' k hm =>
    simp only [List.forall_mem_append, List.forall_mem_cons] at ht ⊢
    obtain ⟨h₁, ⟨σ₀, hbegun, hgood, hs, hk⟩, h₂⟩ := ht
    obtain ⟨hi', hlater, hs'⟩ := P.micro_ok o s σ₀ _ s' _ hbegun hgood hs hi hm
    exact ⟨hi', hlater, fun t hmem => P.threadOk_later hlater (h₁ t hmem),
      ⟨σ₀, P.later_trans hbegun hlater, P.good_later hlater hgood, hs',
        fun σ'' x h' => hk σ'' x (P.later_trans hlater h')⟩,
      fun t hmem => P.threadOk_later hlater (h₂ t hmem)⟩
  | finish l o s k x hx =>
    simp only [List.forall_mem_append, List.forall_mem_cons] at ht ⊢
    obtain ⟨h₁, ⟨σ₀, -, hgood, hs, hk⟩, h₂⟩ := ht
    exact ⟨hi, P.later_refl _, h₁,
      hk _ x (P.later_refl _) (P.finish_ok σ₀ _ o s x hgood hs hx), h₂⟩
  | crash t =>
    simp only [List.forall_mem_append, List.forall_mem_cons] at ht ⊢
    exact ⟨hi, P.later_refl _, ht.1, ht.2.2⟩
  | env he =>
    obtain ⟨hi', hlater⟩ := P.env_ok he hi
    exact ⟨hi', hlater, fun t hmem => P.threadOk_later hlater (ht t hmem)⟩

/-- **The run lemma**: from a pool in which the invariant holds and every thread is safe, every
run leads to such a pool, and nothing is undone.  The programs that are begun on the way need to
be safe only from the states that there are. -/
theorem steps_ok (P : LastingProtocol D env) {Post : L → S → Except E α → Prop}
    {prog : L → Prog Op Res E α} {allowed : L → Prop} {c c' : Pool D L E α}
    (hsafe : ∀ l σ, P.Later c.state σ → allowed l → P.Safe (Post l) σ (prog l))
    (h : Relation.ReflTransGen (Pool.Step env prog allowed) c c') (hi : P.Inv c.state)
    (ht : ∀ t ∈ c.threads, P.ThreadOk Post c.state t) :
    P.Inv c'.state ∧ P.Later c.state c'.state ∧ ∀ t ∈ c'.threads, P.ThreadOk Post c'.state t := by
  induction h with
  | refl => exact ⟨hi, P.later_refl _, ht⟩
  | tail _ hstep ih =>
    obtain ⟨hi', hlater, ht'⟩ := ih
    obtain ⟨hi'', hlater', ht''⟩ :=
      P.step_ok (fun l hl => hsafe l _ hlater hl) hstep hi' ht'
    exact ⟨hi'', P.later_trans hlater hlater', ht''⟩

/-- **What is begun later**: from a pool in which the invariant holds and every thread is safe,
the programs that are begun on the way and have ended have done what they are safe for. -/
theorem begun_later (P : LastingProtocol D env) {Post : L → S → Except E α → Prop}
    {Done : L → Except E α → Prop} {prog : L → Prog Op Res E α} {allowed : L → Prop}
    {c c' : Pool D L E α}
    (hsafe : ∀ l σ, P.Later c.state σ → allowed l → P.Safe (fun _ r => Done l r) σ (prog l))
    (h : Relation.ReflTransGen (Pool.Step env prog allowed) c c') (hi : P.Inv c.state)
    (ht : ∀ t ∈ c.threads, P.ThreadOk Post c.state t) {l : L} {r : Except E α}
    (hended : Thread.at l (Prog.ofExcept r) ∈ c'.threads)
    (hbegun : ∀ t ∈ c.threads, threadLabel t ≠ l) : Done l r := by
  have hnew : ∀ l σ, P.Later c.state σ → allowed l →
      P.Safe (fun _ r => (∀ t ∈ c.threads, threadLabel t ≠ l) → Done l r) σ (prog l) :=
    fun l σ hlater hl => P.safe_mono (fun _ _ hr _ => hr) _ (hsafe l σ hlater hl)
  -- the threads of `c` need not have done anything
  obtain ⟨-, -, ht'⟩ := P.steps_ok hnew h hi fun t hmem =>
    P.threadOk_mono (fun _ _ _ hnot => absurd rfl (hnot t hmem)) (ht t hmem)
  have hfinal := ht' _ hended
  rcases r with e | a
  · exact hfinal c'.state (P.later_refl _) hbegun
  · exact hfinal c'.state (P.later_refl _) hbegun

/-- In every reachable pool the invariant holds and every thread is safe for the state that
there is. -/
theorem reachable (P : LastingProtocol D env) {Post : L → S → Except E α → Prop}
    {prog : L → Prog Op Res E α} {allowed : L → Prop}
    (hsafe : ∀ l σ, allowed l → P.Safe (Post l) σ (prog l)) {σ₀ : S} (h₀ : P.Inv σ₀)
    {c : Pool D L E α} (hc : Pool.Reachable env prog allowed σ₀ c) :
    P.Inv c.state ∧ ∀ t ∈ c.threads, P.ThreadOk Post c.state t := by
  obtain ⟨hi, -, ht⟩ := P.steps_ok (fun l σ _ hl => hsafe l σ hl) hc h₀ (by simp)
  exact ⟨hi, ht⟩

end LastingProtocol
