/-
# The shared client and its users

`AerospikeClientHolder` of `client.py`: a registry of connected clients, one for each
`(hosts, namespace, tls_name)`, with a count of references; and the three classes that hold
such references, from their construction to their `close()`.

The count is the number of constructed and not yet closed instances (`client_outlives_users`)
in every run without the two steps that lose track of it: a construction that fails after it
has taken its reference, and a second `close()` of an L2 plugin, whose `close` alone has no
`_closed` flag (`client_holder_miscounts`).
-/
import Mathlib.Logic.Function.Basic
import Mathlib.Data.Int.Notation
import LmcacheAerospike.Config
import LmcacheAerospike.LabelledRun

/-! ## The registry -/

/-- `(cfg.hosts, cfg.namespace, cfg.tls_name)`. -/
abbrev HolderKey : Type := List (Text × ℤ) × Text × Text

/-- The registry key of a configuration. -/
def AerospikeConfig.holderKey (cfg : AerospikeConfig) : HolderKey :=
  (cfg.hosts, cfg.ns, cfg.tls_name)

/-- A holder: its key, its count, and whether its client is connected. -/
structure Holder : Type where
  key : HolderKey
  refcount : ℤ
  connected : Bool
  deriving DecidableEq, Repr

/-- All holders made so far, by their identity, and the class registry. -/
structure Holders : Type where
  heap : List Holder
  registry : HolderKey → Option ℕ

namespace Holders

/-- `get_or_create`, for a client whose `connect()` returns or raises.  `none` is the
exception of `connect()`, which leaves everything as it was. -/
def get_or_create (s : Holders) (key : HolderKey) (connects : Bool) : Option (ℕ × Holders) :=
  match s.registry key with
  | some h =>
    match s.heap[h]? with
    | some holder => some (h, { s with
        heap := s.heap.set h { holder with refcount := holder.refcount + 1 } })
    | none => none
  | none =>
    if connects then
      some (s.heap.length, ⟨s.heap ++ [⟨key, 1, true⟩],
        Function.update s.registry key (some s.heap.length)⟩)
    else none

/-- `release`; an exception of `close()` is only logged. -/
def release (s : Holders) (h : ℕ) : Holders :=
  match s.heap[h]? with
  | none => s
  | some holder =>
    if holder.refcount ≤ 0 then s
    else if holder.refcount - 1 > 0 then
      { s with heap := s.heap.set h { holder with refcount := holder.refcount - 1 } }
    else
      ⟨s.heap.set h { holder with refcount := holder.refcount - 1, connected := false },
        Function.update s.registry holder.key none⟩

end Holders

/-! ## The users -/

/-- The classes that hold a reference. -/
inductive OwnerKind : Type where
  | remote_connector | storage_plugin | l2_plugin
  deriving DecidableEq, Repr

/-- A constructed instance.  `closed` is the flag `_closed`; an L2 plugin has no such flag,
and there it records that `close()` has been called. -/
structure Owner : Type where
  kind : OwnerKind
  holder : ℕ
  closed : Bool
  deriving DecidableEq, Repr

structure Owners : Type where
  holders : Holders
  owners : List Owner

/-- What users do.  A construction may raise in `connect()`, and after `get_or_create` in the
discovery of the limits or the check of the TTL. -/
inductive OwnerAction : Type where
  | construct (kind : OwnerKind) (key : HolderKey) (connects resolves : Bool)
  | close (i : ℕ)

namespace Owners

/-- No client yet. -/
def empty : Owners := ⟨⟨[], fun _ => none⟩, []⟩

/-- `create_connector`, or the `__init__` of a plugin. -/
def construct (s : Owners) (kind : OwnerKind) (key : HolderKey) (connects resolves : Bool) :
    Owners :=
  match s.holders.get_or_create key connects with
  | none => s
  | some (h, holders) =>
    if resolves then ⟨holders, s.owners ++ [⟨kind, h, false⟩]⟩
    else
      -- the exception leaves with the reference still counted
      ⟨holders, s.owners⟩

/-- `close()`. -/
def close (s : Owners) (i : ℕ) : Owners :=
  match s.owners[i]? with
  | none => s
  | some o =>
    if o.kind ≠ .l2_plugin ∧ o.closed then s
    else ⟨s.holders.release o.holder, s.owners.set i { o with closed := true }⟩

def step (s : Owners) : OwnerAction → Owners
  | .construct kind key connects resolves => s.construct kind key connects resolves
  | .close i => s.close i

/-- The constructed and not yet closed instances that use the holder. -/
def usersIn (owners : List Owner) (h : ℕ) : ℕ :=
  owners.countP fun o => decide (o.holder = h ∧ o.closed = false)

/-! ## The account -/

/-- **The account**: each holder counts its users, its client is connected as long as there
are any, and the users of one key share the holder that is registered for it. -/
structure Accounted (s : Owners) : Prop where
  held : ∀ o ∈ s.owners, ∃ holder, s.holders.heap[o.holder]? = some holder
  refcount : ∀ h holder, s.holders.heap[h]? = some holder →
    holder.refcount = (usersIn s.owners h : ℤ)
  connected : ∀ h holder, s.holders.heap[h]? = some holder →
    (holder.connected = true ↔ 0 < usersIn s.owners h)
  registered : ∀ key h, s.holders.registry key = some h ↔
    ∃ holder, s.holders.heap[h]? = some holder ∧ holder.key = key ∧ 0 < usersIn s.owners h

/-- **The condition**: a construction that takes a reference completes, and an L2 plugin is
closed again only when nobody uses its client. -/
def Balanced (s : Owners) : OwnerAction → Prop
  | .construct _ key connects resolves =>
    (s.holders.get_or_create key connects).isSome = true → resolves = true
  | .close i => ∀ o, s.owners[i]? = some o → o.kind = .l2_plugin → o.closed = true →
      usersIn s.owners o.holder = 0

theorem accounted_empty : empty.Accounted where
  held := fun o h => by cases h
  refcount := fun h holder hh => by cases hh
  connected := fun h holder hh => by cases hh
  registered := fun key h => by
    constructor
    · intro hh
      cases hh
    · rintro ⟨holder, hh, -⟩
      cases hh

/-! ### Constructions -/

theorem usersIn_append (owners : List Owner) (kind : OwnerKind) (h h' : ℕ) :
    usersIn (owners ++ [⟨kind, h, false⟩]) h'
      = usersIn owners h' + if h = h' then 1 else 0 := by
  rw [usersIn, List.countP_append, List.countP_singleton]
  by_cases heq : h = h'
  · rw [if_pos heq, if_pos (by simpa using heq)]
    rfl
  · rw [if_neg heq, if_neg (by simpa using heq)]
    rfl

/-- A holder that is not there has no users. -/
theorem Accounted.usersIn_eq_zero {s : Owners} (hs : s.Accounted) {h : ℕ}
    (hh : s.holders.heap[h]? = none) : usersIn s.owners h = 0 := by
  rw [usersIn, List.countP_eq_zero]
  intro o ho hdec
  obtain ⟨heq, -⟩ := of_decide_eq_true hdec
  obtain ⟨holder, hholder⟩ := hs.held o ho
  rw [heq, hh] at hholder
  cases hholder

/-- Any change at one holder that keeps the account there keeps all of it. -/
theorem Accounted.replace {s : Owners} (hs : s.Accounted) {h : ℕ} {holder : Holder}
    (new : Holder) (hh : s.holders.heap[h]? = some holder) (hkey : new.key = holder.key)
    {owners : List Owner} {registry : HolderKey → Option ℕ}
    (hheld : ∀ o ∈ owners, o.holder = h ∨ ∃ o' ∈ s.owners, o'.holder = o.holder)
    (husers : ∀ h', h' ≠ h → usersIn owners h' = usersIn s.owners h')
    (hcount : new.refcount = (usersIn owners h : ℤ))
    (hconn : new.connected = true ↔ 0 < usersIn owners h)
    (hreg : ∀ key h', registry key = some h' ↔
      (h' ≠ h ∧ s.holders.registry key = some h') ∨
        (h' = h ∧ key = holder.key ∧ 0 < usersIn owners h)) :
    Accounted ⟨⟨s.holders.heap.set h new, registry⟩, owners⟩ := by
  have hself : (s.holders.heap.set h new)[h]? = some new := getElem?_set_at hh
  have hother : ∀ h', h' ≠ h → (s.holders.heap.set h new)[h']? = s.holders.heap[h']? :=
    fun h' hne => List.getElem?_set_ne (Ne.symm hne)
  constructor
  · intro o ho
    show ∃ holder', (s.holders.heap.set h new)[o.holder]? = some holder'
    by_cases heq : o.holder = h
    · rw [heq]
      exact ⟨new, hself⟩
    · rw [hother _ heq]
      rcases hheld o ho with hoh | ⟨o', ho', hoo⟩
      · exact absurd hoh heq
      · rw [← hoo]
        exact hs.held o' ho'
  · intro h' holder' hh'
    rcases (getElem?_set_iff hh).mp hh' with ⟨rfl, rfl⟩ | ⟨hne, hold⟩
    · exact hcount
    · show holder'.refcount = (usersIn owners h' : ℤ)
      rw [husers h' hne]
      exact hs.refcount h' holder' hold
  · intro h' holder' hh'
    rcases (getElem?_set_iff hh).mp hh' with ⟨rfl, rfl⟩ | ⟨hne, hold⟩
    · exact hconn
    · show holder'.connected = true ↔ 0 < usersIn owners h'
      rw [husers h' hne]
      exact hs.connected h' holder' hold
  · intro key h'
    refine (hreg key h').trans ?_
    by_cases heq : h' = h
    · subst heq
      constructor
      · rintro (⟨hne, -⟩ | ⟨-, hk, hpos⟩)
        · exact absurd rfl hne
        · exact ⟨new, hself, hkey.trans hk.symm, hpos⟩
      · rintro ⟨holder', hh', hk, hpos⟩
        cases hself.symm.trans hh'
        exact Or.inr ⟨rfl, hk.symm.trans hkey, hpos⟩
    · show _ ↔ ∃ holder', (s.holders.heap.set h new)[h']? = some holder' ∧
        holder'.key = key ∧ 0 < usersIn owners h'
      rw [husers h' heq, hs.registered key h', hother h' heq]
      constructor
      · rintro (⟨-, hold⟩ | ⟨hne, -⟩)
        · exact hold
        · exact absurd hne heq
      · intro hold
        exact Or.inl ⟨heq, hold⟩

/-- A holder with users is the one registered for its key, and for no other. -/
theorem Accounted.registered_iff {s : Owners} (hs : s.Accounted) {h : ℕ} {holder : Holder}
    (hh : s.holders.heap[h]? = some holder) (hpos : 0 < usersIn s.owners h) (key : HolderKey) :
    s.holders.registry key = some h ↔ key = holder.key := by
  rw [hs.registered key h]
  constructor
  · rintro ⟨old, hold, hk, -⟩
    cases hh.symm.trans hold
    exact hk.symm
  · intro hk
    exact ⟨holder, hh, hk.symm, hpos⟩

/-- The registry stays as it is while the holder has users. -/
theorem Accounted.registered_same {s : Owners} (hs : s.Accounted) {h : ℕ} {holder : Holder}
    (hh : s.holders.heap[h]? = some holder) (hpos : 0 < usersIn s.owners h) {n : ℕ} (hn : 0 < n)
    (key : HolderKey) (h' : ℕ) : s.holders.registry key = some h' ↔
      (h' ≠ h ∧ s.holders.registry key = some h') ∨ (h' = h ∧ key = holder.key ∧ 0 < n) := by
  by_cases heq : h' = h
  · subst heq
    rw [hs.registered_iff hh hpos]
    constructor
    · intro hk
      exact Or.inr ⟨rfl, hk, hn⟩
    · rintro (⟨hne, -⟩ | ⟨-, hk, -⟩)
      · exact absurd rfl hne
      · exact hk
  · constructor
    · intro hreg
      exact Or.inl ⟨heq, hreg⟩
    · rintro (⟨-, hreg⟩ | ⟨hne, -⟩)
      · exact hreg
      · exact absurd hne heq

/-- One more user of a registered holder. -/
theorem Accounted.acquire {s : Owners} (hs : s.Accounted) (kind : OwnerKind) {h : ℕ}
    {holder : Holder} (hh : s.holders.heap[h]? = some holder) (hpos : 0 < usersIn s.owners h) :
    Accounted ⟨{ s.holders with
        heap := s.holders.heap.set h { holder with refcount := holder.refcount + 1 } },
      s.owners ++ [⟨kind, h, false⟩]⟩ := by
  have huser : usersIn (s.owners ++ [⟨kind, h, false⟩]) h = usersIn s.owners h + 1 := by
    rw [usersIn_append, if_pos rfl]
  refine hs.replace { holder with refcount := holder.refcount + 1 } hh rfl ?_ ?_ ?_ ?_ ?_
  · intro o ho
    rcases List.mem_append.mp ho with hold | hnew
    · exact Or.inr ⟨o, hold, rfl⟩
    · rw [List.mem_singleton.mp hnew]
      exact Or.inl rfl
  · intro h' hne
    rw [usersIn_append, if_neg (Ne.symm hne), Nat.add_zero]
  · have hcount := hs.refcount h holder hh
    rw [huser]
    show holder.refcount + 1 = _
    omega
  · rw [huser]
    exact iff_of_true ((hs.connected h holder hh).mpr hpos) (Nat.succ_pos _)
  · rw [huser]
    exact hs.registered_same hh hpos (Nat.succ_pos _)

/-- The first user of a new holder. -/
theorem Accounted.create {s : Owners} (hs : s.Accounted) (kind : OwnerKind) {key : HolderKey}
    (hkey : s.holders.registry key = none) :
    Accounted ⟨⟨s.holders.heap ++ [⟨key, 1, true⟩],
        Function.update s.holders.registry key (some s.holders.heap.length)⟩,
      s.owners ++ [⟨kind, s.holders.heap.length, false⟩]⟩ := by
  have hzero : usersIn s.owners s.holders.heap.length = 0 :=
    hs.usersIn_eq_zero (List.getElem?_eq_none (Nat.le_refl _))
  constructor
  · intro o ho
    rcases List.mem_append.mp ho with hold | hnew
    · obtain ⟨holder, hholder⟩ := hs.held o hold
      have hlt := (List.getElem?_eq_some_iff.mp hholder).1
      exact ⟨holder, getElem?_concat_iff.mpr (Or.inr ⟨by omega, hholder⟩)⟩
    · rw [List.mem_singleton.mp hnew]
      exact ⟨_, List.getElem?_concat_length⟩
  · intro h holder hh
    show holder.refcount = (usersIn (s.owners ++ [_]) h : ℤ)
    rw [usersIn_append]
    rcases getElem?_concat_iff.mp hh with ⟨rfl, rfl⟩ | ⟨hne, hold⟩
    · rw [if_pos rfl, hzero]
      rfl
    · rw [if_neg hne.symm]
      exact hs.refcount h holder hold
  · intro h holder hh
    show holder.connected = true ↔ 0 < usersIn (s.owners ++ [_]) h
    rw [usersIn_append]
    rcases getElem?_concat_iff.mp hh with ⟨rfl, rfl⟩ | ⟨hne, hold⟩
    · rw [if_pos rfl]
      exact iff_of_true rfl (by omega)
    · rw [if_neg hne.symm]
      exact hs.connected h holder hold
  · intro key' h
    show _ ↔ ∃ holder, (s.holders.heap ++ [_])[h]? = some holder ∧ holder.key = key' ∧
      0 < usersIn (s.owners ++ [_]) h
    rw [usersIn_append]
    by_cases hkk : key' = key
    · subst hkk
      show Function.update s.holders.registry key' _ key' = some h ↔ _
      rw [Function.update_self]
      constructor
      · intro heq
        cases heq
        exact ⟨_, List.getElem?_concat_length, rfl, by rw [if_pos rfl]; omega⟩
      · rintro ⟨holder, hh, hkey', hpos⟩
        rcases getElem?_concat_iff.mp hh with ⟨rfl, rfl⟩ | ⟨hne, hold⟩
        · rfl
        · -- a used holder of this key would be registered
          rw [if_neg hne.symm] at hpos
          have hreg := (hs.registered key' h).mpr ⟨holder, hold, hkey', hpos⟩
          rw [hkey] at hreg
          cases hreg
    · show Function.update s.holders.registry key _ key' = some h ↔ _
      rw [Function.update_of_ne hkk, hs.registered key' h]
      constructor
      · rintro ⟨holder, hold, hkey', hpos⟩
        have hlt := (List.getElem?_eq_some_iff.mp hold).1
        exact ⟨holder, getElem?_concat_iff.mpr (Or.inr ⟨by omega, hold⟩), hkey', by omega⟩
      · rintro ⟨holder, hh, hkey', hpos⟩
        rcases getElem?_concat_iff.mp hh with ⟨rfl, rfl⟩ | ⟨hne, hold⟩
        · exact absurd hkey'.symm hkk
        · rw [if_neg hne.symm] at hpos
          exact ⟨holder, hold, hkey', hpos⟩

theorem Accounted.construct {s : Owners} (hs : s.Accounted) (kind : OwnerKind)
    (key : HolderKey) (connects : Bool) : (s.construct kind key connects true).Accounted := by
  unfold Owners.construct Holders.get_or_create
  cases hreg : s.holders.registry key with
  | some h =>
    obtain ⟨holder, hh, -, hpos⟩ := (hs.registered key h).mp hreg
    simp only [hh]
    exact hs.acquire kind hh hpos
  | none =>
    by_cases hc : connects = true
    · rw [if_pos hc]
      exact hs.create kind hreg
    · rw [if_neg hc]
      exact hs

/-! ### Closing -/

/-- The users after an instance has been marked as closed. -/
theorem usersIn_close {owners : List Owner} {i : ℕ} {o : Owner} (hi : owners[i]? = some o)
    (h : ℕ) :
    usersIn (owners.set i { o with closed := true }) h
      = usersIn owners h - if o.holder = h ∧ o.closed = false then 1 else 0 := by
  obtain ⟨hlt, rfl⟩ := List.getElem?_eq_some_iff.mp hi
  rw [usersIn, List.countP_set hlt]
  simp [usersIn]

/-- The first `close()` of an instance gives its reference back. -/
theorem Accounted.close_open {s : Owners} (hs : s.Accounted) {i : ℕ} {o : Owner}
    (hi : s.owners[i]? = some o) (hopen : o.closed = false) :
    Accounted ⟨s.holders.release o.holder, s.owners.set i { o with closed := true }⟩ := by
  have hmem : o ∈ s.owners := List.mem_of_getElem? hi
  obtain ⟨holder, hh⟩ := hs.held o hmem
  have hpos : 0 < usersIn s.owners o.holder :=
    List.countP_pos_iff.mpr ⟨o, hmem, decide_eq_true ⟨rfl, hopen⟩⟩
  have hcount := hs.refcount o.holder holder hh
  have huser : usersIn (s.owners.set i { o with closed := true }) o.holder
      = usersIn s.owners o.holder - 1 := by
    rw [usersIn_close hi, if_pos ⟨rfl, hopen⟩]
  have hheld : ∀ o' ∈ s.owners.set i { o with closed := true },
      o'.holder = o.holder ∨ ∃ o₁ ∈ s.owners, o₁.holder = o'.holder := by
    intro o' ho'
    rcases List.mem_or_eq_of_mem_set ho' with hold | rfl
    · exact Or.inr ⟨o', hold, rfl⟩
    · exact Or.inl rfl
  have hothers : ∀ h', h' ≠ o.holder →
      usersIn (s.owners.set i { o with closed := true }) h' = usersIn s.owners h' := by
    intro h' hne
    rw [usersIn_close hi, if_neg (fun h => hne h.1.symm), Nat.sub_zero]
  have hregistered := hs.registered_iff hh hpos
  unfold Holders.release
  rw [hh]
  dsimp only
  rw [if_neg (by omega)]
  by_cases hlast : usersIn s.owners o.holder = 1
  · -- the last user: the client is closed and forgotten
    rw [if_neg (by omega)]
    refine hs.replace { holder with refcount := holder.refcount - 1, connected := false }
      hh rfl hheld hothers ?_ ?_ ?_
    · rw [huser, hlast]
      show holder.refcount - 1 = _
      omega
    · rw [huser, hlast]
      exact iff_of_false (by simp) (by omega)
    · intro key h'
      rw [huser, hlast]
      by_cases hk : key = holder.key
      · subst hk
        rw [Function.update_self, (hregistered holder.key).mpr rfl]
        constructor
        · intro hnone
          cases hnone
        · rintro (⟨hne, hsome⟩ | ⟨-, -, hlt⟩)
          · exact absurd (Option.some.inj hsome).symm hne
          · omega
      · rw [Function.update_of_ne hk]
        constructor
        · intro hreg
          refine Or.inl ⟨?_, hreg⟩
          rintro rfl
          exact hk ((hregistered key).mp hreg)
        · rintro (⟨-, hreg⟩ | ⟨-, hk', -⟩)
          · exact hreg
          · exact absurd hk' hk
  · -- others still use it
    rw [if_pos (by omega)]
    refine hs.replace { holder with refcount := holder.refcount - 1 }
      hh rfl hheld hothers ?_ ?_ ?_
    · rw [huser]
      show holder.refcount - 1 = _
      omega
    · rw [huser]
      exact iff_of_true ((hs.connected o.holder holder hh).mpr hpos) (by omega)
    · rw [huser]
      exact hs.registered_same hh hpos (by omega)

/-- A holder without users is not released any further. -/
theorem Accounted.release_unused {s : Owners} (hs : s.Accounted) {h : ℕ}
    (hzero : usersIn s.owners h = 0) :
    s.holders.release h = s.holders := by
  unfold Holders.release
  cases hh : s.holders.heap[h]? with
  | none => rfl
  | some holder =>
    have hcount := hs.refcount h holder hh
    dsimp only
    rw [if_pos (by omega)]

/-- **The step lemma.** -/
theorem accounted_step {s : Owners} {a : OwnerAction} (hs : s.Accounted) (ha : s.Balanced a) :
    (s.step a).Accounted := by
  cases a with
  | construct kind key connects resolves =>
    cases resolves with
    | true => exact hs.construct kind key connects
    | false =>
      show (s.construct kind key connects false).Accounted
      unfold Owners.construct
      cases hget : s.holders.get_or_create key connects with
      | none => exact hs
      | some found => cases ha (by rw [hget]; rfl)
  | close i =>
    show (s.close i).Accounted
    unfold Owners.close
    cases hi : s.owners[i]? with
    | none => exact hs
    | some o =>
      dsimp only
      cases hclosed : o.closed with
      | false =>
        rw [if_neg (by simp)]
        exact hs.close_open hi hclosed
      | true =>
        by_cases hkind : o.kind = .l2_plugin
        · -- `_holder.release()` once more, with nobody left to lose
          rw [if_neg (by simp [hkind]), hs.release_unused (ha o hi hkind hclosed)]
          rw [show s.owners.set i { o with closed := true } = s.owners by
            obtain ⟨hlt, rfl⟩ := List.getElem?_eq_some_iff.mp hi
            rw [← hclosed]
            exact List.set_getElem_self hlt]
          exact hs
        · rw [if_pos ⟨hkind, rfl⟩]
          exact hs

end Owners

/-- The users' steps. -/
abbrev ownerStep : Owners → OwnerAction → Owners → Prop := takes fun s a => some (s.step a)

/-- **The shared client lives exactly as long as its users**, in every run in which the
constructions that take a reference complete and no L2 plugin is closed again under other
users of its client: each holder counts the constructed and not yet closed instances that use
it, its client is connected as long as there is one and closed otherwise, and an instance that
is not closed uses the holder registered for its key. -/
theorem client_outlives_users {as : List OwnerAction} {s : Owners}
    (h : Run (guarded Owners.Balanced ownerStep) Owners.empty as s) :
    (∀ i holder, s.holders.heap[i]? = some holder →
      holder.refcount = (Owners.usersIn s.owners i : ℤ) ∧
      (holder.connected = true ↔ ∃ o ∈ s.owners, o.holder = i ∧ o.closed = false)) ∧
    ∀ o ∈ s.owners, o.closed = false → ∃ holder,
      s.holders.heap[o.holder]? = some holder ∧ holder.connected = true ∧
        s.holders.registry holder.key = some o.holder := by
  have hacc : s.Accounted := h.invariant Owners.accounted_empty fun s a s' hs hstep => by
    obtain ⟨hbalanced, htake⟩ := hstep
    cases htake
    exact Owners.accounted_step hs hbalanced
  have husers : ∀ i, 0 < Owners.usersIn s.owners i ↔
      ∃ o ∈ s.owners, o.holder = i ∧ o.closed = false := by
    intro i
    rw [Owners.usersIn, List.countP_pos_iff]
    simp only [decide_eq_true_iff]
  constructor
  · intro i holder hi
    exact ⟨hacc.refcount i holder hi, (hacc.connected i holder hi).trans (husers i)⟩
  · intro o ho hopen
    obtain ⟨holder, hh⟩ := hacc.held o ho
    have hpos := (husers o.holder).mpr ⟨o, ho, rfl, hopen⟩
    exact ⟨holder, hh, (hacc.connected _ _ hh).mpr hpos,
      (hacc.registered _ _).mpr ⟨holder, hh, rfl, hpos⟩⟩

/-- The key of the examples. -/
def localKey : HolderKey := ([("127.0.0.1".toList, 3000)], "lmcache".toList, [])

/-- A connector and an L2 plugin share a client; the connector is closed twice, the plugin
once, and once more when nobody uses the client. -/
theorem client_outlives_users_shared : ∃ s : Owners,
    (∀ holder, s.holders.heap[0]? = some holder →
      holder.refcount = (Owners.usersIn s.owners 0 : ℤ)) ∧
    s.holders.heap = [⟨localKey, 0, false⟩] ∧
    s.owners = [⟨.remote_connector, 0, true⟩, ⟨.l2_plugin, 0, true⟩] := by
  have h₁ : Run (guarded Owners.Balanced ownerStep) Owners.empty
      [OwnerAction.construct .remote_connector localKey true true] _ :=
    Run.start.step ⟨fun _ => rfl, rfl⟩
  have h₂ := h₁.take (.construct .l2_plugin localKey true true) _ (fun _ => rfl) rfl
  have h₃ := h₂.take (.close 0) _ (fun o ho hkind => by cases ho; cases hkind) rfl
  have h₄ := h₃.take (.close 0) _ (fun o ho hkind => by cases ho; cases hkind) rfl
  have h₅ := h₄.take (.close 1) _ (fun o ho _ hclosed => by cases ho; cases hclosed) rfl
  have h₆ := h₅.take (.close 1) _ (fun o ho _ _ => by cases ho; rfl) rfl
  exact ⟨_, fun holder hh => ((client_outlives_users h₆).1 0 holder hh).1, rfl, rfl⟩

/-- The TTL check of a storage plugin raises, and its reference is never given back.  And of
two L2 plugins one is closed twice: the client is closed under the other. -/
theorem client_holder_miscounts :
    (∃ as s, Run ownerStep Owners.empty as s ∧
      s.holders.heap = [⟨localKey, 1, true⟩] ∧ s.owners = []) ∧
    ∃ as s, Run ownerStep Owners.empty as s ∧
      s.holders.heap = [⟨localKey, 0, false⟩] ∧
      s.owners = [⟨.l2_plugin, 0, true⟩, ⟨.l2_plugin, 0, false⟩] ∧
      Owners.usersIn s.owners 0 = 1 := by
  constructor
  · exact ⟨[.construct .storage_plugin localKey true false], _, run_of_execute rfl, rfl, rfl⟩
  · exact ⟨[.construct .l2_plugin localKey true true, .construct .l2_plugin localKey true true,
      .close 0, .close 0], _, run_of_execute rfl, rfl, rfl, rfl⟩
