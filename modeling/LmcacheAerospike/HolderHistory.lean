/-
# Histories of the client registry

Any sequence of `get_or_create` and `release` calls on the holders of any configurations:
clients that cannot connect, holders of one key that succeed each other, and releases that
come late, on a holder whose count is zero already.  An acquisition stands for an instance
that is constructed and closed once, so the account of the users (`Owners.Accounted`) is
carried over to it.
-/
import LmcacheAerospike.ClientHolder

/-- A `get_or_create` that has returned the holder. -/
structure Acquisition : Type where
  holder : ℕ
  released : Bool
  deriving DecidableEq, Repr

/-- The holders, and the acquisitions so far. -/
structure HolderHistory : Type where
  holders : Holders
  acquisitions : List Acquisition

/-- The calls of a history. -/
inductive HolderCall : Type where
  | get_or_create (key : HolderKey) (connects : Bool)
  /-- The release of an acquisition. -/
  | release (i : ℕ)
  /-- One more release of a holder. -/
  | late_release (h : ℕ)

namespace HolderHistory

/-- No holder yet. -/
def empty : HolderHistory := ⟨⟨[], fun _ => none⟩, []⟩

/-- The calls run under the class lock, one after the other.  An acquisition is released at
most once; what more there is comes on a holder whose count is zero. -/
def step (s : HolderHistory) : HolderCall → Option HolderHistory
  | .get_or_create key connects =>
    match s.holders.get_or_create key connects with
    | none => some s
    | some (h, holders) => some ⟨holders, s.acquisitions ++ [⟨h, false⟩]⟩
  | .release i =>
    match s.acquisitions[i]? with
    | none => none
    | some a =>
      if a.released then none
      else some ⟨s.holders.release a.holder, s.acquisitions.set i { a with released := true }⟩
  | .late_release h =>
    match s.holders.heap[h]? with
    | none => none
    | some holder =>
      if holder.refcount ≤ 0 then some ⟨s.holders.release h, s.acquisitions⟩ else none

/-- The acquisitions of a holder that are not released. -/
def unreleased (s : HolderHistory) (h : ℕ) : ℕ :=
  s.acquisitions.countP fun a => decide (a.holder = h ∧ a.released = false)

/-! ## Acquisitions as users -/

/-- An acquisition as an instance that holds it. -/
def owner (a : Acquisition) : Owner := ⟨.l2_plugin, a.holder, a.released⟩

/-- A history as users of the holders. -/
def users (s : HolderHistory) : Owners := ⟨s.holders, s.acquisitions.map owner⟩

theorem usersIn_users (s : HolderHistory) (h : ℕ) :
    Owners.usersIn s.users.owners h = s.unreleased h :=
  List.countP_map

/-- A holder whose count is zero is not released any further. -/
theorem release_of_refcount_zero {s : Holders} {h : ℕ} {holder : Holder}
    (hh : s.heap[h]? = some holder) (hzero : holder.refcount ≤ 0) : s.release h = s := by
  unfold Holders.release
  rw [hh]
  exact if_pos hzero

/-- What a call can do. -/
theorem step_cases {s s' : HolderHistory} {c : HolderCall} (h : s.step c = some s') :
    s' = s ∨
    (∃ key connects h₀ holders, s.holders.get_or_create key connects = some (h₀, holders) ∧
      s' = ⟨holders, s.acquisitions ++ [⟨h₀, false⟩]⟩) ∨
    ∃ i a, s.acquisitions[i]? = some a ∧ a.released = false ∧
      s' = ⟨s.holders.release a.holder, s.acquisitions.set i { a with released := true }⟩ := by
  cases c with
  | get_or_create key connects =>
    simp only [step] at h
    split at h
    · exact Or.inl (Option.some.inj h).symm
    · rename_i h₀ holders hget
      exact Or.inr (Or.inl ⟨key, connects, h₀, holders, hget, (Option.some.inj h).symm⟩)
  | release i =>
    simp only [step] at h
    split at h
    · cases h
    · rename_i a hi
      split_ifs at h with hreleased
      exact Or.inr (Or.inr ⟨i, a, hi, Bool.eq_false_iff.mpr hreleased, (Option.some.inj h).symm⟩)
  | late_release h₀ =>
    simp only [step] at h
    split at h
    · cases h
    · rename_i holder hh
      split_ifs at h with hzero
      rw [release_of_refcount_zero hh hzero] at h
      exact Or.inl (Option.some.inj h).symm

/-- **The step lemma**: the account of the users is kept. -/
theorem accounted_step {s s' : HolderHistory} {c : HolderCall} (hs : s.users.Accounted)
    (h : s.step c = some s') : s'.users.Accounted := by
  rcases step_cases h with rfl | ⟨key, connects, h₀, holders, hget, rfl⟩ |
    ⟨i, a, hi, hreleased, rfl⟩
  · exact hs
  · -- one more user
    have hconstruct := hs.construct .l2_plugin key connects
    unfold Owners.construct at hconstruct
    rw [show s.users.holders = s.holders from rfl, hget] at hconstruct
    have howners : (s.acquisitions ++ [(⟨h₀, false⟩ : Acquisition)]).map owner
        = s.acquisitions.map owner ++ [⟨.l2_plugin, h₀, false⟩] := List.map_append
    rw [users, howners]
    exact hconstruct
  · -- a user closes
    have howner : s.users.owners[i]? = some (owner a) := by
      rw [users, List.getElem?_map, hi]
      rfl
    have hclose := hs.close_open howner hreleased
    have howners : (s.acquisitions.set i { a with released := true }).map owner
        = (s.acquisitions.map owner).set i { owner a with closed := true } := List.map_set
    rw [users, howners]
    exact hclose

end HolderHistory

/-- The steps of a history. -/
abbrev holderStep : HolderHistory → HolderCall → HolderHistory → Prop := takes HolderHistory.step

/-- **The registry of holders is sound**, after every sequence of calls: a client is connected
exactly as long as its holder has acquisitions that are not released, the registry maps each
key to its one such holder and to nothing when there is none, and a late release changes
neither a holder nor the registry. -/
theorem holder_registry_sound {cs : List HolderCall} {s : HolderHistory}
    (h : Run holderStep HolderHistory.empty cs s) :
    (∀ i holder, s.holders.heap[i]? = some holder →
      holder.refcount = (s.unreleased i : ℤ) ∧
        (holder.connected = true ↔ 0 < s.unreleased i)) ∧
    (∀ key i, s.holders.registry key = some i ↔
      ∃ holder, s.holders.heap[i]? = some holder ∧ holder.key = key ∧ 0 < s.unreleased i) ∧
    (∀ key, s.holders.registry key = none ↔
      ∀ i holder, s.holders.heap[i]? = some holder → holder.key = key → s.unreleased i = 0) ∧
    (∀ i j holder holder', s.holders.heap[i]? = some holder →
      s.holders.heap[j]? = some holder' → holder.key = holder'.key →
      0 < s.unreleased i → 0 < s.unreleased j → i = j) ∧
    ∀ i holder, s.holders.heap[i]? = some holder → holder.refcount = 0 →
      s.holders.release i = s.holders := by
  have hacc : s.users.Accounted :=
    h.invariant Owners.accounted_empty fun _ _ _ hs hstep => HolderHistory.accounted_step hs hstep
  have hregistered : ∀ key i, s.holders.registry key = some i ↔
      ∃ holder, s.holders.heap[i]? = some holder ∧ holder.key = key ∧ 0 < s.unreleased i := by
    intro key i
    rw [← s.usersIn_users]
    exact hacc.registered key i
  refine ⟨fun i holder hi => ?_, hregistered, fun key => ?_, ?_, ?_⟩
  · rw [← s.usersIn_users]
    exact ⟨hacc.refcount i holder hi, hacc.connected i holder hi⟩
  · constructor
    · intro hnone i holder hi hkey
      by_contra hpos
      have hsome := (hregistered key i).mpr ⟨holder, hi, hkey, Nat.pos_of_ne_zero hpos⟩
      rw [hnone] at hsome
      cases hsome
    · intro hall
      cases hreg : s.holders.registry key with
      | none => rfl
      | some i =>
        obtain ⟨holder, hi, hkey, hpos⟩ := (hregistered key i).mp hreg
        have hzero := hall i holder hi hkey
        omega
  · intro i j holder holder' hi hj hkey hposi hposj
    have hregi := (hregistered holder.key i).mpr ⟨holder, hi, rfl, hposi⟩
    have hregj := (hregistered holder.key j).mpr ⟨holder', hj, hkey.symm, hposj⟩
    exact Option.some.inj (hregi.symm.trans hregj)
  · intro i holder hi hzero
    exact HolderHistory.release_of_refcount_zero hi (Int.le_of_eq hzero)

/-- A second holder of the key is there when the first is released too late; a client of
another key has failed to connect. -/
theorem holder_registry_sound_successor : ∃ s : HolderHistory,
    (∀ i holder, s.holders.heap[i]? = some holder →
      holder.refcount = (s.unreleased i : ℤ)) ∧
    s.holders.heap = [⟨localKey, 0, false⟩, ⟨localKey, 1, true⟩] ∧
    s.holders.registry localKey = some 1 ∧
    s.holders.registry ([], "other".toList, []) = none := by
  have hrun : Run holderStep HolderHistory.empty
      [.get_or_create localKey true, .get_or_create ([], "other".toList, []) false, .release 0,
        .get_or_create localKey true, .late_release 0] _ := run_of_execute rfl
  exact ⟨_, fun i holder hi => ((holder_registry_sound hrun).1 i holder hi).1, rfl, rfl, rfl⟩
