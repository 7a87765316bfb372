import CardanoIndexer.Lib.SortedMap
import Mathlib.Algebra.BigOperators.Group.List.Basic

/-!
# Sums by key
-/

namespace Tally

variable {κ : Type*} [LinearOrder κ] {w : ℕ}

def total (k : κ) (rows : List (κ × BitVec w)) : ℕ :=
  ((rows.filter fun row => row.1 = k).map fun row => row.2.toNat).sum

local instance lawfulBEq_key : LawfulBEq κ := inferInstance

def IsTally (m : SortedMap κ (BitVec w)) (rows : List (κ × BitVec w)) : Prop :=
  ∀ k, m.get k = if k ∈ rows.map Prod.fst then some (BitVec.ofNat w (total k rows)) else none

variable {k : κ} {rows more : List (κ × BitVec w)} {m : SortedMap κ (BitVec w)}

theorem total_append (k : κ) (rows more : List (κ × BitVec w)) :
    total k (rows ++ more) = total k rows + total k more := by
  simp [total]

theorem total_singleton (k k' : κ) (v : BitVec w) :
    total k [(k', v)] = if k' = k then v.toNat else 0 := by
  by_cases hk : k' = k
  · simp [total, hk]
  · simp [total, hk]

theorem total_perm (h : rows.Perm more) : total k rows = total k more :=
  ((h.filter _).map _).sum_eq

theorem total_eq_zero (h : k ∉ rows.map Prod.fst) : total k rows = 0 := by
  have hnone : rows.filter (fun row => row.1 = k) = [] := by
    rw [List.filter_eq_nil_iff]
    intro row hrow hk
    exact h (List.mem_map.mpr ⟨row, hrow, of_decide_eq_true hk⟩)
  rw [total, hnone]
  rfl

theorem IsTally.perm (h : IsTally m rows) (hperm : rows.Perm more) : IsTally m more := by
  intro k
  rw [h k, total_perm hperm]
  exact if_congr (hperm.map Prod.fst).mem_iff rfl rfl

theorem isTally_nil : IsTally (∅ : SortedMap κ (BitVec w)) [] := by
  intro k
  simp

theorem IsTally.getD_get (h : IsTally m rows) (k : κ) :
    (m.get k).getD 0 = BitVec.ofNat w (total k rows) := by
  rw [h k]
  by_cases hk : k ∈ rows.map Prod.fst
  · rw [if_pos hk, Option.getD_some]
  · rw [if_neg hk, total_eq_zero hk, Option.getD_none]
    rfl

theorem IsTally.add (h : IsTally m rows) (k : κ) (v : BitVec w) :
    IsTally (m.put k ((m.get k).getD 0 + v)) (rows ++ [(k, v)]) := by
  intro k'
  rw [SortedMap.get_put, total_append, total_singleton]
  by_cases hk : k' = k
  · subst hk
    rw [if_pos rfl, if_pos (by simp), if_pos rfl, h.getD_get, BitVec.ofNat_add, BitVec.ofNat_toNat,
      BitVec.setWidth_eq]
  · have hmem : k' ∈ (rows ++ [(k, v)]).map Prod.fst ↔ k' ∈ rows.map Prod.fst := by simp [hk]
    have hother : (if k = k' then v.toNat else 0) = 0 := if_neg fun heq => hk heq.symm
    rw [if_neg hk, hother, Nat.add_zero, h k']
    exact if_congr hmem.symm rfl rfl

theorem IsTally.mem_entries_iff (h : IsTally m rows) (hfits : total k rows < 2 ^ w)
    {v : BitVec w} :
    (k, v) ∈ m.entries ↔ k ∈ rows.map Prod.fst ∧ v.toNat = total k rows := by
  rw [← SortedMap.get_eq_some_iff, h k]
  by_cases hk : k ∈ rows.map Prod.fst
  · rw [if_pos hk, Option.some.injEq, ← BitVec.toNat_inj, BitVec.toNat_ofNat,
      Nat.mod_eq_of_lt hfits]
    exact ⟨fun heq => ⟨hk, heq.symm⟩, fun heq => heq.2.symm⟩
  · rw [if_neg hk]
    constructor
    · intro hnone
      cases hnone
    · rintro ⟨hmem, -⟩
      exact absurd hmem hk

end Tally
