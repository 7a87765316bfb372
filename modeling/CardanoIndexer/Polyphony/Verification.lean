import CardanoIndexer.Polyphony.Executors

/-!
# Paranoid mode

`verify_mutations` compares every key it is handed with the last operation on it.
-/

namespace CardanoIndexer.Polyphony

open Timbre

def verificationFailures (store : Store) (operations : Writes) : Writes :=
  operations.filterMap fun operation =>
    match SortedMap.lastWrite operation.1 operations with
    | some expected =>
      if store.get operation.1 = expected then none else some (operation.1, expected)
    | none => none

def verifyMutations (enc : KeyEncoder) (gap : ℕ) (point : Point) (operations : Writes)
    (tikv : VersionedStore Key Value) : Bool × VersionedStore Key Value :=
  let txn := Txn.start tikv.store none
  let failures := verificationFailures tikv.store operations
  if failures ≠ [] then (true, (tikv.commit gap (txn.writeAll failures)).2)
  else
    (false, (tikv.commit gap
      (txn.write (enc.verificationKey, some (u64Bytes point.slotOrDefault)))).2)

def verifyUntilConfirmed (enc : KeyEncoder) (gap : ℕ) (point : Point) (operations : Writes) :
    ℕ → VersionedStore Key Value → VersionedStore Key Value
  | 0, tikv => tikv
  | rounds + 1, tikv =>
    match verifyMutations enc gap point operations tikv with
    | (true, tikv) => verifyUntilConfirmed enc gap point operations rounds tikv
    | (false, tikv) => tikv

section

variable {enc : KeyEncoder} {gap : ℕ} {point : Point} {operations : Writes}
  {tikv : VersionedStore Key Value}

theorem mem_verificationFailures {store : Store} {k : Key} {v : Option Value} :
    (k, v) ∈ verificationFailures store operations ↔
      SortedMap.lastWrite k operations = some v ∧ store.get k ≠ v := by
  simp only [verificationFailures, List.mem_filterMap]
  constructor
  · rintro ⟨operation, -, hmatch⟩
    split at hmatch
    case h_1 expected hlast =>
      split at hmatch
      case isTrue => cases hmatch
      case isFalse hne => cases hmatch; exact ⟨hlast, hne⟩
    case h_2 => cases hmatch
  · rintro ⟨hlast, hne⟩
    exact ⟨(k, v), SortedMap.mem_of_lastWrite hlast, by simp [hlast, hne]⟩

theorem get_applyWrites_verificationFailures (store : Store) (operations : Writes) (k : Key) :
    (store.applyWrites (verificationFailures store operations)).get k =
      (SortedMap.lastWrite k operations).getD (store.get k) := by
  rw [SortedMap.get_applyWrites]
  cases hfail : SortedMap.lastWrite k (verificationFailures store operations) with
  | some v =>
    have hlast := (mem_verificationFailures.mp (SortedMap.mem_of_lastWrite hfail)).1
    rw [hlast]
  | none =>
    cases hlast : SortedMap.lastWrite k operations with
    | none => rfl
    | some v =>
      -- the key is checked and not among the mismatches
      by_contra hne
      have hmem : (k, v) ∈ verificationFailures store operations :=
        mem_verificationFailures.mpr ⟨hlast, fun heq => hne (by simpa using heq)⟩
      exact SortedMap.lastWrite_eq_none_iff.mp hfail (List.mem_map_of_mem hmem)

theorem verificationFailures_applyWrites (store : Store) (operations : Writes) :
    verificationFailures (store.applyWrites (verificationFailures store operations)) operations =
      [] := by
  refine List.eq_nil_iff_forall_not_mem.mpr ?_
  rintro ⟨k, v⟩ hmem
  obtain ⟨hlast, hne⟩ := mem_verificationFailures.mp hmem
  rw [get_applyWrites_verificationFailures, hlast] at hne
  exact hne rfl

theorem store_rewrite (tikv : VersionedStore Key Value) (operations : Writes) (gap : ℕ) :
    (tikv.commit gap ((Txn.start tikv.store none).writeAll
      (verificationFailures tikv.store operations))).2.store =
        tikv.store.applyWrites (verificationFailures tikv.store operations) := by
  rw [tikv.commit_store gap rfl, Txn.view_writeAll, Txn.view_start]

theorem verifyMutations_of_failures (h : verificationFailures tikv.store operations ≠ []) :
    verifyMutations enc gap point operations tikv =
      (true, (tikv.commit gap ((Txn.start tikv.store none).writeAll
        (verificationFailures tikv.store operations))).2) := if_pos h

theorem verifyMutations_of_confirmed (h : verificationFailures tikv.store operations = []) :
    verifyMutations enc gap point operations tikv =
      (false, (tikv.commit gap ((Txn.start tikv.store none).write
        (enc.verificationKey, some (u64Bytes point.slotOrDefault)))).2) :=
  if_neg (not_not.mpr h)

theorem verifyUntilConfirmed_of_confirmed (h : verificationFailures tikv.store operations = [])
    (rounds : ℕ) :
    verifyUntilConfirmed enc gap point operations (rounds + 1) tikv =
      (tikv.commit gap ((Txn.start tikv.store none).write
        (enc.verificationKey, some (u64Bytes point.slotOrDefault)))).2 := by
  rw [verifyUntilConfirmed, verifyMutations_of_confirmed h]

theorem verifyUntilConfirmed_of_failures (h : verificationFailures tikv.store operations ≠ [])
    (rounds : ℕ) :
    verifyUntilConfirmed enc gap point operations (rounds + 1) tikv =
      verifyUntilConfirmed enc gap point operations rounds
        (tikv.commit gap ((Txn.start tikv.store none).writeAll
          (verificationFailures tikv.store operations))).2 := by
  rw [verifyUntilConfirmed, verifyMutations_of_failures h]

def Confirms (enc : KeyEncoder) (operations : Writes) (before after : Store) : Prop :=
  ∀ k, k ≠ enc.verificationKey →
    after.get k = (SortedMap.lastWrite k operations).getD (before.get k)

theorem Confirms.trans {before mid after : Store} (h : Confirms enc operations before mid)
    (h' : Confirms enc operations mid after) : Confirms enc operations before after := by
  intro k hk
  rw [h' k hk, h k hk]
  cases SortedMap.lastWrite k operations <;> rfl

theorem confirms_rewrite (enc : KeyEncoder) (operations : Writes) (store : Store) :
    Confirms enc operations store
      (store.applyWrites (verificationFailures store operations)) :=
  fun k _ => get_applyWrites_verificationFailures store operations k

theorem confirms_record (enc : KeyEncoder) {store : Store} (h : verificationFailures store operations = [])
    (value : Value) :
    Confirms enc operations store
      ((Txn.start store none).write (enc.verificationKey, some value)).view := by
  intro k hk
  have hsame := get_applyWrites_verificationFailures store operations k
  rw [h, SortedMap.applyWrites_nil] at hsame
  rw [Txn.view_write, Txn.view_start, SortedMap.get_applyWrite, if_neg hk, ← hsame]

theorem verifyUntilConfirmed_spec :
    Confirms enc operations tikv.store
        (verifyUntilConfirmed enc gap point operations 2 tikv).store ∧
      tikv.Extends (verifyUntilConfirmed enc gap point operations 2 tikv)
        (Confirms enc operations tikv.store) := by
  by_cases h : verificationFailures tikv.store operations = []
  · rw [verifyUntilConfirmed_of_confirmed h, VersionedStore.commit_store tikv gap rfl]
    have hrecord := confirms_record enc h (u64Bytes point.slotOrDefault)
    exact ⟨hrecord, VersionedStore.extends_commit tikv gap hrecord⟩
  · have hconfirmed := verificationFailures_applyWrites tikv.store operations
    have hrewrite := confirms_rewrite enc operations tikv.store
    rw [verifyUntilConfirmed_of_failures h]
    have hfirst : tikv.Extends _ (Confirms enc operations tikv.store) :=
      VersionedStore.extends_commit tikv gap (t := (Txn.start tikv.store none).writeAll
        (verificationFailures tikv.store operations)) (by simpa using hrewrite)
    have hstore := store_rewrite tikv operations gap
    generalize (tikv.commit gap ((Txn.start tikv.store none).writeAll
      (verificationFailures tikv.store operations))).2 = mid at hfirst hstore
    rw [← hstore] at hconfirmed hrewrite
    rw [verifyUntilConfirmed_of_confirmed hconfirmed, VersionedStore.commit_store mid gap rfl]
    have hrecord := hrewrite.trans
      (confirms_record enc hconfirmed (u64Bytes point.slotOrDefault))
    exact ⟨hrecord, hfirst.trans (VersionedStore.extends_commit mid gap hrecord)⟩

end

end CardanoIndexer.Polyphony
