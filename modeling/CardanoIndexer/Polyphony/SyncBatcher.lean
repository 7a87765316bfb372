import CardanoIndexer.Lib.Run
import CardanoIndexer.Polyphony.Model

/-!
# The sync batcher
-/

namespace CardanoIndexer.Polyphony

structure IterationOrder where
  arrange : List StorageAction → List StorageAction
  perm : ∀ actions, (arrange actions).Perm actions

def IterationOrder.byKey : IterationOrder := ⟨id, fun _ => List.Perm.refl _⟩

structure SyncBatcher where
  lastPoint : Option Point
  batchActions : SortedMap Key StorageOp
  maxLen : ℕ
  currentLen : ℕ
  maxBytes : ℕ
  estimatedBytes : ℕ
  deriving DecidableEq

namespace SyncBatcher

def new (maxLen tikvMaxRaftEntryBytes : ℕ) : SyncBatcher where
  lastPoint := none
  batchActions := ∅
  maxLen := maxLen
  currentLen := 0
  maxBytes := tikvMaxRaftEntryBytes
  estimatedBytes := 0

def pushAction (batcher : SyncBatcher) (action : StorageAction) : Except WorkError SyncBatcher := do
  let batcher := { batcher with estimatedBytes := batcher.estimatedBytes + action.size }
  match batcher.batchActions.get action.key with
  | some prev =>
    let merged ← prev.merge action.op
    return { batcher with batchActions := batcher.batchActions.put action.key merged }
  | none =>
    return { batcher with batchActions := batcher.batchActions.put action.key action.op }

def pushActions (batcher : SyncBatcher) (point : Point) (actions : List StorageAction) :
    Except WorkError SyncBatcher := do
  let batcher ← actions.foldlM pushAction batcher
  return { batcher with currentLen := batcher.currentLen + 1, lastPoint := some point }

def wipe (batcher : SyncBatcher) : SyncBatcher :=
  { batcher with lastPoint := none, currentLen := 0, batchActions := ∅, estimatedBytes := 0 }

def getBatchActions (batcher : SyncBatcher) : List StorageAction :=
  batcher.batchActions.entries.map fun entry => ⟨entry.1, entry.2⟩

def shouldFlush (batcher : SyncBatcher) (nextActions : List StorageAction) : Bool :=
  let nextSize := (nextActions.map StorageAction.size).sum
  if (batcher.estimatedBytes + nextSize) * 2 > batcher.maxBytes then true
  else if batcher.currentLen ≥ batcher.maxLen then true
  else false

def isEmpty (batcher : SyncBatcher) : Bool := batcher.batchActions.entries.isEmpty

/-! ## The merged actions -/

theorem nodup_keys_getBatchActions (batcher : SyncBatcher) :
    (batcher.getBatchActions.map StorageAction.key).Nodup := by
  simp only [getBatchActions, List.map_map]
  have hsorted := batcher.batchActions.sorted
  rw [← List.pairwise_map] at hsorted
  exact hsorted.imp fun h => ne_of_lt h

variable {batcher batcher' : SyncBatcher} {action : StorageAction} {actions : List StorageAction}
  {k : Key}

theorem mem_getBatchActions :
    action ∈ batcher.getBatchActions ↔ batcher.batchActions.get action.key = some action.op := by
  rw [SortedMap.get_eq_some_iff, getBatchActions, List.mem_map]
  constructor
  · rintro ⟨⟨k, op⟩, hmem, rfl⟩
    exact hmem
  · intro hmem
    exact ⟨(action.key, action.op), hmem, rfl⟩

theorem nodup_keys_arrange (batcher : SyncBatcher) (order : IterationOrder) :
    ((order.arrange batcher.getBatchActions).map StorageAction.key).Nodup :=
  ((order.perm _).map _).nodup_iff.mpr batcher.nodup_keys_getBatchActions

theorem arrange_of_isEmpty (hempty : batcher.isEmpty = true) (order : IterationOrder) :
    order.arrange batcher.getBatchActions = [] := by
  have hentries : batcher.batchActions.entries = [] := by simpa [isEmpty] using hempty
  have hperm := order.perm batcher.getBatchActions
  rw [getBatchActions, hentries] at hperm ⊢
  exact hperm.eq_nil

theorem mem_arrange {order : IterationOrder} :
    action ∈ order.arrange batcher.getBatchActions ↔
      batcher.batchActions.get action.key = some action.op := by
  rw [(order.perm _).mem_iff, mem_getBatchActions]

theorem get_pushAction (h : batcher.pushAction action = .ok batcher') (k : Key) :
    (k ≠ action.key → batcher'.batchActions.get k = batcher.batchActions.get k) ∧
      (batcher.batchActions.get action.key = none →
        batcher'.batchActions.get action.key = some action.op) ∧
      (∀ prev, batcher.batchActions.get action.key = some prev →
        ∃ merged, prev.merge action.op = .ok merged ∧
          batcher'.batchActions.get action.key = some merged) := by
  unfold pushAction at h
  simp only at h
  cases hget : batcher.batchActions.get action.key with
  | none =>
    simp only [hget] at h
    cases h
    exact ⟨fun hk => by simp [hk], fun _ => by simp, fun prev hprev => by simp at hprev⟩
  | some prev =>
    simp only [hget] at h
    cases hmerge : prev.merge action.op with
    | error e =>
      rw [hmerge] at h
      cases h
    | ok merged =>
      rw [hmerge] at h
      cases h
      refine ⟨fun hk => by simp [hk], fun hnone => by simp at hnone, fun prev' hprev => ?_⟩
      cases hprev
      exact ⟨merged, hmerge, by simp⟩

theorem get_foldlM_of_ne (hne : ∀ a ∈ actions, a.key ≠ k)
    (h : actions.foldlM pushAction batcher = .ok batcher') :
    batcher'.batchActions.get k = batcher.batchActions.get k := by
  induction actions generalizing batcher with
  | nil => cases h; rfl
  | cons a rest ih =>
    obtain ⟨next, hnext, hrest⟩ := Except.bind_eq_ok.mp (by simpa using h)
    rw [ih (fun b hb => hne b (List.mem_cons_of_mem _ hb)) hrest]
    exact (get_pushAction hnext k).1 (hne a (List.mem_cons_self ..)).symm

theorem get_pushActions_of_ne {point : Point} (hne : ∀ a ∈ actions, a.key ≠ k)
    (h : batcher.pushActions point actions = .ok batcher') :
    batcher'.batchActions.get k = batcher.batchActions.get k := by
  obtain ⟨pushed, hpushed, hlast⟩ := Except.bind_eq_ok.mp h
  cases hlast
  show pushed.batchActions.get k = batcher.batchActions.get k
  exact get_foldlM_of_ne hne hpushed

end SyncBatcher

end CardanoIndexer.Polyphony
