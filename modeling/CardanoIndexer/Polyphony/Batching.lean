import CardanoIndexer.Polyphony.Cells
import CardanoIndexer.Polyphony.SyncBatcher

/-!
# Merged batches mean what their actions mean

Both are compared by the cells of the keys: the operations on a key take its cell to the same place.
-/

namespace CardanoIndexer.Polyphony

/-! ## Stores through cells -/

section Meaning

variable (kind : Key → Kind)

def meaning (store : Store) (k : Key) : Cell := Cell.ofStored (kind k) (store.get k)

def WellFormedStore (store : Store) : Prop := ∀ k, WellFormed (kind k) (store.get k)

def RespectsKinds (actions : List StorageAction) : Prop :=
  ∀ a ∈ actions, a.op.kind = kind a.key

end Meaning

def opsAt (k : Key) (actions : List StorageAction) : List StorageOp :=
  (actions.filter fun a => a.key = k).map StorageAction.op

def applyOps (ops : List StorageOp) (cell : Cell) : Cell :=
  ops.foldl (fun cell op => op.apply cell) cell

def SafeOps : List StorageOp → Cell → Prop
  | [], _ => True
  | op :: rest, cell => op.Safe cell ∧ SafeOps rest (op.apply cell)

@[simp] theorem opsAt_nil (k : Key) : opsAt k [] = [] := rfl

theorem opsAt_append (k : Key) (first second : List StorageAction) :
    opsAt k (first ++ second) = opsAt k first ++ opsAt k second := by
  simp [opsAt]

theorem opsAt_singleton (k : Key) (a : StorageAction) :
    opsAt k [a] = if a.key = k then [a.op] else [] := by
  by_cases h : a.key = k <;> simp [opsAt, h]

variable {k : Key}

theorem opsAt_eq_nil {actions : List StorageAction} (hk : k ∉ actions.map StorageAction.key) :
    opsAt k actions = [] := by
  simp only [opsAt, List.map_eq_nil_iff, List.filter_eq_nil_iff, decide_eq_true_eq]
  exact fun a ha heq => hk (heq ▸ List.mem_map_of_mem ha)

variable {a : StorageAction} {paranoidMode : Bool}

theorem opsAt_of_nodup {actions : List StorageAction}
    (hnodup : (actions.map StorageAction.key).Nodup) (hmem : a ∈ actions) :
    opsAt a.key actions = [a.op] := by
  obtain ⟨before, after, rfl⟩ := List.append_of_mem hmem
  rw [List.map_append, List.map_cons, List.nodup_append, List.nodup_cons] at hnodup
  obtain ⟨-, ⟨hafter, -⟩, hdisjoint⟩ := hnodup
  have hbefore : a.key ∉ before.map StorageAction.key := fun h =>
    hdisjoint _ h _ (List.mem_cons_self ..) rfl
  rw [← List.singleton_append, opsAt_append, opsAt_append, opsAt_singleton, if_pos rfl,
    opsAt_eq_nil hbefore, opsAt_eq_nil hafter]
  rfl

@[simp] theorem applyOps_nil (cell : Cell) : applyOps [] cell = cell := rfl

theorem applyOps_append (first second : List StorageOp) (cell : Cell) :
    applyOps (first ++ second) cell = applyOps second (applyOps first cell) :=
  List.foldl_append

@[simp] theorem applyOps_singleton (op : StorageOp) (cell : Cell) :
    applyOps [op] cell = op.apply cell := rfl

theorem safeOps_append {first second : List StorageOp} {cell : Cell} :
    SafeOps (first ++ second) cell ↔
      SafeOps first cell ∧ SafeOps second (applyOps first cell) := by
  induction first generalizing cell with
  | nil => simp [SafeOps]
  | cons op rest ih =>
    simp only [List.cons_append, SafeOps, ih, and_assoc]
    rfl

/-! ## Executing actions with distinct keys -/

def Faithful (write : Option Value → StorageOp → Except WorkError (Option (Option Value))) :
    Prop :=
  ∀ (op : StorageOp) (prev : Option Value), WellFormed op.kind prev →
    op.NoOverflow (Cell.ofStored op.kind prev) → ∃ w, write prev op = .ok w ∧ Performs op prev w

theorem faithful_plainWrite : Faithful StorageOp.plainWrite :=
  fun _ _ hwf hno => exists_plainWrite hwf hno

theorem faithful_inverseWrite : Faithful StorageOp.inverseWrite :=
  fun _ _ hwf hno => exists_inverseWrite hwf hno

section Execute

variable {write : Option Value → StorageOp → Except WorkError (Option (Option Value))}
  {kind : Key → Kind} {store : Store} {actions : List StorageAction} {ws : Writes}

theorem get_applyWrites_collectWrites {P : Key → Option Value → Prop}
    (hnodup : (actions.map StorageAction.key).Nodup)
    (hws : collectWrites write store.get actions = .ok ws)
    (haction : ∀ a ∈ actions, ∀ w, write (store.get a.key) a.op = .ok w →
      P a.key (w.getD (store.get a.key)))
    (hother : ∀ k ∉ actions.map StorageAction.key, P k (store.get k)) (k : Key) :
    P k ((store.applyWrites ws).get k) := by
  rw [SortedMap.get_applyWrites]
  by_cases hk : k ∈ actions.map StorageAction.key
  · obtain ⟨a, ha, rfl⟩ := List.mem_map.mp hk
    exact haction a ha _ (lastWrite_collectWrites hnodup hws ha)
  · rw [lastWrite_collectWrites_of_not_mem hws hk]
    exact hother k hk

theorem exists_collectWrites_meaning (hfaithful : Faithful write)
    (hnodup : (actions.map StorageAction.key).Nodup) (hkinds : RespectsKinds kind actions)
    (hwf : WellFormedStore kind store)
    (hno : ∀ a ∈ actions, a.op.NoOverflow (meaning kind store a.key)) :
    ∃ ws, collectWrites write store.get actions = .ok ws ∧
      WellFormedStore kind (store.applyWrites ws) ∧
      ∀ k, meaning kind (store.applyWrites ws) k =
        applyOps (opsAt k actions) (meaning kind store k) := by
  have hexec : ∀ a ∈ actions, ∃ w, write (store.get a.key) a.op = .ok w ∧
      Performs a.op (store.get a.key) w := by
    intro a ha
    refine hfaithful a.op _ ?_ ?_
    · rw [hkinds a ha]
      exact hwf a.key
    · rw [hkinds a ha]
      exact hno a ha
  obtain ⟨ws, hws⟩ := exists_collectWrites fun a ha =>
    let ⟨w, hw, _⟩ := hexec a ha
    ⟨w, hw⟩
  have hall := get_applyWrites_collectWrites
    (P := fun k stored => WellFormed (kind k) stored ∧
      Cell.ofStored (kind k) stored = applyOps (opsAt k actions) (meaning kind store k))
    hnodup hws ?_ ?_
  · exact ⟨ws, hws, fun k => (hall k).1, fun k => (hall k).2⟩
  · intro a ha w hw
    obtain ⟨w', hw', hperf⟩ := hexec a ha
    cases hw.symm.trans hw'
    rw [opsAt_of_nodup hnodup ha, applyOps_singleton, meaning, ← hkinds a ha]
    exact hperf
  · intro k hk
    rw [opsAt_eq_nil hk]
    exact ⟨hwf k, rfl⟩

end Execute

/-! ## The batcher's invariant -/

def Represents (kind : Key → Kind) (cells : Key → Cell) (batch : SortedMap Key StorageOp)
    (actions : List StorageAction) : Prop :=
  ∀ k, match batch.get k with
    | none => opsAt k actions = []
    | some merged => merged.kind = kind k ∧ merged.Safe (cells k) ∧
        merged.apply (cells k) = applyOps (opsAt k actions) (cells k)

section Represents

variable {kind : Key → Kind} {cells : Key → Cell} {batcher : SyncBatcher}
  {past actions : List StorageAction}

theorem represents_empty : Represents kind cells ∅ [] := fun _ => rfl

theorem Represents.pushAction (h : Represents kind cells batcher.batchActions past)
    (hfits : ∀ k, (cells k).Fits (kind k)) (hkind : a.op.kind = kind a.key)
    (hsafe : SafeOps (opsAt a.key (past ++ [a])) (cells a.key)) :
    ∃ batcher', batcher.pushAction a = .ok batcher' ∧
      Represents kind cells batcher'.batchActions (past ++ [a]) := by
  rw [opsAt_append, opsAt_singleton, if_pos rfl, safeOps_append] at hsafe
  have hsafeOp : a.op.Safe (applyOps (opsAt a.key past) (cells a.key)) := hsafe.2.1
  -- a push touches the entry of its own key only
  have hother : ∀ (op : StorageOp) (k : Key), k ≠ a.key →
      match (batcher.batchActions.put a.key op).get k with
      | none => opsAt k (past ++ [a]) = []
      | some merged => merged.kind = kind k ∧ merged.Safe (cells k) ∧
          merged.apply (cells k) = applyOps (opsAt k (past ++ [a])) (cells k) := by
    intro op k hk
    rw [SortedMap.get_put, if_neg hk, opsAt_append, opsAt_singleton, if_neg (Ne.symm hk),
      List.append_nil]
    exact h k
  have hkey := h a.key
  cases hget : batcher.batchActions.get a.key with
  | none =>
    rw [hget] at hkey
    refine ⟨_, by simp only [SyncBatcher.pushAction, hget]; rfl, fun k => ?_⟩
    rcases eq_or_ne k a.key with rfl | hk
    · simp only [SortedMap.get_put, if_true, opsAt_append, opsAt_singleton, hkey,
        List.nil_append, applyOps_singleton, and_true]
      rw [hkey] at hsafeOp
      exact ⟨hkind, hsafeOp⟩
    · exact hother a.op k hk
  | some prev =>
    rw [hget] at hkey
    obtain ⟨hprevKind, hprevSafe, hprevApply⟩ := hkey
    obtain ⟨merged, hmerge, hmergedKind, hmergedSafe, hmergedApply⟩ :=
      exists_merge (hprevKind.trans hkind.symm) (hprevKind ▸ hfits a.key) hprevSafe
        (hprevApply ▸ hsafeOp)
    refine ⟨_, by simp only [SyncBatcher.pushAction, hget, hmerge]; rfl, fun k => ?_⟩
    rcases eq_or_ne k a.key with rfl | hk
    · simp only [SortedMap.get_put, if_true, opsAt_append, opsAt_singleton, applyOps_append,
        applyOps_singleton]
      exact ⟨hmergedKind.trans hprevKind, hmergedSafe, by rw [hmergedApply, hprevApply]⟩
    · exact hother merged k hk

theorem Represents.foldlM_pushAction (h : Represents kind cells batcher.batchActions past)
    (hfits : ∀ k, (cells k).Fits (kind k)) (hkinds : RespectsKinds kind actions)
    (hsafe : ∀ k, SafeOps (opsAt k (past ++ actions)) (cells k)) :
    ∃ batcher', actions.foldlM SyncBatcher.pushAction batcher = .ok batcher' ∧
      Represents kind cells batcher'.batchActions (past ++ actions) := by
  induction actions generalizing batcher past with
  | nil => exact ⟨batcher, rfl, by rwa [List.append_nil]⟩
  | cons a rest ih =>
    have hcons : past ++ a :: rest = past ++ [a] ++ rest := by simp
    rw [hcons] at hsafe ⊢
    have hsafeHead := hsafe a.key
    rw [opsAt_append, safeOps_append] at hsafeHead
    obtain ⟨mid, hmid, hrep⟩ := h.pushAction hfits (hkinds a (List.mem_cons_self ..)) hsafeHead.1
    obtain ⟨batcher', hbatcher', hrep'⟩ :=
      ih hrep (fun b hb => hkinds b (List.mem_cons_of_mem _ hb)) hsafe
    exact ⟨batcher', by rw [List.foldlM_cons, hmid]; exact hbatcher', hrep'⟩

theorem Represents.pushActions (h : Represents kind cells batcher.batchActions past)
    (hfits : ∀ k, (cells k).Fits (kind k)) (hkinds : RespectsKinds kind actions)
    (hsafe : ∀ k, SafeOps (opsAt k (past ++ actions)) (cells k)) (point : Point) :
    ∃ batcher', batcher.pushActions point actions = .ok batcher' ∧
      Represents kind cells batcher'.batchActions (past ++ actions) := by
  obtain ⟨mid, hmid, hrep⟩ := h.foldlM_pushAction hfits hkinds hsafe
  exact ⟨{ mid with currentLen := mid.currentLen + 1, lastPoint := some point },
    by rw [SyncBatcher.pushActions, hmid]; rfl, hrep⟩

end Represents

variable {batcher : SyncBatcher}

theorem Represents.of_mem_arrange {kind : Key → Kind} {cells : Key → Cell}
    {actions : List StorageAction} (hrep : Represents kind cells batcher.batchActions actions)
    {order : IterationOrder} (ha : a ∈ order.arrange batcher.getBatchActions) :
    a.op.kind = kind a.key ∧ a.op.Safe (cells a.key) ∧
      a.op.apply (cells a.key) = applyOps (opsAt a.key actions) (cells a.key) := by
  have hkey := hrep a.key
  rwa [SyncBatcher.mem_arrange.mp ha] at hkey

theorem exists_collectWrites_batch
    {write : Option Value → StorageOp → Except WorkError (Option (Option Value))}
    {kind : Key → Kind} {store : Store} {actions : List StorageAction} (hfaithful : Faithful write)
    (hwf : WellFormedStore kind store)
    (hrep : Represents kind (meaning kind store) batcher.batchActions actions)
    (order : IterationOrder) :
    ∃ ws, collectWrites write store.get (order.arrange batcher.getBatchActions) = .ok ws ∧
      WellFormedStore kind (store.applyWrites ws) ∧
      ∀ k, meaning kind (store.applyWrites ws) k =
        applyOps (opsAt k actions) (meaning kind store k) := by
  have hnodup := batcher.nodup_keys_arrange order
  obtain ⟨ws, hws, hwf', hmeaning⟩ := exists_collectWrites_meaning hfaithful hnodup
    (fun a ha => (hrep.of_mem_arrange ha).1) hwf
    fun a ha => (hrep.of_mem_arrange ha).2.1.noOverflow
  refine ⟨ws, hws, hwf', fun k => (hmeaning k).trans ?_⟩
  cases hget : batcher.batchActions.get k with
  | none =>
    have hout : k ∉ (order.arrange batcher.getBatchActions).map StorageAction.key := by
      intro hk
      obtain ⟨a, ha, rfl⟩ := List.mem_map.mp hk
      rw [SyncBatcher.mem_arrange.mp ha] at hget
      cases hget
    have hnone := hrep k
    rw [hget] at hnone
    rw [opsAt_eq_nil hout, hnone]
  | some merged =>
    have ha : ⟨k, merged⟩ ∈ order.arrange batcher.getBatchActions :=
      SyncBatcher.mem_arrange.mpr hget
    rw [show opsAt k _ = [merged] from opsAt_of_nodup hnodup ha]
    exact (hrep.of_mem_arrange ha).2.2

/-! ## One action at a time -/

def executedStore (paranoidMode : Bool) (store : Store) (actions : List StorageAction)
    (returnInverses : Bool) : Except WorkError Store := do
  let (work, _) ← applyActions paranoidMode ⟨Txn.start store none, none⟩ actions returnInverses
  return work.txn.view

theorem executedStore_plain {store : Store} {actions : List StorageAction}
    (hindep : Independent actions) :
    executedStore paranoidMode store actions false =
      collectWrites StorageOp.plainWrite store.get actions >>= fun ws =>
        .ok (store.applyWrites ws) := by
  simp only [executedStore, applyActions_plain ⟨Txn.start store none, none⟩ rfl hindep,
    Txn.view_start]
  cases collectWrites StorageOp.plainWrite store.get actions with
  | error e => rfl
  | ok ws => simp

theorem executedStore_inverse {store : Store} {actions : List StorageAction}
    (hnodup : (actions.map StorageAction.key).Nodup) :
    executedStore paranoidMode store actions true =
      collectWrites StorageOp.inverseWrite store.get actions >>= fun ws =>
        .ok (store.applyWrites ws) := by
  simp only [executedStore, applyActions_inverse ⟨Txn.start store none, none⟩ rfl hnodup,
    Txn.view_start]
  cases collectWrites StorageOp.inverseWrite store.get actions with
  | error e => rfl
  | ok ws => simp

def executeOneByOne (paranoidMode : Bool) (store : Store) (actions : List StorageAction) :
    Except WorkError Store :=
  actions.foldlM (fun store a => executedStore paranoidMode store [a] false) store

def safeFrom (paranoidMode : Bool) : Store → List StorageAction → Bool
  | _, [] => true
  | store, a :: rest =>
    decide (a.op.Safe (Cell.ofStored a.op.kind (store.get a.key))) &&
      match executedStore paranoidMode store [a] false with
      | .ok store' => safeFrom paranoidMode store' rest
      | .error _ => true

theorem safeFrom_of_append {store : Store} {first second : List StorageAction}
    (h : safeFrom paranoidMode store (first ++ second) = true) :
    safeFrom paranoidMode store first = true := by
  induction first generalizing store with
  | nil => rfl
  | cons a rest ih =>
    simp only [List.cons_append, safeFrom, Bool.and_eq_true] at h ⊢
    refine ⟨h.1, ?_⟩
    cases hexec : executedStore paranoidMode store [a] false with
    | error e => rfl
    | ok store' => exact ih (by simpa only [hexec] using h.2)

def PositiveStore (kind : Key → Kind) (store : Store) : Prop :=
  ∀ k, kind k = .u64 → Positive (store.get k)

section OneByOne

variable {kind : Key → Kind} {store : Store} {actions : List StorageAction}

theorem PositiveStore.applyWrites (hpos : PositiveStore kind store)
    (hnodup : (actions.map StorageAction.key).Nodup) (hkinds : RespectsKinds kind actions)
    (hwf : WellFormedStore kind store)
    (hno : ∀ a ∈ actions, a.op.NoOverflow (meaning kind store a.key)) {ws : Writes}
    (hws : collectWrites StorageOp.plainWrite store.get actions = .ok ws) :
    PositiveStore kind (store.applyWrites ws) := by
  refine get_applyWrites_collectWrites (P := fun k stored => kind k = .u64 → Positive stored)
    hnodup hws ?_ fun k _ => hpos k
  intro a ha w hw hu64
  have hkind := hkinds a ha
  refine positive_plainWrite (hkind.trans hu64) ?_ ?_ (hpos a.key hu64) hw
  · rw [hkind]
    exact hwf a.key
  · rw [hkind]
    exact hno a ha

theorem exists_executeOneByOne (paranoidMode : Bool) (hkinds : RespectsKinds kind actions)
    (hwf : WellFormedStore kind store) (hsafe : safeFrom paranoidMode store actions = true) :
    ∃ store', executeOneByOne paranoidMode store actions = .ok store' ∧
      WellFormedStore kind store' ∧
      (PositiveStore kind store → PositiveStore kind store') ∧
      ∀ k, SafeOps (opsAt k actions) (meaning kind store k) ∧
        meaning kind store' k = applyOps (opsAt k actions) (meaning kind store k) := by
  induction actions generalizing store with
  | nil => exact ⟨store, rfl, hwf, id, fun k => ⟨trivial, rfl⟩⟩
  | cons a rest ih =>
    have hkind : a.op.kind = kind a.key := hkinds a (List.mem_cons_self ..)
    have hkindsHead : RespectsKinds kind [a] := by simpa [RespectsKinds] using hkind
    have hnodup : ([a].map StorageAction.key).Nodup := by simp
    simp only [safeFrom, Bool.and_eq_true, decide_eq_true_eq] at hsafe
    obtain ⟨hsafeHead, hsafeRest⟩ := hsafe
    rw [hkind] at hsafeHead
    change a.op.Safe (meaning kind store a.key) at hsafeHead
    have hno : ∀ b ∈ [a], b.op.NoOverflow (meaning kind store b.key) := by
      simpa using StorageOp.Safe.noOverflow hsafeHead
    obtain ⟨ws, hws, hwf₁, hmeaning₁⟩ :=
      exists_collectWrites_meaning faithful_plainWrite hnodup hkindsHead hwf hno
    have hexec : executedStore paranoidMode store [a] false = .ok (store.applyWrites ws) := by
      rw [executedStore_plain (independent_of_nodup hnodup), hws, Except.ok_bind]
    rw [hexec] at hsafeRest
    obtain ⟨store', hstore', hwf', hpos', hcells⟩ :=
      ih (fun b hb => hkinds b (List.mem_cons_of_mem _ hb)) hwf₁ hsafeRest
    refine ⟨store', ?_, hwf', fun hpos =>
      hpos' (hpos.applyWrites hnodup hkindsHead hwf hno hws), fun k => ?_⟩
    · rw [executeOneByOne, List.foldlM_cons, hexec]
      exact hstore'
    · obtain ⟨hsafeK, hmeaningK⟩ := hcells k
      rw [hmeaning₁ k] at hsafeK hmeaningK
      rw [← List.singleton_append, opsAt_append, safeOps_append, applyOps_append]
      refine ⟨⟨?_, hsafeK⟩, hmeaningK⟩
      rw [opsAt_singleton]
      split
      case isTrue heq => subst heq; exact ⟨hsafeHead, trivial⟩
      case isFalse => trivial

end OneByOne

/-! ## Merging preserves the store -/

def OneKindPerKey (actions : List StorageAction) : Prop :=
  ∀ a ∈ actions, ∀ b ∈ actions, a.key = b.key → a.op.kind = b.op.kind

instance (actions : List StorageAction) : Decidable (OneKindPerKey actions) :=
  inferInstanceAs (Decidable (∀ a ∈ actions, ∀ b ∈ actions, a.key = b.key → a.op.kind = b.op.kind))

def kindIn (actions : List StorageAction) (k : Key) : Kind :=
  match actions.find? fun a => a.key = k with
  | some a => a.op.kind
  | none => .value

theorem kindIn_of_mem {actions : List StorageAction} (hone : OneKindPerKey actions)
    (ha : a ∈ actions) : kindIn actions a.key = a.op.kind := by
  unfold kindIn
  split
  case h_1 b hfind =>
    exact hone b (List.mem_of_find?_eq_some hfind) a ha
      (by simpa using List.find?_some hfind)
  case h_2 hfind => simpa using List.find?_eq_none.mp hfind a ha

theorem exists_mem_of_kindIn_ne_value {actions : List StorageAction} (h : kindIn actions k ≠ .value) :
    ∃ a ∈ actions, a.key = k ∧ a.op.kind = kindIn actions k := by
  unfold kindIn at h ⊢
  split at h
  case h_1 a hfind =>
    exact ⟨a, List.mem_of_find?_eq_some hfind, by simpa using List.find?_some hfind, rfl⟩
  case h_2 => exact absurd rfl h

def ValidU64Counter (stored : Option Value) : Prop :=
  ∀ bytes ∈ stored, bytes.length = 8 ∧ 0 < Bytes.ofBE bytes

instance (stored : Option Value) : Decidable (ValidU64Counter stored) :=
  match stored with
  | none => isTrue fun _ h => nomatch h
  | some bytes =>
    decidable_of_iff (bytes.length = 8 ∧ 0 < Bytes.ofBE bytes) (by simp [ValidU64Counter])

/-- Executing the merged actions, in any order, does what the actions do one at a time. -/
theorem merged_batch_eq_executeOneByOne (paranoidMode : Bool) (order : IterationOrder)
    (maxLen maxBytes : ℕ) (point : Point) (store : Store) (actions : List StorageAction)
    (hone : OneKindPerKey actions) (hu128 : ∀ a ∈ actions, a.op.kind ≠ .u128)
    (hcounters : ∀ a ∈ actions, a.op.kind = .u64 → ValidU64Counter (store.get a.key))
    (hsafe : safeFrom paranoidMode store actions = true) :
    ∃ batcher store',
      (SyncBatcher.new maxLen maxBytes).pushActions point actions = .ok batcher ∧
      executedStore paranoidMode store (order.arrange batcher.getBatchActions) false = .ok store' ∧
      executeOneByOne paranoidMode store actions = .ok store' := by
  set kind := kindIn actions with hkindDef
  have hkinds : RespectsKinds kind actions := fun a ha => (kindIn_of_mem hone ha).symm
  have hu64 : ∀ k, kind k ≠ .value → kind k = .u64 ∧ ValidU64Counter (store.get k) := by
    intro k hk
    obtain ⟨a, ha, rfl, hop⟩ := exists_mem_of_kindIn_ne_value hk
    have hne : kind a.key ≠ .u128 := fun h => hu128 a ha (hop.trans h)
    have hkey : kind a.key = .u64 := by
      cases h : kind a.key with
      | value => exact absurd h hk
      | u64 => rfl
      | u128 => exact absurd h hne
    exact ⟨hkey, hcounters a ha (hop.trans hkey)⟩
  have hwf : WellFormedStore kind store := by
    intro k bytes hget hk
    obtain ⟨hkey, hvalid⟩ := hu64 k hk
    rw [hkey]
    exact (hvalid bytes hget).1
  have hpos : PositiveStore kind store := by
    intro k hk bytes hget
    exact ((hu64 k (by rw [hk]; decide)).2 bytes hget).2
  obtain ⟨single, hsingle, hwfSingle, hposSingle, hcells⟩ :=
    exists_executeOneByOne paranoidMode hkinds hwf hsafe
  have hempty : Represents kind (meaning kind store)
      (SyncBatcher.new maxLen maxBytes).batchActions [] := represents_empty
  obtain ⟨batcher, hpush, hrep⟩ := hempty.pushActions (fun k => Cell.fits_ofStored (hwf k)) hkinds
    (fun k => (hcells k).1) point
  rw [List.nil_append] at hrep
  obtain ⟨ws, hws, hwfBatch, hmeaning⟩ :=
    exists_collectWrites_batch faithful_plainWrite hwf hrep order
  have hposBatch : PositiveStore kind (store.applyWrites ws) :=
    hpos.applyWrites (batcher.nodup_keys_arrange order) (fun a ha => (hrep.of_mem_arrange ha).1)
      hwf (fun a ha => (hrep.of_mem_arrange ha).2.1.noOverflow) hws
  have hequal : store.applyWrites ws = single := by
    refine SortedMap.ext_get fun k => ?_
    have hcell : meaning kind (store.applyWrites ws) k = meaning kind single k :=
      (hmeaning k).trans (hcells k).2.symm
    by_cases hk : kind k = .value
    · simpa [meaning, Cell.ofStored, hk] using hcell
    · have hkey := (hu64 k hk).1
      refine eq_of_amountOf_eq hk (hwfBatch k) (hwfSingle k) (hposBatch k hkey)
        (hposSingle hpos k hkey) ?_
      simpa [meaning, Cell.ofStored, hkey] using hcell
  refine ⟨batcher, single, hpush, ?_, hsingle⟩
  rw [executedStore_plain (independent_of_nodup (batcher.nodup_keys_arrange order)), hws,
    Except.ok_bind, hequal]

theorem merged_batch_eq_executeOneByOne_sample :
    ∃ batcher store',
      (SyncBatcher.new 1 100).pushActions .origin
        [⟨[1], .incrementU64 3⟩, ⟨[2], .decrementU64 5⟩, ⟨[1], .decrementU64 3⟩, ⟨[3], .delete⟩,
          ⟨[3], .insert [9]⟩, ⟨[3], .insert [8]⟩] = .ok batcher ∧
      executedStore true (((∅ : Store).put [2] (Bytes.toBE 8 5)).put [3] [7])
        (IterationOrder.byKey.arrange batcher.getBatchActions) false = .ok store' ∧
      executeOneByOne true (((∅ : Store).put [2] (Bytes.toBE 8 5)).put [3] [7])
        [⟨[1], .incrementU64 3⟩, ⟨[2], .decrementU64 5⟩, ⟨[1], .decrementU64 3⟩, ⟨[3], .delete⟩,
          ⟨[3], .insert [9]⟩, ⟨[3], .insert [8]⟩] = .ok store' :=
  merged_batch_eq_executeOneByOne true .byKey 1 100 .origin
    (((∅ : Store).put [2] (Bytes.toBE 8 5)).put [3] [7])
    [⟨[1], .incrementU64 3⟩, ⟨[2], .decrementU64 5⟩, ⟨[1], .decrementU64 3⟩, ⟨[3], .delete⟩,
      ⟨[3], .insert [9]⟩, ⟨[3], .insert [8]⟩]
    (by decide) (by decide) (by decide) (by decide)

/-! ## The two executors -/

instance (kind : Kind) (stored : Option Value) : Decidable (WellFormed kind stored) :=
  match stored with
  | none => isTrue (WellFormed.none kind)
  | some bytes =>
    decidable_of_iff (kind ≠ .value → bytes.length = kind.width) (by simp [WellFormed])

/-- A delta of zero on which the executors differ: with inverses an increment stores
a zero under an absent key, and a `u64` decrement deletes a stored zero. -/
def zeroDeltaMatters (prev : Option Value) : StorageOp → Bool
  | .incrementU64 d => d = 0 && prev.isNone
  | .incrementU128 d => d = 0 && prev.isNone
  | .decrementU64 d => d = 0 && prev.any fun bytes => Bytes.ofBE bytes = 0
  | .set _ | .delete | .insert _ | .decrementU128NoDelete _ => false

theorem inverseWrite_agrees_iff {op : StorageOp} {prev : Option Value}
    {w w' : Option (Option Value)} (hwf : WellFormed op.kind prev)
    (hno : op.NoOverflow (Cell.ofStored op.kind prev)) (hw : op.inverseWrite prev = .ok w)
    (hw' : op.plainWrite prev = .ok w') :
    w.getD prev = w'.getD prev ↔ zeroDeltaMatters prev op = false := by
  cases hzero : op.zeroDelta with
  | false =>
    obtain ⟨w'', hw'', heq⟩ := exists_plainWrite_of_inverseWrite hzero hw
    cases hw'.symm.trans hw''
    have hmatters : zeroDeltaMatters prev op = false := by
      cases op <;> simp_all [StorageOp.zeroDelta, zeroDeltaMatters]
    simp [heq, hmatters]
  | true =>
    rw [plainWrite_of_zeroDelta hzero] at hw'
    cases hw'
    obtain ⟨w'', hw'', hperfWf, hperf⟩ := exists_inverseWrite hwf hno
    cases hw.symm.trans hw''
    rw [apply_of_zeroDelta hzero] at hperf
    cases op with
    | set v | delete | insert v => cases hzero
    | incrementU64 d | incrementU128 d =>
      have hd : d = 0 := by simpa [StorageOp.zeroDelta] using hzero
      obtain ⟨v, -, hret⟩ := Except.bind_eq_ok.mp hw
      cases hret
      cases prev with
      | none => simp [zeroDeltaMatters, hd]
      | some bytes =>
        have heq : v = bytes :=
          bytes_eq_of_amountOf_eq (by simp [StorageOp.kind]) hperfWf hwf
            (by simpa [Cell.ofStored, StorageOp.kind] using hperf)
        simp [zeroDeltaMatters, heq]
    | decrementU64 d =>
      have hd : d = 0 := by simpa [StorageOp.zeroDelta] using hzero
      cases prev with
      | none => cases hw; simp [zeroDeltaMatters]
      | some bytes =>
        obtain ⟨r, hr, hret⟩ := Except.bind_eq_ok.mp hw
        cases hret
        obtain ⟨r', hr', -, -, hrne⟩ := exists_decrementedU64 d.toNat hwf
        cases hr.symm.trans hr'
        have hamount : amountOf r = Bytes.ofBE bytes := by
          simpa [Cell.ofStored, StorageOp.kind, amountOf] using hperf
        cases r with
        | none => simp [zeroDeltaMatters, hd, ← hamount, amountOf]
        | some v =>
          have heq : v = bytes :=
            bytes_eq_of_amountOf_eq (by simp [StorageOp.kind]) hperfWf hwf hamount
          subst heq
          have hlength : v.length = 8 := hwf v rfl (by simp [StorageOp.kind])
          have hne : Bytes.ofBE v ≠ 0 := fun hz =>
            hrne (by rw [← hz, ← hlength, Bytes.toBE_ofBE])
          simp [zeroDeltaMatters, hne]
    | decrementU128NoDelete d =>
      cases prev with
      | none => cases hw; simp [zeroDeltaMatters]
      | some bytes =>
        obtain ⟨v, -, hret⟩ := Except.bind_eq_ok.mp hw
        cases hret
        have heq : v = bytes :=
          bytes_eq_of_amountOf_eq (by simp [StorageOp.kind]) hperfWf hwf
            (by simpa [Cell.ofStored, StorageOp.kind] using hperf)
        simp [zeroDeltaMatters, heq]

/-- Both executors leave the same store exactly if no delta of zero matters. -/
theorem executors_agree_iff (paranoidMode paranoidMode' : Bool) (store : Store)
    (actions : List StorageAction) (hnodup : (actions.map StorageAction.key).Nodup)
    (hcounters : ∀ a ∈ actions, WellFormed a.op.kind (store.get a.key))
    (hno : ∀ a ∈ actions, a.op.NoOverflow (Cell.ofStored a.op.kind (store.get a.key))) :
    ∃ withInverses without,
      executedStore paranoidMode store actions true = .ok withInverses ∧
      executedStore paranoidMode' store actions false = .ok without ∧
      (withInverses = without ↔
        ∀ a ∈ actions, zeroDeltaMatters (store.get a.key) a.op = false) := by
  obtain ⟨ws, hws⟩ := exists_collectWrites fun a ha =>
    (exists_inverseWrite (hcounters a ha) (hno a ha)).imp fun _ h => h.1
  obtain ⟨ws', hws'⟩ := exists_collectWrites fun a ha =>
    (exists_plainWrite (hcounters a ha) (hno a ha)).imp fun _ h => h.1
  refine ⟨store.applyWrites ws, store.applyWrites ws', ?_, ?_, ?_⟩
  · rw [executedStore_inverse hnodup, hws, Except.ok_bind]
  · rw [executedStore_plain (independent_of_nodup hnodup), hws', Except.ok_bind]
  · have hkey : ∀ a ∈ actions,
        (store.applyWrites ws).get a.key = (store.applyWrites ws').get a.key ↔
          zeroDeltaMatters (store.get a.key) a.op = false := by
      intro a ha
      rw [SortedMap.get_applyWrites, SortedMap.get_applyWrites]
      exact inverseWrite_agrees_iff (hcounters a ha) (hno a ha)
        (lastWrite_collectWrites hnodup hws ha) (lastWrite_collectWrites hnodup hws' ha)
    constructor
    · intro heq a ha
      exact (hkey a ha).mp (by rw [heq])
    · intro hzero
      refine SortedMap.ext_get fun k => ?_
      by_cases hk : k ∈ actions.map StorageAction.key
      · obtain ⟨a, ha, rfl⟩ := List.mem_map.mp hk
        exact (hkey a ha).mpr (hzero a ha)
      · rw [SortedMap.get_applyWrites, SortedMap.get_applyWrites,
          lastWrite_collectWrites_of_not_mem hws hk, lastWrite_collectWrites_of_not_mem hws' hk]

theorem executors_agree_iff_sample :
    ∃ withInverses without,
      executedStore false (((∅ : Store).put [1] (Bytes.toBE 8 4)).put [2] [7])
        [⟨[1], .incrementU64 0⟩, ⟨[2], .set [7]⟩, ⟨[3], .decrementU64 6⟩] true =
          .ok withInverses ∧
      executedStore true (((∅ : Store).put [1] (Bytes.toBE 8 4)).put [2] [7])
        [⟨[1], .incrementU64 0⟩, ⟨[2], .set [7]⟩, ⟨[3], .decrementU64 6⟩] false = .ok without ∧
      (withInverses = without ↔
        ∀ a ∈ ([⟨[1], .incrementU64 0⟩, ⟨[2], .set [7]⟩, ⟨[3], .decrementU64 6⟩] :
            List StorageAction),
          zeroDeltaMatters ((((∅ : Store).put [1] (Bytes.toBE 8 4)).put [2] [7]).get a.key)
            a.op = false) :=
  executors_agree_iff false true (((∅ : Store).put [1] (Bytes.toBE 8 4)).put [2] [7])
    [⟨[1], .incrementU64 0⟩, ⟨[2], .set [7]⟩, ⟨[3], .decrementU64 6⟩]
    (by decide) (by decide) (by decide)

/-- On an absent key the mutable path stores a zero, the immutable path nothing. -/
theorem executors_differ_on_net_zero :
    ((SyncBatcher.new 1 100).pushActions .origin
        [⟨[1], .incrementU64 5⟩, ⟨[1], .decrementU64 5⟩]).map SyncBatcher.getBatchActions =
      .ok [⟨[1], .incrementU64 0⟩] ∧
    executedStore false ∅ [⟨[1], .incrementU64 0⟩] true =
      .ok ((∅ : Store).put [1] (Bytes.toBE 8 0)) ∧
    executedStore false ∅ [⟨[1], .incrementU64 0⟩] false = .ok ∅ ∧
    (∅ : Store).put [1] (Bytes.toBE 8 0) ≠ ∅ := by
  decide

end CardanoIndexer.Polyphony
