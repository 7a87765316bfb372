import CardanoIndexer.Polyphony.Rewinding

/-!
# The stored cursor

Every block ends with its cursor, and nothing but cursors writes the cursor key (`EndsAtCursor`).
-/

namespace CardanoIndexer.Polyphony

open Timbre Run

def lastPoint (enc : KeyEncoder) (store : Store) : Except WorkError (Option Point) :=
  match store.get enc.encodeCursorKey with
  | none => .ok none
  | some value =>
    match decodeCursorValue value with
    | none => .error .panic
    | some (point, _) => .ok (some point)

def CursorAt (enc : KeyEncoder) (store : Store) (point : Point) : Prop :=
  lastPoint enc store = .ok (some point)

theorem lastPoint_congr {enc : KeyEncoder} {store store' : Store}
    (h : store.get enc.encodeCursorKey = store'.get enc.encodeCursorKey) :
    lastPoint enc store = lastPoint enc store' := by
  rw [lastPoint, lastPoint, h]

theorem cursorAt_of_get {enc : KeyEncoder} {store : Store} {point : Point} {height : U64}
    (h : store.get enc.encodeCursorKey = some (encodeCursorValue point height)) :
    CursorAt enc store point := by
  obtain ⟨⟨point', height'⟩, hdecode, rfl⟩ :=
    Option.map_eq_some_iff.mp (decodeCursorValue_encodeCursorValue point height)
  simp only [CursorAt, lastPoint, h, hdecode]

def CursorNames (enc : KeyEncoder) (point : Point) (store : Store) : Prop :=
  point ≠ .origin → CursorAt enc store point

theorem indexOnly_cursorNames (enc : KeyEncoder) : IndexOnly enc (CursorNames enc) := by
  intro point store store' hget hnames hpoint
  rw [CursorAt, lastPoint_congr (hget _ KeyEncoder.indexKey_cursor)]
  exact hnames hpoint

/-! ## The batch -/

variable {outputs : List ReducerOutput} {order : IterationOrder} {worker : Worker} {number : U64}
  {ws : Writes} {v : Value}

namespace SyncBatcher

def OnlySets (batcher : SyncBatcher) (k : Key) : Prop :=
  ∀ op, batcher.batchActions.get k = some op → ∃ v, op = .set v

def EndsAtCursor (batcher : SyncBatcher) (enc : KeyEncoder) : Prop :=
  match batcher.lastPoint with
  | none => batcher.isEmpty = true
  | some point => ∃ height,
      batcher.batchActions.get enc.encodeCursorKey = some (.set (encodeCursorValue point height))

variable {batcher batcher' : SyncBatcher} {k : Key} {enc : KeyEncoder} {action : StorageAction}
  {now : U64}

theorem get_of_isEmpty (h : batcher.isEmpty = true) (k : Key) :
    batcher.batchActions.get k = none := by
  have hentries : batcher.batchActions.entries = [] := by simpa [isEmpty] using h
  simp [SortedMap.get, hentries, SortedMap.find]

theorem EndsAtCursor.onlySets (h : batcher.EndsAtCursor enc) :
    batcher.OnlySets enc.encodeCursorKey := by
  intro op hop
  unfold EndsAtCursor at h
  split at h
  · rw [get_of_isEmpty h] at hop
    cases hop
  · obtain ⟨height, hget⟩ := h
    rw [hget] at hop
    exact ⟨_, (Option.some.inj hop).symm⟩

theorem EndsAtCursor.lastPoint_of_isEmpty (h : batcher.EndsAtCursor enc)
    (hempty : batcher.isEmpty = true) : batcher.lastPoint = none := by
  cases hlast : batcher.lastPoint with
  | none => rfl
  | some point =>
    rw [EndsAtCursor, hlast] at h
    obtain ⟨height, hget⟩ := h
    rw [get_of_isEmpty hempty] at hget
    cases hget

theorem EndsAtCursor.isEmpty_of_lastPoint (h : batcher.EndsAtCursor enc)
    (hlast : batcher.lastPoint = none) : batcher.isEmpty = true := by
  rwa [EndsAtCursor, hlast] at h

theorem get_pushAction_set (hsets : batcher.OnlySets k)
    (h : batcher.pushAction ⟨k, .set v⟩ = .ok batcher') :
    batcher'.batchActions.get k = some (.set v) := by
  obtain ⟨-, hnone, hsome⟩ := get_pushAction h k
  cases hget : batcher.batchActions.get k with
  | none => exact hnone hget
  | some prev =>
    obtain ⟨merged, hmerge, hmerged⟩ := hsome prev hget
    obtain ⟨u, rfl⟩ := hsets prev hget
    cases hmerge
    exact hmerged

theorem OnlySets.pushAction (hsets : batcher.OnlySets k)
    (haction : action.key = k → ∃ v, action.op = .set v)
    (h : batcher.pushAction action = .ok batcher') : batcher'.OnlySets k := by
  by_cases hkey : action.key = k
  · obtain ⟨v, hop⟩ := haction hkey
    have hget : batcher'.batchActions.get k = some (.set v) :=
      get_pushAction_set hsets (by rw [← h, ← hkey, ← hop])
    intro op hop'
    rw [hget] at hop'
    exact ⟨v, (Option.some.inj hop').symm⟩
  · intro op hop
    rw [(get_pushAction h k).1 fun heq => hkey heq.symm] at hop
    exact hsets op hop

theorem set_of_mem_storageOps (hmem : action ∈ storageOps enc now outputs)
    (hkey : action.key = enc.encodeCursorKey) : ∃ v, action.op = .set v := by
  obtain ⟨output, -, hmem⟩ := List.mem_flatMap.mp hmem
  cases output with
  | data ops =>
    obtain ⟨dataOp, -, rfl⟩ := List.mem_map.mp hmem
    exact absurd hkey (KeyEncoder.dataKey_ne_cursorKey dataOp.tag dataOp.body)
  | cursor point height =>
    cases point with
    | origin =>
      rw [List.mem_singleton.mp hmem]
      exact ⟨_, rfl⟩
    | specific slot hash =>
      rcases List.mem_pair.mp hmem with rfl | rfl
      · exact ⟨_, rfl⟩
      · exact ⟨_, rfl⟩

theorem storageOps_reduced (enc : KeyEncoder) (now : U64) (outputs : List ReducerOutput)
    (point : Point) (number : U64) :
    ∃ rest, storageOps enc now (outputs ++ [.cursor point number]) =
        storageOps enc now outputs ++
          ⟨enc.encodeCursorKey, .set (encodeCursorValue point number)⟩ :: rest ∧
      ∀ a ∈ rest, a.key ≠ enc.encodeCursorKey := by
  cases point with
  | origin => exact ⟨[], by simp [storageOps, reducerOutputToStorageOps], nofun⟩
  | specific slot hash =>
    refine ⟨[⟨enc.encodeInfoKey, .set (encodeInfoValue (.specific slot hash) number now)⟩],
      by simp [storageOps, reducerOutputToStorageOps], fun a ha => ?_⟩
    rw [List.mem_singleton.mp ha]
    exact KeyEncoder.cursorKey_ne_infoKey.symm

theorem OnlySets.foldlM {actions : List StorageAction} (hsets : batcher.OnlySets k)
    (hactions : ∀ a ∈ actions, a.key = k → ∃ v, a.op = .set v)
    (h : actions.foldlM SyncBatcher.pushAction batcher = .ok batcher') : batcher'.OnlySets k := by
  induction actions generalizing batcher with
  | nil => cases h; exact hsets
  | cons a rest ih =>
    obtain ⟨next, hnext, hrest⟩ := Except.bind_eq_ok.mp (by simpa using h)
    exact ih (hsets.pushAction (hactions a (List.mem_cons_self ..)) hnext)
      (fun b hb => hactions b (List.mem_cons_of_mem _ hb)) hrest

theorem EndsAtCursor.pushActions {point : Point} (hsets : batcher.OnlySets enc.encodeCursorKey)
    (h : batcher.pushActions point (storageOps enc now (outputs ++ [.cursor point number])) =
      .ok batcher') : batcher'.lastPoint = some point ∧ batcher'.EndsAtCursor enc := by
  obtain ⟨rest, hops, hrest⟩ := storageOps_reduced enc now outputs point number
  obtain ⟨pushed, hpushed, hlast⟩ := Except.bind_eq_ok.mp h
  cases hlast
  rw [hops, List.foldlM_append] at hpushed
  obtain ⟨first, hfirst, hpushed⟩ := Except.bind_eq_ok.mp hpushed
  rw [List.foldlM_cons] at hpushed
  obtain ⟨mid, hmid, hpushed⟩ := Except.bind_eq_ok.mp hpushed
  have hfirstSets := hsets.foldlM (fun a ha => set_of_mem_storageOps ha) hfirst
  refine ⟨rfl, number, ?_⟩
  exact (get_foldlM_of_ne hrest hpushed).trans (get_pushAction_set hfirstSets hmid)

theorem endsAtCursor_wipe (batcher : SyncBatcher) : batcher.wipe.EndsAtCursor enc := rfl

theorem endsAtCursor_new (maxLen maxBytes : ℕ) : (new maxLen maxBytes).EndsAtCursor enc := rfl

end SyncBatcher

theorem SyncBatcher.EndsAtCursor.finishMutable {enc : KeyEncoder}
    (h : worker.syncBatcher.EndsAtCursor enc) (point : Point) (inverseOps : List StorageAction) :
    (World.finishMutable worker point inverseOps).syncBatcher.lastPoint = none ∧
      (World.finishMutable worker point inverseOps).syncBatcher.isEmpty = true := by
  simp only [World.finishMutable]
  split
  case isTrue hempty => exact ⟨h.lastPoint_of_isEmpty hempty, hempty⟩
  case isFalse => exact ⟨rfl, rfl⟩

/-! ## Executed batches -/

def CarriesOutSets
    (write : Option Value → StorageOp → Except WorkError (Option (Option Value))) : Prop :=
  ∀ prev v w, write prev (.set v) = .ok w → w.getD prev = some v

theorem carriesOutSets_plainWrite : CarriesOutSets StorageOp.plainWrite := by
  intro prev v w h
  cases h
  rfl

theorem carriesOutSets_inverseWrite : CarriesOutSets StorageOp.inverseWrite := by
  intro prev v w h
  cases prev with
  | none =>
    cases h
    rfl
  | some prevValue =>
    by_cases heq : prevValue = v
    · simp only [StorageOp.inverseWrite, heq, if_true] at h
      cases h
      rw [heq]
      rfl
    · simp only [StorageOp.inverseWrite, heq, if_false] at h
      cases h
      rfl

variable {batcher : SyncBatcher}

theorem get_applyWrites_of_set
    {write : Option Value → StorageOp → Except WorkError (Option (Option Value))}
    (hwrite : CarriesOutSets write) {store : Store} {k : Key}
    (hget : batcher.batchActions.get k = some (.set v))
    (hws : collectWrites write store.get (order.arrange batcher.getBatchActions) = .ok ws) :
    (store.applyWrites ws).get k = some v := by
  have hmem : (⟨k, .set v⟩ : StorageAction) ∈ order.arrange batcher.getBatchActions :=
    SyncBatcher.mem_arrange.mpr hget
  have hlast := lastWrite_collectWrites (batcher.nodup_keys_arrange order) hws hmem
  rw [SortedMap.get_applyWrites]
  exact hwrite _ _ _ hlast

theorem SyncBatcher.EndsAtCursor.cursorAt {enc : KeyEncoder} (h : batcher.EndsAtCursor enc)
    {point : Point} (hlast : batcher.lastPoint = some point) {store : Store}
    (hws : collectWrites StorageOp.plainWrite store.get
      (order.arrange batcher.getBatchActions) = .ok ws) :
    CursorAt enc (store.applyWrites ws) point := by
  rw [EndsAtCursor, hlast] at h
  obtain ⟨height, hget⟩ := h
  exact cursorAt_of_get (get_applyWrites_of_set carriesOutSets_plainWrite hget hws)

theorem MutableWrites.Built.cursorAt {w : MutableWrites} {env : Env} {point : Point} {store : Store}
    (h : w.Built worker env point
      (storageOps worker.keyEncoder env.now (outputs ++ [.cursor point number])) store) :
    CursorAt worker.keyEncoder ((store.applyWrites w.leftover).applyWrites w.block) point := by
  obtain ⟨merger, hmerger, hblock⟩ := h.block
  obtain ⟨hlast, hends⟩ := SyncBatcher.EndsAtCursor.pushActions
    (SyncBatcher.endsAtCursor_new 1 (2 ^ 64 - 1)).onlySets hmerger
  rw [SyncBatcher.EndsAtCursor, hlast] at hends
  obtain ⟨height, hget⟩ := hends
  exact cursorAt_of_get (get_applyWrites_of_set carriesOutSets_inverseWrite hget hblock)

end CardanoIndexer.Polyphony
