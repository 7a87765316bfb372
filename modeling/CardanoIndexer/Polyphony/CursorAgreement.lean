import CardanoIndexer.Polyphony.Batching
import CardanoIndexer.Polyphony.Cursor
import CardanoIndexer.Polyphony.Rewinding

/-!
# The stored cursor and the data agree
-/

namespace CardanoIndexer.Polyphony

open Timbre Run

/-! ## The delivered chain -/

structure DeliveredBlock where
  point : Point
  actions : List StorageAction

structure Delivered where
  mutableBlocks : List DeliveredBlock
  immutableBlocks : List DeliveredBlock

def actionsOf (blocks : List DeliveredBlock) : List StorageAction :=
  blocks.reverse.flatMap DeliveredBlock.actions

def StorageActionPayload.ops (enc : KeyEncoder) (now : U64) :
    StorageActionPayload → List StorageAction
  | .rollForward _ outputs _ => storageOps enc now outputs
  | .rollBack _ => []

namespace Delivered

def blocks (chain : Delivered) : List DeliveredBlock :=
  chain.mutableBlocks ++ chain.immutableBlocks

def advance (enc : KeyEncoder) (chain : Delivered) (input : Env × StorageActionPayload) :
    Delivered :=
  match input.2 with
  | .rollForward point outputs true =>
    { chain with
      mutableBlocks := ⟨point, storageOps enc input.1.now outputs⟩ :: chain.mutableBlocks }
  | .rollForward point outputs false =>
    { chain with
      immutableBlocks := ⟨point, storageOps enc input.1.now outputs⟩ :: chain.immutableBlocks }
  | .rollBack point =>
    { chain with mutableBlocks := chain.mutableBlocks.dropWhile fun block => block.point ≠ point }

def accepts (enc : KeyEncoder) (chain : Delivered) (input : Env × StorageActionPayload) : Bool :=
  input.2.endsWithCursor &&
    (match input.2 with
      | .rollForward _ _ true => true
      | .rollForward _ _ false => chain.mutableBlocks.isEmpty
      | .rollBack point => point ∈ chain.mutableBlocks.map DeliveredBlock.point) &&
    safeFrom false ∅ (actionsOf (chain.advance enc input).blocks)

def acceptsAll (enc : KeyEncoder) : Delivered → List (Env × StorageActionPayload) → Bool
  | _, [] => true
  | chain, input :: rest => chain.accepts enc input && acceptsAll enc (chain.advance enc input) rest

def after (enc : KeyEncoder) (inputs : List (Env × StorageActionPayload)) : Delivered :=
  inputs.foldl (advance enc) ⟨[], []⟩

theorem acceptsAll_concat (enc : KeyEncoder) (chain : Delivered)
    (inputs : List (Env × StorageActionPayload)) (input : Env × StorageActionPayload) :
    acceptsAll enc chain (inputs ++ [input]) =
      (acceptsAll enc chain inputs && (inputs.foldl (advance enc) chain).accepts enc input) := by
  induction inputs generalizing chain with
  | nil => simp [acceptsAll]
  | cons i rest ih => simp only [List.cons_append, acceptsAll, ih, List.foldl_cons, Bool.and_assoc]

theorem after_concat (enc : KeyEncoder) (inputs : List (Env × StorageActionPayload))
    (input : Env × StorageActionPayload) :
    after enc (inputs ++ [input]) = (after enc inputs).advance enc input := by
  simp [after]

end Delivered

theorem actionsOf_append (newer older : List DeliveredBlock) :
    actionsOf (newer ++ older) = actionsOf older ++ actionsOf newer := by
  simp [actionsOf]

theorem actionsOf_singleton (block : DeliveredBlock) : actionsOf [block] = block.actions := by
  simp [actionsOf]

/-! ## Stores against the chain -/

structure StandsAt (kind : Key → Kind) (enc : KeyEncoder) (blocks : List DeliveredBlock)
    (store : Store) : Prop where
  wellFormed : ∀ k, enc.IndexKey k → WellFormed (kind k) (store.get k)
  reads : ∀ k, enc.IndexKey k →
    meaning kind store k = applyOps (opsAt k (actionsOf blocks)) (meaning kind ∅ k)
  cursor : ∀ block, blocks.head? = some block → CursorAt enc store block.point

def Agrees (kind : Key → Kind) (enc : KeyEncoder) (chain : Delivered) (store : Store) : Prop :=
  ∃ newer block older, chain.blocks = newer ++ block :: older ∧
    StandsAt kind enc (block :: older) store

def RewindsAlong (P : List DeliveredBlock → Store → Prop) :
    Store → List (PointWithResult (List StorageAction)) → List DeliveredBlock → Prop
  | _, [], _ => True
  | _, _ :: _, [] => True
  | store, undo :: rest, block :: older =>
    undo.point = block.point ∧ P (block :: older) store ∧
      RewindsAlong P (store.applyWrites (undoWrites undo.result.reverse)) rest older

section Rewinding

variable {kind : Key → Kind} {enc : KeyEncoder} {blocks : List DeliveredBlock}
  {store store' : Store}

theorem StandsAt.congr (h : StandsAt kind enc blocks store)
    (hstore : ∀ k, enc.IndexKey k → store'.get k = store.get k) :
    StandsAt kind enc blocks store' := by
  refine ⟨fun k hk => ?_, fun k hk => ?_, fun block hblock => ?_⟩
  · rw [hstore k hk]
    exact h.wellFormed k hk
  · rw [meaning, hstore k hk]
    exact h.reads k hk
  · rw [CursorAt, lastPoint_congr (hstore _ KeyEncoder.indexKey_cursor)]
    exact h.cursor block hblock

variable {P : List DeliveredBlock → Store → Prop}
  {buffer : List (PointWithResult (List StorageAction))}

theorem RewindsAlong.congr
    (hP : ∀ {blocks store store'}, (∀ k, enc.IndexKey k → store'.get k = store.get k) →
      P blocks store → P blocks store')
    (h : RewindsAlong P store buffer blocks)
    (hstore : ∀ k, enc.IndexKey k → store'.get k = store.get k) :
    RewindsAlong P store' buffer blocks := by
  induction buffer generalizing store store' blocks with
  | nil => trivial
  | cons undo rest ih =>
    cases blocks with
    | nil => trivial
    | cons block older =>
      obtain ⟨hpoint, hblock, hrest⟩ := h
      exact ⟨hpoint, hP hstore hblock,
        ih hrest fun k hk => SortedMap.get_applyWrites_congr (hstore k hk) _⟩

theorem RewindsAlong.take (h : RewindsAlong P store buffer blocks) (n : ℕ) :
    RewindsAlong P store (buffer.take n) blocks := by
  induction buffer generalizing store blocks n with
  | nil => simpa using h
  | cons undo rest ih =>
    cases n with
    | zero => trivial
    | succ n =>
      cases blocks with
      | nil => trivial
      | cons block older => exact ⟨h.1, h.2.1, ih h.2.2 n⟩

theorem RewindsAlong.cut {point : Point} {since rest : List (PointWithResult (List StorageAction))}
    {block : PointWithResult (List StorageAction)}
    (h : RewindsAlong P store (since ++ block :: rest) blocks)
    (hsince : point ∉ since.map PointWithResult.point) (hblock : block.point = point)
    (hmem : point ∈ blocks.map DeliveredBlock.point) :
    let kept := blocks.dropWhile fun b => b.point ≠ point
    kept ≠ [] ∧ P kept (store.applyWrites (undoWrites (inverseActions since))) ∧
      RewindsAlong P (store.applyWrites (undoWrites (inverseActions since))) (block :: rest) kept := by
  induction since generalizing store blocks with
  | nil =>
    cases blocks with
    | nil => cases hmem
    | cons head older =>
      obtain ⟨hpoint, hhead, hrest⟩ := h
      have hkept : (head :: older).dropWhile (fun b => b.point ≠ point) = head :: older := by
        rw [List.dropWhile_cons_of_neg (by simp [← hpoint, hblock])]
      simp only [hkept]
      exact ⟨nofun, hhead, hpoint, hhead, hrest⟩
  | cons undo since ih =>
    cases blocks with
    | nil => cases hmem
    | cons head older =>
      obtain ⟨hpoint, -, hrest⟩ := h
      rw [List.map_cons, List.mem_cons, not_or] at hsince
      have hne : head.point ≠ point := fun heq => hsince.1 (by rw [hpoint, heq])
      have hmem' : point ∈ older.map DeliveredBlock.point := by
        rcases List.mem_cons.mp hmem with heq | hmem
        · exact absurd heq.symm hne
        · exact hmem
      have hundo : undoWrites (inverseActions (undo :: since)) =
          undoWrites undo.result.reverse ++ undoWrites (inverseActions since) := by
        simp [undoWrites, inverseActions]
      rw [List.dropWhile_cons_of_pos (by simpa using hne), hundo,
        SortedMap.applyWrites_append]
      exact ih hrest hsince.2 hmem'

end Rewinding

/-! ## Batches on top of the chain -/

structure SoundChain (kind : Key → Kind) (enc : KeyEncoder) (blocks : List DeliveredBlock) :
    Prop where
  keys : ∀ a ∈ actionsOf blocks, enc.IndexKey a.key
  kinds : RespectsKinds kind (actionsOf blocks)
  safe : ∀ k, SafeOps (opsAt k (actionsOf blocks)) (meaning kind ∅ k)

variable {ws : Writes}

section Batches

variable {kind : Key → Kind} {enc : KeyEncoder} {newer older : List DeliveredBlock}
  {store : Store} {batcher : SyncBatcher}

theorem StandsAt.wellFormedStore (h : StandsAt kind enc older store)
    (hcounters : ∀ k, kind k ≠ .value → enc.IndexKey k) : WellFormedStore kind store := by
  intro k
  by_cases hk : kind k = .value
  · rw [hk]
    exact WellFormed.of_value _
  · exact h.wellFormed k (hcounters k hk)

theorem StandsAt.safeOps (h : StandsAt kind enc older store)
    (hsound : SoundChain kind enc (newer ++ older)) (k : Key) :
    SafeOps (opsAt k (actionsOf newer)) (meaning kind store k) := by
  by_cases hk : enc.IndexKey k
  · have hsafe := hsound.safe k
    rw [actionsOf_append, opsAt_append, safeOps_append] at hsafe
    rw [h.reads k hk]
    exact hsafe.2
  · have hnot : k ∉ (actionsOf newer).map StorageAction.key := by
      intro hmem
      obtain ⟨a, ha, rfl⟩ := List.mem_map.mp hmem
      refine hk (hsound.keys a ?_)
      rw [actionsOf_append]
      exact List.mem_append_right _ ha
    rw [opsAt_eq_nil hnot]
    trivial

theorem StandsAt.represents_push (h : StandsAt kind enc older store)
    (hcounters : ∀ k, kind k ≠ .value → enc.IndexKey k) {block : DeliveredBlock}
    (hsound : SoundChain kind enc (block :: newer ++ older))
    (hrep : Represents kind (meaning kind store) batcher.batchActions (actionsOf newer))
    {point : Point} {batcher' : SyncBatcher}
    (hpush : batcher.pushActions point block.actions = .ok batcher') :
    Represents kind (meaning kind store) batcher'.batchActions (actionsOf (block :: newer)) := by
  have hactions : actionsOf (block :: newer) = actionsOf newer ++ block.actions := by
    rw [← List.singleton_append, actionsOf_append, actionsOf_singleton]
  have hkinds : RespectsKinds kind block.actions := by
    intro a ha
    refine hsound.kinds a ?_
    rw [actionsOf_append, hactions]
    exact List.mem_append_right _ (List.mem_append_right _ ha)
  have hsafe := h.safeOps hsound
  rw [hactions] at hsafe ⊢
  obtain ⟨pushed, hpushed, hrep'⟩ := hrep.pushActions
    (fun k => Cell.fits_ofStored (h.wellFormedStore hcounters k)) hkinds hsafe point
  cases hpush.symm.trans hpushed
  exact hrep'

theorem StandsAt.applyBatch
    {write : Option Value → StorageOp → Except WorkError (Option (Option Value))}
    (h : StandsAt kind enc older store) (hcounters : ∀ k, kind k ≠ .value → enc.IndexKey k)
    (hfaithful : Faithful write)
    (hrep : Represents kind (meaning kind store) batcher.batchActions (actionsOf newer))
    {order : IterationOrder}
    (hws : collectWrites write store.get (order.arrange batcher.getBatchActions) = .ok ws)
    (hcursor : ∀ block, (newer ++ older).head? = some block →
      CursorAt enc (store.applyWrites ws) block.point) :
    StandsAt kind enc (newer ++ older) (store.applyWrites ws) := by
  obtain ⟨executed, hexecuted, hwf, hmeaning⟩ :=
    exists_collectWrites_batch hfaithful (h.wellFormedStore hcounters) hrep order
  cases hws.symm.trans hexecuted
  refine ⟨fun k _ => hwf k, fun k hk => ?_, hcursor⟩
  rw [hmeaning k, h.reads k hk, actionsOf_append, opsAt_append, applyOps_append]

theorem represents_of_isEmpty {cells : Key → Cell} (hempty : batcher.isEmpty = true) :
    Represents kind cells batcher.batchActions (actionsOf []) := by
  intro k
  rw [SyncBatcher.get_of_isEmpty hempty]
  rfl

end Batches

/-! ## The invariant -/

structure AgreeInv (kind : Key → Kind) (enc : KeyEncoder) (chain : Delivered) (world : World) :
    Prop where
  encoder : world.worker.keyEncoder = enc
  batch : world.worker.syncBatcher.EndsAtCursor enc
  restoring : RestoringBuffer world.worker.rollbackBuffer
  split : ∃ pending committed, chain.blocks = pending ++ committed ∧
    (chain.mutableBlocks ≠ [] → pending = []) ∧
    world.worker.syncBatcher.lastPoint = pending.head?.map DeliveredBlock.point ∧
    Represents kind (meaning kind world.tikv.store) world.worker.syncBatcher.batchActions
      (actionsOf pending) ∧
    StandsAt kind enc committed world.tikv.store
  buffer : world.worker.rollbackBuffer.isEmpty = true → chain.mutableBlocks = []
  rewinds : RewindsAlong (fun blocks => StandsAt kind enc (blocks ++ chain.immutableBlocks))
    world.tikv.store world.worker.rollbackBuffer.blocks chain.mutableBlocks

theorem rewindsAlong_nil (P : List DeliveredBlock → Store → Prop) (store : Store)
    (buffer : List (PointWithResult (List StorageAction))) : RewindsAlong P store buffer [] := by
  cases buffer with
  | nil => trivial
  | cons undo rest => trivial

variable {input : Env × StorageActionPayload} {a : StorageAction}

section Steps

variable {kind : Key → Kind} {enc : KeyEncoder} {chain : Delivered} {world world' : World}
  {env : Env} {point : Point} {outputs : List ReducerOutput} {number : U64}

theorem AgreeInv.flushed (h : AgreeInv kind enc chain world)
    (hcounters : ∀ k, kind k ≠ .value → enc.IndexKey k)
    (hws : World.batchWrites world.worker env world.tikv.store = .ok ws) :
    StandsAt kind enc chain.blocks (world.tikv.store.applyWrites ws) := by
  obtain ⟨pending, committed, hblocks, -, hlast, hrep, hstands⟩ := h.split
  rw [hblocks]
  refine hstands.applyBatch hcounters faithful_plainWrite hrep hws fun block hhead => ?_
  cases pending with
  | nil =>
    rw [World.batchWrites,
      SyncBatcher.arrange_of_isEmpty (h.batch.isEmpty_of_lastPoint hlast)] at hws
    cases hws
    exact hstands.cursor block hhead
  | cons newest pending =>
    cases hhead
    exact h.batch.cursorAt hlast hws

theorem extends_agrees {advertise : Option Bool} {work : WorkTxn} {verifyPoint : Option Point}
    (hencoder : world.worker.keyEncoder = enc) (hbase : work.txn.base = world.tikv.store)
    (htracks : work.TracksOn enc.IndexKey) {newer blocks : List DeliveredBlock}
    (hchain : chain.blocks = newer ++ blocks) (hne : blocks ≠ [])
    (hview : StandsAt kind enc blocks work.txn.view) :
    world.tikv.Extends (world.afterCommit env point advertise work verifyPoint).tikv
      (Agrees kind enc chain) := by
  have hextends : world.tikv.Extends
      (world.afterCommit env point advertise work verifyPoint).tikv
      fun store => ∀ k, enc.IndexKey k → store.get k = work.txn.view.get k :=
    World.extends_afterCommit_of_tracksOn hbase
      (by rw [hencoder]; exact KeyEncoder.not_indexKey_verificationKey) htracks
  refine ⟨hextends.lastTs_le, hextends.snapshotAt_eq, fun v hv => ?_⟩
  refine (hextends.versions v hv).imp id fun hget => ?_
  obtain ⟨block, older, rfl⟩ := List.exists_cons_of_ne_nil hne
  exact ⟨newer, block, older, hchain, hview.congr hget⟩

def reducedBlock (enc : KeyEncoder) (now : U64) (point : Point) (number : U64)
    (outputs : List ReducerOutput) : DeliveredBlock :=
  ⟨point, storageOps enc now (outputs ++ [.cursor point number])⟩

theorem AgreeInv.immutable (h : AgreeInv kind enc chain world)
    (hcounters : ∀ k, kind k ≠ .value → enc.IndexKey k) (hfirst : chain.mutableBlocks = [])
    (hsound : SoundChain kind enc
      (chain.advance enc (env, reduceBlock point number outputs false)).blocks)
    (hstep : world.step (env, reduceBlock point number outputs false) = .ok world') :
    AgreeInv kind enc (chain.advance enc (env, reduceBlock point number outputs false)) world' ∧
      world.tikv.Extends world'.tikv
        (Agrees kind enc (chain.advance enc (env, reduceBlock point number outputs false))) := by
  set block := reducedBlock enc env.now point number outputs
  have hencoder := h.encoder
  have hmutable : (chain.advance enc
      (env, reduceBlock point number outputs false)).mutableBlocks = [] := hfirst
  have hchain : (chain.advance enc (env, reduceBlock point number outputs false)).blocks =
      [block] ++ chain.blocks := by
    rw [Delivered.blocks, Delivered.blocks, hmutable, hfirst]
    rfl
  rw [hchain] at hsound
  rcases World.step_immutable hstep with
    ⟨-, batcher, hpush, rfl⟩ | ⟨-, ws, batcher, hws, hpush, rfl⟩
  · rw [hencoder] at hpush
    obtain ⟨hlast, hbatch⟩ := SyncBatcher.EndsAtCursor.pushActions h.batch.onlySets hpush
    obtain ⟨pending, committed, hblocks, -, -, hrep, hstands⟩ := h.split
    rw [hblocks] at hsound hchain
    refine ⟨⟨hencoder, hbatch, h.restoring, ⟨block :: pending, committed, hchain,
      fun hne => absurd hmutable hne, hlast,
      hstands.represents_push hcounters hsound hrep hpush, hstands⟩, fun _ => hmutable, ?_⟩,
      VersionedStore.Extends.refl _ _⟩
    rw [hmutable]
    exact rewindsAlong_nil _ _ _
  · rw [hencoder] at hpush
    obtain ⟨hlast, hbatch⟩ := SyncBatcher.EndsAtCursor.pushActions
      (SyncBatcher.endsAtCursor_wipe _).onlySets hpush
    have hflushed := h.flushed hcounters hws
    have hstands : StandsAt kind enc chain.blocks (world.afterFlush env point ws).tikv.store :=
      hflushed.congr fun k hk => World.indexed_afterCommit_flush ws (by rwa [hencoder])
    refine ⟨⟨?_, hbatch, ?_, ⟨[block], chain.blocks, hchain, fun hne => absurd hmutable hne, hlast,
      hstands.represents_push hcounters hsound (represents_of_isEmpty rfl) hpush, hstands⟩,
      fun _ => hmutable, ?_⟩, ?_⟩
    · simpa using hencoder
    · simpa using h.restoring
    · rw [hmutable]
      exact rewindsAlong_nil _ _ _
    · by_cases hne : chain.blocks = []
      · -- nothing was delivered, so there is nothing to flush
        obtain ⟨pending, committed, hblocks, -, hnone, -, -⟩ := h.split
        have hpending : pending = [] := (List.append_eq_nil_iff.mp (hblocks ▸ hne)).1
        rw [hpending] at hnone
        rw [World.batchWrites,
          SyncBatcher.arrange_of_isEmpty (h.batch.isEmpty_of_lastPoint hnone)] at hws
        cases hws
        rw [World.afterFlush, hnone]
        have htikv := (World.afterCommit_flush_nil world env point (some false)).1
        simp only [List.head?_nil, Option.map_none, htikv]
        exact VersionedStore.Extends.refl _ _
      · refine extends_agrees hencoder rfl (tracksOn_flushWork world ws _) hchain hne ?_
        simpa [World.flushWork] using hflushed

theorem AgreeInv.rewinds_anchoredBlocks (h : AgreeInv kind enc chain world)
    (hws : World.batchWrites world.worker env world.tikv.store = .ok ws) :
    RewindsAlong (fun blocks => StandsAt kind enc (blocks ++ chain.immutableBlocks))
      (world.tikv.store.applyWrites ws) (anchoredBlocks world.worker) chain.mutableBlocks := by
  by_cases hne : chain.mutableBlocks = []
  · rw [hne]
    exact rewindsAlong_nil _ _ _
  · obtain ⟨pending, committed, -, hpending, hlast, -, -⟩ := h.split
    rw [hpending hne] at hlast
    rw [World.batchWrites,
      SyncBatcher.arrange_of_isEmpty (h.batch.isEmpty_of_lastPoint hlast)] at hws
    cases hws
    have hbuffer : ¬ world.worker.rollbackBuffer.isEmpty = true := fun hempty =>
      hne (h.buffer hempty)
    rw [anchoredBlocks, if_neg hbuffer, SortedMap.applyWrites_nil]
    exact h.rewinds

theorem AgreeInv.mutable (h : AgreeInv kind enc chain world)
    (hcounters : ∀ k, kind k ≠ .value → enc.IndexKey k)
    (hsound : SoundChain kind enc
      (chain.advance enc (env, reduceBlock point number outputs true)).blocks)
    (hstep : world.step (env, reduceBlock point number outputs true) = .ok world') :
    AgreeInv kind enc (chain.advance enc (env, reduceBlock point number outputs true)) world' ∧
      world.tikv.Extends world'.tikv
        (Agrees kind enc (chain.advance enc (env, reduceBlock point number outputs true))) := by
  set block := reducedBlock enc env.now point number outputs
  have hencoder := h.encoder
  have hchain : (chain.advance enc (env, reduceBlock point number outputs true)).blocks =
      [block] ++ chain.blocks := rfl
  rw [hchain] at hsound
  obtain ⟨w, hbuilt, rfl⟩ := World.step_mutable.mp hstep
  have hblocks := blocks_afterMutable world env point (some true)
    (w.work world.worker world.tikv.store) (some point) (w.inverses world.tikv.store)
  have hbatch : (world.afterMutable env point w).worker.syncBatcher.EndsAtCursor enc := by
    simpa using h.batch
  obtain ⟨hlast, hempty⟩ := hbatch.finishMutable point (w.inverses world.tikv.store)
  -- the leftover batch, then the block on top of it
  have hbelow := h.flushed hcounters hbuilt.leftover
  have habove : StandsAt kind enc ([block] ++ chain.blocks)
      ((world.tikv.store.applyWrites w.leftover).applyWrites w.block) := by
    have hcursor := hbuilt.cursorAt
    obtain ⟨merger, hmerger, hws⟩ := hbuilt.block
    rw [hencoder] at hmerger hcursor
    refine hbelow.applyBatch hcounters faithful_inverseWrite
      (hbelow.represents_push hcounters hsound (represents_of_isEmpty rfl) hmerger) hws ?_
    intro newest hnewest
    cases hnewest
    exact hcursor
  have hstands : StandsAt kind enc ([block] ++ chain.blocks)
      (world.afterMutable env point w).tikv.store :=
    habove.congr fun k hk => World.indexed_afterCommit_mutable hbuilt (by rwa [hencoder])
  refine ⟨⟨?_, ?_, restoringBuffer_mutable h.restoring _ _ _, ⟨[], [block] ++ chain.blocks, rfl,
    fun _ => rfl, hlast, represents_of_isEmpty hempty, hstands⟩, ?_, ?_⟩, ?_⟩
  · simpa [World.finishMutable] using hencoder
  · rw [SyncBatcher.EndsAtCursor, hlast]
    exact hempty
  · intro hbuffer
    rw [RollbackBuffer.isEmpty, hblocks] at hbuffer
    simp [maxBufferLen] at hbuffer
  · rw [hblocks]
    have hall : RewindsAlong (fun blocks => StandsAt kind enc (blocks ++ chain.immutableBlocks))
        (world.afterMutable env point w).tikv.store
        (⟨point, w.inverses world.tikv.store⟩ :: anchoredBlocks world.worker)
        (block :: chain.mutableBlocks) := by
      refine ⟨rfl, hstands, ?_⟩
      exact (h.rewinds_anchoredBlocks hbuilt.leftover).congr (fun hget hat => hat.congr hget)
        fun k hk => get_undo_mutable hbuilt (by rwa [hencoder])
    exact hall.take _
  · refine extends_agrees hencoder rfl (hencoder ▸ hbuilt.tracksOn) (List.nil_append _).symm
      (List.cons_ne_nil _ _) (habove.congr fun k hk => ?_)
    exact hbuilt.view fun hplane =>
      KeyEncoder.not_indexKey_of_rollbackPrefix hplane (by rwa [hencoder])

theorem AgreeInv.rollBack (h : AgreeInv kind enc chain world)
    (hmem : point ∈ chain.mutableBlocks.map DeliveredBlock.point)
    (hstep : world.step (env, .rollBack point) = .ok world') :
    AgreeInv kind enc (chain.advance enc (env, .rollBack point)) world' ∧
      world.tikv.Extends world'.tikv
        (Agrees kind enc (chain.advance enc (env, .rollBack point))) := by
  have hencoder := h.encoder
  obtain ⟨-, undone, buffer, hbuffer, rfl⟩ := (World.step_rollBack h.restoring).mp hstep
  obtain ⟨hsplit, hbefore, block, rest, hat, hpoint⟩ :=
    RollbackBuffer.rollbackToPoint_eq_ok hbuffer
  have hrewinds := h.rewinds
  rw [hsplit, hat] at hrewinds
  obtain ⟨hkept, hstands, hrest⟩ := hrewinds.cut hbefore hpoint hmem
  have hget : ∀ k, enc.IndexKey k → (world.afterRollBack env point undone).tikv.store.get k =
        (world.tikv.store.applyWrites (undoWrites (inverseActions undone))).get k :=
    fun k hk => World.indexed_afterCommit_rollBack undone (by rwa [hencoder])
  -- no block waits in the batcher once mutable blocks were delivered
  have hmutable : chain.mutableBlocks ≠ [] := by
    rintro hnil
    rw [hnil] at hmem
    cases hmem
  obtain ⟨pending, committed, -, hpending, hlast, -, -⟩ := h.split
  rw [hpending hmutable] at hlast
  refine ⟨⟨?_, ?_, restoringBuffer_rollBack hbuffer h.restoring,
    ⟨[], _, rfl, fun _ => rfl, ?_, ?_, hstands.congr hget⟩, ?_, ?_⟩, ?_⟩
  · simpa using hencoder
  · simpa using h.batch
  · simpa using hlast
  · exact represents_of_isEmpty (by simpa using h.batch.isEmpty_of_lastPoint hlast)
  · intro hempty
    rw [RollbackBuffer.isEmpty, hat] at hempty
    cases hempty
  · rw [hat]
    exact hrest.congr (fun hget hat => hat.congr hget) hget
  · refine extends_agrees hencoder rfl (tracksOn_rollBackWork _ _ _ _ _) (List.nil_append _).symm
      (List.append_ne_nil_of_left_ne_nil hkept _) (hstands.congr fun k hk => ?_)
    exact view_rollBackWork (by rwa [hencoder]) _ _ _

theorem AgreeInv.step (h : AgreeInv kind enc chain world)
    (hcounters : ∀ k, kind k ≠ .value → enc.IndexKey k) (haccepts : chain.accepts enc input = true)
    (hsound : SoundChain kind enc (chain.advance enc input).blocks)
    (hstep : world.step input = .ok world') :
    AgreeInv kind enc (chain.advance enc input) world' ∧
      world.tikv.Extends world'.tikv (Agrees kind enc (chain.advance enc input)) := by
  obtain ⟨env, message⟩ := input
  rw [Delivered.accepts, Bool.and_eq_true, Bool.and_eq_true] at haccepts
  obtain ⟨⟨hends, horder⟩, -⟩ := haccepts
  cases message with
  | rollBack point => exact h.rollBack (by simpa using horder) hstep
  | rollForward point outputs isMutable =>
    obtain ⟨number, rest, hmessage⟩ := endsWithCursor_rollForward.mp hends
    rw [hmessage] at hstep hsound ⊢
    cases isMutable with
    | false => exact h.immutable hcounters (by simpa using horder) hsound hstep
    | true => exact h.mutable hcounters hsound hstep

end Steps

/-! ## Runs -/

def deliveredActions (enc : KeyEncoder) (inputs : List (Env × StorageActionPayload)) :
    List StorageAction :=
  inputs.flatMap fun input => input.2.ops enc input.1.now

theorem mem_actionsOf {blocks : List DeliveredBlock} :
    a ∈ actionsOf blocks ↔ ∃ block ∈ blocks, a ∈ block.actions := by
  simp [actionsOf]

variable {chain : Delivered}

theorem mem_actionsOf_advance {enc : KeyEncoder}
    (h : a ∈ actionsOf (chain.advance enc input).blocks) :
    a ∈ actionsOf chain.blocks ∨ a ∈ input.2.ops enc input.1.now := by
  simp only [mem_actionsOf, Delivered.blocks, List.mem_append] at h ⊢
  obtain ⟨block, hblock, ha⟩ := h
  obtain ⟨env, message⟩ := input
  cases message with
  | rollBack point =>
    exact Or.inl ⟨block, hblock.imp (fun h => List.dropWhile_subset _ h) id, ha⟩
  | rollForward point outputs isMutable =>
    cases isMutable with
    | false =>
      rcases hblock with hblock | hblock
      · exact Or.inl ⟨block, Or.inl hblock, ha⟩
      · rcases List.mem_cons.mp hblock with rfl | hblock
        · exact Or.inr ha
        · exact Or.inl ⟨block, Or.inr hblock, ha⟩
    | true =>
      rcases hblock with hblock | hblock
      · rcases List.mem_cons.mp hblock with rfl | hblock
        · exact Or.inr ha
        · exact Or.inl ⟨block, Or.inl hblock, ha⟩
      · exact Or.inl ⟨block, Or.inr hblock, ha⟩

theorem mem_deliveredActions {enc : KeyEncoder} {inputs : List (Env × StorageActionPayload)}
    (h : a ∈ actionsOf (Delivered.after enc inputs).blocks) : a ∈ deliveredActions enc inputs := by
  induction inputs using List.reverseRecOn with
  | nil => simp [Delivered.after, Delivered.blocks, actionsOf] at h
  | append_singleton past input ih =>
    rw [Delivered.after_concat] at h
    rw [deliveredActions, List.flatMap_append, List.mem_append]
    exact (mem_actionsOf_advance h).imp ih fun ha => by simpa using ha

theorem indexKey_of_mem_deliveredActions {enc : KeyEncoder}
    {inputs : List (Env × StorageActionPayload)} (h : a ∈ deliveredActions enc inputs) :
    enc.IndexKey a.key := by
  obtain ⟨⟨env, message⟩, -, ha⟩ := List.mem_flatMap.mp h
  cases message with
  | rollForward point outputs isMutable => exact indexKey_of_mem_storageOps ha
  | rollBack point => cases ha

theorem Delivered.safe_of_accepts {enc : KeyEncoder} (h : chain.accepts enc input = true) :
    safeFrom false ∅ (actionsOf (chain.advance enc input).blocks) = true := by
  rw [accepts, Bool.and_eq_true] at h
  exact h.2

section Runs

variable {kind : Key → Kind} {enc : KeyEncoder} {inputs : List (Env × StorageActionPayload)}

theorem wellFormedStore_empty (kind : Key → Kind) : WellFormedStore kind ∅ :=
  fun k => WellFormed.none (kind k)

theorem soundChain_after (hkinds : RespectsKinds kind (deliveredActions enc inputs))
    (hsafe : safeFrom false ∅ (actionsOf (Delivered.after enc inputs).blocks) = true) :
    SoundChain kind enc (Delivered.after enc inputs).blocks := by
  have hchain : RespectsKinds kind (actionsOf (Delivered.after enc inputs).blocks) :=
    fun a ha => hkinds a (mem_deliveredActions ha)
  obtain ⟨_, -, -, -, hcells⟩ :=
    exists_executeOneByOne false hchain (wellFormedStore_empty kind) hsafe
  exact ⟨fun a ha => indexKey_of_mem_deliveredActions (mem_deliveredActions ha), hchain,
    fun k => (hcells k).1⟩

theorem Agrees.exists_reference {store : Store} (h : Agrees kind enc chain store)
    (hkinds : RespectsKinds kind (actionsOf chain.blocks))
    (hsafe : safeFrom false ∅ (actionsOf chain.blocks) = true) :
    ∃ newer block older reference, chain.blocks = newer ++ block :: older ∧
      lastPoint enc store = .ok (some block.point) ∧
      executeOneByOne false ∅ (actionsOf (block :: older)) = .ok reference ∧
      ∀ k, enc.IndexKey k → meaning kind store k = meaning kind reference k := by
  obtain ⟨newer, block, older, hblocks, hstands⟩ := h
  rw [hblocks, actionsOf_append] at hkinds hsafe
  obtain ⟨reference, hreference, -, -, hcells⟩ := exists_executeOneByOne false
    (fun a ha => hkinds a (List.mem_append_left _ ha)) (wellFormedStore_empty kind)
    (safeFrom_of_append hsafe)
  exact ⟨newer, block, older, reference, hblocks, hstands.cursor block rfl, hreference,
    fun k hk => (hstands.reads k hk).trans (hcells k).2.symm⟩

end Runs

theorem agreeInv_run {kind : Key → Kind} {enc : KeyEncoder} {world₀ world : World}
    {inputs : List (Env × StorageActionPayload)}
    (hcounters : ∀ k, kind k ≠ .value → enc.IndexKey k)
    (hencoder : world₀.worker.keyEncoder = enc) (hstore : world₀.tikv.store = ∅)
    (hbatch : world₀.worker.syncBatcher.lastPoint = none ∧
      world₀.worker.syncBatcher.isEmpty = true)
    (hbuffer : world₀.worker.rollbackBuffer.isEmpty = true)
    (haccepts : Delivered.acceptsAll enc ⟨[], []⟩ inputs = true)
    (hkinds : RespectsKinds kind (deliveredActions enc inputs))
    (hrun : run World.step world₀ inputs = .ok world) :
    AgreeInv kind enc (Delivered.after enc inputs) world := by
  refine invariant (I := fun past mid => Delivered.acceptsAll enc ⟨[], []⟩ past = true →
    RespectsKinds kind (deliveredActions enc past) →
      AgreeInv kind enc (Delivered.after enc past) mid)
    (fun _ _ => ?_) ?_ hrun haccepts hkinds
  · have hblocks : world₀.worker.rollbackBuffer.blocks = [] := by
      simpa [RollbackBuffer.isEmpty] using hbuffer
    refine ⟨hencoder, ?_, by simp [RestoringBuffer, hblocks],
      ⟨[], [], rfl, fun _ => rfl, hbatch.1, represents_of_isEmpty hbatch.2, ?_⟩, fun _ => rfl,
      rewindsAlong_nil _ _ _⟩
    · rw [SyncBatcher.EndsAtCursor, hbatch.1]
      exact hbatch.2
    · rw [hstore]
      refine ⟨fun k _ => wellFormedStore_empty kind k, fun k _ => rfl, ?_⟩
      intro point hpoint
      cases hpoint
  · intro past mid input world' _ hinv hstep haccepts hkinds
    rw [Delivered.acceptsAll_concat, Bool.and_eq_true] at haccepts
    have hpast := hinv haccepts.1 fun a ha => hkinds a (by
      rw [deliveredActions, List.flatMap_append]
      exact List.mem_append_left _ ha)
    have hsound : SoundChain kind enc (Delivered.after enc (past ++ [input])).blocks := by
      refine soundChain_after hkinds ?_
      rw [Delivered.after_concat]
      exact Delivered.safe_of_accepts haccepts.2
    rw [Delivered.after_concat] at hsound ⊢
    exact (hpast.step hcounters haccepts.2 hsound hstep).1

def sampleAgreeInputs : List (Env × StorageActionPayload) :=
  [(.plain, sampleBlock 10 1 [⟨7, [1], .set [5]⟩, ⟨7, [2], .incrementU64 4⟩] false),
    (.plain, sampleBlock 20 2 [⟨7, [1], .delete⟩, ⟨7, [2], .decrementU64 3⟩] false),
    (.plain, sampleBlock 30 3 [⟨7, [1], .insert [6]⟩] false),
    (.plain, sampleBlock 40 4 [⟨7, [2], .decrementU64 1⟩] true),
    (.plain, sampleBlock 50 5 [⟨7, [3], .incrementU128 2⟩] true),
    (.plain, .rollBack (samplePoint 40 4))]

def mixedKindInputs : List (Env × StorageActionPayload) :=
  [(.plain, sampleBlock 10 1 [⟨7, [1], .incrementU64 5⟩, ⟨7, [1], .decrementU64 5⟩] true),
    (.plain, sampleBlock 20 2 [⟨7, [1], .insert [9]⟩] true)]

end CardanoIndexer.Polyphony
