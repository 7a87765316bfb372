import CardanoIndexer.Polyphony.BufferChain

/-!
# Published cursor entries
-/

namespace CardanoIndexer.Polyphony

open Timbre Run

def publishedEntries (calls : List RedisCall) : List RedisEntry :=
  calls.filterMap fun
    | .zadd _ (.entry entry) _ => some entry
    | _ => none

def RedisEntry.point (entry : RedisEntry) : Point := .specific entry.slot entry.blockHash

def publishesTip (world : World) (input : Env × StorageActionPayload) : Bool :=
  match input.2 with
  | .rollForward _ outputs false =>
    !world.worker.syncBatcher.shouldFlush
        (storageOps world.worker.keyEncoder input.1.now outputs) ||
      world.worker.syncBatcher.isEmpty
  | .rollForward _ _ true => world.worker.followsTip
  | .rollBack _ => true

theorem publishedEntries_append (first second : List RedisCall) :
    publishedEntries (first ++ second) = publishedEntries first ++ publishedEntries second :=
  List.filterMap_append ..

theorem publishedEntries_registryCalls (worker : Worker) (slot : U64) :
    publishedEntries (World.registryCalls worker slot) = [] := by
  simp [publishedEntries, World.registryCalls]

variable {advertise : Option Bool}

theorem mem_publishedEntries_publishCalls {worker : Worker} {point : Point} {ts : Option ℕ}
    {entry : RedisEntry}
    (h : entry ∈ publishedEntries (World.publishCalls worker point ts advertise)) :
    entry.point = point ∧ ts = some entry.commitTs := by
  have hregistry : ∀ c : Bool, publishedEntries
      (if c then World.registryCalls worker point.slotOrDefault else []) = [] := by
    intro c
    cases c with
    | false => rfl
    | true => exact publishedEntries_registryCalls ..
  unfold World.publishCalls at h
  rw [publishedEntries_append, hregistry, List.append_nil] at h
  cases point with
  | origin => cases h
  | specific slot hash =>
    cases ts with
    | none => cases h
    | some ts =>
      have hcalls : publishedEntries (World.timestampCalls worker slot hash ts) =
          [⟨slot, hash, ts, worker.config.network⟩] := by
        rw [World.timestampCalls, publishedEntries_append]
        split
        · rw [publishedEntries_registryCalls]
          rfl
        · rfl
      rw [hcalls, List.mem_singleton] at h
      subst h
      exact ⟨rfl, rfl⟩

/-! ## The invariant -/

structure Truthful (enc : KeyEncoder) (tikv : VersionedStore Key Value) (entry : RedisEntry) :
    Prop where
  committed : entry.commitTs ≤ tikv.lastTs
  cursor : CursorAt enc (tikv.snapshotAt entry.commitTs) entry.point

structure PublishInv (enc : KeyEncoder) (world : World) : Prop where
  encoder : world.worker.keyEncoder = enc
  batch : world.worker.syncBatcher.EndsAtCursor enc
  restoring : RestoringBuffer world.worker.rollbackBuffer
  rewinds : RewindsTo (CursorNames enc) world.tikv.store world.worker.rollbackBuffer.blocks
  start : world.worker.syncBatcher.lastPoint = none →
    world.worker.rollbackBuffer.isEmpty = true →
    CursorNames enc (world.worker.lastProcessed.getD .origin) world.tikv.store
  truthful : ∀ entry ∈ publishedEntries world.redis, Truthful enc world.tikv entry

variable {enc : KeyEncoder} {world world' : World} {env : Env} {point : Point}
  {outputs : List ReducerOutput} {number : U64}

theorem truthful_afterCommit {work : WorkTxn} {verifyPoint : Option Point}
    (h : ∀ entry ∈ publishedEntries world.redis, Truthful enc world.tikv entry)
    (hnames : (world.tikv.commit env.commitGap work.txn).1 ≠ none →
      CursorNames enc point work.txn.view) :
    ∀ entry ∈ publishedEntries
        (world.afterCommit env point advertise work verifyPoint).redis,
      Truthful enc (world.afterCommit env point advertise work verifyPoint).tikv entry := by
  intro entry hentry
  have hcommit := VersionedStore.extends_commit world.tikv env.commitGap (t := work.txn)
    (P := fun _ => True) trivial
  have hafter := World.extends_afterCommit_commit world env point advertise work verifyPoint
  rw [World.afterCommit_redis, publishedEntries_append, List.mem_append] at hentry
  rcases hentry with hold | hnew
  · obtain ⟨hts, hcursor⟩ := h entry hold
    refine ⟨hts.trans (hcommit.lastTs_le.trans hafter.lastTs_le), ?_⟩
    rwa [hafter.snapshotAt_eq _ (hts.trans hcommit.lastTs_le), hcommit.snapshotAt_eq _ hts]
  · obtain ⟨rfl, hts⟩ := mem_publishedEntries_publishCalls hnew
    refine ⟨(VersionedStore.lastTs_commit_self hts).ge.trans hafter.lastTs_le, ?_⟩
    rw [World.afterCommit_snapshotAt hts]
    exact hnames (by simp [hts]) nofun

theorem PublishInv.immutable (h : PublishInv enc world)
    (hcond : publishesTip world (env, reduceBlock point number outputs false) = true)
    (hstep : world.step (env, reduceBlock point number outputs false) = .ok world') :
    PublishInv enc world' := by
  have hencoder := h.encoder
  rcases World.step_immutable hstep with
    ⟨-, batcher, hpush, rfl⟩ | ⟨hflush, ws, batcher, hws, hpush, rfl⟩
  · rw [hencoder] at hpush
    obtain ⟨hlast, hbatch⟩ := SyncBatcher.EndsAtCursor.pushActions h.batch.onlySets hpush
    exact ⟨hencoder, hbatch, h.restoring, h.rewinds, fun hnone => by simp [hlast] at hnone,
      h.truthful⟩
  · -- the batch is empty, so nothing is committed
    have hempty : world.worker.syncBatcher.isEmpty = true := by
      simpa [publishesTip, reduceBlock, hflush] using hcond
    rw [World.batchWrites, SyncBatcher.arrange_of_isEmpty hempty] at hws
    cases hws
    rw [World.afterFlush, h.batch.lastPoint_of_isEmpty hempty]
    obtain ⟨htikv, hts⟩ := World.afterCommit_flush_nil world env point (some false)
    rw [hencoder] at hpush
    obtain ⟨hlast, hbatch⟩ := SyncBatcher.EndsAtCursor.pushActions
      (SyncBatcher.endsAtCursor_wipe _).onlySets hpush
    refine ⟨?_, hbatch, ?_, ?_, fun hnone => by simp [hlast] at hnone, ?_⟩
    · simpa using hencoder
    · simpa using h.restoring
    · simpa [htikv] using h.rewinds
    · exact truthful_afterCommit h.truthful fun hne => absurd hts hne

theorem PublishInv.rewinds_anchoredBlocks (h : PublishInv enc world)
    (hfollows : world.worker.followsTip = true) {leftover : Writes}
    (hleftover : World.batchWrites world.worker env world.tikv.store = .ok leftover) :
    RewindsTo (CursorNames enc) (world.tikv.store.applyWrites leftover)
      (anchoredBlocks world.worker) := by
  have hnil : world.worker.syncBatcher.lastPoint = none → leftover = [] := by
    intro hnone
    rw [World.batchWrites,
      SyncBatcher.arrange_of_isEmpty (h.batch.isEmpty_of_lastPoint hnone)] at hleftover
    exact (Except.ok.inj hleftover).symm
  rw [Worker.followsTip, Bool.or_eq_true, Bool.and_eq_true, decide_eq_true_eq,
    decide_eq_true_eq] at hfollows
  cases hempty : world.worker.rollbackBuffer.isEmpty with
  | false =>
    have hnone := hfollows.resolve_right fun hright => by simp [hempty] at hright
    rw [anchoredBlocks, if_neg (by simp [hempty]), hnil hnone, SortedMap.applyWrites_nil]
    exact h.rewinds
  | true =>
    rw [anchoredBlocks, if_pos hempty]
    refine rewindsTo_singleton ?_
    cases hlast : world.worker.syncBatcher.lastPoint with
    | none =>
      rw [hnil hlast, SortedMap.applyWrites_nil]
      exact h.start hlast hempty
    | some tip =>
      have hprocessed : world.worker.lastProcessed = some tip := by
        simpa [hlast, hempty, eq_comm] using hfollows
      rw [hprocessed]
      exact fun _ => h.batch.cursorAt hlast hleftover

theorem PublishInv.mutable (h : PublishInv enc world)
    (hfollows : world.worker.followsTip = true)
    (hstep : world.step (env, reduceBlock point number outputs true) = .ok world') :
    PublishInv enc world' := by
  obtain ⟨w, hbuilt, rfl⟩ := World.step_mutable.mp hstep
  have hbatch : (world.afterCommit env point (some true)
      (w.work world.worker world.tikv.store) (some point)).worker.syncBatcher.EndsAtCursor enc := by
    simpa using h.batch
  obtain ⟨hlast, hempty⟩ := hbatch.finishMutable point (w.inverses world.tikv.store)
  have hblocks := blocks_afterMutable world env point (some true)
    (w.work world.worker world.tikv.store) (some point) (w.inverses world.tikv.store)
  have hcursor : CursorNames enc point
      ((world.tikv.store.applyWrites w.leftover).applyWrites w.block) := by
    rw [← h.encoder]
    exact fun _ => hbuilt.cursorAt
  have hview : CursorNames enc point (w.work world.worker world.tikv.store).txn.view := by
    refine indexOnly_cursorNames enc _ _ _ (fun k hk => ?_) hcursor
    rw [← h.encoder] at hk
    exact hbuilt.view fun hplane => KeyEncoder.not_indexKey_of_rollbackPrefix hplane hk
  refine ⟨?_, ?_, restoringBuffer_mutable h.restoring _ _ _, ?_, ?_, ?_⟩
  · simpa [World.finishMutable] using h.encoder
  · rw [SyncBatcher.EndsAtCursor, hlast]
    exact hempty
  · rw [hblocks]
    refine rewindsTo_mutable hbuilt ?_ (h.rewinds_anchoredBlocks hfollows hbuilt.leftover) hcursor
    rw [h.encoder]
    exact indexOnly_cursorNames enc
  · intro _ hbuffer
    rw [RollbackBuffer.isEmpty, hblocks] at hbuffer
    simp [maxBufferLen] at hbuffer
  · exact truthful_afterCommit h.truthful fun _ => hview

theorem PublishInv.rollBack (h : PublishInv enc world)
    (hstep : world.step (env, .rollBack point) = .ok world') : PublishInv enc world' := by
  obtain ⟨-, blocks, buffer, hbuffer, rfl⟩ := (World.step_rollBack h.restoring).mp hstep
  obtain ⟨-, -, block, rest, hat, -⟩ := RollbackBuffer.rollbackToPoint_eq_ok hbuffer
  have hP : IndexOnly world.worker.keyEncoder (CursorNames enc) := by
    rw [h.encoder]
    exact indexOnly_cursorNames enc
  obtain ⟨hcursor, hrewinds⟩ := rewindsTo_rollBack hbuffer hP h.rewinds env none (some point)
  refine ⟨?_, ?_, restoringBuffer_rollBack hbuffer h.restoring, hrewinds, ?_, ?_⟩
  · simpa using h.encoder
  · simpa using h.batch
  · intro _ hempty
    rw [RollbackBuffer.isEmpty, hat] at hempty
    cases hempty
  · refine truthful_afterCommit h.truthful fun _ => ?_
    exact hP _ _ _ (fun k hk => view_rollBackWork hk _ _ _) hcursor

/-- If no batch is flushed, every entry names the block under the cursor of its snapshot. -/
theorem publishedEntries_truthful (world₀ world : World)
    (inputs : List (Env × StorageActionPayload))
    (hbatch : world₀.worker.syncBatcher.lastPoint = none ∧
      world₀.worker.syncBatcher.isEmpty = true)
    (hcursor : lastPoint world₀.worker.keyEncoder world₀.tikv.store =
      .ok world₀.worker.lastProcessed)
    (hrestoring : RestoringBuffer world₀.worker.rollbackBuffer)
    (hrewinds : RewindsTo (CursorNames world₀.worker.keyEncoder) world₀.tikv.store
      world₀.worker.rollbackBuffer.blocks)
    (hredis : world₀.redis = [])
    (hmessages : ∀ input ∈ inputs, input.2.endsWithCursor = true)
    (hpublishes : meets World.step publishesTip world₀ inputs = true)
    (hrun : run World.step world₀ inputs = .ok world) :
    ∀ entry ∈ publishedEntries world.redis,
      lastPoint world₀.worker.keyEncoder (world.tikv.snapshotAt entry.commitTs) =
        .ok (some (.specific entry.slot entry.blockHash)) := by
  have hinv : PublishInv world₀.worker.keyEncoder world := by
    refine invariant_of_meets (I := fun past mid =>
      (∀ input ∈ past, input.2.endsWithCursor = true) →
        PublishInv world₀.worker.keyEncoder mid)
      (fun _ => ?_) ?_ hpublishes hrun hmessages
    · refine ⟨rfl, ?_, hrestoring, hrewinds, ?_, ?_⟩
      · rw [SyncBatcher.EndsAtCursor, hbatch.1]
        exact hbatch.2
      · intro _ _ hpoint
        cases hlast : world₀.worker.lastProcessed with
        | none => simp [hlast] at hpoint
        | some tip => rw [CursorAt, hcursor, hlast, Option.getD_some]
      · simp [hredis, publishedEntries]
    · intro past mid input world' _ hinv hcond hstep hpast
      have hmid := hinv fun i hi => hpast i (List.mem_append_left _ hi)
      have hinput := hpast input (by simp)
      obtain ⟨env, message⟩ := input
      cases message with
      | rollBack point => exact hmid.rollBack hstep
      | rollForward point outputs isMutable =>
        obtain ⟨number, rest, hmessage⟩ := endsWithCursor_rollForward.mp hinput
        rw [hmessage] at hstep hcond
        cases isMutable with
        | false => exact hmid.immutable hcond hstep
        | true => exact hmid.mutable hcond hstep
  exact fun entry hentry => (hinv.truthful entry hentry).cursor

def samplePublishWorld : World :=
  .ofStore (Worker.spawn { sampleConfig with tikvRaftEntryMaxSize := some 0 } [] none none) ∅

def samplePublishInputs : List (Env × StorageActionPayload) :=
  [(.plain, sampleBlock 30 3 [⟨7, [1], .set [5]⟩] false),
    (.plain, sampleBlock 40 4 [⟨7, [1], .delete⟩] true),
    (.plain, sampleBlock 50 5 [⟨7, [2], .incrementU64 3⟩] true),
    (.plain, .rollBack (samplePoint 30 3))]

theorem publishedEntries_truthful_sample :
    ∃ world, run World.step samplePublishWorld samplePublishInputs = .ok world ∧
      (publishedEntries world.redis).map RedisEntry.point =
        [samplePoint 40 4, samplePoint 50 5, samplePoint 30 3] ∧
      ∀ entry ∈ publishedEntries world.redis,
        lastPoint samplePublishWorld.worker.keyEncoder (world.tikv.snapshotAt entry.commitTs) =
          .ok (some (.specific entry.slot entry.blockHash)) := by
  have hblocks : samplePublishWorld.worker.rollbackBuffer.blocks = [] := rfl
  exact ⟨_, Except.eq_ok_get (by decide +kernel), by decide +kernel,
    publishedEntries_truthful samplePublishWorld _ samplePublishInputs ⟨rfl, rfl⟩ rfl
      (by simp [RestoringBuffer, hblocks]) (by simp [RewindsTo, hblocks]) rfl
      (by decide) (by decide +kernel) (Except.eq_ok_get _)⟩

/-- The entry names the third block, its snapshot stands at the second. -/
theorem flush_publishes_incoming_block :
    ∃ world entry, run World.step (sampleWorld none)
        [(.plain, sampleBlock 10 1 [] false), (.plain, sampleBlock 20 2 [] false),
          (.plain, sampleBlock 30 3 [] false)] = .ok world ∧
      entry ∈ publishedEntries world.redis ∧
      RedisEntry.point entry = samplePoint 30 3 ∧
      lastPoint (sampleWorld none).worker.keyEncoder (world.tikv.snapshotAt entry.commitTs) =
        .ok (some (samplePoint 20 2)) :=
  ⟨_, _, Except.eq_ok_get (by decide +kernel), List.head_mem (by decide +kernel),
    by decide +kernel, by decide +kernel⟩

end CardanoIndexer.Polyphony
