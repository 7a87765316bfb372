import CardanoIndexer.Polyphony.Rewinding

/-!
# Rollbacks restore the indexed state
-/

namespace CardanoIndexer.Polyphony

open Timbre Run

def StorageActionPayload.nearTip : StorageActionPayload → Bool
  | .rollForward _ _ isMutable => isMutable
  | .rollBack _ => true

def StorageActionPayload.commits (p : Point) : StorageActionPayload → Bool
  | .rollForward point _ _ => point = p
  | .rollBack _ => false

def advanceChain (chain : List Point) : StorageActionPayload → List Point
  | .rollForward point _ _ => point :: chain
  | .rollBack point => chain.dropWhile fun q => q ≠ point

def chainAfter (chain : List Point) (messages : List StorageActionPayload) : List Point :=
  messages.foldl advanceChain chain

def distinctPoints : List Point → List StorageActionPayload → Bool
  | _, [] => true
  | chain, message :: rest =>
    (match message with
      | .rollForward point _ _ => point ∉ chain
      | .rollBack _ => true) && distinctPoints (advanceChain chain message) rest

theorem distinctPoints_append (chain : List Point) (first second : List StorageActionPayload) :
    distinctPoints chain (first ++ second) =
      (distinctPoints chain first && distinctPoints (chainAfter chain first) second) := by
  induction first generalizing chain with
  | nil => rfl
  | cons message rest ih =>
    simp only [List.cons_append, distinctPoints, ih, chainAfter, List.foldl_cons,
      Bool.and_assoc]

/-! ## The invariant near the tip -/

def initialPoint (world : World) : Point := world.worker.lastProcessed.getD .origin

def lastCommitted (world₀ : World) (inputs : List (Env × StorageActionPayload)) (p : Point) :
    Option World :=
  lastAt World.step (fun input => input.2.commits p) world₀
    (if p = initialPoint world₀ then some world₀ else none) inputs

def ReadsAs (enc : KeyEncoder) (committed : Point → Option World) (point : Point)
    (store : Store) : Prop :=
  ∃ world, committed point = some world ∧
    ∀ k, enc.IndexKey k → store.get k = world.tikv.store.get k

theorem indexOnly_readsAs (enc : KeyEncoder) (committed : Point → Option World) :
    IndexOnly enc (ReadsAs enc committed) := by
  rintro point store store' hget ⟨world, hworld, hread⟩
  exact ⟨world, hworld, fun k hk => (hget k hk).trans (hread k hk)⟩

structure TipInv (world₀ : World) (past : List (Env × StorageActionPayload)) (world : World) :
    Prop where
  encoder : world.worker.keyEncoder = world₀.worker.keyEncoder
  batch : world.worker.syncBatcher.isEmpty = true
  restoring : RestoringBuffer world.worker.rollbackBuffer
  onChain : (anchoredBlocks world.worker).map PointWithResult.point <+:
    chainAfter [initialPoint world₀] (past.map Prod.snd)
  rewinds : RewindsTo (ReadsAs world₀.worker.keyEncoder (lastCommitted world₀ past))
    world.tikv.store (anchoredBlocks world.worker)

theorem tipInv_init {world₀ : World} (hbatch : world₀.worker.syncBatcher.isEmpty = true)
    (hbuffer : world₀.worker.rollbackBuffer.isEmpty = true) : TipInv world₀ [] world₀ where
  encoder := rfl
  batch := hbatch
  restoring := by
    have hblocks : world₀.worker.rollbackBuffer.blocks = [] := by
      simpa [RollbackBuffer.isEmpty] using hbuffer
    intro block hblock
    rw [hblocks] at hblock
    cases hblock
  onChain := by
    rw [anchoredBlocks, if_pos hbuffer]
    exact List.prefix_rfl
  rewinds := by
    rw [anchoredBlocks, if_pos hbuffer]
    exact rewindsTo_singleton
      ⟨world₀, by simp [lastCommitted, lastAt, initialPoint], fun k _ => rfl⟩

theorem chainAfter_concat (chain : List Point) (past : List (Env × StorageActionPayload))
    (input : Env × StorageActionPayload) :
    chainAfter chain ((past ++ [input]).map Prod.snd) =
      advanceChain (chainAfter chain (past.map Prod.snd)) input.2 := by
  simp [chainAfter]

section Steps

variable {world₀ world world' : World} {past : List (Env × StorageActionPayload)} {env : Env}
  {point : Point}

theorem TipInv.mutable (h : TipInv world₀ past world) {outputs : List ReducerOutput}
    (hrun : run World.step world₀ past = .ok world)
    (hfresh : point ∉ chainAfter [initialPoint world₀] (past.map Prod.snd))
    (hstep : world.step (env, .rollForward point outputs true) = .ok world') :
    TipInv world₀ (past ++ [(env, .rollForward point outputs true)]) world' := by
  have hcommitted : ∀ q, lastCommitted world₀ (past ++ [(env, .rollForward point outputs true)]) q =
      if q = point then some world' else lastCommitted world₀ past q := by
    intro q
    rw [lastCommitted, lastAt_concat hrun hstep]
    simp only [StorageActionPayload.commits, decide_eq_true_eq, eq_comm (a := point)]
    rfl
  have hP := indexOnly_readsAs world₀.worker.keyEncoder
    (lastCommitted world₀ (past ++ [(env, .rollForward point outputs true)]))
  obtain ⟨w, hbuilt, rfl⟩ := World.step_mutable.mp hstep
  have hblocks := blocks_afterMutable world env point (some true)
    (w.work world.worker world.tikv.store) (some point) (w.inverses world.tikv.store)
  have hanchored := (anchoredBlocks_of_ne_nil (by rw [hblocks]; simp [maxBufferLen])).trans hblocks
  refine ⟨?_, ?_, restoringBuffer_mutable h.restoring _ _ _, ?_, ?_⟩
  · rw [World.afterCommit_worker]
    exact h.encoder
  · rw [World.afterCommit_worker]
    simp [World.finishMutable, h.batch]
  · rw [hanchored, chainAfter_concat, List.map_take]
    refine (List.take_prefix _ _).trans ?_
    exact List.cons_prefix_cons.mpr ⟨rfl, h.onChain⟩
  · rw [hanchored]
    refine rewindsTo_mutable hbuilt (by rwa [h.encoder]) ?_
      ⟨_, (hcommitted point).trans (if_pos rfl), fun k hk => ?_⟩
    · rw [hbuilt.leftover_eq_nil h.batch, SortedMap.applyWrites_nil]
      -- the points before the new one are committed as they were
      refine h.rewinds.mono fun block hblock store hread => ?_
      have hne : block.point ≠ point := fun heq =>
        hfresh (heq ▸ h.onChain.subset (List.mem_map_of_mem hblock))
      rwa [ReadsAs, hcommitted, if_neg hne]
    · exact (World.indexed_afterCommit_mutable hbuilt (h.encoder ▸ hk)).symm

theorem TipInv.rollBack (h : TipInv world₀ past world)
    (hrun : run World.step world₀ past = .ok world)
    (hstep : world.step (env, .rollBack point) = .ok world') :
    TipInv world₀ (past ++ [(env, .rollBack point)]) world' := by
  have hcommitted : lastCommitted world₀ (past ++ [(env, .rollBack point)]) =
      lastCommitted world₀ past := by
    funext q
    rw [lastCommitted, lastAt_concat hrun hstep]
    rfl
  have hP := indexOnly_readsAs world₀.worker.keyEncoder (lastCommitted world₀ past)
  obtain ⟨-, blocks, buffer, hbuffer, rfl⟩ := (World.step_rollBack h.restoring).mp hstep
  obtain ⟨hsplit, hbefore, block, rest, hat, hpoint⟩ :=
    RollbackBuffer.rollbackToPoint_eq_ok hbuffer
  have hold : anchoredBlocks world.worker = world.worker.rollbackBuffer.blocks :=
    anchoredBlocks_of_ne_nil (by simp [hsplit, hat])
  have hnew : anchoredBlocks { (world.afterCommit env point none
      (rollBackWork world.worker point world.tikv.store blocks) (some point)).worker with
        lastProcessed := some point, rollbackBuffer := buffer } = buffer.blocks :=
    anchoredBlocks_of_ne_nil (by simp [hat])
  refine ⟨?_, ?_, restoringBuffer_rollBack hbuffer h.restoring, ?_, ?_⟩
  · rw [World.afterCommit_worker]
    exact h.encoder
  · rw [World.afterCommit_worker]
    exact h.batch
  · have honChain := h.onChain
    rw [hold, hsplit] at honChain
    rw [hnew, chainAfter_concat]
    obtain ⟨tail, htail⟩ := honChain
    rw [← htail, List.map_append, List.append_assoc, advanceChain,
      List.dropWhile_append_of_pos, hat]
    · simp [hpoint]
    · intro q hq
      simpa using fun heq : q = point => hbefore (heq ▸ hq)
  · rw [hnew, hcommitted]
    exact (rewindsTo_rollBack hbuffer (by rwa [h.encoder]) (hold ▸ h.rewinds) _ _ _).2

end Steps

variable {world : World}

theorem tipInv_run {world₀ : World} (hbatch : world₀.worker.syncBatcher.isEmpty = true)
    (hbuffer : world₀.worker.rollbackBuffer.isEmpty = true)
    {inputs : List (Env × StorageActionPayload)} (htip : ∀ input ∈ inputs, input.2.nearTip = true)
    (hdistinct : distinctPoints [initialPoint world₀] (inputs.map Prod.snd) = true)
    (hrun : run World.step world₀ inputs = .ok world) : TipInv world₀ inputs world := by
  refine invariant (I := fun past mid =>
    (∀ input ∈ past, input.2.nearTip = true) →
      distinctPoints [initialPoint world₀] (past.map Prod.snd) = true → TipInv world₀ past mid)
    (fun _ _ => tipInv_init hbatch hbuffer) ?_ hrun htip hdistinct
  intro past mid input world' hmid hinv hstep htip hdistinct
  rw [List.map_append, distinctPoints_append, Bool.and_eq_true] at hdistinct
  have hmidInv := hinv (fun i hi => htip i (List.mem_append_left _ hi)) hdistinct.1
  have hinput := htip input (by simp)
  obtain ⟨env, message⟩ := input
  cases message with
  | rollForward point outputs isMutable =>
    cases isMutable with
    | false => cases hinput
    | true =>
      have hfresh : point ∉ chainAfter [initialPoint world₀] (past.map Prod.snd) := by
        simpa [distinctPoints] using hdistinct.2
      exact hmidInv.mutable hmid hfresh hstep
  | rollBack point => exact hmidInv.rollBack hmid hstep

theorem rollBack_of_not_mem {point : Point} (hmem : point ∉ world.worker.rollbackBuffer.points)
    (env : Env) (fault : Option Fault) :
    ∃ e, world.execute env fault (.rollBack point) = (world.lock (.rollBack point), .error e) := by
  have hbuild : ∀ txn, World.buildRollBack world.worker point txn = .error .panic := fun txn => by
    rw [World.buildRollBack, RollbackBuffer.pointsSince_of_not_mem hmem]
  simp only [World.execute, World.executeRollBack, World.transact, hbuild]
  split
  · exact ⟨_, rfl⟩
  · exact ⟨_, rfl⟩

/-- A rollback to a point of the buffer leaves every key as it was after the point was last
committed. -/
theorem rollBack_restores_lastCommitted (world₀ world : World)
    (inputs : List (Env × StorageActionPayload))
    (hbatch : world₀.worker.syncBatcher.isEmpty = true)
    (hbuffer : world₀.worker.rollbackBuffer.isEmpty = true)
    (htip : ∀ input ∈ inputs, input.2.nearTip = true)
    (hdistinct : distinctPoints [initialPoint world₀] (inputs.map Prod.snd) = true)
    (hrun : run World.step world₀ inputs = .ok world) (env : Env) (point : Point) :
    (point ∈ world.worker.rollbackBuffer.points → NextSlotFits point.slotOrDefault →
      ∃ committed world', lastCommitted world₀ inputs point = some committed ∧
        world.step (env, .rollBack point) = .ok world' ∧
        ∀ k, world₀.worker.keyEncoder.IndexKey k →
          world'.tikv.store.get k = committed.tikv.store.get k) ∧
    (point ∉ world.worker.rollbackBuffer.points → ∀ fault,
      (world.execute env fault (.rollBack point)).1.tikv = world.tikv ∧
        (world.execute env fault (.rollBack point)).2 ≠ .ok ()) := by
  have hinv := tipInv_run hbatch hbuffer htip hdistinct hrun
  constructor
  · intro hmem hslot
    obtain ⟨blocks, buffer, hcut⟩ := RollbackBuffer.exists_rollbackToPoint hmem
    obtain ⟨hsplit, -, block, rest, hat, rfl⟩ := RollbackBuffer.rollbackToPoint_eq_ok hcut
    have hne : world.worker.rollbackBuffer.blocks ≠ [] := by simp [hsplit, hat]
    obtain ⟨committed, hcommitted, hget⟩ := hinv.rewinds blocks block rest
      (by rw [anchoredBlocks_of_ne_nil hne, hsplit, hat])
    obtain ⟨world', hstep, hindexed⟩ :=
      World.exists_step_rollBack hinv.restoring hslot hcut env
    refine ⟨committed, world', hcommitted, hstep, fun k hk => ?_⟩
    rw [← hget k hk]
    exact hindexed k (by rwa [hinv.encoder])
  · intro hmem fault
    obtain ⟨e, hexecute⟩ := rollBack_of_not_mem hmem env fault
    rw [hexecute]
    exact ⟨rfl, nofun⟩

def sampleTipInputs : List (Env × StorageActionPayload) :=
  [(.plain, sampleBlock 20 2 [⟨7, [1], .set [5]⟩, ⟨7, [2], .incrementU64 4⟩] true),
    (.plain, sampleBlock 30 3 [⟨7, [1], .delete⟩, ⟨7, [2], .decrementU64 4⟩] true),
    (.plain, .rollBack (samplePoint 20 2)),
    (.plain, sampleBlock 40 4 [⟨7, [1], .insert [6]⟩, ⟨7, [2], .incrementU64 1⟩] true)]

theorem rollBack_restores_lastCommitted_sample :
    ∃ world committed world',
      run World.step (sampleWorld (some (samplePoint 10 1))) sampleTipInputs = .ok world ∧
      lastCommitted (sampleWorld (some (samplePoint 10 1))) sampleTipInputs (samplePoint 20 2) =
        some committed ∧
      world.step (.plain, .rollBack (samplePoint 20 2)) = .ok world' ∧
      ∀ k, (sampleWorld (some (samplePoint 10 1))).worker.keyEncoder.IndexKey k →
        world'.tikv.store.get k = committed.tikv.store.get k := by
  have hrun : run World.step (sampleWorld (some (samplePoint 10 1))) sampleTipInputs = .ok _ :=
    Except.eq_ok_get (by decide +kernel)
  obtain ⟨committed, world', hcommitted, hstep, hget⟩ :=
    (rollBack_restores_lastCommitted _ _ sampleTipInputs (by decide) (by decide) (by decide)
      (by decide) hrun .plain (samplePoint 20 2)).1 (by decide +kernel) (by decide)
  exact ⟨_, committed, world', hrun, hcommitted, hstep, hget⟩

end CardanoIndexer.Polyphony
