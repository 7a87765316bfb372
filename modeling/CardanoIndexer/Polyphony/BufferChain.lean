import CardanoIndexer.Polyphony.Cursor
import CardanoIndexer.Polyphony.Rollback

/-!
# The rollback buffer along the chain
-/

namespace CardanoIndexer.Polyphony

open Timbre Run

def StorageActionPayload.point : StorageActionPayload → Point
  | .rollForward point _ _ => point
  | .rollBack point => point

def StorageActionPayload.isReducedBlock : StorageActionPayload → Bool
  | .rollForward point outputs isMutable =>
    (StorageActionPayload.rollForward point outputs isMutable).endsWithCursor
  | .rollBack _ => false

def deliveredChain (chain : List Point) (inputs : List (Env × StorageActionPayload)) :
    List Point :=
  chain ++ inputs.map fun input => input.2.point

def Gapless (chain points : List Point) : Prop :=
  points.IsChain fun newer older => [older, newer] <:+: chain

instance (chain points : List Point) : Decidable (Gapless chain points) :=
  inferInstanceAs (Decidable (points.IsChain fun newer older => [older, newer] <:+: chain))

def Worker.followsTip (worker : Worker) : Bool :=
  worker.syncBatcher.lastPoint = none ||
    (worker.rollbackBuffer.isEmpty && worker.syncBatcher.lastPoint = worker.lastProcessed)

def mutableFollowsTip (world : World) (input : Env × StorageActionPayload) : Bool :=
  match input.2 with
  | .rollForward _ _ true => world.worker.followsTip
  | _ => true

variable {points : List Point}

theorem Gapless.append {chain : List Point} (h : Gapless chain points) (later : List Point) :
    Gapless (chain ++ later) points :=
  h.imp fun _ _ hinfix => hinfix.trans (List.infix_append' [] chain later)

theorem Gapless.cons {chain : List Point} (h : Gapless chain points) {point : Point}
    (htip : points.head? = chain.getLast?) : Gapless (chain ++ [point]) (point :: points) := by
  cases points with
  | nil => exact List.isChain_singleton _
  | cons newest rest =>
    obtain ⟨front, rfl⟩ := List.getLast?_eq_some_iff.mp htip.symm
    refine List.isChain_cons_cons.mpr ⟨⟨front, [], ?_⟩, h.append _⟩
    simp

/-! ## The invariant -/

structure ChainInv (enc : KeyEncoder) (chain : List Point) (world : World) : Prop where
  encoder : world.worker.keyEncoder = enc
  batch : world.worker.syncBatcher.EndsAtCursor enc
  gapless : Gapless chain world.worker.rollbackBuffer.points
  tip : chain.getLast? = some
    ((world.worker.syncBatcher.lastPoint.or world.worker.lastProcessed).getD .origin)
  newest : world.worker.syncBatcher.lastPoint = none →
    world.worker.rollbackBuffer.isEmpty = false →
    world.worker.rollbackBuffer.points.head? = chain.getLast?
  cursor : world.worker.syncBatcher.lastPoint = none →
    world.worker.rollbackBuffer.isEmpty = true →
    lastPoint enc world.tikv.store = .ok world.worker.lastProcessed

variable {enc : KeyEncoder} {chain : List Point} {world world' : World} {env : Env}
  {point : Point} {outputs : List ReducerOutput} {number : U64}

theorem ChainInv.immutable (h : ChainInv enc chain world)
    (hstep : world.step (env, reduceBlock point number outputs false) = .ok world') :
    ChainInv enc (chain ++ [point]) world' := by
  have hencoder := h.encoder
  rcases World.step_immutable hstep with
    ⟨-, batcher, hpush, rfl⟩ | ⟨-, ws, batcher, -, hpush, rfl⟩
  · rw [hencoder] at hpush
    obtain ⟨hlast, hbatch⟩ := SyncBatcher.EndsAtCursor.pushActions h.batch.onlySets hpush
    exact ⟨hencoder, hbatch, h.gapless.append _, by simp [hlast],
      fun hnone => by simp [hlast] at hnone, fun hnone => by simp [hlast] at hnone⟩
  · rw [hencoder] at hpush
    obtain ⟨hlast, hbatch⟩ := SyncBatcher.EndsAtCursor.pushActions
      (SyncBatcher.endsAtCursor_wipe _).onlySets hpush
    refine ⟨?_, hbatch, ?_, by simp [hlast], fun hnone => by simp [hlast] at hnone,
      fun hnone => by simp [hlast] at hnone⟩
    · simpa using hencoder
    · simpa using h.gapless.append [point]

theorem ChainInv.head_anchoredBlocks (h : ChainInv enc chain world)
    (hfollows : world.worker.followsTip = true) :
    ((anchoredBlocks world.worker).map PointWithResult.point).head? = chain.getLast? := by
  rw [Worker.followsTip, Bool.or_eq_true, Bool.and_eq_true, decide_eq_true_eq,
    decide_eq_true_eq] at hfollows
  cases hempty : world.worker.rollbackBuffer.isEmpty with
  | false =>
    have hnone : world.worker.syncBatcher.lastPoint = none :=
      hfollows.resolve_right fun hright => by simp [hempty] at hright
    rw [anchoredBlocks, if_neg (by simp [hempty])]
    exact h.newest hnone hempty
  | true =>
    rw [anchoredBlocks, if_pos hempty, h.tip]
    rcases hfollows with hnone | ⟨-, heq⟩
    · simp [hnone]
    · rw [heq, Option.or_self]
      rfl

theorem ChainInv.mutable (h : ChainInv enc chain world)
    (hfollows : world.worker.followsTip = true)
    (hstep : world.step (env, reduceBlock point number outputs true) = .ok world') :
    ChainInv enc (chain ++ [point]) world' := by
  obtain ⟨w, -, rfl⟩ := World.step_mutable.mp hstep
  have hbatch : (world.afterCommit env point (some true)
      (w.work world.worker world.tikv.store) (some point)).worker.syncBatcher.EndsAtCursor enc := by
    simpa using h.batch
  obtain ⟨hlast, hempty⟩ := hbatch.finishMutable point (w.inverses world.tikv.store)
  have hblocks := blocks_afterMutable world env point (some true)
    (w.work world.worker world.tikv.store) (some point) (w.inverses world.tikv.store)
  have hpoints : (World.finishMutable (world.afterCommit env point (some true)
      (w.work world.worker world.tikv.store) (some point)).worker point
      (w.inverses world.tikv.store)).rollbackBuffer.points =
        (point :: (anchoredBlocks world.worker).map PointWithResult.point).take maxBufferLen := by
    rw [RollbackBuffer.points, hblocks, List.map_take, List.map_cons]
  have hanchored : Gapless chain ((anchoredBlocks world.worker).map PointWithResult.point) := by
    unfold anchoredBlocks
    split
    · exact List.isChain_singleton _
    · exact h.gapless
  refine ⟨?_, ?_, ?_, ?_, ?_, ?_⟩
  · simpa [World.finishMutable] using h.encoder
  · rw [SyncBatcher.EndsAtCursor, hlast]
    exact hempty
  · rw [hpoints]
    exact (hanchored.cons (h.head_anchoredBlocks hfollows)).take _
  · rw [hlast]
    simp [World.finishMutable]
  · intro _ _
    rw [hpoints]
    simp [maxBufferLen]
  · intro _ hbuffer
    rw [RollbackBuffer.isEmpty, hblocks] at hbuffer
    simp [maxBufferLen] at hbuffer

theorem ChainInv.lastPoint_applyLeftover (h : ChainInv enc chain world)
    (hfollows : world.worker.followsTip = true)
    (hempty : world.worker.rollbackBuffer.isEmpty = true) {work : WorkTxn}
    (hwork : World.applyLeftover world.worker env ⟨Txn.start world.tikv.store none, none⟩ =
      .ok work) :
    lastPoint enc work.txn.view = .ok world.worker.lastProcessed := by
  rw [applyLeftover_eq] at hwork
  obtain ⟨leftover, hleftover, hwork⟩ := Except.bind_eq_ok.mp hwork
  cases hwork
  rw [Txn.view_writeAll, Txn.view_start]
  cases hlast : world.worker.syncBatcher.lastPoint with
  | none =>
    rw [World.batchWrites, SyncBatcher.arrange_of_isEmpty (h.batch.isEmpty_of_lastPoint hlast)] at hleftover
    cases hleftover
    exact h.cursor hlast hempty
  | some tip =>
    have hprocessed : world.worker.lastProcessed = some tip := by
      simpa [Worker.followsTip, hlast, hempty, eq_comm] using hfollows
    rw [hprocessed]
    exact h.batch.cursorAt hlast hleftover

/-- If every mutable block follows the tip, the buffer has no holes. -/
theorem rollbackBuffer_gapless (world₀ world : World) (chain : List Point)
    (inputs : List (Env × StorageActionPayload))
    (hbatch : world₀.worker.syncBatcher.lastPoint = none ∧
      world₀.worker.syncBatcher.isEmpty = true)
    (hcursor : lastPoint world₀.worker.keyEncoder world₀.tikv.store =
      .ok world₀.worker.lastProcessed)
    (htip : chain.getLast? = some (world₀.worker.lastProcessed.getD .origin))
    (hrestored : Gapless chain world₀.worker.rollbackBuffer.points)
    (hnewest : world₀.worker.rollbackBuffer.isEmpty = false →
      world₀.worker.rollbackBuffer.points.head? = chain.getLast?)
    (hblocks : ∀ input ∈ inputs, input.2.isReducedBlock = true)
    (hfollows : meets World.step mutableFollowsTip world₀ inputs = true)
    (hrun : run World.step world₀ inputs = .ok world) :
    Gapless (deliveredChain chain inputs) world.worker.rollbackBuffer.points ∧
    (world.worker.rollbackBuffer.isEmpty = true → world.worker.followsTip = true →
      (deliveredChain chain inputs).getLast? = some (world.worker.lastProcessed.getD .origin) ∧
      ∀ env work, World.applyLeftover world.worker env
          ⟨Txn.start world.tikv.store none, none⟩ = .ok work →
        lastPoint world₀.worker.keyEncoder work.txn.view = .ok world.worker.lastProcessed) := by
  have hinv : ChainInv world₀.worker.keyEncoder (deliveredChain chain inputs) world := by
    refine invariant_of_meets (I := fun past mid =>
      (∀ input ∈ past, input.2.isReducedBlock = true) →
        ChainInv world₀.worker.keyEncoder (deliveredChain chain past) mid)
      (fun _ => ?_) ?_ hfollows hrun hblocks
    · refine ⟨rfl, ?_, ?_, ?_, ?_, fun _ _ => hcursor⟩
      · rw [SyncBatcher.EndsAtCursor, hbatch.1]
        exact hbatch.2
      · simpa [deliveredChain] using hrestored
      · simpa [deliveredChain, hbatch.1] using htip
      · simpa [deliveredChain] using fun _ => hnewest
    · intro past mid input world' _ hinv hcond hstep hpast
      have hmid := hinv fun i hi => hpast i (List.mem_append_left _ hi)
      have hinput := hpast input (by simp)
      obtain ⟨env, message⟩ := input
      have hchain : deliveredChain chain (past ++ [(env, message)]) =
          deliveredChain chain past ++ [message.point] := by
        simp [deliveredChain]
      rw [hchain]
      cases message with
      | rollBack point => cases hinput
      | rollForward point outputs isMutable =>
        obtain ⟨number, rest, hmessage⟩ := endsWithCursor_rollForward.mp hinput
        rw [hmessage] at hstep
        cases isMutable with
        | false => exact hmid.immutable hstep
        | true => exact hmid.mutable hcond hstep
  refine ⟨hinv.gapless, fun hempty hfollows => ⟨?_, fun env work hwork => ?_⟩⟩
  · have hhead := hinv.head_anchoredBlocks hfollows
    rw [anchoredBlocks, if_pos hempty] at hhead
    exact hhead.symm
  · exact hinv.lastPoint_applyLeftover hfollows hempty hwork

def sampleChainInputs : List (Env × StorageActionPayload) :=
  [(.plain, sampleBlock 10 1 [⟨7, [1], .set [5]⟩] false),
    (.plain, sampleBlock 20 2 [⟨7, [2], .incrementU64 4⟩] false),
    (.plain, sampleBlock 30 3 [⟨7, [2], .incrementU64 1⟩] false),
    (.plain, sampleBlock 40 4 [⟨7, [1], .delete⟩] true),
    (.plain, sampleBlock 50 5 [⟨7, [2], .decrementU64 2⟩] true)]

theorem rollbackBuffer_gapless_sample :
    ∃ world, run World.step (sampleWorld none) sampleChainInputs = .ok world ∧
      world.worker.rollbackBuffer.points =
        [samplePoint 50 5, samplePoint 40 4, samplePoint 30 3] ∧
      Gapless (deliveredChain [.origin] sampleChainInputs)
        world.worker.rollbackBuffer.points :=
  ⟨_, Except.eq_ok_get (by decide +kernel), by decide +kernel,
    (rollbackBuffer_gapless (sampleWorld none) _ [.origin] sampleChainInputs ⟨rfl, rfl⟩ rfl rfl
      (by decide) (by decide) (by decide) (by decide +kernel) (Except.eq_ok_get _)).1⟩

/-- Immutable blocks wait when the first mutable one arrives: the buffer starts too early. -/
theorem rollbackBuffer_hole :
    ∃ world, run World.step (sampleWorld none)
        [(.plain, sampleBlock 10 1 [] false), (.plain, sampleBlock 20 2 [] false),
          (.plain, sampleBlock 30 3 [] true)] = .ok world ∧
      world.worker.rollbackBuffer.points = [samplePoint 30 3, .origin] ∧
      ¬ Gapless [.origin, samplePoint 10 1, samplePoint 20 2, samplePoint 30 3]
        world.worker.rollbackBuffer.points :=
  ⟨_, Except.eq_ok_get (by decide +kernel), by decide +kernel, by decide +kernel⟩

end CardanoIndexer.Polyphony
