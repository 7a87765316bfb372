import CardanoIndexer.Polyphony.Counters
import CardanoIndexer.Reducers.Ledger

/-!
# Chains indexed in batches

Where batches end is decided by sizes and by the stream, so every division is considered.
-/

namespace CardanoIndexer.Reducers

open Compressor (Block StoredBlock)
open Polyphony (BlockContext WorkError Store StorageAction DataOp Key Kind SyncBatcher
  IterationOrder Merged InRange storageOps executedStore movesAt)
open Timbre (KeyEncoder)
open Counter

structure Batch where
  blocks : List (StoredBlock × BlockContext)
  isMutable : Bool
  order : IterationOrder
  single : isMutable = true → blocks.length = 1

def blocksOf (batches : List Batch) : List (StoredBlock × BlockContext) :=
  batches.flatMap Batch.blocks

section Run

variable (reduce : Block → BlockContext → Except WorkError (List DataOp)) (enc : KeyEncoder)
  (maxLen maxBytes : ℕ) (paranoidMode : Bool) (now : U64)

def pushBlocks : List (StoredBlock × BlockContext) → Except WorkError SyncBatcher
  | [] => .ok (SyncBatcher.new maxLen maxBytes)
  | (block, ctx) :: older => do
    let batcher ← pushBlocks older
    let outputs ← reduce block.toBlock ctx
    batcher.pushActions (.specific (BitVec.ofNat 64 block.slot) block.hash)
      (storageOps enc now [.data outputs])

def indexBatches : List Batch → Except WorkError Store
  | [] => .ok ∅
  | batch :: earlier => do
    let store ← indexBatches earlier
    let batcher ← pushBlocks reduce enc maxLen maxBytes now batch.blocks
    executedStore paranoidMode store (batch.order.arrange batcher.getBatchActions)
      batch.isMutable

end Run

/-! ## Counters -/

section Counters

variable (enc : KeyEncoder) (ops : StoredBlock × BlockContext → List DataOp)
  {moves : List (StoredBlock × BlockContext) → List Move} {batches : List Batch}

def actionsOf (blocks : List (StoredBlock × BlockContext)) : List StorageAction :=
  blocks.reverse.flatMap fun entry => (ops entry).map (DataOp.toAction enc)

def periodsOf (moves : List (StoredBlock × BlockContext) → List Move) (batches : List Batch) :
    List Period :=
  batches.map fun batch => ⟨batch.isMutable, moves batch.blocks⟩

def periodsAt (k : Key) (batches : List Batch) : List Period :=
  periodsOf (fun blocks => movesAt k (actionsOf enc ops blocks)) batches

variable {enc ops}

theorem actionsOf_append (newer older : List (StoredBlock × BlockContext)) :
    actionsOf enc ops (newer ++ older) = actionsOf enc ops older ++ actionsOf enc ops newer := by
  simp [actionsOf]

theorem actionsOf_cons (entry : StoredBlock × BlockContext)
    (older : List (StoredBlock × BlockContext)) :
    actionsOf enc ops (entry :: older) =
      actionsOf enc ops older ++ (ops entry).map (DataOp.toAction enc) := by
  simp [actionsOf]

theorem blocksOf_append (later earlier : List Batch) :
    blocksOf (later ++ earlier) = blocksOf later ++ blocksOf earlier :=
  List.flatMap_append

theorem blocksOf_cons (batch : Batch) (earlier : List Batch) :
    blocksOf (batch :: earlier) = batch.blocks ++ blocksOf earlier := rfl

theorem allMoves_periodsOf (hnil : moves [] = [])
    (happend : ∀ newer older, moves (newer ++ older) = moves older ++ moves newer)
    (batches : List Batch) : allMoves (periodsOf moves batches) = moves (blocksOf batches) := by
  induction batches with
  | nil => exact hnil.symm
  | cons batch earlier ih =>
    rw [blocksOf_cons, happend, ← ih]
    exact allMoves_cons _ _

theorem exists_suffix_periodsOf {p : List Period → Prop} :
    (∃ earlier, earlier <:+ periodsOf moves batches ∧ p earlier) ↔
      ∃ earlier, earlier <:+ batches ∧ p (periodsOf moves earlier) := by
  simp only [periodsOf, List.suffix_map_iff]
  constructor
  · rintro ⟨_, ⟨earlier, hearlier, rfl⟩, hp⟩
    exact ⟨earlier, hearlier, hp⟩
  · rintro ⟨earlier, hearlier, hp⟩
    exact ⟨_, ⟨earlier, hearlier, rfl⟩, hp⟩

theorem allMoves_periodsAt (k : Key) (batches : List Batch) :
    allMoves (periodsAt enc ops k batches) = movesAt k (actionsOf enc ops (blocksOf batches)) := by
  refine allMoves_periodsOf rfl (fun newer older => ?_) batches
  rw [actionsOf_append, Polyphony.movesAt_append]

variable {reduce : Block → BlockContext → Except WorkError (List DataOp)} {kind : Kind}
  {maxLen maxBytes : ℕ} {paranoidMode : Bool} {now : U64}

def Reduces (reduce : Block → BlockContext → Except WorkError (List DataOp)) (kind : Kind)
    (ops : StoredBlock × BlockContext → List DataOp)
    (blocks : List (StoredBlock × BlockContext)) : Prop :=
  ∀ entry ∈ blocks, reduce entry.1.toBlock entry.2 = .ok (ops entry) ∧
    ∀ op ∈ ops entry, op.op.kind = kind

theorem exists_reduce_of_pushBlocks {blocks : List (StoredBlock × BlockContext)}
    {batcher : SyncBatcher}
    (h : pushBlocks reduce enc maxLen maxBytes now blocks = .ok batcher) :
    ∀ entry ∈ blocks, ∃ outputs, reduce entry.1.toBlock entry.2 = .ok outputs := by
  induction blocks generalizing batcher with
  | nil => exact fun _ hentry => by cases hentry
  | cons entry older ih =>
    obtain ⟨block, ctx⟩ := entry
    obtain ⟨before, hbefore, h⟩ := Except.bind_eq_ok.mp h
    obtain ⟨outputs, houtputs, -⟩ := Except.bind_eq_ok.mp h
    exact List.forall_mem_cons.mpr ⟨⟨outputs, houtputs⟩, ih hbefore⟩

theorem exists_reduce_of_indexBatches {store : Store}
    (h : indexBatches reduce enc maxLen maxBytes paranoidMode now batches = .ok store) :
    ∀ entry ∈ blocksOf batches, ∃ outputs, reduce entry.1.toBlock entry.2 = .ok outputs := by
  induction batches generalizing store with
  | nil => exact fun _ hentry => by cases hentry
  | cons batch earlier ih =>
    obtain ⟨before, hbefore, h⟩ := Except.bind_eq_ok.mp h
    obtain ⟨batcher, hbatcher, -⟩ := Except.bind_eq_ok.mp h
    rw [blocksOf_cons]
    exact List.forall_mem_append.mpr ⟨exists_reduce_of_pushBlocks hbatcher, ih hbefore⟩

theorem exists_pushBlocks {blocks : List (StoredBlock × BlockContext)} (hkind : kind ≠ .value)
    (hreduces : Reduces reduce kind ops blocks)
    (hrange : ∀ k, InRange kind (movesAt k (actionsOf enc ops blocks))) :
    ∃ batcher, pushBlocks reduce enc maxLen maxBytes now blocks = .ok batcher ∧
      Merged kind batcher.batchActions (actionsOf enc ops blocks) := by
  induction blocks with
  | nil => exact ⟨_, rfl, Polyphony.merged_empty⟩
  | cons entry older ih =>
    obtain ⟨block, ctx⟩ := entry
    obtain ⟨⟨hreduce, hops⟩, holder⟩ := List.forall_mem_cons.mp hreduces
    simp only [actionsOf_cons] at hrange ⊢
    obtain ⟨batcher, hbatcher, hmerged⟩ := ih holder fun k => by
      have hrange := hrange k
      rw [Polyphony.movesAt_append] at hrange
      exact hrange.mono
    obtain ⟨batcher', hbatcher', hmerged'⟩ := hmerged.pushActions hkind
      (List.forall_mem_map.mpr hops) hrange
      (.specific (BitVec.ofNat 64 block.slot) block.hash)
    have hactions : storageOps enc now [.data (ops (block, ctx))] =
        (ops (block, ctx)).map (DataOp.toAction enc) := by
      simp [storageOps, Polyphony.reducerOutputToStorageOps]
    refine ⟨batcher', ?_, hmerged'⟩
    rw [pushBlocks, hbatcher, Except.ok_bind, hreduce, Except.ok_bind, hactions, hbatcher']

theorem exists_indexBatches (hkind : kind ≠ .value)
    (hreduces : Reduces reduce kind ops (blocksOf batches)) (start : Key → ℤ)
    (hstays : ∀ k, StaysIn (start k) (256 ^ kind.width)
      (movesAt k (actionsOf enc ops (blocksOf batches)))) :
    ∃ store, indexBatches reduce enc maxLen maxBytes paranoidMode now batches = .ok store ∧
      ∀ k, store.get k = kind.stored (Counter.run kind.removes (periodsAt enc ops k batches)) := by
  induction batches with
  | nil => exact ⟨∅, rfl, fun k => rfl⟩
  | cons batch earlier ih =>
    rw [blocksOf_cons] at hreduces hstays
    have hparts : ∀ k, StaysIn (start k) (256 ^ kind.width)
        (movesAt k (actionsOf enc ops (blocksOf earlier))) ∧
        StaysIn (level (start k) (periodsAt enc ops k earlier)) (256 ^ kind.width)
          (movesAt k (actionsOf enc ops batch.blocks)) := by
      intro k
      rw [level_eq, allMoves_periodsAt, ← staysIn_append, ← Polyphony.movesAt_append,
        ← actionsOf_append]
      exact hstays k
    obtain ⟨store, hstore, hget⟩ := ih (fun entry hentry =>
      hreduces entry (List.mem_append_right _ hentry)) fun k => (hparts k).1
    obtain ⟨batcher, hbatcher, hmerged⟩ : ∃ batcher,
        pushBlocks reduce enc maxLen maxBytes now batch.blocks = .ok batcher ∧
          Merged kind batcher.batchActions (actionsOf enc ops batch.blocks) :=
      exists_pushBlocks hkind (fun entry hentry => hreduces entry (List.mem_append_left _ hentry))
        fun k => Polyphony.inRange_of_staysIn (hparts k).2
    -- the counter is not ahead of the level, which stays in range
    have hbehind : ∀ k,
        ((Counter.run kind.removes (periodsAt enc ops k earlier)).getD 0 : ℤ) ≤
          level (start k) (periodsAt enc ops k earlier) := by
      intro k
      have hstays := (hparts k).1
      rw [← allMoves_periodsAt] at hstays
      exact run_le_level hstays.nonnegLevels
    obtain ⟨store', hstore', hget'⟩ := Polyphony.exists_executedStore paranoidMode
      batch.isMutable batch.order hkind hget hmerged
      (fun k => by
        have hbehind := hbehind k
        have hbound := (hparts k).2.start.2
        omega)
      (fun k move hnet hup => by
        have hbehind := hbehind k
        have hbound := (hparts k).2.final.2
        rw [← delta_of_net hnet, Move.delta, if_pos hup] at hbound
        omega)
    refine ⟨store', ?_, hget'⟩
    rw [indexBatches, hstore, Except.ok_bind, hbatcher, Except.ok_bind, hstore']

end Counters

end CardanoIndexer.Reducers
