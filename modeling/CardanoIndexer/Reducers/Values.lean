import CardanoIndexer.Lib.Register
import CardanoIndexer.Reducers.Batches

/-!
# Plain values in batches

A key that is set, inserted or deleted is a register in the sense of `Lib.Register`.
-/

namespace CardanoIndexer.Reducers

open Compressor (Block StoredBlock)
open Polyphony (BlockContext WorkError Store StorageOp StorageAction DataOp Key Value Cell Kind
  SyncBatcher Represents SafeOps meaning opsAt applyOps storageOps writeWith)
open Timbre (KeyEncoder)

def registerOp : StorageOp → Register.Op Value
  | .set v => .set v
  | .insert v => .insert v
  | .delete | .incrementU64 _ | .decrementU64 _ | .incrementU128 _ | .decrementU128NoDelete _ =>
    .clear

def writesAt (k : Key) (actions : List StorageAction) : List (Register.Op Value) :=
  (opsAt k actions).map registerOp

theorem writesAt_append (k : Key) (first second : List StorageAction) :
    writesAt k (first ++ second) = writesAt k first ++ writesAt k second := by
  simp [writesAt, Polyphony.opsAt_append]

theorem apply_value {op : StorageOp} (hop : op.kind = .value) (held : Option Value) :
    op.apply (.value held) = .value ((registerOp op).apply held) := by
  cases op <;> first | rfl | cases hop

theorem applyOps_value {ops : List StorageOp} (hops : ∀ op ∈ ops, op.kind = .value)
    (held : Option Value) :
    applyOps ops (.value held) = .value (Register.run (ops.map registerOp) held) := by
  induction ops generalizing held with
  | nil => rfl
  | cons op rest ih =>
    obtain ⟨hop, hrest⟩ := List.forall_mem_cons.mp hops
    have hfirst : applyOps (op :: rest) (.value held) =
        applyOps rest (.value ((registerOp op).apply held)) := by
      rw [← apply_value hop]
      rfl
    exact hfirst.trans (ih hrest _)

theorem safeOps_value {ops : List StorageOp} (hops : ∀ op ∈ ops, op.kind = .value)
    (held : Option Value) : SafeOps ops (.value held) := by
  induction ops generalizing held with
  | nil => trivial
  | cons op rest ih =>
    obtain ⟨hop, hrest⟩ := List.forall_mem_cons.mp hops
    refine ⟨?_, ?_⟩
    · cases op <;> trivial
    · rw [apply_value hop]
      exact ih hrest _

variable {k : Key}

theorem kind_of_mem_opsAt {actions : List StorageAction}
    (hactions : ∀ a ∈ actions, a.op.kind = .value) : ∀ op ∈ opsAt k actions, op.kind = .value := by
  intro op hop
  obtain ⟨a, ha, rfl⟩ := List.mem_map.mp hop
  exact hactions a (List.mem_of_mem_filter ha)

/-! ## Batches -/

section Batches

variable {reduce : Block → BlockContext → Except WorkError (List DataOp)} {enc : KeyEncoder}
  {ops : StoredBlock × BlockContext → List DataOp} {blocks : List (StoredBlock × BlockContext)}

theorem kind_of_mem_actionsOf (enc : KeyEncoder) (hreduces : Reduces reduce .value ops blocks) :
    ∀ a ∈ actionsOf enc ops blocks, a.op.kind = .value := by
  intro a ha
  obtain ⟨entry, hentry, ha⟩ := List.mem_flatMap.mp ha
  obtain ⟨op, hop, rfl⟩ := List.mem_map.mp ha
  exact (hreduces entry (List.mem_reverse.mp hentry)).2 op hop

theorem exists_pushBlocks_values (enc : KeyEncoder) (maxLen maxBytes : ℕ) (now : U64)
    (stored : Key → Option Value) (hreduces : Reduces reduce .value ops blocks) :
    ∃ batcher, pushBlocks reduce enc maxLen maxBytes now blocks = .ok batcher ∧
      Represents (fun _ => .value) (fun k => .value (stored k)) batcher.batchActions
        (actionsOf enc ops blocks) := by
  induction blocks with
  | nil => exact ⟨_, rfl, Polyphony.represents_empty⟩
  | cons entry older ih =>
    obtain ⟨block, ctx⟩ := entry
    have hkinds := kind_of_mem_actionsOf enc hreduces
    obtain ⟨⟨hreduce, hops⟩, holder⟩ := List.forall_mem_cons.mp hreduces
    obtain ⟨batcher, hbatcher, hrep⟩ := ih holder
    rw [actionsOf_cons] at hkinds ⊢
    obtain ⟨batcher', hbatcher', hrep'⟩ := hrep.pushActions (fun _ => trivial)
      (List.forall_mem_map.mpr hops)
      (fun k => safeOps_value (kind_of_mem_opsAt hkinds) (stored k))
      (.specific (BitVec.ofNat 64 block.slot) block.hash)
    have hactions : storageOps enc now [.data (ops (block, ctx))] =
        (ops (block, ctx)).map (DataOp.toAction enc) := by
      simp [storageOps, Polyphony.reducerOutputToStorageOps]
    refine ⟨batcher', ?_, hrep'⟩
    rw [pushBlocks, hbatcher, Except.ok_bind, hreduce, Except.ok_bind, hactions, hbatcher']

theorem faithful_writeWith (returnInverses : Bool) :
    Polyphony.Faithful (writeWith returnInverses) := by
  cases returnInverses with
  | true => exact Polyphony.faithful_inverseWrite
  | false => exact Polyphony.faithful_plainWrite

theorem exists_indexBatches_values (enc : KeyEncoder) (maxLen maxBytes : ℕ) (paranoidMode : Bool)
    (now : U64) {batches : List Batch} (hreduces : Reduces reduce .value ops (blocksOf batches)) :
    ∃ store, indexBatches reduce enc maxLen maxBytes paranoidMode now batches = .ok store ∧
      ∀ k, store.get k =
        Register.run (writesAt k (actionsOf enc ops (blocksOf batches))) none := by
  induction batches with
  | nil => exact ⟨∅, rfl, fun k => rfl⟩
  | cons batch earlier ih =>
    rw [blocksOf_cons] at hreduces
    have hbatch : Reduces reduce .value ops batch.blocks := fun entry hentry =>
      hreduces entry (List.mem_append_left _ hentry)
    obtain ⟨store, hstore, hget⟩ := ih fun entry hentry =>
      hreduces entry (List.mem_append_right _ hentry)
    obtain ⟨batcher, hbatcher, hrep⟩ := exists_pushBlocks_values enc maxLen maxBytes now store.get
      hbatch
    obtain ⟨ws, hws, -, hmeaning⟩ := Polyphony.exists_collectWrites_batch
      (faithful_writeWith batch.isMutable)
      (fun k => Polyphony.WellFormed.of_value (store.get k)) hrep batch.order
    refine ⟨store.applyWrites ws, ?_, fun k => ?_⟩
    · rw [indexBatches, hstore, Except.ok_bind, hbatcher, Except.ok_bind,
        Polyphony.executedStore_eq (batcher.nodup_keys_arrange batch.order), hws]
      rfl
    · have hcell : Cell.value ((store.applyWrites ws).get k) =
          applyOps (opsAt k (actionsOf enc ops batch.blocks)) (.value (store.get k)) := hmeaning k
      rw [applyOps_value (kind_of_mem_opsAt (kind_of_mem_actionsOf enc hbatch)),
        Cell.value.injEq] at hcell
      rw [blocksOf_cons, actionsOf_append, writesAt_append, Register.run_append, ← hget]
      exact hcell

theorem writesAt_actionsOf {ω : Type} {outputs : StoredBlock × BlockContext → List ω}
    {dataOp : ω → DataOp} {p : ω → Prop} [DecidablePred p]
    (hkey : ∀ output, ((dataOp output).toAction enc).key = k ↔ p output)
    (blocks : List (StoredBlock × BlockContext)) :
    writesAt k (actionsOf enc (fun entry => (outputs entry).map dataOp) blocks) =
      ((blocks.reverse.flatMap outputs).filter fun output => p output).map
        fun output => registerOp (dataOp output).op := by
  have hactions : actionsOf enc (fun entry => (outputs entry).map dataOp) blocks =
      (blocks.reverse.flatMap outputs).map fun output => (dataOp output).toAction enc := by
    simp [actionsOf, List.map_flatMap, Function.comp_def]
  have hfilter : (blocks.reverse.flatMap outputs).filter ((fun a : StorageAction =>
      decide (a.key = k)) ∘ fun output => (dataOp output).toAction enc) =
        (blocks.reverse.flatMap outputs).filter fun output => p output :=
    List.filter_congr fun output _ => decide_eq_decide.mpr (hkey output)
  rw [writesAt, hactions, opsAt, List.filter_map, List.map_map, List.map_map, hfilter]
  rfl

end Batches

end CardanoIndexer.Reducers
