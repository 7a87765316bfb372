import CardanoIndexer.Reducers.Batches

/-!
# Supplies of assets
-/

namespace CardanoIndexer.Reducers

open Compressor (Tx Block StoredBlock)
open Polyphony (BlockContext WorkError Store StorageAction DataOp Key movesAt)
open Timbre
open Counter

/-! ## The reducer -/

abbrev I64 := BitVec 64

abbrev Asset := Hash28 × Bytes

structure Mint where
  entries : List (Hash28 × List (Bytes × I64))
  nodup_policies : (entries.map Prod.fst).Nodup
  nodup_names : ∀ entry ∈ entries, (entry.2.map Prod.fst).Nodup
  nonzero : ∀ entry ∈ entries, ∀ asset ∈ entry.2, asset.2 ≠ 0

structure SupplyOutput where
  policy : Hash28
  assetName : Bytes
  delta : I64

namespace SupplyByAsset

variable (mints : Tx → Mint)

def processTx (tx : Tx) : List SupplyOutput :=
  (mints tx).entries.flatMap fun entry => entry.2.map fun asset => ⟨entry.1, asset.1, asset.2⟩

def reduceBlock (block : Block) : List SupplyOutput :=
  (block.txs.filter Tx.isValid).flatMap (processTx mints)

def negOrPanic (delta : I64) : Except WorkError I64 :=
  if delta = BitVec.intMin 64 then .error .panic else .ok (-delta)

def dataOp (output : SupplyOutput) : Except WorkError DataOp := do
  let body := output.policy.toList ++ (breakByte :: output.assetName)
  if output.delta.toInt < 0 then
    let amount ← negOrPanic output.delta
    return ⟨reducerSupplyByAsset, body, .decrementU128NoDelete (amount.signExtend 128)⟩
  else
    return ⟨reducerSupplyByAsset, body, .incrementU128 (output.delta.signExtend 128)⟩

def reduce (block : Block) (_ : BlockContext) : Except WorkError (List DataOp) :=
  (reduceBlock mints block).mapM dataOp

end SupplyByAsset

/-! ## Supplies in the ledger -/

section Ledger

variable (mints : Tx → Mint) (asset : Asset)

def quantitiesIn (tx : Tx) : List ℤ :=
  (mints tx).entries.flatMap fun entry =>
    (entry.2.filter fun item => (entry.1, item.1) = asset).map fun item => item.2.toInt

def validTxs (chain : List StoredBlock) : List Tx :=
  chain.reverse.flatMap fun block => block.txs.filter Tx.isValid

def quantities (chain : List StoredBlock) : List ℤ :=
  (validTxs chain).flatMap (quantitiesIn mints asset)

def HasValidSupply (chain : List StoredBlock) : Prop :=
  ∀ asset done, done <+: validTxs chain →
    0 ≤ (done.flatMap (quantitiesIn mints asset)).sum ∧
      (done.flatMap (quantitiesIn mints asset)).sum < 2 ^ 128

end Ledger

def moveOf (quantity : ℤ) : Move := ⟨0 ≤ quantity, quantity.natAbs⟩

theorem delta_moveOf (quantity : ℤ) : (moveOf quantity).delta = quantity := by
  simp only [moveOf, Move.delta, decide_eq_true_eq]
  split <;> omega

theorem total_map_moveOf (qs : List ℤ) : total (qs.map moveOf) = qs.sum := by
  simp [total, Function.comp_def, delta_moveOf]

section Quantities

variable {mints : Tx → Mint} {asset : Asset} {chain : List StoredBlock}

theorem validTxs_append (newer older : List StoredBlock) :
    validTxs (newer ++ older) = validTxs older ++ validTxs newer := by
  simp [validTxs]

theorem quantities_append (newer older : List StoredBlock) :
    quantities mints asset (newer ++ older) =
      quantities mints asset older ++ quantities mints asset newer := by
  simp [quantities, validTxs_append]

theorem length_quantitiesIn_le_one (tx : Tx) : (quantitiesIn mints asset tx).length ≤ 1 := by
  have hcount := List.nodup_iff_count_le_one.mp
    (nodup_pairs (mints tx).nodup_policies (mints tx).nodup_names) asset
  refine le_of_eq_of_le ?_ hcount
  rw [quantitiesIn, List.length_flatMap, List.count_flatMap]
  refine congrArg List.sum (List.map_congr_left fun entry _ => ?_)
  rw [List.length_map, Function.comp_apply, List.count_eq_countP, List.countP_map,
    List.countP_eq_length_filter]
  congr 1
  exact List.filter_congr fun item _ => (beq_eq_decide _ _).symm

theorem ne_zero_of_mem_quantities {q : ℤ} (h : q ∈ quantities mints asset chain) : q ≠ 0 := by
  obtain ⟨tx, -, hq⟩ := List.mem_flatMap.mp h
  obtain ⟨entry, hentry, hq⟩ := List.mem_flatMap.mp hq
  obtain ⟨item, hitem, rfl⟩ := List.mem_map.mp hq
  intro hzero
  exact (mints tx).nonzero entry hentry item (List.mem_of_mem_filter hitem)
    (BitVec.toInt_inj.mp (by simpa using hzero))

theorem staysIn_txs_supply {txs : List Tx}
    (h : ∀ done, done <+: txs → 0 ≤ (done.flatMap (quantitiesIn mints asset)).sum ∧
      (done.flatMap (quantitiesIn mints asset)).sum < 2 ^ 128) :
    StaysIn 0 (2 ^ 128) ((txs.flatMap (quantitiesIn mints asset)).map moveOf) := by
  induction txs using List.reverseRecOn with
  | nil => exact StaysIn.nil (le_refl 0) (by positivity)
  | append_singleton rest tx ih =>
    have hrest := ih fun done hdone => h done (hdone.trans (List.prefix_append _ _))
    have hstart := h rest (List.prefix_append _ _)
    have hfinal := h (rest ++ [tx]) (List.prefix_refl _)
    rw [List.flatMap_append, List.flatMap_singleton] at hfinal ⊢
    rw [List.sum_append] at hfinal
    rw [List.map_append, staysIn_append, total_map_moveOf, zero_add]
    refine ⟨hrest, StaysIn.of_length_le_one ?_ hstart ?_⟩
    · rw [List.length_map]
      exact length_quantitiesIn_le_one tx
    · rw [total_map_moveOf]
      exact hfinal

theorem exists_pos_of_quantities (h : HasValidSupply mints chain)
    (hne : quantities mints asset chain ≠ []) : ∃ q ∈ quantities mints asset chain, 0 < q := by
  have hstays : StaysIn 0 (2 ^ 128) ((quantities mints asset chain).map moveOf) :=
    staysIn_txs_supply (h asset)
  obtain ⟨q, rest, hcons⟩ := List.exists_cons_of_ne_nil hne
  have hmem : q ∈ quantities mints asset chain := by simp [hcons]
  rw [hcons] at hstays
  have hfirst := (hstays [moveOf q] (by simp)).1
  rw [total_singleton, delta_moveOf, zero_add] at hfirst
  exact ⟨q, hmem, lt_of_le_of_ne hfirst (ne_zero_of_mem_quantities hmem).symm⟩

end Quantities

/-! ## The counter of an asset -/

def supplyOp (output : SupplyOutput) : DataOp :=
  ⟨reducerSupplyByAsset, output.policy.toList ++ (breakByte :: output.assetName),
    if output.delta.toInt < 0 then .decrementU128NoDelete ((-output.delta).signExtend 128)
    else .incrementU128 (output.delta.signExtend 128)⟩

def supplyOps (mints : Tx → Mint) (entry : StoredBlock × BlockContext) : List DataOp :=
  (SupplyByAsset.reduceBlock mints entry.1.toBlock).map supplyOp

theorem dataOp_eq {output : SupplyOutput} (h : output.delta ≠ BitVec.intMin 64) :
    SupplyByAsset.dataOp output = .ok (supplyOp output) := by
  unfold SupplyByAsset.dataOp supplyOp SupplyByAsset.negOrPanic
  by_cases hneg : output.delta.toInt < 0
  · simp [hneg, h]
  · simp [hneg]

theorem toNat_signExtend {x : I64} (h : 0 ≤ x.toInt) : (x.signExtend 128).toNat = x.toInt.natAbs := by
  have hmsb : x.msb = false := by
    rw [BitVec.msb_eq_toInt]
    simpa using h
  rw [BitVec.signExtend_eq_setWidth_of_msb_false hmsb, BitVec.toNat_setWidth_of_le (by norm_num),
    BitVec.toInt_eq_toNat_of_msb hmsb, Int.natAbs_natCast]

theorem move_supplyOp {output : SupplyOutput} (h : output.delta ≠ BitVec.intMin 64) :
    (supplyOp output).op.move = moveOf output.delta.toInt := by
  unfold supplyOp moveOf
  by_cases hneg : output.delta.toInt < 0
  · have hflip : (-output.delta).toInt = -output.delta.toInt := BitVec.toInt_neg_of_ne_intMin h
    have hamount : ((-output.delta).signExtend 128).toNat = output.delta.toInt.natAbs := by
      rw [toNat_signExtend (by omega), hflip, Int.natAbs_neg]
    simp [hneg, Polyphony.StorageOp.move, hamount, not_le.mpr hneg]
  · have hamount := toNat_signExtend (not_lt.mp hneg)
    simp [hneg, Polyphony.StorageOp.move, hamount, not_lt.mp hneg]

theorem key_supplyOp (enc : KeyEncoder) (output : SupplyOutput) (asset : Asset) :
    ((supplyOp output).toAction enc).key = enc.encodeSupplyByAssetKey asset.1 asset.2 ↔
      (output.policy, output.assetName) = asset := by
  have hencode : ((supplyOp output).toAction enc).key =
      (DataKey.supplyByAsset output.policy output.assetName).encode enc
        (fun _ => Vector.replicate 32 0) := rfl
  have hencode' : enc.encodeSupplyByAssetKey asset.1 asset.2 =
      (DataKey.supplyByAsset asset.1 asset.2).encode enc (fun _ => Vector.replicate 32 0) := rfl
  rw [hencode, hencode', DataKey.encode_eq_encode_iff]
  constructor
  · rintro ⟨-, hbody⟩
    obtain ⟨hpolicy, hname⟩ := owner_item_of_eq isPrefixCode_policy hbody
    exact Prod.ext (toList_injective hpolicy) hname
  · rintro rfl
    exact ⟨rfl, rfl⟩

def Negatable (mints : Tx → Mint) (chain : List StoredBlock) : Prop :=
  ∀ tx ∈ validTxs chain, ∀ entry ∈ (mints tx).entries, ∀ item ∈ entry.2,
    item.2 ≠ BitVec.intMin 64

section Moves

variable {mints : Tx → Mint} {enc : KeyEncoder} {blocks : List (StoredBlock × BlockContext)}

theorem ne_intMin_of_negatable (h : Negatable mints (blocks.map Prod.fst))
    {entry : StoredBlock × BlockContext} (hentry : entry ∈ blocks) {output : SupplyOutput}
    (houtput : output ∈ SupplyByAsset.reduceBlock mints entry.1.toBlock) :
    output.delta ≠ BitVec.intMin 64 := by
  obtain ⟨tx, htx, houtput⟩ := List.mem_flatMap.mp houtput
  obtain ⟨minted, hminted, houtput⟩ := List.mem_flatMap.mp houtput
  obtain ⟨item, hitem, rfl⟩ := List.mem_map.mp houtput
  refine h tx (List.mem_flatMap.mpr ⟨entry.1, ?_, htx⟩) minted hminted item hitem
  exact List.mem_reverse.mpr (List.mem_map_of_mem hentry)

theorem quantities_cons (asset : Asset) (block : StoredBlock) (older : List StoredBlock) :
    quantities mints asset (block :: older) = quantities mints asset older ++
      (block.txs.filter Tx.isValid).flatMap (quantitiesIn mints asset) := by
  simp [quantities, validTxs]

theorem map_delta_filter_reduceBlock (asset : Asset) (block : Block) :
    ((SupplyByAsset.reduceBlock mints block).filter fun output =>
        (output.policy, output.assetName) = asset).map (fun output => output.delta.toInt) =
      (block.txs.filter Tx.isValid).flatMap (quantitiesIn mints asset) := by
  simp only [SupplyByAsset.reduceBlock, SupplyByAsset.processTx, List.filter_flatMap,
    List.map_flatMap, List.filter_map, List.map_map]
  rfl

theorem movesAt_supplyByAsset (asset : Asset) (h : Negatable mints (blocks.map Prod.fst)) :
    movesAt (enc.encodeSupplyByAssetKey asset.1 asset.2)
        (actionsOf enc (supplyOps mints) blocks) =
      (quantities mints asset (blocks.map Prod.fst)).map moveOf := by
  induction blocks with
  | nil => rfl
  | cons entry older ih =>
    have holder : Negatable mints (older.map Prod.fst) := by
      intro tx htx
      refine h tx ?_
      rw [List.map_cons, ← List.singleton_append, validTxs_append]
      exact List.mem_append_left _ htx
    have hentry : movesAt (enc.encodeSupplyByAssetKey asset.1 asset.2)
        ((supplyOps mints entry).map (DataOp.toAction enc)) =
          ((entry.1.txs.filter Tx.isValid).flatMap (quantitiesIn mints asset)).map moveOf := by
      rw [supplyOps, List.map_map, ← map_delta_filter_reduceBlock, List.map_map]
      refine (Polyphony.movesAt_map fun output _ => key_supplyOp enc output asset).trans ?_
      refine List.map_congr_left fun output houtput => move_supplyOp ?_
      exact ne_intMin_of_negatable h List.mem_cons_self (List.mem_of_mem_filter houtput)
    rw [actionsOf_cons, Polyphony.movesAt_append, ih holder, hentry, List.map_cons,
      quantities_cons, List.map_append]

theorem reduces_supply (h : Negatable mints (blocks.map Prod.fst)) :
    Reduces (SupplyByAsset.reduce mints) .u128 (supplyOps mints) blocks := by
  intro entry hentry
  constructor
  · rw [SupplyByAsset.reduce, supplyOps]
    exact Except.mapM_eq_ok_map fun output houtput =>
      dataOp_eq (ne_intMin_of_negatable h hentry houtput)
  · intro op hop
    obtain ⟨output, -, rfl⟩ := List.mem_map.mp hop
    unfold supplyOp
    split <;> rfl

end Moves

/-! ## Right supplies -/

structure HoldsSupply (enc : KeyEncoder) (mints : Tx → Mint) (store : Store)
    (chain : List StoredBlock) (asset : Asset) : Prop where
  isSome_iff : (store.get (enc.encodeSupplyByAssetKey asset.1 asset.2)).isSome = true ↔
    ∃ q ∈ quantities mints asset chain, 0 < q
  value : ∀ v, store.get (enc.encodeSupplyByAssetKey asset.1 asset.2) = some v →
    v = Bytes.toBE 16 (quantities mints asset chain).sum.toNat

structure ShowsSupply (mints : Tx → Mint) (batches : List Batch) : Prop where
  negatable : Negatable mints ((blocksOf batches).map Prod.fst)
  shows : ∀ asset, (∃ q ∈ quantities mints asset ((blocksOf batches).map Prod.fst), 0 < q) →
    (∃ batch ∈ batches, batch.isMutable = true ∧
      quantities mints asset (batch.blocks.map Prod.fst) ≠ []) ∨
    ∃ earlier, earlier <:+ batches ∧
      0 < (quantities mints asset ((blocksOf earlier).map Prod.fst)).sum

def supplyMoves (mints : Tx → Mint) (asset : Asset) (blocks : List (StoredBlock × BlockContext)) :
    List Move :=
  (quantities mints asset (blocks.map Prod.fst)).map moveOf

section Right

variable {mints : Tx → Mint} {enc : KeyEncoder} {maxLen maxBytes : ℕ} {paranoidMode : Bool}
  {now : U64} {batches : List Batch} {asset : Asset}

theorem negatable_of_indexBatches {store : Store}
    (h : indexBatches (SupplyByAsset.reduce mints) enc maxLen maxBytes paranoidMode now batches =
      .ok store) : Negatable mints ((blocksOf batches).map Prod.fst) := by
  intro tx htx minted hminted item hitem hmin
  obtain ⟨block, hblock, htx⟩ := List.mem_flatMap.mp htx
  obtain ⟨entry, hentry, rfl⟩ := List.mem_map.mp (List.mem_reverse.mp hblock)
  obtain ⟨outputs, houtputs⟩ := exists_reduce_of_indexBatches h entry hentry
  have houtput : ⟨minted.1, item.1, item.2⟩ ∈ SupplyByAsset.reduceBlock mints entry.1.toBlock :=
    List.mem_flatMap.mpr ⟨tx, htx, List.mem_flatMap.mpr
      ⟨minted, hminted, List.mem_map.mpr ⟨item, hitem, rfl⟩⟩⟩
  obtain ⟨op, hop⟩ := Except.exists_ok_of_mapM houtputs houtput
  have hneg : (BitVec.intMin 64).toInt < 0 := by decide
  simp [SupplyByAsset.dataOp, SupplyByAsset.negOrPanic, hmin, hneg] at hop

theorem allMoves_supplyMoves (asset : Asset) (batches : List Batch) :
    allMoves (periodsOf (supplyMoves mints asset) batches) =
      supplyMoves mints asset (blocksOf batches) :=
  allMoves_periodsOf rfl (fun newer older => by
    simp [supplyMoves, quantities_append]) batches

theorem level_supplyMoves (asset : Asset) (batches : List Batch) :
    level 0 (periodsOf (supplyMoves mints asset) batches) =
      (quantities mints asset ((blocksOf batches).map Prod.fst)).sum := by
  rw [level_eq, allMoves_supplyMoves, supplyMoves, total_map_moveOf, zero_add]

theorem everPresent_supplyMoves_iff (asset : Asset) (batches : List Batch) :
    EverPresent 0 (periodsOf (supplyMoves mints asset) batches) ↔
      (∃ batch ∈ batches, batch.isMutable = true ∧
        quantities mints asset (batch.blocks.map Prod.fst) ≠ []) ∨
      ∃ earlier, earlier <:+ batches ∧
        0 < (quantities mints asset ((blocksOf earlier).map Prod.fst)).sum := by
  refine or_congr ?_ ?_
  · simp [periodsOf, supplyMoves]
  · refine exists_suffix_periodsOf.trans (exists_congr fun earlier => and_congr_right fun _ => ?_)
    rw [level_supplyMoves]

theorem exists_pos_of_everPresent (hvalid : HasValidSupply mints ((blocksOf batches).map Prod.fst))
    (h : EverPresent 0 (periodsOf (supplyMoves mints asset) batches)) :
    ∃ q ∈ quantities mints asset ((blocksOf batches).map Prod.fst), 0 < q := by
  refine exists_pos_of_quantities hvalid fun hnone => ?_
  rcases (everPresent_supplyMoves_iff asset batches).mp h with
    ⟨batch, hbatch, -, hne⟩ | ⟨earlier, ⟨later, rfl⟩, hpos⟩
  · obtain ⟨later, earlier, rfl⟩ := List.append_of_mem hbatch
    rw [blocksOf_append, blocksOf_cons, List.map_append, List.map_append, quantities_append,
      quantities_append, List.append_eq_nil_iff, List.append_eq_nil_iff] at hnone
    exact hne hnone.1.2
  · rw [blocksOf_append, List.map_append, quantities_append, List.append_eq_nil_iff] at hnone
    rw [hnone.1] at hpos
    exact lt_irrefl 0 hpos

theorem exists_indexBatches_supply
    (hvalid : HasValidSupply mints ((blocksOf batches).map Prod.fst))
    (hneg : Negatable mints ((blocksOf batches).map Prod.fst)) :
    ∃ store, indexBatches (SupplyByAsset.reduce mints) enc maxLen maxBytes paranoidMode now
        batches = .ok store ∧
      ∀ asset : Asset, store.get (enc.encodeSupplyByAssetKey asset.1 asset.2) =
        Polyphony.Kind.u128.stored
          (Counter.run false (periodsOf (supplyMoves mints asset) batches)) := by
  have hstays : ∀ k, StaysIn 0 (256 ^ Polyphony.Kind.u128.width)
      (movesAt k (actionsOf enc (supplyOps mints) (blocksOf batches))) := by
    intro k
    by_cases hk : ∃ asset : Asset, enc.encodeSupplyByAssetKey asset.1 asset.2 = k
    · obtain ⟨asset, rfl⟩ := hk
      rw [movesAt_supplyByAsset asset hneg]
      exact staysIn_txs_supply (hvalid asset)
    · -- no output of the reducer is under this key
      have hnone : k ∉ (actionsOf enc (supplyOps mints) (blocksOf batches)).map
          StorageAction.key := by
        intro hmem
        obtain ⟨a, ha, rfl⟩ := List.mem_map.mp hmem
        obtain ⟨entry, -, ha⟩ := List.mem_flatMap.mp ha
        rw [supplyOps, List.map_map] at ha
        obtain ⟨output, -, rfl⟩ := List.mem_map.mp ha
        exact hk ⟨(output.policy, output.assetName), rfl⟩
      rw [movesAt, Polyphony.opsAt_eq_nil hnone]
      exact StaysIn.nil (le_refl 0) (by positivity)
  obtain ⟨store, hstore, hget⟩ :=
    exists_indexBatches (by decide) (reduces_supply hneg) (fun _ => 0) hstays
  refine ⟨store, hstore, fun asset => ?_⟩
  have hperiods : periodsAt enc (supplyOps mints)
      (enc.encodeSupplyByAssetKey asset.1 asset.2) batches =
        periodsOf (supplyMoves mints asset) batches := by
    refine List.map_congr_left fun batch hbatch => congrArg _ ?_
    refine movesAt_supplyByAsset asset fun tx htx => hneg tx ?_
    obtain ⟨block, hblock, htx⟩ := List.mem_flatMap.mp htx
    obtain ⟨entry, hentry, rfl⟩ := List.mem_map.mp (List.mem_reverse.mp hblock)
    refine List.mem_flatMap.mpr ⟨entry.1, List.mem_reverse.mpr (List.mem_map_of_mem ?_), htx⟩
    exact List.mem_flatMap.mpr ⟨batch, hbatch, hentry⟩
  rw [hget, hperiods]
  rfl

theorem holdsSupply_iff (hvalid : HasValidSupply mints ((blocksOf batches).map Prod.fst))
    {store : Store} (hget : store.get (enc.encodeSupplyByAssetKey asset.1 asset.2) =
      Polyphony.Kind.u128.stored
        (Counter.run false (periodsOf (supplyMoves mints asset) batches))) :
    HoldsSupply enc mints store ((blocksOf batches).map Prod.fst) asset ↔
      ((∃ q ∈ quantities mints asset ((blocksOf batches).map Prod.fst), 0 < q) →
        EverPresent 0 (periodsOf (supplyMoves mints asset) batches)) := by
  have hstays : StaysIn 0 (2 ^ 128)
      (allMoves (periodsOf (supplyMoves mints asset) batches)) := by
    rw [allMoves_supplyMoves]
    exact staysIn_txs_supply (hvalid asset)
  have hsome : (store.get (enc.encodeSupplyByAssetKey asset.1 asset.2)).isSome = true ↔
      EverPresent 0 (periodsOf (supplyMoves mints asset) batches) := by
    rw [hget, Polyphony.Kind.stored, Option.isSome_map, isSome_run_iff hstays]
    intro move hmove
    rw [allMoves_supplyMoves] at hmove
    obtain ⟨q, hq, rfl⟩ := List.mem_map.mp hmove
    exact Int.natAbs_ne_zero.mpr (ne_zero_of_mem_quantities hq)
  constructor
  · exact fun h hminted => hsome.mp (h.isSome_iff.mpr hminted)
  · intro h
    refine ⟨hsome.trans ⟨exists_pos_of_everPresent hvalid, h⟩, fun v hv => ?_⟩
    -- the counter starts with the supply
    have hlevel : ((Counter.run false (periodsOf (supplyMoves mints asset) batches)).getD 0 : ℤ) =
        (quantities mints asset ((blocksOf batches).map Prod.fst)).sum := by
      rw [← level_supplyMoves]
      exact (run_eq_level_iff hstays.nonnegLevels).mpr ⟨[], List.nil_suffix, rfl⟩
    rw [hget] at hv
    obtain ⟨n, hn, rfl⟩ := Option.map_eq_some_iff.mp hv
    rw [hn, Option.getD_some] at hlevel
    rw [← hlevel, Int.toNat_natCast]
    rfl

end Right

def sampleAsset : Asset := (Vector.replicate 28 8, [1])

def sampleMints (tx : Tx) : Mint where
  entries :=
    if tx.hash = Compressor.sampleHash 101 then [(sampleAsset.1, [(sampleAsset.2, 5)])]
    else if tx.hash = Compressor.sampleHash 102 then [(sampleAsset.1, [(sampleAsset.2, -5)])]
    else []
  nodup_policies := by split_ifs <;> simp
  nodup_names := by split_ifs <;> simp
  nonzero := by split_ifs <;> simp

def mintingBlocks : List StoredBlock :=
  [Compressor.sampleBlock 10 1 none [Compressor.sampleTx 101 true [(9, 0)] [] [] [[1]] none],
    Compressor.sampleBlock 20 2 (some 1)
      [Compressor.sampleTx 102 true [(101, 0)] [] [] [[2]] none]]

theorem hasValidSupply_mintingBlocks : HasValidSupply sampleMints mintingBlocks.reverse := by
  intro asset done hdone
  by_cases hasset : asset = sampleAsset
  · subst hasset
    rw [← List.mem_inits] at hdone
    revert done
    decide +kernel
  · -- the transactions are about one asset
    have hnone : ∀ tx, quantitiesIn sampleMints asset tx = [] := by
      intro tx
      have hne : (sampleAsset.1, sampleAsset.2) ≠ asset := Ne.symm hasset
      simp only [quantitiesIn, sampleMints]
      split_ifs <;> simp [hne]
    have hsum : (done.flatMap (quantitiesIn sampleMints asset)).sum = 0 := by
      rw [List.flatMap_eq_nil_iff.mpr fun tx _ => hnone tx]
      rfl
    rw [hsum]
    norm_num

end CardanoIndexer.Reducers
