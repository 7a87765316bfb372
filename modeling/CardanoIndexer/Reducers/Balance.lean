import CardanoIndexer.Reducers.Batches

/-!
# Balances of addresses

The genesis outputs are in no block, so nothing counts them up.
-/

namespace CardanoIndexer.Reducers

open Compressor (Pallas GenesisUtxo Tx Block StoredBlock TxoRef TxoBody Era genesisTxos history)
open Pipeline (Produced Resolves storedOutput)
open Polyphony (BlockContext WorkError Store StorageAction DataOp Key movesAt)
open Timbre
open Counter

/-! ## The reducer -/

structure BalanceOutput where
  address : Address
  amount : U64
  increment : Bool
  deriving DecidableEq

namespace BalanceByAddress

variable (L : Library) (policy : RuntimePolicy)

def processConsumedTxo (ctx : BlockContext) (input : TxoRef) :
    Except WorkError (List BalanceOutput) := do
  match ← applyPolicy policy (findUtxo L ctx input) with
  | none => return []
  | some (_, utxo, _) =>
    let address ← orPanic utxo.address
    return [⟨address, utxo.coin, false⟩]

def processProducedTxo (tx : Tx) (output : ℕ × Bytes) : Except WorkError (List BalanceOutput) := do
  let decoded ← orPanic (L.decodeOutput tx.era output.2)
  let address ← orPanic decoded.address
  return [⟨address, decoded.coin, true⟩]

def reduceTx (ctx : BlockContext) (tx : Tx) : Except WorkError (List BalanceOutput) := do
  let consumed ← (consumedRefs tx).mapM (processConsumedTxo L policy ctx)
  let produced ← tx.produces.mapM (processProducedTxo L tx)
  return consumed.flatten ++ produced.flatten

def filterMatches (filter : Option (Block → BlockContext → Tx → Except WorkError Bool))
    (block : Block) (ctx : BlockContext) (tx : Tx) : Except WorkError Bool :=
  match filter with
  | some predicate => predicate block ctx tx
  | none => .ok true

def reduceBlock (filter : Option (Block → BlockContext → Tx → Except WorkError Bool))
    (block : Block) (ctx : BlockContext) : Except WorkError (List BalanceOutput) := do
  let outputs ← block.txs.mapM fun tx => do
    if ← filterMatches filter block ctx tx then reduceTx L policy ctx tx else return []
  return outputs.flatten

def dataOp (blake2b : Bytes → Hash) (output : BalanceOutput) : DataOp :=
  let key := DataKey.lovelaceByAddress output.address
  ⟨key.reducer.tag, key.body blake2b,
    if output.increment then .incrementU64 output.amount else .decrementU64 output.amount⟩

def reduce (blake2b : Bytes → Hash) (block : Block) (ctx : BlockContext) :
    Except WorkError (List DataOp) := do
  let outputs ← reduceBlock L policy none block ctx
  return outputs.map (dataOp blake2b)

end BalanceByAddress

/-! ## Lovelace in the ledger -/

section Ledger

variable (P : Pallas) (L : Library)

def lovelace (output : ℕ × Era × Bytes) : ℕ :=
  match L.decodeOutput output.2.1 output.2.2 with
  | some out => out.coin.toNat
  | none => 0

def lovelaceAt (address : Address) (output : ℕ × Era × Bytes) : ℕ :=
  match L.decodeOutput output.2.1 output.2.2 with
  | some out => if out.address = some address then out.coin.toNat else 0
  | none => 0

def tableBalance (genesis : List GenesisUtxo) (address : Address)
    (past : List (Spending.Transfer TxoRef TxoBody)) : ℕ :=
  (Spending.table (genesisTxos P genesis) past).sumOf fun entry =>
    (storedOutput P entry.2).elim 0 (lovelaceAt L address)

def balanceAt (genesis : List GenesisUtxo) (address : Address) (chain : List StoredBlock) : ℕ :=
  tableBalance P L genesis address (history P chain)

def HasBoundedLovelace (genesis : List GenesisUtxo) (chain : List StoredBlock) : Prop :=
  ∀ past, past <+: history P chain →
    ((Spending.table (genesisTxos P genesis) past).sumOf fun entry =>
      (storedOutput P entry.2).elim 0 (lovelace L)) < 2 ^ 64

def movement (address : Address) (up : Bool) (output : ℕ × Era × Bytes) : List Move :=
  match L.decodeOutput output.2.1 output.2.2 with
  | some out => if out.address = some address then [⟨up, out.coin.toNat⟩] else []
  | none => []

def txMovements (address : Address) (slot : ℕ) (ctx : BlockContext) (tx : Tx) : List Move :=
  (tx.consumes.flatMap fun ref => movement L address false (resolvedTxo ctx ref).2) ++
    tx.produces.flatMap fun output => movement L address true (slot, tx.era, output.2)

def movements (address : Address) (blocks : List (StoredBlock × BlockContext)) : List Move :=
  blocks.reverse.flatMap fun entry =>
    entry.1.txs.flatMap (txMovements L address entry.1.slot entry.2)

end Ledger

def balanceOutputs (L : Library) (increment : Bool) (output : ℕ × Era × Bytes) :
    List BalanceOutput :=
  match L.decodeOutput output.2.1 output.2.2 with
  | some out => (out.address.map fun address => ⟨address, out.coin, increment⟩).toList
  | none => []

def txOutputs (L : Library) (slot : ℕ) (ctx : BlockContext) (tx : Tx) : List BalanceOutput :=
  (tx.consumes.flatMap fun ref => balanceOutputs L false (resolvedTxo ctx ref).2) ++
    tx.produces.flatMap fun output => balanceOutputs L true (slot, tx.era, output.2)

def blockOutputs (L : Library) (entry : StoredBlock × BlockContext) : List BalanceOutput :=
  entry.1.txs.flatMap (txOutputs L entry.1.slot entry.2)

section Reduce

variable {P : Pallas} {L : Library} {genesis : List GenesisUtxo} {block : StoredBlock}
  {older : List StoredBlock} {ctx : BlockContext} {policy : RuntimePolicy}

theorem reduceBlock_eq (hchain : IsLedgerChain P L genesis (block :: older))
    (hresolves : Resolves P genesis (block :: older) block.toBlock ctx) :
    BalanceByAddress.reduceBlock L policy none block.toBlock ctx =
      .ok (blockOutputs L (block, ctx)) := by
  have htxs : ∀ tx ∈ block.txs,
      (do if ← BalanceByAddress.filterMatches none block.toBlock ctx tx then
            BalanceByAddress.reduceTx L policy ctx tx else return []) =
        .ok (txOutputs L block.slot ctx tx) := by
    intro tx htx
    have hconsumed : (consumedRefs tx).mapM (BalanceByAddress.processConsumedTxo L policy ctx) =
        .ok (tx.consumes.map fun ref => balanceOutputs L false (resolvedTxo ctx ref).2) := by
      rw [consumedRefs_eq]
      refine Except.mapM_eq_ok_map fun ref href => ?_
      obtain ⟨slot, era, raw, out, address, -, hdecode, haddress, hctx, hfind⟩ :=
        findUtxo_of_resolves hchain hresolves htx href
      simp [BalanceByAddress.processConsumedTxo, hfind, applyPolicy, haddress, orPanic,
        balanceOutputs, resolvedTxo, hctx, hdecode]
    have hproduced : tx.produces.mapM (BalanceByAddress.processProducedTxo L tx) =
        .ok (tx.produces.map fun output =>
          balanceOutputs L true (block.slot, tx.era, output.2)) := by
      refine Except.mapM_eq_ok_map fun output houtput => ?_
      obtain ⟨out, address, hdecode, haddress⟩ :=
        hchain.readable _ _ (produced_of_mem_produces htx houtput)
      simp [BalanceByAddress.processProducedTxo, hdecode, haddress, orPanic, balanceOutputs]
    simp only [BalanceByAddress.filterMatches, BalanceByAddress.reduceTx, hconsumed, hproduced,
      Except.ok_bind, Except.pure_eq_ok, if_true]
    rfl
  rw [BalanceByAddress.reduceBlock, Except.mapM_eq_ok_map htxs]
  rfl

end Reduce

/-! ## The counter of an address -/

def ownMoves (address : Address) (outputs : List BalanceOutput) : List Move :=
  (outputs.filter fun output => output.address = address).map fun output =>
    ⟨output.increment, output.amount.toNat⟩

variable {α : Type}

theorem ownMoves_flatMap (address : Address) (xs : List α) (f : α → List BalanceOutput) :
    ownMoves address (xs.flatMap f) = xs.flatMap fun x => ownMoves address (f x) := by
  simp [ownMoves, List.filter_flatMap, List.map_flatMap]

theorem ownMoves_balanceOutputs (L : Library) (address : Address) (up : Bool)
    (output : ℕ × Era × Bytes) :
    ownMoves address (balanceOutputs L up output) = movement L address up output := by
  unfold balanceOutputs movement
  cases L.decodeOutput output.2.1 output.2.2 with
  | none => rfl
  | some out =>
    cases haddress : out.address with
    | none => simp [ownMoves, haddress]
    | some owner =>
      by_cases heq : owner = address <;> simp [ownMoves, haddress, heq]

theorem ownMoves_blockOutputs (L : Library) (address : Address)
    (entry : StoredBlock × BlockContext) :
    ownMoves address (blockOutputs L entry) =
      entry.1.txs.flatMap (txMovements L address entry.1.slot entry.2) := by
  have happend : ∀ first second : List BalanceOutput,
      ownMoves address (first ++ second) = ownMoves address first ++ ownMoves address second := by
    simp [ownMoves]
  simp only [blockOutputs, ownMoves_flatMap, txOutputs, happend, ownMoves_balanceOutputs]
  rfl

section Moves

variable {L : Library} {enc : KeyEncoder} {blake2b : Bytes → Hash} {addresses : Set Bytes}
  {address : Address}

def balanceOps (L : Library) (blake2b : Bytes → Hash) (entry : StoredBlock × BlockContext) :
    List DataOp :=
  (blockOutputs L entry).map (BalanceByAddress.dataOp blake2b)

theorem movesAt_outputs (hinj : Set.InjOn blake2b addresses) (haddress : address.IsKeyed addresses)
    {outputs : List BalanceOutput}
    (houtputs : ∀ output ∈ outputs, output.address.IsKeyed addresses) :
    movesAt (enc.encodeLovelaceByAddressKey blake2b address)
        ((outputs.map (BalanceByAddress.dataOp blake2b)).map (DataOp.toAction enc)) =
      ownMoves address outputs := by
  have hkey : ∀ output ∈ outputs,
      ((BalanceByAddress.dataOp blake2b output).toAction enc).key =
          enc.encodeLovelaceByAddressKey blake2b address ↔ output.address = address := by
    intro output houtput
    have hencode : ((BalanceByAddress.dataOp blake2b output).toAction enc).key =
        (DataKey.lovelaceByAddress output.address).encode enc blake2b := by
      rw [DataKey.encode_eq]
      rfl
    have hencode' : enc.encodeLovelaceByAddressKey blake2b address =
        (DataKey.lovelaceByAddress address).encode enc blake2b := rfl
    rw [hencode, hencode', DataKey.encode_eq_encode_iff]
    constructor
    · rintro ⟨-, hbody⟩
      exact encodeAddressWithType_injOn hinj (houtputs output houtput) haddress hbody
    · rintro rfl
      exact ⟨rfl, rfl⟩
  rw [List.map_map]
  refine (Polyphony.movesAt_map hkey).trans (List.map_congr_left fun output _ => ?_)
  cases hincrement : output.increment <;>
    simp [BalanceByAddress.dataOp, DataOp.toAction, Polyphony.StorageOp.move, hincrement]

theorem movesAt_lovelaceByAddress (hinj : Set.InjOn blake2b addresses)
    (haddress : address.IsKeyed addresses) {blocks : List (StoredBlock × BlockContext)}
    (hblocks : ∀ entry ∈ blocks, ∀ output ∈ blockOutputs L entry,
      output.address.IsKeyed addresses) :
    movesAt (enc.encodeLovelaceByAddressKey blake2b address)
        (actionsOf enc (balanceOps L blake2b) blocks) = movements L address blocks := by
  induction blocks with
  | nil => rfl
  | cons entry older ih =>
    obtain ⟨hentry, holder⟩ := List.forall_mem_cons.mp hblocks
    rw [actionsOf_cons, Polyphony.movesAt_append, ih holder, balanceOps,
      movesAt_outputs hinj haddress hentry, ownMoves_blockOutputs]
    simp [movements]

end Moves

/-! ## Levels -/

variable {chain : List (StoredBlock × BlockContext)}

section Levels

variable {P : Pallas} {L : Library} {genesis : List GenesisUtxo} {address : Address}
  {before : List Tx} {tx : Tx}

theorem total_flatMap_movement (L : Library) (address : Address) (up : Bool)
    (g : α → ℕ × Era × Bytes) (xs : List α) :
    total (xs.flatMap fun x => movement L address up (g x)) =
      (if up then 1 else -1) * ((xs.map fun x => lovelaceAt L address (g x)).sum : ℤ) := by
  induction xs with
  | nil => simp
  | cons x rest ih =>
    have hhead : total (movement L address up (g x)) =
        (if up then 1 else -1) * (lovelaceAt L address (g x) : ℤ) := by
      unfold movement lovelaceAt
      cases L.decodeOutput (g x).2.1 (g x).2.2 with
      | none => simp
      | some out => by_cases heq : out.address = some address <;> cases up <;> simp [heq, Move.delta]
    rw [List.flatMap_cons, total_append, ih, hhead, List.map_cons, List.sum_cons]
    push_cast
    ring

theorem up_of_mem_flatMap_movement {up : Bool} {g : α → ℕ × Era × Bytes} {xs : List α} {move : Move}
    (h : move ∈ xs.flatMap fun x => movement L address up (g x)) : move.up = up := by
  obtain ⟨x, -, hmove⟩ := List.mem_flatMap.mp h
  unfold movement at hmove
  split at hmove
  · split at hmove
    · rw [List.mem_singleton.mp hmove]
    · cases hmove
  · cases hmove

theorem lovelaceAt_le (output : ℕ × Era × Bytes) :
    lovelaceAt L address output ≤ lovelace L output := by
  unfold lovelaceAt lovelace
  cases L.decodeOutput output.2.1 output.2.2 with
  | none => exact le_refl 0
  | some out => by_cases heq : out.address = some address <;> simp [heq]

theorem tableBalance_lt {chain : List StoredBlock} (h : HasBoundedLovelace P L genesis chain)
    {past : List (Spending.Transfer TxoRef TxoBody)} (hpast : past <+: history P chain) :
    tableBalance P L genesis address past < 2 ^ 64 := by
  refine lt_of_le_of_lt (SortedMap.sumOf_mono (fun entry => ?_) _) (h past hpast)
  cases storedOutput P entry.2 with
  | none => exact le_refl 0
  | some output => exact lovelaceAt_le output

variable {block : StoredBlock} {older : List StoredBlock} {ctx : BlockContext}

theorem history_split {after : List Tx} (htxs : block.txs = before ++ tx :: after) :
    history P (block :: older) = history P older ++ before.map (Tx.transfer P block.slot) ++
      tx.transfer P block.slot :: after.map (Tx.transfer P block.slot) := by
  rw [Compressor.history_cons, Compressor.Block.transfers, htxs]
  simp

theorem tableBalance_tx (address : Address) (hchain : IsLedgerChain P L genesis (block :: older))
    (hresolves : Resolves P genesis (block :: older) block.toBlock ctx) {after : List Tx}
    (htxs : block.txs = before ++ tx :: after) :
    (tx.consumes.map fun ref => lovelaceAt L address (resolvedTxo ctx ref).2).sum ≤
        tableBalance P L genesis address (history P older ++
          before.map (Tx.transfer P block.slot)) ∧
    tableBalance P L genesis address (history P older ++
          (before ++ [tx]).map (Tx.transfer P block.slot)) +
        (tx.consumes.map fun ref => lovelaceAt L address (resolvedTxo ctx ref).2).sum =
      tableBalance P L genesis address (history P older ++
          before.map (Tx.transfer P block.slot)) +
        (tx.produces.map fun output =>
          lovelaceAt L address (block.slot, tx.era, output.2)).sum := by
  have hhistory : history P (block :: older) = _ := history_split htxs
  have hafter : history P older ++ (before ++ [tx]).map (Tx.transfer P block.slot) =
      history P older ++ before.map (Tx.transfer P block.slot) ++ [tx.transfer P block.slot] := by
    simp
  rw [hafter]
  set past := history P older ++ before.map (Tx.transfer P block.slot)
  have hall := hchain.valid
  rw [hhistory] at hall
  have hvalid : Spending.Valid (genesisTxos P genesis) past := hall.of_append
  have hfollows : Spending.Follows (genesisTxos P genesis) past (tx.transfer P block.slot) :=
    hall.follows
  -- what the transaction spends is in the table as the context has it
  have hspent : (tx.transfer P block.slot).spent.map (fun ref =>
      ((Spending.table (genesisTxos P genesis) past).get ref).elim 0 fun body =>
        (storedOutput P body).elim 0 (lovelaceAt L address)) =
      tx.consumes.map fun ref => lovelaceAt L address (resolvedTxo ctx ref).2 := by
    refine List.map_congr_left fun ref href => ?_
    obtain ⟨body, hbody⟩ := hfollows.get_spent hvalid href
    have hmem : (ref, body) ∈
        Spending.outputs (genesisTxos P genesis) (history P (block :: older)) := by
      rw [hhistory, Spending.outputs_append]
      exact List.mem_append_left _ (hvalid.get_table.mp hbody).1
    rw [hbody, Option.elim_some,
      storedOutput_resolvedTxo hchain hresolves (by simp [htxs]) href hmem, Option.elim_some]
  have hmade : (tx.transfer P block.slot).made.map (fun entry =>
      (storedOutput P entry.2).elim 0 (lovelaceAt L address)) =
      tx.produces.map fun output => lovelaceAt L address (block.slot, tx.era, output.2) := by
    rw [Compressor.Tx.transfer, Compressor.Tx.produced, List.map_map]
    refine List.map_congr_left fun output _ => ?_
    rw [Function.comp_apply, Pipeline.storedOutput_eraToU16, Option.elim_some]
  rw [← hspent, ← hmade]
  exact ⟨hfollows.sum_spent_le fun entry => (storedOutput P entry.2).elim 0 (lovelaceAt L address),
    hfollows.sumOf_table hvalid fun entry =>
      (storedOutput P entry.2).elim 0 (lovelaceAt L address)⟩

theorem staysIn_tx (address : Address) (hchain : IsLedgerChain P L genesis (block :: older))
    (hresolves : Resolves P genesis (block :: older) block.toBlock ctx)
    (hbounded : HasBoundedLovelace P L genesis (block :: older)) {after : List Tx}
    (htxs : block.txs = before ++ tx :: after) :
    StaysIn (tableBalance P L genesis address
        (history P older ++ before.map (Tx.transfer P block.slot))) (2 ^ 64)
      (txMovements L address block.slot ctx tx) ∧
    (tableBalance P L genesis address (history P older ++
        (before ++ [tx]).map (Tx.transfer P block.slot)) : ℤ) =
      tableBalance P L genesis address
        (history P older ++ before.map (Tx.transfer P block.slot)) +
      total (txMovements L address block.slot ctx tx) := by
  obtain ⟨hle, hsum⟩ := tableBalance_tx address hchain hresolves htxs
  have hlt : tableBalance P L genesis address
      (history P older ++ before.map (Tx.transfer P block.slot)) < 2 ^ 64 :=
    tableBalance_lt hbounded ⟨_, (history_split htxs).symm⟩
  have hlt' : tableBalance P L genesis address
      (history P older ++ (before ++ [tx]).map (Tx.transfer P block.slot)) < 2 ^ 64 :=
    tableBalance_lt hbounded
      ⟨after.map (Tx.transfer P block.slot), by rw [history_split htxs]; simp⟩
  have hdowns := total_flatMap_movement L address false (fun ref => (resolvedTxo ctx ref).2)
    tx.consumes
  have hups := total_flatMap_movement L address true
    (fun output : ℕ × Bytes => (block.slot, tx.era, output.2)) tx.produces
  simp only [Bool.false_eq_true, if_false, if_true, one_mul, neg_mul] at hdowns hups
  rw [txMovements, staysIn_append, total_append, hdowns, hups]
  refine ⟨⟨StaysIn.of_down (fun move hmove => up_of_mem_flatMap_movement hmove) ?_ ?_,
    StaysIn.of_up (fun move hmove => up_of_mem_flatMap_movement hmove) ?_ ?_⟩, ?_⟩
  · exact_mod_cast hlt
  · rw [hdowns]
    omega
  · omega
  · rw [hups]
    omega
  · omega

theorem staysIn_txs (address : Address) (hchain : IsLedgerChain P L genesis (block :: older))
    (hresolves : Resolves P genesis (block :: older) block.toBlock ctx)
    (hbounded : HasBoundedLovelace P L genesis (block :: older)) (before : List Tx)
    {after : List Tx} (htxs : block.txs = before ++ after) :
    StaysIn (tableBalance P L genesis address
        (history P older ++ before.map (Tx.transfer P block.slot))) (2 ^ 64)
      (after.flatMap (txMovements L address block.slot ctx)) ∧
    (tableBalance P L genesis address (history P (block :: older)) : ℤ) =
      tableBalance P L genesis address
        (history P older ++ before.map (Tx.transfer P block.slot)) +
      total (after.flatMap (txMovements L address block.slot ctx)) := by
  induction after generalizing before with
  | nil =>
    rw [List.append_nil] at htxs
    rw [Compressor.history_cons, Compressor.Block.transfers, htxs]
    have hlt : tableBalance P L genesis address
        (history P older ++ before.map (Tx.transfer P block.slot)) < 2 ^ 64 :=
      tableBalance_lt hbounded (by rw [Compressor.history_cons, Compressor.Block.transfers, htxs])
    refine ⟨StaysIn.nil (by omega) (by exact_mod_cast hlt), by simp⟩
  | cons tx rest ih =>
    obtain ⟨hstays, hbalance⟩ := staysIn_tx address hchain hresolves hbounded htxs
    obtain ⟨hrest, hfinal⟩ := ih (before ++ [tx]) (by simp [htxs])
    rw [hbalance] at hrest hfinal
    rw [List.flatMap_cons, staysIn_append, total_append, ← add_assoc]
    exact ⟨⟨hstays, hrest⟩, hfinal⟩

theorem staysIn_movements (address : Address)
    (hchain : IsLedgerChain P L genesis (chain.map Prod.fst))
    (hresolved : AllResolved P genesis chain)
    (hbounded : HasBoundedLovelace P L genesis (chain.map Prod.fst)) :
    StaysIn (balanceAt P L genesis address []) (2 ^ 64) (movements L address chain) ∧
      (balanceAt P L genesis address (chain.map Prod.fst) : ℤ) =
        balanceAt P L genesis address [] + total (movements L address chain) := by
  induction chain with
  | nil =>
    have hlt : balanceAt P L genesis address [] < 2 ^ 64 :=
      tableBalance_lt hbounded (List.prefix_refl _)
    exact ⟨StaysIn.nil (by omega) (by exact_mod_cast hlt), by simp [movements]⟩
  | cons entry older ih =>
    obtain ⟨block, ctx⟩ := entry
    obtain ⟨hresolves, holder⟩ := hresolved
    have hbefore : HasBoundedLovelace P L genesis (older.map Prod.fst) := by
      intro past hpast
      refine hbounded past (hpast.trans ?_)
      rw [List.map_cons, Compressor.history_cons]
      exact List.prefix_append _ _
    obtain ⟨hstays, hbalance⟩ := ih hchain.of_cons holder hbefore
    obtain ⟨hblock, hfinal⟩ := staysIn_txs address hchain hresolves hbounded [] rfl
    rw [List.map_nil, List.append_nil] at hblock hfinal
    change StaysIn (balanceAt P L genesis address (older.map Prod.fst)) _ _ at hblock
    have hmovements : movements L address ((block, ctx) :: older) =
        movements L address older ++ block.txs.flatMap (txMovements L address block.slot ctx) := by
      simp [movements]
    rw [hmovements, staysIn_append, total_append, ← add_assoc, ← hbalance]
    exact ⟨⟨hstays, hblock⟩, hfinal⟩

end Levels

/-! ## Balances in the store -/

def HoldsBalance (enc : KeyEncoder) (blake2b : Bytes → Hash) (store : Store) (address : Address)
    (balance : ℕ) : Prop :=
  store.get (enc.encodeLovelaceByAddressKey blake2b address) =
    if balance = 0 then none else some (Bytes.toBE 8 balance)

structure CountsFrom (P : Pallas) (L : Library) (genesis : List GenesisUtxo)
    (address : Address) (batches : List Batch) : Prop where
  empty : ∃ earlier, earlier <:+ batches ∧
    balanceAt P L genesis address ((blocksOf earlier).map Prod.fst) = 0
  ends : balanceAt P L genesis address ((blocksOf batches).map Prod.fst) = 0 →
    ¬ EndsEagerUp (periodsOf (movements L address) batches)

section Balances

variable {P : Pallas} {L : Library} {genesis : List GenesisUtxo} {address : Address}
  {batches : List Batch}

theorem HasBoundedLovelace.of_append {newer older : List StoredBlock}
    (h : HasBoundedLovelace P L genesis (newer ++ older)) : HasBoundedLovelace P L genesis older := by
  intro past hpast
  refine h past (hpast.trans ?_)
  rw [Compressor.history_append]
  exact List.prefix_append _ _

theorem allMoves_movements (batches : List Batch) :
    allMoves (periodsOf (movements L address) batches) = movements L address (blocksOf batches) :=
  allMoves_periodsOf rfl (fun newer older => by simp [movements]) batches

theorem level_movements (address : Address)
    (hchain : IsLedgerChain P L genesis ((blocksOf batches).map Prod.fst))
    (hresolved : AllResolved P genesis (blocksOf batches))
    (hbounded : HasBoundedLovelace P L genesis ((blocksOf batches).map Prod.fst)) :
    level (balanceAt P L genesis address []) (periodsOf (movements L address) batches) =
      balanceAt P L genesis address ((blocksOf batches).map Prod.fst) := by
  rw [level_eq, allMoves_movements, (staysIn_movements address hchain hresolved hbounded).2]

theorem reachesZero_iff
    (hchain : IsLedgerChain P L genesis ((blocksOf batches).map Prod.fst))
    (hresolved : AllResolved P genesis (blocksOf batches))
    (hbounded : HasBoundedLovelace P L genesis ((blocksOf batches).map Prod.fst)) :
    ReachesZero (balanceAt P L genesis address []) (periodsOf (movements L address) batches) ↔
      ∃ earlier, earlier <:+ batches ∧
        balanceAt P L genesis address ((blocksOf earlier).map Prod.fst) = 0 := by
  refine exists_suffix_periodsOf.trans (exists_congr fun earlier => and_congr_right ?_)
  rintro ⟨later, rfl⟩
  rw [blocksOf_append, List.map_append] at hchain hbounded
  rw [blocksOf_append] at hresolved
  rw [level_movements address hchain.of_append hresolved.of_append hbounded.of_append,
    Nat.cast_eq_zero]

end Balances

/-! ## Right balances -/

def OutputsKeyed (P : Pallas) (L : Library) (genesis : List GenesisUtxo)
    (chain : List StoredBlock) (addresses : Set Bytes) : Prop :=
  ∀ ref output, Produced P genesis chain ref output → ∀ out address,
    L.decodeOutput output.2.1 output.2.2 = some out → out.address = some address →
      address.IsKeyed addresses

section Right

variable {P : Pallas} {L : Library} {genesis : List GenesisUtxo} {addresses : Set Bytes}
  {policy : RuntimePolicy} {blake2b : Bytes → Hash} {enc : KeyEncoder}

theorem address_of_mem_balanceOutputs {increment : Bool} {output : ℕ × Era × Bytes}
    {balance : BalanceOutput} (h : balance ∈ balanceOutputs L increment output) :
    ∃ out, L.decodeOutput output.2.1 output.2.2 = some out ∧
      out.address = some balance.address := by
  unfold balanceOutputs at h
  split at h
  case h_1 out hdecode =>
    obtain ⟨address, haddress, heq⟩ := Option.map_eq_some_iff.mp (Option.mem_toList.mp h)
    exact ⟨out, hdecode, by rw [haddress, ← heq]⟩
  case h_2 => cases h

theorem isKeyed_of_mem_blockOutputs (hchain : IsLedgerChain P L genesis (chain.map Prod.fst))
    (hresolved : AllResolved P genesis chain)
    (hkeyed : OutputsKeyed P L genesis (chain.map Prod.fst) addresses) :
    ∀ entry ∈ chain, ∀ output ∈ blockOutputs L entry, output.address.IsKeyed addresses := by
  induction chain with
  | nil => exact fun _ hentry => by cases hentry
  | cons entry older ih =>
    obtain ⟨block, ctx⟩ := entry
    obtain ⟨hresolves, holder⟩ := hresolved
    refine List.forall_mem_cons.mpr ⟨?_, ih hchain.of_cons holder
      fun ref output hproduced => hkeyed ref output (Produced.cons hproduced block)⟩
    intro output houtput
    obtain ⟨tx, htx, houtput⟩ := List.mem_flatMap.mp houtput
    rcases List.mem_append.mp houtput with houtput | houtput
    · obtain ⟨ref, href, houtput⟩ := List.mem_flatMap.mp houtput
      obtain ⟨out, hdecode, haddress⟩ := address_of_mem_balanceOutputs houtput
      obtain ⟨slot, era, raw, -, -, hproduced, -, -, hctx, -⟩ :=
        findUtxo_of_resolves hchain hresolves htx href
      rw [resolvedTxo, hctx] at hdecode
      exact hkeyed ref _ hproduced out _ hdecode haddress
    · obtain ⟨made, hmade, houtput⟩ := List.mem_flatMap.mp houtput
      obtain ⟨out, hdecode, haddress⟩ := address_of_mem_balanceOutputs houtput
      exact hkeyed _ _ (produced_of_mem_produces htx hmade) out _ hdecode haddress

theorem reduces_balance (hchain : IsLedgerChain P L genesis (chain.map Prod.fst))
    (hresolved : AllResolved P genesis chain) :
    Reduces (BalanceByAddress.reduce L policy blake2b) .u64 (balanceOps L blake2b) chain := by
  induction chain with
  | nil => simp [Reduces]
  | cons entry older ih =>
    obtain ⟨block, ctx⟩ := entry
    obtain ⟨hresolves, holder⟩ := hresolved
    refine List.forall_mem_cons.mpr ⟨⟨?_, ?_⟩, ih hchain.of_cons holder⟩
    · rw [BalanceByAddress.reduce, reduceBlock_eq hchain hresolves]
      rfl
    · intro op hop
      obtain ⟨output, -, rfl⟩ := List.mem_map.mp hop
      unfold BalanceByAddress.dataOp
      split <;> rfl

theorem exists_staysIn (hinj : Set.InjOn blake2b addresses)
    (hchain : IsLedgerChain P L genesis (chain.map Prod.fst))
    (hresolved : AllResolved P genesis chain)
    (hbounded : HasBoundedLovelace P L genesis (chain.map Prod.fst))
    (houtputs : ∀ entry ∈ chain, ∀ output ∈ blockOutputs L entry,
      output.address.IsKeyed addresses) (k : Key) :
    ∃ start, StaysIn start (256 ^ Polyphony.Kind.u64.width)
      (movesAt k (actionsOf enc (balanceOps L blake2b) chain)) := by
  by_cases hk : ∃ address : Address, address.IsKeyed addresses ∧
      enc.encodeLovelaceByAddressKey blake2b address = k
  · obtain ⟨address, haddress, rfl⟩ := hk
    rw [movesAt_lovelaceByAddress hinj haddress houtputs]
    exact ⟨_, (staysIn_movements address hchain hresolved hbounded).1⟩
  · -- no output of the reducer is under this key
    have hnone : k ∉ (actionsOf enc (balanceOps L blake2b) chain).map StorageAction.key := by
      intro hmem
      obtain ⟨a, ha, rfl⟩ := List.mem_map.mp hmem
      obtain ⟨entry, hentry, ha⟩ := List.mem_flatMap.mp ha
      rw [balanceOps, List.map_map] at ha
      obtain ⟨output, houtput, rfl⟩ := List.mem_map.mp ha
      refine hk ⟨output.address, houtputs entry (List.mem_reverse.mp hentry) output houtput, ?_⟩
      exact DataKey.encode_eq enc (DataKey.lovelaceByAddress output.address)
    rw [movesAt, Polyphony.opsAt_eq_nil hnone]
    exact ⟨0, StaysIn.nil (le_refl 0) (by positivity)⟩

end Right

/-- **Balances are right for the addresses whose lovelace is zero somewhere between two batches.**
-/
theorem balances_right_iff (P : Pallas) (L : Library) (genesis : List GenesisUtxo)
    (policy : RuntimePolicy) (blake2b : Bytes → Hash) (enc : KeyEncoder) (maxLen maxBytes : ℕ)
    (paranoidMode : Bool) (now : U64) {addresses : Set Bytes} {batches : List Batch}
    (hchain : IsLedgerChain P L genesis ((blocksOf batches).map Prod.fst))
    (hresolved : AllResolved P genesis (blocksOf batches))
    (hbounded : HasBoundedLovelace P L genesis ((blocksOf batches).map Prod.fst))
    (hkeyed : OutputsKeyed P L genesis ((blocksOf batches).map Prod.fst) addresses)
    (hinj : Set.InjOn blake2b addresses) :
    ∃ store, indexBatches (BalanceByAddress.reduce L policy blake2b) enc maxLen maxBytes
        paranoidMode now batches = .ok store ∧
      ∀ address : Address, address.IsKeyed addresses →
        (HoldsBalance enc blake2b store address
            (balanceAt P L genesis address ((blocksOf batches).map Prod.fst)) ↔
          CountsFrom P L genesis address batches) := by
  have houtputs := isKeyed_of_mem_blockOutputs hchain hresolved hkeyed
  have hlevels : ∀ k, ∃ start, StaysIn start (256 ^ Polyphony.Kind.u64.width)
      (movesAt k (actionsOf enc (balanceOps L blake2b) (blocksOf batches))) :=
    exists_staysIn hinj hchain hresolved hbounded houtputs
  choose start hstart using hlevels
  obtain ⟨store, hstore, hget⟩ :=
    exists_indexBatches (by decide) (reduces_balance hchain hresolved) start hstart
  refine ⟨store, hstore, fun address haddress => ?_⟩
  have hperiods : periodsAt enc (balanceOps L blake2b)
      (enc.encodeLovelaceByAddressKey blake2b address) batches =
        periodsOf (movements L address) batches := by
    refine List.map_congr_left fun batch hbatch => congrArg _ ?_
    exact movesAt_lovelaceByAddress hinj haddress fun entry hentry =>
      houtputs entry (List.mem_flatMap.mpr ⟨batch, hbatch, hentry⟩)
  have hget := hget (enc.encodeLovelaceByAddressKey blake2b address)
  rw [hperiods] at hget
  obtain ⟨hstays, -⟩ := staysIn_movements address hchain hresolved hbounded
  rw [← allMoves_movements] at hstays
  have hlevel := level_movements address hchain hresolved hbounded
  set n := balanceAt P L genesis address ((blocksOf batches).map Prod.fst)
  have hlt : n < 256 ^ 8 := tableBalance_lt hbounded (List.prefix_refl _)
  have hcounter : (run true (periodsOf (movements L address) batches)).getD 0 < 256 ^ 8 := by
    have hbehind : ((run true (periodsOf (movements L address) batches)).getD 0 : ℤ) ≤ _ :=
      run_le_level hstays.nonnegLevels
    omega
  have hright : (if n = 0 then none else some n).getD 0 < 256 ^ 8 := by
    split
    · norm_num
    · exact hlt
  have hstored : Polyphony.Kind.u64.stored (if n = 0 then none else some n) =
      if n = 0 then none else some (Bytes.toBE 8 n) := by
    split <;> rfl
  rw [HoldsBalance, hget, ← hstored, Polyphony.Kind.stored_eq_stored_iff hcounter hright,
    Polyphony.Kind.removes, run_eq_level_iff_of_removes hstays.nonnegLevels hlevel,
    reachesZero_iff hchain hresolved hbounded]
  exact ⟨fun h => ⟨h.1, h.2⟩, fun h => ⟨h.empty, h.ends⟩⟩

theorem outputsKeyed_sampleLibrary {P : Pallas} {genesis : List GenesisUtxo}
    {chain : List StoredBlock} : OutputsKeyed P sampleLibrary genesis chain ∅ := by
  rintro ref output - out address hdecode haddress
  cases hdecode
  cases haddress
  trivial

theorem balances_right_iff_spending :
    ∃ batches store,
      (blocksOf batches).map Prod.fst = Compressor.spendingBlocks.reverse ∧
      AllResolved Compressor.spendingPallas Compressor.sampleGenesis (blocksOf batches) ∧
      indexBatches (BalanceByAddress.reduce sampleLibrary ⟨none, none, none⟩
        fun _ => Compressor.sampleHash 0) ⟨1, 2⟩ 10 1000 true 0 batches = .ok store ∧
      (HoldsBalance ⟨1, 2⟩ (fun _ => Compressor.sampleHash 0) store sampleAddress
          (balanceAt Compressor.spendingPallas sampleLibrary Compressor.sampleGenesis sampleAddress
            ((blocksOf batches).map Prod.fst)) ↔
        CountsFrom Compressor.spendingPallas sampleLibrary Compressor.sampleGenesis sampleAddress
          batches) := by
  have hbounded : HasBoundedLovelace Compressor.spendingPallas sampleLibrary
      Compressor.sampleGenesis Compressor.spendingBlocks.reverse := by
    unfold HasBoundedLovelace
    simp only [← List.mem_inits]
    decide +kernel
  obtain ⟨chain, hblocks, hchain, hresolved⟩ := exists_spendingChain
  rw [← hblocks] at hbounded
  have hlength : chain.length = 2 := by
    rw [← List.length_map Prod.fst, hblocks]
    rfl
  obtain ⟨second, first, rfl⟩ := List.length_eq_two.mp hlength
  let batches : List Batch :=
    [⟨[second], true, .byKey, fun _ => rfl⟩, ⟨[first], false, .byKey, fun h => by cases h⟩]
  have hchain : IsLedgerChain Compressor.spendingPallas sampleLibrary Compressor.sampleGenesis
      ((blocksOf batches).map Prod.fst) := hchain
  obtain ⟨store, hstore, hiff⟩ := balances_right_iff Compressor.spendingPallas sampleLibrary
    Compressor.sampleGenesis ⟨none, none, none⟩ (fun _ => Compressor.sampleHash 0) ⟨1, 2⟩ 10 1000
    true 0 hchain hresolved hbounded outputsKeyed_sampleLibrary (Set.injOn_empty _)
  exact ⟨batches, store, hblocks, hresolved, hstore, hiff sampleAddress trivial⟩

/-- The net change is a decrement of a key that does not exist. -/
theorem genesis_output_not_counted :
    ∃ ctx store,
      AllResolved Compressor.spendingPallas Compressor.sampleGenesis
        ((Compressor.spendingBlocks.take 1).map fun block => (block, ctx)) ∧
      IsLedgerChain Compressor.spendingPallas sampleLibrary Compressor.sampleGenesis
        (Compressor.spendingBlocks.take 1) ∧
      indexBatches (BalanceByAddress.reduce sampleLibrary ⟨none, none, none⟩
          fun _ => Compressor.sampleHash 0) ⟨1, 2⟩ 10 1000 true 0
        [⟨(Compressor.spendingBlocks.take 1).map fun block => (block, ctx), false, .byKey,
          fun h => by cases h⟩] = .ok store ∧
      store.get ((⟨1, 2⟩ : KeyEncoder).encodeLovelaceByAddressKey
        (fun _ => Compressor.sampleHash 0) sampleAddress) = none ∧
      balanceAt Compressor.spendingPallas sampleLibrary Compressor.sampleGenesis sampleAddress
        (Compressor.spendingBlocks.take 1) = 3 := by
  have hvalid : Spending.Valid (genesisTxos Compressor.spendingPallas Compressor.sampleGenesis)
      (history Compressor.spendingPallas (Compressor.spendingBlocks.take 1)) := by
    unfold Spending.Valid
    decide +kernel
  have hfits : Pipeline.FitsWire (Compressor.spendingBlocks.take 1) := by
    unfold Pipeline.FitsWire
    decide +kernel
  obtain ⟨ctx, hctx, hresolves⟩ := Pipeline.exists_resolves hvalid
    (Except.eq_ok_get (by decide +kernel) : Compressor.resolveBlockTxInputs _ _
      (Compressor.spendingBlocks.get ⟨0, by decide⟩).toBlock = .ok _) hfits
  cases hctx.symm.trans (Except.eq_ok_get (by decide +kernel))
  exact ⟨_, _, ⟨hresolves, trivial⟩, isLedgerChain_sampleLibrary hvalid hfits,
    Except.eq_ok_get (by decide +kernel), by decide +kernel, by decide +kernel⟩

end CardanoIndexer.Reducers
