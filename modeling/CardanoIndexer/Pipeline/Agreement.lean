import CardanoIndexer.Pipeline.Origin
import CardanoIndexer.Reducers.UtxoIndexes

/-!
# The index and the compressor's table

The compressor keeps the unspent outputs of its chain in a table, an instance with a UTxO reducer
in its index.  The instance only sees the log: blocks with contexts cut out of the table, and
rollbacks.  `Follows` relates the two while the log is streamed.
-/

namespace CardanoIndexer.Pipeline

open Compressor Spending Reducers Journal Listing
open Polyphony (BlockContext Store Key Value processAction StorageActionPayload ReducerOutput World
  Env Delivered StandsAt AgreeInv DeliveredBlock StorageAction SoundChain RespectsKinds
  storageOps agreeInv_run safeFrom lastPoint reduceBlock)
open Timbre

variable {P : Pallas} {L : Library} {genesis : List GenesisUtxo} {chain : List StoredBlock}
  {server server' : Server} {ref : TxoRef}

/-! ## Readable blocks -/

structure Reads (L : Library) (block : Block) : Prop where
  slot_lt : block.slot < 2 ^ 64
  outputs_lt : ∀ tx ∈ block.txs, tx.outputs.length < 2 ^ 32
  readable : ∀ tx ∈ block.txs, ∀ output ∈ tx.produces,
    ∃ out address, L.decodeOutput tx.era output.2 = some out ∧ out.address = some address

def ReadsGenesis (P : Pallas) (L : Library) (genesis : List GenesisUtxo) : Prop :=
  ∀ ref body, (genesisTxos P genesis).get ref = some body →
    ∃ out address, L.decodeOutput .byron body.raw = some out ∧ out.address = some address

theorem fitsWire_of_reads (hblocks : ∀ block ∈ chain, Reads L block.toBlock) : FitsWire chain :=
  fun block hblock => (hblocks block hblock).outputs_lt

theorem isLedgerChain_of_reads (hvalid : Valid (genesisTxos P genesis) (history P chain))
    (hgenesis : ReadsGenesis P L genesis) (hblocks : ∀ block ∈ chain, Reads L block.toBlock) :
    IsLedgerChain P L genesis chain where
  valid := hvalid
  readable ref output hproduced := by
    rcases hproduced with ⟨body, hbody, rfl⟩ | ⟨block, hblock, tx, htx, index, raw, hmade, -, rfl⟩
    · exact hgenesis ref body hbody
    · exact (hblocks block hblock).readable tx htx _ hmade
  index_lt ref output hproduced := by
    obtain ⟨body, hbody, -⟩ := produced_iff.mp hproduced
    exact (index_lt_of_mem_outputs (fitsWire_of_reads hblocks) hbody).trans (by norm_num)

/-! ## What the table holds of the chain -/

/-- An output of the table that the chain made, as a reducer finds it. -/
def InTable (P : Pallas) (genesis : List GenesisUtxo) (db : Tables) (txo : Txo) : Prop :=
  (genesisTxos P genesis).get txo.1 = none ∧
    ∃ body, db.txoKV.get txo.1 = some body ∧ storedOutput P body = some txo.2

theorem isUnspent_iff (h : HoldsOutputs P (genesisTxos P genesis) server) {txo : Txo} :
    IsUnspent server.adopted txo ↔ InTable P genesis server.chainDB.db txo := by
  have hspent : (∀ block ∈ server.adopted, ∀ tx ∈ block.txs, txo.1 ∉ tx.consumes) ↔
      txo.1 ∉ spent (history P server.adopted) := by
    rw [mem_spent_history]
    push Not
    rfl
  simp only [InTable, h.holdsUtxo txo.1]
  constructor
  · rintro ⟨hmade, hunspent⟩
    obtain ⟨body, hbody, houtput⟩ :=
      produced_iff.mp (Or.inr hmade : Produced P genesis _ txo.1 txo.2)
    refine ⟨?_, body, ⟨hbody, hspent.mp hunspent⟩, houtput⟩
    -- what the chain makes is not there from the start
    obtain ⟨block, hblock, tx, htx, index, raw, hproduces, hrefs, -⟩ := hmade
    have hnodup := h.valid.nodup_outputs
    rw [outputs, List.map_append, List.nodup_append] at hnodup
    rw [← Option.not_isSome_iff_eq_none, SortedMap.get_isSome_iff]
    exact fun hstart => hnodup.2.2 _ hstart _ (List.mem_map_of_mem (mem_history_made.mpr
      ⟨block, hblock, tx, htx, index, raw, hproduces, hrefs, rfl⟩)) rfl
  · rintro ⟨hgenesis, body, ⟨hbody, hunspent⟩, houtput⟩
    refine ⟨?_, hspent.mpr hunspent⟩
    rcases produced_iff.mpr ⟨body, hbody, houtput⟩ with ⟨body', hget, -⟩ | hmade
    · rw [hgenesis] at hget
      cases hget
    · exact hmade

/-! ## Blocks in the log -/

variable {base : ℕ} {written : List Log} {bytes : BlockBody}

theorem writtenBy_apply (hstep : server.step P genesis (.apply bytes true) = .ok server')
    (hrecords : Records base written server.chainDB.db.mutableKV server.chainDB.nextWalSeq)
    (commands : List Command) :
    ∃ block out, P.decode bytes = .ok block ∧
      resolveBlockTxInputs P server.chainDB.db.txoKV block = .ok out ∧
      server'.adopted = ⟨block, bytes⟩ :: server.adopted ∧
      Records base (written ++ [.apply block.slot block.hash bytes (out.mapVal Prod.fst)])
        server'.chainDB.db.mutableKV server'.chainDB.nextWalSeq ∧
      writtenBy P genesis server (.apply bytes true :: commands) =
        [.apply block.slot block.hash bytes (out.mapVal Prod.fst)] ++
          writtenBy P genesis server' commands := by
  obtain ⟨logs, hlogs, hrecords', hwritten⟩ := writtenBy_cons rfl hstep hrecords commands
  obtain ⟨chainDB, hstage, rfl⟩ := Server.step_eq_ok.mp hstep
  obtain ⟨block, out, hdecode, -, hout, rfl⟩ := ChainDB.stageApply_eq_ok.mp hstage
  -- the entry is read back under its number
  have hget := get_log_applied (P := P) server.chainDB bytes block out
  have hmem := (mem_numbered.mp (hrecords'.suffix.subset ((SortedMap.get_eq_some_iff _).mp hget))).2
  rw [hrecords.next_eq, Nat.add_sub_cancel_left,
    List.getElem?_append_right (Nat.le_refl _), Nat.sub_self] at hmem
  obtain rfl : logs = [.apply block.slot block.hash bytes (out.mapVal Prod.fst)] := by
    cases hlogs with
    | apply hdecode' hprevious => simpa using hmem
  refine ⟨block, out, hdecode, hout, ?_, hrecords', hwritten⟩
  simp only [adopt, hdecode]

/-! ## An instance that follows the log -/

/-- The commands that an instance can follow, with blocks that a reducer can read. -/
def IsFollowed (P : Pallas) (L : Library) (command : Command) : Prop :=
  (∃ bytes, command = .apply bytes true ∧ ∀ block, P.decode bytes = .ok block → Reads L block) ∨
    ∃ slot hash, command = .rollback slot hash true

def pointAt (slot : ℕ) (hash : BlockHash) : Point := blockRefToPoint (some ⟨slot, hash⟩)

section Following

variable {κ ν : Type} (reducer : UtxoReducer κ ν) (L : Library) (policy : RuntimePolicy)
  (blake2b : Bytes → Hash) (enc : KeyEncoder)

/-- What the instance holds of a block that was reduced with its context. -/
def Delivers (entry : StoredBlock × BlockContext) (delivered : DeliveredBlock) : Prop :=
  Reads L entry.1.toBlock ∧
    delivered.point = pointAt entry.1.slot entry.1.hash ∧
    ∃ outputs now number, reducer.reduceBlock L policy entry.1.toBlock entry.2 = .ok outputs ∧
      delivered.actions = storageOps enc now
        [.data (outputs.map (reducer.dataOp blake2b)), .cursor delivered.point number]

/-- The message of a block with the outputs of the reducer. -/
def messageOf (block : StoredBlock) (outputs : List (UtxoOutput κ ν)) : StorageActionPayload :=
  reduceBlock (pointAt block.slot block.hash) (BitVec.ofNat 64 block.number)
    [.data (outputs.map (reducer.dataOp blake2b))] true

variable {reducer L policy blake2b enc} {entry : StoredBlock × BlockContext}
  {block : DeliveredBlock} {blocks : List DeliveredBlock} {k : Key}

theorem Delivers.isValue (h : Delivers reducer L policy blake2b enc entry block) :
    ∀ a ∈ block.actions, enc.IndexKey a.key ∧ (a.op = .delete ∨ ∃ v, a.op = .set v) := by
  obtain ⟨-, hpoint, outputs, now, number, -, hactions⟩ := h
  rw [hactions]
  refine fun a ha => ⟨Polyphony.indexKey_of_mem_storageOps ha, ?_⟩
  rw [hpoint] at ha
  simp only [storageOps, Polyphony.reducerOutputToStorageOps, pointAt, blockRefToPoint,
    List.flatMap_cons, List.flatMap_nil, List.append_nil, List.mem_append, List.mem_map,
    List.mem_cons, List.not_mem_nil, or_false] at ha
  rcases ha with ⟨_, ⟨output, -, rfl⟩, rfl⟩ | rfl | rfl
  · obtain ⟨owner, slot, uHash, uIndex, action⟩ := output
    cases action with
    | consumed => exact Or.inl rfl
    | produced value => exact Or.inr ⟨reducer.value value, rfl⟩
  · exact Or.inr ⟨_, rfl⟩
  · exact Or.inr ⟨_, rfl⟩

theorem actionsOf_cons (block : DeliveredBlock) (older : List DeliveredBlock) :
    Polyphony.actionsOf (block :: older) = Polyphony.actionsOf older ++ block.actions := by
  simp [Polyphony.actionsOf]

variable {resolved : List (StoredBlock × BlockContext)}

theorem isValue_of_delivers
    (h : List.Forall₂ (Delivers reducer L policy blake2b enc) resolved blocks) :
    ∀ a ∈ Polyphony.actionsOf blocks,
      enc.IndexKey a.key ∧ (a.op = .delete ∨ ∃ v, a.op = .set v) := by
  induction h with
  | nil => simp [Polyphony.actionsOf]
  | cons hdelivers _ ih =>
    rw [actionsOf_cons]
    exact List.forall_mem_append.mpr ⟨ih, hdelivers.isValue⟩

theorem safeFrom_of_isValue {store : Store} {actions : List StorageAction}
    (h : ∀ a ∈ actions, a.op = .delete ∨ ∃ v, a.op = .set v) :
    safeFrom false store actions = true := by
  induction actions generalizing store with
  | nil => rfl
  | cons a rest ih =>
    obtain ⟨ha, hrest⟩ := List.forall_mem_cons.mp h
    have hsafe : a.op.Safe (Polyphony.Cell.ofStored a.op.kind (store.get a.key)) := by
      rcases ha with ha | ⟨v, ha⟩
      · rw [ha]
        trivial
      · rw [ha]
        trivial
    simp only [safeFrom, hsafe, decide_true, Bool.true_and]
    split
    · exact ih hrest
    · rfl

theorem soundChain_of_delivers
    (h : List.Forall₂ (Delivers reducer L policy blake2b enc) resolved blocks) :
    SoundChain (fun _ => .value) enc blocks := by
  have hvalue := isValue_of_delivers h
  have hkinds : RespectsKinds (fun _ => .value) (Polyphony.actionsOf blocks) := by
    intro a ha
    rcases (hvalue a ha).2 with hop | ⟨v, hop⟩
    · rw [hop]
      rfl
    · rw [hop]
      rfl
  obtain ⟨_, -, -, -, hcells⟩ := Polyphony.exists_executeOneByOne false hkinds
    (Polyphony.wellFormedStore_empty _) (safeFrom_of_isValue fun a ha => (hvalue a ha).2)
  exact ⟨fun a ha => (hvalue a ha).1, hkinds, fun k => (hcells k).1⟩

theorem get_of_delivers {store : Store}
    (h : List.Forall₂ (Delivers reducer L policy blake2b enc) resolved blocks)
    (hstore : reducer.indexChain L policy blake2b enc false 0 resolved = .ok store)
    (hk : [enc.dataplaneId, enc.instanceId, prefixData] <+: k) :
    ((∅ : Store).applyWrites ((Polyphony.actionsOf blocks).map writeOf)).get k = store.get k := by
  induction h generalizing store with
  | nil =>
    cases hstore
    rfl
  | cons hdelivers _ ih =>
    obtain ⟨-, hpoint, outputs, _, number, houtputs, hactions⟩ := hdelivers
    obtain ⟨older, holder, hblock⟩ := Except.bind_eq_ok.mp hstore
    rw [houtputs, Except.ok_bind, executeOneByOne_outputs] at hblock
    cases hblock
    have hcursor : k ≠ enc.encodeCursorKey ∧ k ≠ enc.encodeInfoKey := by
      constructor
      · rintro rfl
        simp [KeyEncoder.encodeCursorKey, prefixData, prefixCursor] at hk
      · rintro rfl
        simp only [KeyEncoder.encodeInfoKey, List.cons_prefix_cons] at hk
        exact absurd (hk.2.2.1.trans hk.1) (by decide)
    rw [actionsOf_cons, List.map_append, SortedMap.applyWrites_append, hactions, hpoint]
    simp only [storageOps, Polyphony.reducerOutputToStorageOps, pointAt, blockRefToPoint,
      List.flatMap_cons, List.flatMap_nil, List.append_nil, List.map_append,
      SortedMap.applyWrites_append]
    rw [SortedMap.get_applyWrites_of_not_mem (by simpa [writeOf] using hcursor), List.map_map,
      List.map_map]
    exact SortedMap.get_applyWrites_congr (ih holder) _

theorem get_of_standsAt {store : Store}
    (h : List.Forall₂ (Delivers reducer L policy blake2b enc) resolved blocks)
    (hstands : StandsAt (fun _ => .value) enc blocks store) (hk : enc.IndexKey k) :
    store.get k = ((∅ : Store).applyWrites ((Polyphony.actionsOf blocks).map writeOf)).get k := by
  have hvalue : ∀ a ∈ Polyphony.actionsOf blocks, a.op = .delete ∨ ∃ v, a.op = .set v :=
    fun a ha => (isValue_of_delivers h a ha).2
  obtain ⟨reference, hreference, -, -, hcells⟩ := Polyphony.exists_executeOneByOne false
    (soundChain_of_delivers h).kinds (Polyphony.wellFormedStore_empty _)
    (safeFrom_of_isValue hvalue)
  cases hreference.symm.trans (executeOneByOne_eq_applyWrites hvalue)
  exact Polyphony.Cell.value.inj ((hstands.reads k hk).trans (hcells k).2.symm)

variable (reducer L policy blake2b enc) in
/-- The instance holds the blocks of the compressor's chain, each reduced with a context that
resolves it. -/
structure Follows (P : Pallas) (genesis : List GenesisUtxo) (server : Server)
    (delivered : Delivered) (world : World) : Prop where
  agree : AgreeInv (fun _ => .value) enc delivered world
  immutable : delivered.immutableBlocks = []
  chain : ∃ resolved, resolved.map Prod.fst = server.adopted ∧ AllResolved P genesis resolved ∧
    List.Forall₂ (Delivers reducer L policy blake2b enc) resolved delivered.mutableBlocks

variable {delivered : Delivered} {world world' : World} {env : Env} {slot : ℕ} {hash : BlockHash}

theorem allResolved_dropWhile (h : AllResolved P genesis resolved)
    (p : StoredBlock × BlockContext → Bool) : AllResolved P genesis (resolved.dropWhile p) := by
  induction resolved with
  | nil => trivial
  | cons entry older ih =>
    rw [List.dropWhile_cons]
    split
    · exact ih h.2
    · exact h

theorem Delivers.isAt_iff (h : Delivers reducer L policy blake2b enc entry block)
    (hslot : slot < 2 ^ 64) (hash : BlockHash) :
    entry.1.isAt slot hash = true ↔ block.point = pointAt slot hash := by
  obtain ⟨hreads, hpoint, -⟩ := h
  have hnat : BitVec.ofNat 64 entry.1.slot = BitVec.ofNat 64 slot ↔ entry.1.slot = slot := by
    rw [← BitVec.toNat_inj, BitVec.toNat_ofNat, BitVec.toNat_ofNat,
      Nat.mod_eq_of_lt hreads.slot_lt, Nat.mod_eq_of_lt hslot]
  simp [hpoint, pointAt, blockRefToPoint, StoredBlock.isAt, hnat]

theorem delivers_dropWhile (hslot : slot < 2 ^ 64) (hash : BlockHash)
    (h : List.Forall₂ (Delivers reducer L policy blake2b enc) resolved blocks) :
    List.Forall₂ (Delivers reducer L policy blake2b enc)
      (resolved.dropWhile fun entry => !entry.1.isAt slot hash)
      (blocks.dropWhile fun block => block.point ≠ pointAt slot hash) := by
  induction h with
  | nil => exact .nil
  | @cons entry block _ _ hdelivers hrest ih =>
    have hat := hdelivers.isAt_iff hslot hash
    by_cases hentry : entry.1.isAt slot hash = true
    · rw [List.dropWhile_cons_of_neg (by simpa using hentry),
        List.dropWhile_cons_of_neg (by simpa using hat.mp hentry)]
      exact .cons hdelivers hrest
    · rw [List.dropWhile_cons_of_pos (by simpa using hentry),
        List.dropWhile_cons_of_pos (by simpa using mt hat.mpr hentry)]
      exact ih

theorem reads_of_delivers
    (h : List.Forall₂ (Delivers reducer L policy blake2b enc) resolved blocks) :
    ∀ block ∈ resolved.map Prod.fst, Reads L block.toBlock := by
  induction h with
  | nil => simp
  | cons hdelivers _ ih => exact List.forall_mem_cons.mpr ⟨hdelivers.1, ih⟩

theorem Follows.rollBack (h : Follows reducer L policy blake2b enc P genesis server delivered world)
    (hholds : HoldsChain P server)
    (hstep : server.step P genesis (.rollback slot hash true) = .ok server')
    (hworld : world.step (env, .rollBack (pointAt slot hash)) = .ok world') :
    Follows reducer L policy blake2b enc P genesis server'
      (delivered.advance enc (env, .rollBack (pointAt slot hash))) world' := by
  obtain ⟨chainDB, hstage, rfl⟩ := Server.step_eq_ok.mp hstep
  obtain ⟨height, bytes, toRemove, state, hfrom, -, -⟩ := ChainDB.stageRollback_eq_ok.mp hstage
  obtain ⟨newer, block, older, hsplit, hentry, -, hcut⟩ := hholds.exists_split hfrom
  obtain ⟨resolved, hadopted, hresolved, hdelivers⟩ := h.chain
  have hslot : slot < 2 ^ 64 := by
    obtain ⟨rfl, -⟩ := Prod.mk.inj hentry
    exact (reads_of_delivers hdelivers block (by simp [hadopted, hsplit])).slot_lt
  have hkept := delivers_dropWhile hslot hash hdelivers
  have hmap : (resolved.dropWhile fun entry => !entry.1.isAt slot hash).map Prod.fst =
      cutBack server.adopted slot hash := by
    rw [cutBack, ← hadopted, List.dropWhile_map]
    rfl
  have hmem : pointAt slot hash ∈ delivered.mutableBlocks.map
      DeliveredBlock.point := by
    by_contra hnot
    have hnil : delivered.mutableBlocks.dropWhile
        (fun block => block.point ≠ pointAt slot hash) = [] := by
      rw [List.dropWhile_eq_nil_iff]
      intro block hblock
      have hne : block.point ≠ pointAt slot hash :=
        fun heq => hnot (heq ▸ List.mem_map_of_mem hblock)
      simpa using hne
    rw [hnil, List.forall₂_nil_right_iff] at hkept
    rw [hkept, hcut] at hmap
    cases hmap
  exact ⟨(h.agree.rollBack hmem hworld).1, h.immutable, _, hmap,
    allResolved_dropWhile hresolved _, hkept⟩

variable {reduce : Block → BlockContext → List ReducerOutput} {ctx : BlockContext}
  {next : StoredBlock} {out : SortedMap TxoRef (TxoBody × Bool)} {outputs : List (UtxoOutput κ ν)}

theorem Follows.apply (h : Follows reducer L policy blake2b enc P genesis server delivered world)
    (hadopted : server'.adopted = next :: server.adopted) (hreads : Reads L next.toBlock)
    (hresolves : Resolves P genesis (next :: server.adopted) next.toBlock ctx)
    (houtputs : reducer.reduceBlock L policy next.toBlock ctx = .ok outputs)
    (hworld : world.step (env, messageOf reducer blake2b next outputs) = .ok world') :
    Follows reducer L policy blake2b enc P genesis server'
      (delivered.advance enc (env, messageOf reducer blake2b next outputs)) world' := by
  obtain ⟨resolved, hblocks, hresolved, hdelivers⟩ := h.chain
  have hnow : Delivers reducer L policy blake2b enc (next, ctx)
      (Polyphony.reducedBlock enc env.now (pointAt next.slot next.hash)
        (BitVec.ofNat 64 next.number) [.data (outputs.map (reducer.dataOp blake2b))]) :=
    ⟨hreads, rfl, outputs, _, _, houtputs, rfl⟩
  have hdelivers' := List.Forall₂.cons hnow hdelivers
  refine ⟨(h.agree.mutable (fun k hk => absurd rfl hk) ?_ hworld).1, h.immutable,
    (next, ctx) :: resolved, ?_, ⟨hblocks ▸ hresolves, hresolved⟩, hdelivers'⟩
  · have hsound := soundChain_of_delivers hdelivers'
    rw [← List.append_nil (_ :: delivered.mutableBlocks), ← h.immutable] at hsound
    exact hsound
  · rw [List.map_cons, hblocks, hadopted]

theorem Follows.get_iff {v : Value}
    (h : Follows reducer L policy blake2b enc P genesis server delivered world)
    (hseparate : ∀ chain, IsLedgerChain P L genesis chain → Separate
      (rowsOf reducer L enc blake2b) {txo | Produced P genesis chain txo.1 txo.2})
    (hgenesis : ReadsGenesis P L genesis) (hholds : HoldsOutputs P (genesisTxos P genesis) server)
    (hk : [enc.dataplaneId, enc.instanceId, prefixData] <+: k) :
    world.tikv.store.get k = some v ↔ ∃ txo, InTable P genesis server.chainDB.db txo ∧
      (k, v) ∈ rowsOf reducer L enc blake2b txo := by
  obtain ⟨resolved, hblocks, hresolved, hdelivers⟩ := h.chain
  have hstands := standsAt_of_agreeInv h.agree h.immutable
  rw [Delivered.blocks, h.immutable, List.append_nil] at hstands
  have hchain := isLedgerChain_of_reads (hblocks ▸ hholds.valid) hgenesis
    (reads_of_delivers hdelivers)
  obtain ⟨store, hindex, hlists⟩ := exists_indexChain hchain hresolved (hseparate _ hchain)
  rw [get_of_standsAt hdelivers hstands (Or.inr (Or.inr hk)), get_of_delivers hdelivers hindex hk,
    hlists k v, hblocks]
  simp only [Set.mem_ofPred_eq, isUnspent_iff hholds]

theorem Follows.lastPoint {tip : StoredBlock}
    (h : Follows reducer L policy blake2b enc P genesis server delivered world)
    (htip : tip ∈ server.adopted.head?) :
    Polyphony.lastPoint enc world.tikv.store = .ok (some (pointAt tip.slot tip.hash)) := by
  obtain ⟨resolved, hblocks, -, hdelivers⟩ := h.chain
  have hstands := standsAt_of_agreeInv h.agree h.immutable
  rw [Delivered.blocks, h.immutable, List.append_nil] at hstands
  rw [← hblocks] at htip
  generalize delivered.mutableBlocks = blocks at hdelivers hstands
  cases hdelivers with
  | nil => cases htip
  | cons hdelivers _ =>
    cases htip
    exact (hstands.cursor _ rfl).trans (by rw [hdelivers.2.1])

theorem exists_input {logs rest : List Log} {inputs : List (Env × StorageActionPayload)}
    {message : StorageActionPayload} (hmessage : streamed P reduce logs = some [message])
    (hsent : streamed P reduce (logs ++ rest) = some (inputs.map Prod.snd)) :
    ∃ env others, inputs = (env, message) :: others ∧
      streamed P reduce rest = some (others.map Prod.snd) := by
  rw [streamed_append, hmessage, Option.bind_some] at hsent
  obtain ⟨others, hothers, hinputs⟩ := Option.map_eq_some_iff.mp hsent
  obtain ⟨⟨env, _⟩, inputs, rfl, rfl, rfl⟩ := List.map_eq_cons_iff.mp hinputs.symm
  exact ⟨env, inputs, rfl, hothers⟩

variable (hreduce : ∀ block ctx outputs, reducer.reduceBlock L policy block ctx = .ok outputs →
    reduce block ctx = [.data (outputs.map (reducer.dataOp blake2b))])
  (hgenesis : ReadsGenesis P L genesis)

include hreduce hgenesis

theorem exists_message (hreads : ∀ block ∈ next :: chain, Reads L block.toBlock)
    (hdecode : P.decode next.bytes = .ok next.toBlock)
    (hvalid : Valid (genesisTxos P genesis) (history P (next :: chain)))
    (hout : resolveBlockTxInputs P (table (genesisTxos P genesis) (history P chain)) next.toBlock =
      .ok out) :
    ∃ ctx outputs, Resolves P genesis (next :: chain) next.toBlock ctx ∧
      reducer.reduceBlock L policy next.toBlock ctx = .ok outputs ∧
      messages P reduce (.apply next.slot next.hash next.bytes (out.mapVal Prod.fst)) =
        some [messageOf reducer blake2b next outputs] := by
  obtain ⟨ctx, hctx, hresolves⟩ := exists_resolves hvalid hout (fitsWire_of_reads hreads)
  obtain ⟨outputs, houtputs, -⟩ : ∃ outputs,
      reducer.reduceBlock L policy next.toBlock ctx = .ok outputs ∧
      outputs.map (reducer.write ⟨0, 0⟩ blake2b) = (blockChanges next.toBlock ctx).flatMap
        (Change.writes (rowsOf reducer L ⟨0, 0⟩ blake2b)) :=
    exists_reduceBlock (isLedgerChain_of_reads hvalid hgenesis hreads) hresolves
  refine ⟨ctx, outputs, hresolves, houtputs, ?_⟩
  have hentries : (out.mapVal Prod.fst).entries.map toResolvedTxo =
      out.entries.map fun entry => toResolvedTxo (entry.1, entry.2.1) :=
    List.map_map ..
  have hprocess : processAction P true (logToResponseWithCtx
      (.apply next.slot next.hash next.bytes (out.mapVal Prod.fst))) =
        .ok (some (.rollForward (some ⟨next.slot, next.hash⟩) next.bytes ctx true)) := by
    simp only [logToResponseWithCtx, processAction, hentries, hctx]
    rfl
  simp only [messages, hprocess, reducePayload, hdecode, hreduce _ _ _ houtputs, Option.map_some]
  rfl

theorem Follows.run {commands : List Command} {inputs : List (Env × StorageActionPayload)}
    (h : Follows reducer L policy blake2b enc P genesis server delivered world)
    (hholds : HoldsOutputs P (genesisTxos P genesis) server)
    (hrecords : Records base written server.chainDB.db.mutableKV server.chainDB.nextWalSeq)
    (hcommands : ∀ command ∈ commands, IsFollowed P L command)
    (hrules : Run.meets (Server.step P genesis) (Server.followsRules P genesis) server
      commands = true)
    (hrun : Run.run (Server.step P genesis) server commands = .ok server')
    (hsent : streamed P reduce (writtenBy P genesis server commands) = some (inputs.map Prod.snd))
    (hworld : Run.run World.step world inputs = .ok world') :
    ∃ delivered', Follows reducer L policy blake2b enc P genesis server' delivered' world' := by
  induction commands generalizing server written delivered world inputs with
  | nil =>
    cases hrun
    obtain rfl := List.map_eq_nil_iff.mp (Option.some.inj hsent).symm
    cases hworld
    exact ⟨delivered, h⟩
  | cons command rest ih =>
    obtain ⟨hcommand, hrest⟩ := List.forall_mem_cons.mp hcommands
    obtain ⟨mid, hstep, hrunRest⟩ := Except.bind_eq_ok.mp (by simpa using hrun)
    simp only [Run.meets, hstep, Bool.and_eq_true] at hrules
    have hmid : HoldsOutputs P (genesisTxos P genesis) mid := by
      have hrule := hrules.1
      rw [Server.followsRules, Bool.and_eq_true] at hrule
      exact hholds.step hrule.1 hrule.2 hstep
    rcases hcommand with ⟨bytes, rfl, hreads⟩ | ⟨slot, hash, rfl⟩
    · obtain ⟨block, out, hdecode, hout, hadopted, hrecords', hwritten⟩ :=
        writtenBy_apply hstep hrecords rest
      obtain ⟨resolved, hblocks, -, hdelivers⟩ := h.chain
      have hvalid := hmid.valid
      rw [hadopted] at hvalid
      obtain ⟨ctx, outputs, hresolves, houtputs, hmessage⟩ := exists_message hreduce hgenesis
        (List.forall_mem_cons.mpr ⟨hreads block hdecode, hblocks ▸ reads_of_delivers hdelivers⟩)
        hdecode hvalid (hholds.txos ▸ hout)
      rw [hwritten] at hsent
      obtain ⟨env, others, rfl, hothers⟩ :=
        exists_input ((streamed_undone [] _).trans hmessage) hsent
      obtain ⟨world₁, hworld₁, hworldRest⟩ := Except.bind_eq_ok.mp (by simpa using hworld)
      exact ih (h.apply hadopted (hreads block hdecode) hresolves houtputs hworld₁) hmid hrecords'
        hrest hrules.2 hrunRest hothers hworldRest
    · obtain ⟨logs, hlogs, hrecords', hwritten⟩ := writtenBy_cons rfl hstep hrecords rest
      cases hlogs with
      | @rollback _ height _ bytes toRemove hfrom =>
        rw [hwritten] at hsent
        obtain ⟨env, others, rfl, hothers⟩ := exists_input (streamed_undone _ _) hsent
        obtain ⟨world₁, hworld₁, hworldRest⟩ := Except.bind_eq_ok.mp (by simpa using hworld)
        exact ih (h.rollBack hholds.chain hstep hworld₁) hmid hrecords' hrest hrules.2 hrunRest
          hothers hworldRest

end Following

/-- A compressor and an instance with a UTxO reducer that start together: the compressor applies
blocks that follow the ledger's rules and rolls back to blocks it has, and the instance has got
through its log, entry by entry.  Where the reducer gives no outputs, `reduce` is anything. -/
structure SharedRun {κ ν : Type} (P : Pallas) (genesis : List GenesisUtxo) (L : Library)
    (reducer : UtxoReducer κ ν) (policy : RuntimePolicy) (blake2b : Bytes → Hash)
    (reduce : Block → BlockContext → List ReducerOutput) (first : Server)
    (commands : List Command) (server : Server) (world₀ : World)
    (inputs : List (Env × StorageActionPayload)) (world : World) : Prop where
  separate : ∀ chain, IsLedgerChain P L genesis chain →
    Separate (rowsOf reducer L world₀.worker.keyEncoder blake2b)
      {txo | Produced P genesis chain txo.1 txo.2}
  reduces : ∀ block ctx outputs, reducer.reduceBlock L policy block ctx = .ok outputs →
    reduce block ctx = [.data (outputs.map (reducer.dataOp blake2b))]
  reads_genesis : ReadsGenesis P L genesis
  followed : ∀ command ∈ commands, IsFollowed P L command
  started : ∃ immutableAfterSlots,
    (Server.empty immutableAfterSlots).step P genesis .start = .ok first
  rules : Run.meets (Server.step P genesis) (Server.followsRules P genesis) first commands = true
  ran : Run.run (Server.step P genesis) first commands = .ok server
  store_empty : world₀.tikv.store = ∅
  batcher_empty : world₀.worker.syncBatcher.lastPoint = none ∧
    world₀.worker.syncBatcher.isEmpty = true
  buffer_empty : world₀.worker.rollbackBuffer.isEmpty = true
  sent : streamed P reduce (writtenBy P genesis first commands) = some (inputs.map Prod.snd)
  received : Run.run World.step world₀ inputs = .ok world

section Shared

variable {κ ν : Type} {reducer : UtxoReducer κ ν} {policy : RuntimePolicy}
  {blake2b : Bytes → Hash} {reduce : Block → BlockContext → List ReducerOutput} {first : Server}
  {commands : List Command} {world₀ world : World} {inputs : List (Env × StorageActionPayload)}

theorem SharedRun.exists_follows (h : SharedRun P genesis L reducer policy blake2b reduce first
      commands server world₀ inputs world) :
    HoldsOutputs P (genesisTxos P genesis) server ∧ ∃ delivered, Follows reducer L policy blake2b
      world₀.worker.keyEncoder P genesis server delivered world := by
  obtain ⟨immutableAfterSlots, hfirst⟩ := h.started
  have hholds₀ := HoldsOutputs.first hfirst
  obtain ⟨hadopted₀, hlog₀⟩ : first.adopted = [] ∧ first.chainDB.db.mutableKV = ∅ := by
    obtain ⟨chainDB, hstage, rfl⟩ := Server.step_eq_ok.mp hfirst
    obtain ⟨kvs, -, rfl⟩ := ChainDB.stageStart_eq_ok.mp hstage
    exact ⟨rfl, rfl⟩
  have hagree : AgreeInv (fun _ => .value) world₀.worker.keyEncoder ⟨[], []⟩ world₀ :=
    agreeInv_run (fun k hk => absurd rfl hk) rfl h.store_empty h.batcher_empty h.buffer_empty rfl
      (fun a ha => by cases ha) (rfl : Run.run World.step world₀ [] = .ok world₀)
  have hfollows₀ : Follows reducer L policy blake2b world₀.worker.keyEncoder P genesis first
      ⟨[], []⟩ world₀ := ⟨hagree, rfl, [], hadopted₀.symm, trivial, .nil⟩
  exact ⟨holdsOutputs_run hholds₀ h.rules h.ran, hfollows₀.run h.reduces h.reads_genesis hholds₀
    (hlog₀ ▸ Records.empty first.chainDB.nextWalSeq) h.followed h.rules h.ran h.sent h.received⟩

/-- **An instance that follows the log has the compressor's unspent outputs.**  The data in its
store are the rows of the outputs in the compressor's table that are not from genesis, and its
cursor is at the compressor's tip. -/
theorem index_follows_log (h : SharedRun P genesis L reducer policy blake2b reduce first
      commands server world₀ inputs world) :
    (∀ k v, [world₀.worker.keyEncoder.dataplaneId, world₀.worker.keyEncoder.instanceId,
        prefixData] <+: k →
      (world.tikv.store.get k = some v ↔ ∃ txo, InTable P genesis server.chainDB.db txo ∧
        (k, v) ∈ rowsOf reducer L world₀.worker.keyEncoder blake2b txo)) ∧
    ∀ tip ∈ server.adopted.head?, lastPoint world₀.worker.keyEncoder world.tikv.store =
      .ok (some (pointAt tip.slot tip.hash)) := by
  obtain ⟨hholds, delivered, hfollows⟩ := h.exists_follows
  exact ⟨fun k v hk => hfollows.get_iff h.separate h.reads_genesis hholds hk,
    fun tip htip => hfollows.lastPoint htip⟩

end Shared

theorem reads_spending {bytes : BlockBody} {block : Block}
    (h : spendingPallas.decode bytes = .ok block) : Reads sampleLibrary block := by
  have hblocks : ∀ b ∈ spendingBlocks, b.slot < 2 ^ 64 ∧
      ∀ tx ∈ b.txs, tx.outputs.length < 2 ^ 32 := by decide +kernel
  simp only [spendingPallas, samplePallas] at h
  split at h
  case h_1 found hfound =>
    cases h
    obtain ⟨hslot, houtputs⟩ := hblocks found (List.mem_of_find?_eq_some hfound)
    exact ⟨hslot, houtputs, fun _ _ _ _ => ⟨_, _, rfl, rfl⟩⟩
  case h_2 => cases h

def followedServer : Server :=
  (Run.run (Server.step spendingPallas sampleGenesis) (.empty (some 100)) [.start]).toOption.get
    (by decide +kernel)

def sampleReduce (block : Block) (ctx : BlockContext) : List ReducerOutput :=
  match (utxoCborByAddress sampleLibrary none).reduceBlock sampleLibrary ⟨none, none, none⟩ block
      ctx with
  | .ok outputs =>
    [.data (outputs.map ((utxoCborByAddress sampleLibrary none).dataOp fun _ => sampleHash 0))]
  | .error _ => []

theorem sampleReduce_of_ok {block : Block} {ctx : BlockContext}
    {outputs : List (UtxoOutput Address Bytes)}
    (h : (utxoCborByAddress sampleLibrary none).reduceBlock sampleLibrary ⟨none, none, none⟩ block
      ctx = .ok outputs) :
    sampleReduce block ctx = [.data (outputs.map
      ((utxoCborByAddress sampleLibrary none).dataOp fun _ => sampleHash 0))] := by
  simp only [sampleReduce, h]

def followedCommands : List Command :=
  [.apply [1] true, .apply [2] true, .rollback 10 (sampleHash 1) true]

def followedInputs : List (Env × StorageActionPayload) :=
  ((streamed spendingPallas sampleReduce (writtenBy spendingPallas sampleGenesis followedServer
    followedCommands)).getD []).map fun message => (.plain, message)

theorem exists_sharedRun : ∃ server world, SharedRun spendingPallas sampleGenesis sampleLibrary
    (utxoCborByAddress sampleLibrary none) ⟨none, none, none⟩ (fun _ => sampleHash 0) sampleReduce
    followedServer followedCommands server (Polyphony.sampleWorld none) followedInputs world := by
  refine ⟨_, _, fun chain hchain => separate_utxoCborByAddress hchain none,
    fun _ _ _ => sampleReduce_of_ok, fun _ _ _ => ⟨_, _, rfl, rfl⟩, ?_,
    ⟨some 100, Except.eq_ok_get (by decide +kernel)⟩, by decide +kernel,
    Except.eq_ok_get (by decide +kernel), rfl, ⟨rfl, rfl⟩, rfl, by decide +kernel,
    Except.eq_ok_get (by decide +kernel)⟩
  simp only [followedCommands, List.forall_mem_cons]
  exact ⟨.inl ⟨_, rfl, fun _ => reads_spending⟩, .inl ⟨_, rfl, fun _ => reads_spending⟩,
    .inr ⟨_, _, rfl⟩, by simp⟩

theorem index_follows_log_spending :
    ∃ server world,
      Run.run (Server.step spendingPallas sampleGenesis) followedServer followedCommands =
        .ok server ∧
      Run.run World.step (Polyphony.sampleWorld none) followedInputs = .ok world ∧
      followedInputs.length = 3 ∧
      ∀ k v, [(Polyphony.sampleWorld none).worker.keyEncoder.dataplaneId,
          (Polyphony.sampleWorld none).worker.keyEncoder.instanceId, prefixData] <+: k →
        (world.tikv.store.get k = some v ↔
          ∃ txo, InTable spendingPallas sampleGenesis server.chainDB.db txo ∧
            (k, v) ∈ rowsOf (utxoCborByAddress sampleLibrary none) sampleLibrary
              (Polyphony.sampleWorld none).worker.keyEncoder (fun _ => sampleHash 0) txo) := by
  obtain ⟨server, world, h⟩ := exists_sharedRun
  exact ⟨server, world, h.ran, h.received, by decide +kernel, (index_follows_log h).1⟩

end CardanoIndexer.Pipeline
