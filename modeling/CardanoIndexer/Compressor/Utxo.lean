import CardanoIndexer.Compressor.Outputs

/-!
# Runs of the compressor and the outputs they leave

`HoldsOutputs` is kept by every accepted command on a chain that follows the ledger's rules.
-/

namespace CardanoIndexer.Compressor

open Spending

variable {P : Pallas} {genesis : List GenesisUtxo} {isMutable : Bool} {server' : Server}
  {commands : List Command} {self : ChainDB}

/-! ## Rules of the chain -/

def Server.followsLedger (P : Pallas) (start : SortedMap TxoRef TxoBody) (server : Server)
    (command : Command) : Bool :=
  (incoming P command).all fun block =>
    (server.adopted.head?.all fun last =>
      last.slot < block.slot || (last.slot = block.slot && last.txs.isEmpty)) &&
    decide (ValidAfter start (history P server.adopted) (block.transfers P))

theorem Server.followsLedger_apply {start : SortedMap TxoRef TxoBody} {server : Server}
    {bytes : BlockBody} {block : Block} (hdecode : P.decode bytes = .ok block)
    (h : server.followsLedger P start (.apply bytes isMutable) = true) :
    (∀ last ∈ server.adopted.head?, last.slot < block.slot ∨
      last.slot = block.slot ∧ last.txs = []) ∧
    ValidAfter start (history P server.adopted) (block.transfers P) := by
  simpa [followsLedger, incoming, hdecode, Except.toOption, Option.all_eq_true] using h

def genesisTxos (P : Pallas) (genesis : List GenesisUtxo) : SortedMap TxoRef TxoBody :=
  (insertGenesisTxos P ∅ genesis).toOption.getD ∅

theorem genesisTxos_eq {kvs : List (TxoRef × TxoBody)}
    (hkvs : genesis.mapM (genesisUtxoToKv P) = .ok kvs) :
    genesisTxos P genesis =
      (∅ : SortedMap TxoRef TxoBody).applyWrites (kvs.map fun kv => (kv.1, some kv.2)) := by
  simp [genesisTxos, insertGenesisTxos, hkvs, Except.toOption]

def Server.genesisUnspent (P : Pallas) (genesis : List GenesisUtxo) (server : Server) : Bool :=
  (genesisTxos P genesis).entries.all fun output => output.1 ∉ spent (history P server.adopted)

def Server.startsUnspent (P : Pallas) (genesis : List GenesisUtxo) (server : Server) :
    Command → Bool
  | .start => server.genesisUnspent P genesis
  | _ => true

/-! ## The invariant -/

structure HoldsOutputs (P : Pallas) (start : SortedMap TxoRef TxoBody) (server : Server) :
    Prop where
  chain : HoldsChain P server
  repeats : RepeatsEmpty server.adopted
  valid : Valid start (history P server.adopted)
  txos : server.chainDB.db.txoKV = table start (history P server.adopted)
  resolvers : HasResolvers P start server.adopted [] server.chainDB.db.resolverBySlotKV

theorem reverse_eq_map_visible {chain : List StoredBlock} (hordered : SlotOrdered chain)
    {entries : List (ℕ × BlockValue)} (hsorted : entries.Pairwise fun a b => a.1 < b.1)
    (hmem : ∀ entry, entry ∈ entries ↔
      ∃ block, blockIn chain entry.1 = some block ∧ block.value = entry.2) :
    entries.reverse = (visible chain).map StoredBlock.entry := by
  rw [List.reverse_eq_iff]
  have hvisible : ((visible chain).map StoredBlock.entry).reverse.Pairwise
      fun a b => a.1 < b.1 := by
    rw [List.pairwise_reverse, List.pairwise_map]
    exact pairwise_visible hordered
  apply SortedMap.entries_eq_of_mem_iff hsorted hvisible
  intro entry
  rw [hmem, List.mem_reverse, List.mem_map]
  constructor
  · rintro ⟨block, hblock, hvalue⟩
    obtain ⟨-, hslot⟩ := mem_of_blockIn hblock
    refine ⟨block, (mem_visible_iff hordered).mpr (hslot ▸ hblock), ?_⟩
    exact Prod.ext hslot hvalue
  · rintro ⟨block, hblock, rfl⟩
    exact ⟨block, (mem_visible_iff hordered).mp hblock, rfl⟩

namespace HoldsOutputs

variable {start : SortedMap TxoRef TxoBody} {server : Server} {chainDB : ChainDB}
  {newer older : List StoredBlock}

theorem apply (h : HoldsOutputs P start server) {bytes : BlockBody}
    (hledger : server.followsLedger P start (.apply bytes isMutable) = true)
    (hstage : ChainDB.stageApply P server.chainDB bytes isMutable = .ok chainDB) :
    HoldsOutputs P start ⟨chainDB, adopt P server.adopted (.apply bytes isMutable)⟩ := by
  obtain ⟨block, resolver, hdecode, hprevious, hresolve, rfl⟩ :=
    ChainDB.stageApply_eq_ok.mp hstage
  obtain ⟨hslot, hvalid⟩ := Server.followsLedger_apply hdecode hledger
  have hhistory : history P (⟨block, bytes⟩ :: server.adopted) =
      history P server.adopted ++ block.transfers P := history_cons ..
  simp only [adopt, hdecode]
  refine ⟨h.chain.apply hdecode hprevious fun last hlast => ?_, ?_, ?_, ?_, ?_⟩
  · rcases hslot last hlast with hlt | ⟨heq, -⟩
    · exact hlt.le
    · exact heq.le
  · refine List.isChain_cons.mpr ⟨fun last hlast => ?_, h.repeats⟩
    exact (hslot last hlast).imp_right And.right
  · rw [hhistory]
    exact valid_append.mpr ⟨h.valid, hvalid⟩
  · rw [hhistory, table_append, ← h.txos, ChainDB.applied, Block.writes_eq]
    rfl
  · intro newer found older hsplit hnewer
    cases newer with
    | nil =>
      obtain ⟨rfl, rfl⟩ := List.cons.inj hsplit
      refine ⟨resolver, ?_, by simp [ChainDB.applied]⟩
      rw [List.append_nil, ← h.txos]
      exact hresolve
    | cons head newer =>
      obtain ⟨rfl, htail⟩ := List.cons.inj hsplit
      obtain ⟨out, hout, hget⟩ := h.resolvers newer found older htail
        fun b hb => hnewer b (List.mem_cons_of_mem _ hb)
      have hne : found.slot ≠ block.slot := (hnewer _ (List.mem_cons_self ..)).ne
      exact ⟨out, hout, by simpa [ChainDB.applied, hne] using hget⟩

theorem reverse_toRemove (h : HoldsOutputs P start server) {block : StoredBlock}
    (hsplit : server.adopted = newer ++ block :: older) (hnewer : ∀ b ∈ newer, block.slot < b.slot)
    {value : BlockValue} {toRemove : List (ℕ × BlockValue)}
    (hfrom : server.chainDB.db.blockBySlotKV.entriesFrom block.slot =
      (block.slot, value) :: toRemove) :
    toRemove.reverse = (visible newer).map StoredBlock.entry := by
  have hordered : SlotOrdered (newer ++ block :: older) := hsplit ▸ h.chain.ordered
  have hsorted : ((block.slot, value) :: toRemove).Pairwise fun a b => a.1 < b.1 :=
    hfrom ▸ (SortedMap.sorted _).filter _
  rw [List.pairwise_cons] at hsorted
  have hblockIn : ∀ slot, block.slot < slot →
      blockIn server.adopted slot = blockIn newer slot := by
    intro slot hlt
    have hnone : blockIn (block :: older) slot = none := by
      rw [blockIn_of_split hordered hnewer, if_neg (by omega)]
    rw [hsplit, blockIn, List.find?_append]
    change (blockIn newer slot).or (blockIn (block :: older) slot) = _
    rw [hnone, Option.or_none]
  apply reverse_eq_map_visible (hordered.sublist (List.sublist_append_left ..)) hsorted.2
  intro entry
  have hiff : entry ∈ (block.slot, value) :: toRemove ↔
      server.chainDB.db.blockBySlotKV.get entry.1 = some entry.2 ∧ block.slot ≤ entry.1 := by
    rw [← hfrom, SortedMap.mem_entriesFrom, SortedMap.get_eq_some_iff]
  constructor
  · intro hentry
    have hin := (hiff.mp (List.mem_cons_of_mem _ hentry)).1
    rw [h.chain.blocks, hblockIn _ (hsorted.1 entry hentry), Option.map_eq_some_iff] at hin
    exact hin
  · rintro ⟨b, hb, hvalue⟩
    obtain ⟨hmem, hslot⟩ := mem_of_blockIn hb
    have hlt : block.slot < entry.1 := hslot ▸ hnewer b hmem
    have hget : server.chainDB.db.blockBySlotKV.get entry.1 = some entry.2 := by
      rw [h.chain.blocks, hblockIn _ hlt, hb, Option.map_some, hvalue]
    exact (List.mem_cons.mp (hiff.mpr ⟨hget, hlt.le⟩)).resolve_left fun heq =>
      hlt.ne' (congrArg Prod.fst heq)

theorem hasResolvers_cut (h : HoldsOutputs P start server) {block : StoredBlock}
    (hsplit : server.adopted = newer ++ block :: older) (hnewer : ∀ b ∈ newer, block.slot < b.slot)
    {entries : List (ℕ × BlockValue)} (hentries : ∀ entry ∈ entries, block.slot < entry.1) :
    HasResolvers P start (block :: older) [] (server.chainDB.db.resolverBySlotKV.applyWrites
      (entries.map fun entry => (entry.1, none))) := by
  have hordered : SlotOrdered (newer ++ block :: older) := hsplit ▸ h.chain.ordered
  intro first b rest hrest hfirst
  have hle : b.slot ≤ block.slot := hordered.slot_le (hrest ▸ by simp)
  obtain ⟨out, hout, hget⟩ := h.resolvers (newer ++ first) b rest
    (by rw [hsplit, hrest, List.append_assoc]) (by
      intro c hc
      rcases List.mem_append.mp hc with hc | hc
      · exact hle.trans_lt (hnewer c hc)
      · exact hfirst c hc)
  refine ⟨out, hout, ?_⟩
  rw [SortedMap.get_applyWrites_of_not_mem]
  · exact hget
  · rw [List.map_map]
    intro hmem
    obtain ⟨entry, hentry, heq⟩ := List.mem_map.mp hmem
    have hlt := hentries entry hentry
    have hslot : entry.1 = b.slot := heq
    omega

theorem exists_rollback (h : HoldsOutputs P start server) {block : StoredBlock}
    (hblock : blockIn server.adopted block.slot = some block) (isMutable : Bool) :
    ∃ chainDB, ChainDB.stageRollback P server.chainDB block.slot block.hash isMutable =
        .ok chainDB ∧
      HoldsOutputs P start ⟨chainDB, cutBack server.adopted block.slot block.hash⟩ := by
  obtain ⟨newer, older, hsplit, -, hnewer⟩ := exists_split_of_blockIn h.chain.ordered hblock
  have hcut : cutBack server.adopted block.slot block.hash = block :: older := by
    rw [hsplit, cutBack_of_later hnewer]
  have hget : server.chainDB.db.blockBySlotKV.get block.slot = some block.value := by
    rw [h.chain.blocks, hblock, Option.map_some]
  obtain ⟨toRemove, hfrom⟩ := SortedMap.entriesFrom_of_get hget
  have hresolvers : HasResolvers P start newer (block :: older)
      server.chainDB.db.resolverBySlotKV := by
    intro first b rest hsplitNewer hfirst
    obtain ⟨out, hout, hgetOut⟩ := h.resolvers first b (rest ++ block :: older)
      (by rw [hsplit, hsplitNewer, List.append_assoc, List.cons_append]) hfirst
    exact ⟨out, by simpa using hout, hgetOut⟩
  have hordered : SlotOrdered newer :=
    (hsplit ▸ h.chain.ordered : SlotOrdered _).sublist (List.sublist_append_left ..)
  obtain ⟨state, hrun, htxos⟩ := exists_run_undo isMutable (block :: older)
    (server.chainDB.db, server.chainDB.nextWalSeq) hordered (hsplit ▸ h.repeats)
    (fun b hb => h.chain.decoded b (by rw [hsplit]; exact List.mem_append_left _ hb))
    (hsplit ▸ h.valid) (hsplit ▸ h.txos) hresolvers
  rw [← h.reverse_toRemove hsplit hnewer hfrom] at hrun
  have hstage := ChainDB.stageRollback_eq_ok.mpr ⟨_, _, toRemove, state, hfrom, hrun, rfl⟩
  have hchain := h.chain.rollback hstage
  have hbehind : ∀ entry ∈ toRemove.reverse, block.slot < entry.1 := by
    have hsorted : ((block.slot, block.value) :: toRemove).Pairwise fun a b => a.1 < b.1 :=
      hfrom ▸ (SortedMap.sorted _).filter _
    intro entry hentry
    exact (List.pairwise_cons.mp hsorted).1 entry (List.mem_reverse.mp hentry)
  have hvalid := h.valid
  rw [hsplit, history_append] at hvalid
  rw [hcut] at hchain ⊢
  refine ⟨_, hstage, hchain, List.IsChain.suffix h.repeats ⟨newer, hsplit.symm⟩,
    hvalid.of_append, htxos, ?_⟩
  simp only [ChainDB.rolledBack, (ChainDB.undone_of_run hrun).resolvers]
  exact h.hasResolvers_cut hsplit hnewer hbehind

theorem rollback (h : HoldsOutputs P start server) {slot : ℕ} {hash : BlockHash}
    (hstage : ChainDB.stageRollback P server.chainDB slot hash isMutable = .ok chainDB) :
    HoldsOutputs P start ⟨chainDB, cutBack server.adopted slot hash⟩ := by
  obtain ⟨height, bytes, toRemove, state, hfrom, -, -⟩ := ChainDB.stageRollback_eq_ok.mp hstage
  obtain ⟨newer, block, older, hsplit, hentry, hnewer, -⟩ := h.chain.exists_split hfrom
  obtain ⟨rfl, hvalue⟩ := Prod.mk.inj hentry
  have hhash : block.hash = hash := congrArg (fun value => value.2.1) hvalue
  have hblock : blockIn server.adopted block.slot = some block := by
    rw [hsplit, blockIn_of_later hnewer]
  obtain ⟨chainDB', hstage', hholds⟩ := h.exists_rollback hblock isMutable
  rw [hhash, hstage] at hstage'
  cases hstage'
  exact hhash ▸ hholds

theorem rollbackToOrigin (h : HoldsOutputs P start server)
    (hstage : ChainDB.stageRollbackToOrigin P server.chainDB isMutable = .ok chainDB) :
    HoldsOutputs P start ⟨chainDB, []⟩ := by
  have hchain := h.chain.rollbackToOrigin hstage
  obtain ⟨state, hrun, rfl⟩ := ChainDB.stageRollbackToOrigin_eq_ok.mp hstage
  have hentries : server.chainDB.db.blockBySlotKV.entries.reverse =
      (visible server.adopted).map StoredBlock.entry := by
    refine reverse_eq_map_visible h.chain.ordered (SortedMap.sorted _) fun entry => ?_
    rw [← SortedMap.get_eq_some_iff, h.chain.blocks, Option.map_eq_some_iff]
  obtain ⟨state', hrun', htxos⟩ := exists_run_undo isMutable []
    (server.chainDB.db, server.chainDB.nextWalSeq) h.chain.ordered
    (by simpa using h.repeats) h.chain.decoded (by simpa using h.valid) (by simpa using h.txos)
    h.resolvers
  rw [← hentries, hrun] at hrun'
  cases hrun'
  refine ⟨hchain, List.IsChain.nil, trivial, htxos, ?_⟩
  intro newer block older hsplit
  cases newer <;> cases hsplit

theorem start_of_unspent (h : HoldsOutputs P (genesisTxos P genesis) server)
    (hunspent : server.genesisUnspent P genesis = true)
    (hstage : ChainDB.stageStart P server.chainDB genesis = .ok chainDB) :
    HoldsOutputs P (genesisTxos P genesis) ⟨chainDB, server.adopted⟩ := by
  have hchain := h.chain.start hstage
  obtain ⟨kvs, hkvs, rfl⟩ := ChainDB.stageStart_eq_ok.mp hstage
  refine ⟨hchain, h.repeats, h.valid, ?_, h.resolvers⟩
  change server.chainDB.db.txoKV.applyWrites _ = _
  rw [h.txos]
  apply SortedMap.ext_get
  intro ref
  rw [SortedMap.get_applyWrites_stores, ← genesisTxos_eq hkvs]
  cases hget : (genesisTxos P genesis).get ref with
  | none => rfl
  | some body =>
    have hmem := (SortedMap.get_eq_some_iff _).mp hget
    simp only [Server.genesisUnspent, List.all_eq_true, decide_eq_true_eq] at hunspent
    exact (h.valid.get_table.mpr ⟨List.mem_append_left _ hmem, hunspent _ hmem⟩).symm

theorem step (h : HoldsOutputs P (genesisTxos P genesis) server) {command : Command}
    (hledger : server.followsLedger P (genesisTxos P genesis) command = true)
    (hstart : server.startsUnspent P genesis command = true)
    (hstep : server.step P genesis command = .ok server') :
    HoldsOutputs P (genesisTxos P genesis) server' := by
  obtain ⟨chainDB, hstage, rfl⟩ := Server.step_eq_ok.mp hstep
  cases command with
  | start => exact h.start_of_unspent hstart hstage
  | apply bytes isMutable => exact h.apply hledger hstage
  | rollback slot hash isMutable => exact h.rollback hstage
  | rollbackToOrigin isMutable => exact h.rollbackToOrigin hstage

theorem first {immutableAfterSlots : Option ℕ}
    (hfirst : (Server.empty immutableAfterSlots).step P genesis .start = .ok server) :
    HoldsOutputs P (genesisTxos P genesis) server := by
  obtain ⟨chainDB, hstage, rfl⟩ := Server.step_eq_ok.mp hfirst
  have hchain := (HoldsChain.empty P immutableAfterSlots).start hstage
  obtain ⟨kvs, hkvs, rfl⟩ := ChainDB.stageStart_eq_ok.mp hstage
  refine ⟨hchain, List.IsChain.nil, trivial, ?_, ?_⟩
  · rw [genesisTxos_eq hkvs]
    rfl
  · intro newer block older hsplit
    cases newer <;> cases hsplit

theorem tables_eq (h : HoldsOutputs P start server) (h' : HoldsOutputs P start server')
    (hadopted : server'.adopted = server.adopted) :
    server'.chainDB.db.blockBySlotKV = server.chainDB.db.blockBySlotKV ∧
      server'.chainDB.db.resolverBySlotKV = server.chainDB.db.resolverBySlotKV ∧
      server'.chainDB.db.txoKV = server.chainDB.db.txoKV := by
  refine ⟨SortedMap.ext_get fun slot => ?_, SortedMap.ext_get fun slot => ?_, ?_⟩
  · rw [h.chain.blocks, h'.chain.blocks, hadopted]
  · cases hblock : blockIn server.adopted slot with
    | none =>
      have hnone := h.chain.resolvers slot
      have hnone' := h'.chain.resolvers slot
      rw [hblock, Option.map_none, Option.map_eq_none_iff] at hnone
      rw [hadopted, hblock, Option.map_none, Option.map_eq_none_iff] at hnone'
      rw [hnone, hnone']
    | some block =>
      obtain ⟨newer, older, hsplit, rfl, hnewer⟩ :=
        exists_split_of_blockIn h.chain.ordered hblock
      obtain ⟨out, hout, hget⟩ := h.resolvers newer block older hsplit hnewer
      obtain ⟨out', hout', hget'⟩ :=
        h'.resolvers newer block older (hadopted.trans hsplit) hnewer
      rw [hout] at hout'
      cases hout'
      rw [hget, hget']
  · rw [h.txos, h'.txos, hadopted]

end HoldsOutputs

def Server.followsRules (P : Pallas) (genesis : List GenesisUtxo) (server : Server)
    (command : Command) : Bool :=
  server.followsLedger P (genesisTxos P genesis) command &&
    server.startsUnspent P genesis command

theorem holdsOutputs_run {server : Server} (h : HoldsOutputs P (genesisTxos P genesis) server)
    (hrules : Run.meets (Server.step P genesis) (Server.followsRules P genesis) server
      commands = true) (hrun : Run.run (Server.step P genesis) server commands = .ok server') :
    HoldsOutputs P (genesisTxos P genesis) server' := by
  refine Run.invariant_of_meets (I := fun _ => HoldsOutputs P (genesisTxos P genesis)) h ?_
    hrules hrun
  intro _ mid command next _ hmid hrule hstep
  rw [Server.followsRules, Bool.and_eq_true] at hrule
  exact hmid.step hrule.1 hrule.2 hstep

/-! ## Rolling back undoes applying -/

def Server.appliesLater (P : Pallas) (server : Server) : Command → Bool
  | .apply bytes _ =>
    (P.decode bytes).toOption.all fun block =>
      server.adopted.head?.all fun last => last.slot < block.slot
  | _ => false

theorem adopted_of_appliesLater {server : Server} {tip : StoredBlock}
    (htip : server.adopted.head? = some tip)
    (hlater : Run.meets (Server.step P genesis) (Server.appliesLater P) server commands = true)
    (hrun : Run.run (Server.step P genesis) server commands = .ok server') :
    ∃ newer, server'.adopted = newer ++ server.adopted ∧ ∀ b ∈ newer, tip.slot < b.slot := by
  refine Run.invariant_of_meets
    (I := fun _ mid => ∃ newer, mid.adopted = newer ++ server.adopted ∧
      ∀ b ∈ newer, tip.slot < b.slot) ⟨[], rfl, by simp⟩ ?_ hlater hrun
  rintro - mid command next - ⟨newer, hnewer, hslots⟩ hcond hstep
  obtain ⟨chainDB, hstage, rfl⟩ := Server.step_eq_ok.mp hstep
  cases command with
  | apply bytes isMutable =>
    obtain ⟨block, -, hdecode, -, -, -⟩ := ChainDB.stageApply_eq_ok.mp hstage
    have hlast : ∀ last ∈ mid.adopted.head?, last.slot < block.slot := by
      simpa [Server.appliesLater, hdecode, Except.toOption, Option.all_eq_true] using hcond
    refine ⟨⟨block, bytes⟩ :: newer, by simp [adopt, hdecode, hnewer], ?_⟩
    refine List.forall_mem_cons.mpr ⟨?_, hslots⟩
    cases newer with
    | nil => exact hlast tip (by rw [hnewer, List.nil_append, htip]; rfl)
    | cons head rest =>
      exact (hslots head (List.mem_cons_self ..)).trans (hlast head (by rw [hnewer]; rfl))
  | start => cases hcond
  | rollback slot hash isMutable => cases hcond
  | rollbackToOrigin isMutable => cases hcond

theorem ChainDB.commit_error {commitFails : Bool} {staged : Except Error ChainDB} {e : Error}
    (h : (self.commit commitFails staged).2 = .error e) :
    (self.commit commitFails staged).1 = self := by
  unfold ChainDB.commit at h ⊢
  split
  case h_1 => rfl
  case h_2 self' =>
    cases commitFails with
    | true => rfl
    | false => cases h

/-- **Rolling back undoes applying**, and a call of either kind that fails changes nothing. -/
theorem rollback_undoes_apply {immutableAfterSlots : Option ℕ} {first server server' : Server}
    {commands more : List Command} {tip : StoredBlock}
    (hfirst : (Server.empty immutableAfterSlots).step P genesis .start = .ok first)
    (hrules : Run.meets (Server.step P genesis) (Server.followsRules P genesis) first
      commands = true)
    (hrun : Run.run (Server.step P genesis) first commands = .ok server)
    (htip : server.adopted.head? = some tip)
    (hmoreRules : Run.meets (Server.step P genesis) (Server.followsRules P genesis) server
      more = true)
    (hmoreLater : Run.meets (Server.step P genesis) (Server.appliesLater P) server more = true)
    (hmore : Run.run (Server.step P genesis) server more = .ok server') :
    (∀ isMutable, ∃ chainDB,
      ChainDB.rollback P server'.chainDB false tip.slot tip.hash isMutable = (chainDB, .ok ()) ∧
      chainDB.db.blockBySlotKV = server.chainDB.db.blockBySlotKV ∧
      chainDB.db.resolverBySlotKV = server.chainDB.db.resolverBySlotKV ∧
      chainDB.db.txoKV = server.chainDB.db.txoKV) ∧
    (∀ (self : ChainDB) commitFails bytes isMutable e,
      (ChainDB.applyBlockWithContext P self commitFails bytes isMutable).2 = .error e →
        (ChainDB.applyBlockWithContext P self commitFails bytes isMutable).1 = self) ∧
    ∀ (self : ChainDB) commitFails slot hash isMutable e,
      (ChainDB.rollback P self commitFails slot hash isMutable).2 = .error e →
        (ChainDB.rollback P self commitFails slot hash isMutable).1 = self := by
  refine ⟨fun isMutable => ?_, fun _ _ _ _ _ h => ChainDB.commit_error h,
    fun _ _ _ _ _ _ h => ChainDB.commit_error h⟩
  have hholds := holdsOutputs_run (HoldsOutputs.first hfirst) hrules hrun
  have hholds' := holdsOutputs_run hholds hmoreRules hmore
  obtain ⟨newer, hadopted, hnewer⟩ := adopted_of_appliesLater htip hmoreLater hmore
  obtain ⟨older, holder⟩ : ∃ older, server.adopted = tip :: older := by
    cases hchain : server.adopted with
    | nil => simp [hchain] at htip
    | cons head older =>
      rw [hchain, List.head?_cons, Option.some.injEq] at htip
      exact ⟨older, by rw [htip]⟩
  have hblock : blockIn server'.adopted tip.slot = some tip := by
    rw [hadopted, holder, blockIn_of_later hnewer]
  have hcut : cutBack server'.adopted tip.slot tip.hash = server.adopted := by
    rw [hadopted, holder, cutBack_of_later hnewer]
  obtain ⟨chainDB, hstage, hback⟩ := hholds'.exists_rollback hblock isMutable
  rw [hcut] at hback
  refine ⟨chainDB, ?_, hholds.tables_eq hback rfl⟩
  simp [ChainDB.rollback, ChainDB.commit, hstage]

def sampleGenesis : List GenesisUtxo := [⟨sampleHash 9, [], 0, 5⟩]

def sampleTx (tag : Byte) (isValid : Bool) (inputs collateral referenceInputs : List (Byte × ℕ))
    (outputs : List Bytes) (collateralReturn : Option Bytes) : Tx where
  hash := sampleHash tag
  era := .babbage
  isValid := isValid
  inputs := inputs.map fun input => ⟨sampleHash input.1, input.2⟩
  collateral := collateral.map fun input => ⟨sampleHash input.1, input.2⟩
  referenceInputs := referenceInputs.map fun input => ⟨sampleHash input.1, input.2⟩
  outputs := outputs
  collateralReturn := collateralReturn

def spendingBlocks : List StoredBlock :=
  [sampleBlock 10 1 none [sampleTx 101 true [(9, 0)] [] [] [[1], [2]] none],
    sampleBlock 20 2 (some 1)
      [sampleTx 102 true [(101, 0)] [] [] [[3]] none,
        sampleTx 103 true [(102, 0)] [] [(101, 1)] [[4]] none,
        sampleTx 104 false [(103, 0)] [(101, 1)] [] [[5], [6]] (some [7])]]

def spendingPallas : Pallas := samplePallas spendingBlocks

theorem rollback_undoes_apply_spending :
    ∃ first server server' chainDB,
      (Server.empty (some 100)).step spendingPallas sampleGenesis .start = .ok first ∧
      Run.run (Server.step spendingPallas sampleGenesis) first [.apply [1] true] = .ok server ∧
      Run.run (Server.step spendingPallas sampleGenesis) server [.apply [2] true] = .ok server' ∧
      ChainDB.rollback spendingPallas server'.chainDB false 10 (sampleHash 1) true =
        (chainDB, .ok ()) ∧
      chainDB.db.txoKV = server.chainDB.db.txoKV ∧ server.chainDB.db.txoKV ≠ ∅ := by
  have hfirst : (Server.empty (some 100)).step spendingPallas sampleGenesis .start = .ok _ :=
    Except.eq_ok_get (by decide +kernel)
  obtain ⟨chainDB, hback, -, -, htxos⟩ := (rollback_undoes_apply hfirst (by decide +kernel)
    (Except.eq_ok_get (by decide +kernel) : Run.run _ _ [.apply [1] true] = .ok _)
    (by decide +kernel : _ = spendingBlocks.head?) (by decide +kernel) (by decide +kernel)
    (Except.eq_ok_get (by decide +kernel) : Run.run _ _ [.apply [2] true] = .ok _)).1 true
  exact ⟨_, _, _, chainDB, hfirst, Except.eq_ok_get _, Except.eq_ok_get _, hback, htxos,
    by decide +kernel⟩

def decreasingBlocks : List StoredBlock :=
  [sampleBlock 10 1 none [], sampleBlock 5 2 (some 1) [], sampleBlock 20 3 (some 2) []]

/-- Rolling back to a block in an earlier slot also removes its predecessor. -/
theorem decreasing_slots_lose_block :
    ∃ server server',
      Run.run (Server.step (samplePallas decreasingBlocks) []) (.empty none)
        [.start, .apply [1] true, .apply [2] true] = .ok server ∧
      Run.run (Server.step (samplePallas decreasingBlocks) []) server [.apply [3] true] =
        .ok server' ∧
      (ChainDB.rollback (samplePallas decreasingBlocks) server'.chainDB false 5 (sampleHash 2)
        true).2 = .ok () ∧
      (ChainDB.rollback (samplePallas decreasingBlocks) server'.chainDB false 5 (sampleHash 2)
        true).1.db.blockBySlotKV ≠ server.chainDB.db.blockBySlotKV :=
  ⟨_, _, Except.eq_ok_get (by decide +kernel), Except.eq_ok_get (by decide +kernel),
    by decide +kernel, by decide +kernel⟩

/-! ## The output table is the set of unspent outputs -/

def HoldsUtxo (P : Pallas) (genesis : List GenesisUtxo) (server : Server) : Prop :=
  ∀ ref body, server.chainDB.db.txoKV.get ref = some body ↔
    (ref, body) ∈ outputs (genesisTxos P genesis) (history P server.adopted) ∧
      ref ∉ spent (history P server.adopted)

theorem HoldsOutputs.holdsUtxo {server : Server}
    (h : HoldsOutputs P (genesisTxos P genesis) server) : HoldsUtxo P genesis server := by
  intro ref body
  rw [h.txos, h.valid.get_table]

theorem get_of_stageStart {self' : ChainDB} (hstage : ChainDB.stageStart P self genesis = .ok self')
    {ref : TxoRef} {body : TxoBody} (hget : (genesisTxos P genesis).get ref = some body) :
    self'.db.txoKV.get ref = some body := by
  obtain ⟨kvs, hkvs, rfl⟩ := ChainDB.stageStart_eq_ok.mp hstage
  change (self.db.txoKV.applyWrites _).get ref = _
  rw [SortedMap.get_applyWrites_stores, ← genesisTxos_eq hkvs, hget, Option.some_or]

/-- **The output table is the set of unspent outputs** while no start finds a genesis output spent.
-/
theorem outputTable_is_utxo {immutableAfterSlots : Option ℕ} {first server : Server}
    {commands : List Command}
    (hfirst : (Server.empty immutableAfterSlots).step P genesis .start = .ok first)
    (hrules : Run.meets (Server.step P genesis) (Server.followsRules P genesis) first
      commands = true)
    (hrun : Run.run (Server.step P genesis) first commands = .ok server) :
    HoldsUtxo P genesis server ∧
      ∀ restarted, server.step P genesis .start = .ok restarted →
        (HoldsUtxo P genesis restarted ↔ server.genesisUnspent P genesis = true) := by
  have hholds := holdsOutputs_run (HoldsOutputs.first hfirst) hrules hrun
  refine ⟨hholds.holdsUtxo, fun restarted hrestart => ?_⟩
  obtain ⟨chainDB, hstage, rfl⟩ := Server.step_eq_ok.mp hrestart
  constructor
  · intro hutxo
    rw [Server.genesisUnspent, List.all_eq_true]
    intro output houtput
    have hget := get_of_stageStart hstage ((SortedMap.get_eq_some_iff _).mpr houtput)
    simpa [adopt] using ((hutxo output.1 output.2).mp hget).2
  · intro hunspent
    exact (hholds.start_of_unspent hunspent hstage).holdsUtxo

theorem outputTable_is_utxo_spending :
    ∃ first server,
      (Server.empty none).step spendingPallas sampleGenesis .start = .ok first ∧
      Run.run (Server.step spendingPallas sampleGenesis) first
        [.start, .apply [1] false, .apply [2] true, .rollback 10 (sampleHash 1) true] =
          .ok server ∧
      HoldsUtxo spendingPallas sampleGenesis server :=
  ⟨_, _, Except.eq_ok_get (by decide +kernel), Except.eq_ok_get (by decide +kernel),
    (outputTable_is_utxo (Except.eq_ok_get _) (by decide +kernel) (Except.eq_ok_get _)).1⟩

/-- A start after the genesis output was spent puts it back into the table. -/
theorem restart_revives_genesis_output :
    ∃ server,
      Run.run (Server.step spendingPallas sampleGenesis) (.empty none)
        [.start, .apply [1] false, .start] = .ok server ∧
      (⟨sampleHash 9, 0⟩ : TxoRef) ∈ spent (history spendingPallas server.adopted) ∧
      server.chainDB.db.txoKV.get ⟨sampleHash 9, 0⟩ = some ⟨0, 0, [5]⟩ ∧
      ¬ HoldsUtxo spendingPallas sampleGenesis server :=
  ⟨_, Except.eq_ok_get (by decide +kernel), by decide +kernel, by decide +kernel,
    fun hutxo => ((hutxo ⟨sampleHash 9, 0⟩ ⟨0, 0, [5]⟩).mp (by decide +kernel)).2 (by decide +kernel)⟩

end CardanoIndexer.Compressor
