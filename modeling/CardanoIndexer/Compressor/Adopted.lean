import CardanoIndexer.Compressor.StorageSpec

/-!
# The adopted chain and the block table

The adopted chain is every block that was applied and not rolled back.  `HoldsChain` says how the
tables relate to it.
-/

namespace CardanoIndexer.Compressor

/-! ## Chains -/

namespace StoredBlock

def isAt (block : StoredBlock) (slot : ℕ) (hash : BlockHash) : Bool :=
  block.slot = slot && block.hash = hash

def value (block : StoredBlock) : BlockValue := (block.number, block.hash, block.bytes)

def entry (block : StoredBlock) : ℕ × BlockValue := (block.slot, block.value)

end StoredBlock

def cutBack (chain : List StoredBlock) (slot : ℕ) (hash : BlockHash) :
    List StoredBlock :=
  chain.dropWhile fun block => !block.isAt slot hash

variable (P : Pallas) (genesis : List GenesisUtxo) {newer older chain : List StoredBlock}
  {command : Command}

def adopt (chain : List StoredBlock) : Command → List StoredBlock
  | .start => chain
  | .apply bytes _ =>
    match P.decode bytes with
    | .ok block => ⟨block, bytes⟩ :: chain
    | .error _ => chain
  | .rollback slot hash _ => cutBack chain slot hash
  | .rollbackToOrigin _ => []

structure Server where
  chainDB : ChainDB
  adopted : List StoredBlock

namespace Server

def empty (immutableAfterSlots : Option ℕ) : Server :=
  ⟨ChainDB.open ⟨∅, ∅, ∅, ∅⟩ immutableAfterSlots, []⟩

def step (server : Server) (command : Command) : Except Error Server := do
  let chainDB ← server.chainDB.step P genesis command
  return ⟨chainDB, adopt P server.adopted command⟩

def incoming : Command → Option Block
  | .apply bytes _ => (P.decode bytes).toOption
  | _ => none

def inSlotOrder (server : Server) (command : Command) : Bool :=
  (incoming P command).all fun block =>
    server.adopted.head?.all fun last => last.slot ≤ block.slot

end Server

variable {P genesis} {server' : Server}

theorem Server.step_eq_ok {server : Server} :
    server.step P genesis command = .ok server' ↔
      ∃ chainDB, server.chainDB.step P genesis command = .ok chainDB ∧
        server' = ⟨chainDB, adopt P server.adopted command⟩ := by
  simp only [Server.step, Except.bind_eq_ok, Except.pure_eq_ok, Except.ok.injEq,
    eq_comm (a := server')]

theorem cutBack_append {block : StoredBlock} {slot : ℕ} {hash : BlockHash}
    (hnewer : ∀ b ∈ newer, b.isAt slot hash = false) (hblock : block.isAt slot hash = true) :
    cutBack (newer ++ block :: older) slot hash = block :: older := by
  rw [cutBack, List.dropWhile_append_of_pos (by simpa using hnewer),
    List.dropWhile_cons_of_neg (by simp [hblock])]

theorem cutBack_of_later {block : StoredBlock} (hnewer : ∀ b ∈ newer, block.slot < b.slot) :
    cutBack (newer ++ block :: older) block.slot block.hash = block :: older := by
  refine cutBack_append (fun b hb => ?_) (by simp [StoredBlock.isAt])
  simp [StoredBlock.isAt, (hnewer b hb).ne']

theorem cutBack_suffix (chain : List StoredBlock) (slot : ℕ) (hash : BlockHash) :
    cutBack chain slot hash <:+ chain :=
  List.dropWhile_suffix _

/-! ## Tables of a chain -/

def blockIn (chain : List StoredBlock) (slot : ℕ) : Option StoredBlock :=
  chain.find? fun block => block.slot = slot

theorem blockIn_cons (block : StoredBlock) (chain : List StoredBlock) (slot : ℕ) :
    blockIn (block :: chain) slot = if slot = block.slot then some block else blockIn chain slot := by
  by_cases hslot : block.slot = slot
  · simp [blockIn, hslot]
  · simp [blockIn, hslot, Ne.symm hslot]

theorem mem_of_blockIn {slot : ℕ} {block : StoredBlock} (h : blockIn chain slot = some block) :
    block ∈ chain ∧ block.slot = slot :=
  ⟨List.mem_of_find?_eq_some h, by simpa using List.find?_some h⟩

theorem blockIn_of_later {block : StoredBlock} (hnewer : ∀ b ∈ newer, block.slot < b.slot) :
    blockIn (newer ++ block :: older) block.slot = some block := by
  have hnone : newer.find? (fun b => b.slot = block.slot) = none := by
    rw [List.find?_eq_none]
    intro b hb
    simpa using (hnewer b hb).ne'
  simp [blockIn, List.find?_append, hnone]

def SlotOrdered (chain : List StoredBlock) : Prop :=
  chain.Pairwise fun newer older => older.slot ≤ newer.slot

theorem exists_split_of_blockIn (hordered : SlotOrdered chain) {slot : ℕ} {block : StoredBlock}
    (h : blockIn chain slot = some block) :
    ∃ newer older, chain = newer ++ block :: older ∧ block.slot = slot ∧
      ∀ b ∈ newer, slot < b.slot := by
  obtain ⟨hslot, newer, older, hsplit, hnewer⟩ := List.find?_eq_some_iff_append.mp h
  refine ⟨newer, older, hsplit, by simpa using hslot, ?_⟩
  intro b hb
  rw [SlotOrdered, hsplit, List.pairwise_append] at hordered
  have hle : block.slot ≤ b.slot := hordered.2.2 b hb block (List.mem_cons_self ..)
  have hne : b.slot ≠ slot := by simpa using hnewer b hb
  have heq : block.slot = slot := by simpa using hslot
  omega

theorem SlotOrdered.slot_le {block b : StoredBlock} (h : SlotOrdered (newer ++ block :: older))
    (hb : b ∈ block :: older) : b.slot ≤ block.slot := by
  rw [SlotOrdered, List.pairwise_append, List.pairwise_cons] at h
  rcases List.mem_cons.mp hb with rfl | hb
  · exact le_refl _
  · exact h.2.1.1 b hb

theorem blockIn_of_split {block : StoredBlock} (hordered : SlotOrdered (newer ++ block :: older))
    (hnewer : ∀ b ∈ newer, block.slot < b.slot) (slot : ℕ) :
    blockIn (block :: older) slot =
      if slot ≤ block.slot then blockIn (newer ++ block :: older) slot else none := by
  split
  case isTrue hle =>
    have hnone : newer.find? (fun b => b.slot = slot) = none := by
      rw [List.find?_eq_none]
      intro b hb
      have hlt := hnewer b hb
      simp only [decide_eq_true_eq]
      omega
    rw [blockIn, blockIn, List.find?_append, hnone, Option.none_or]
  case isFalse hgt =>
    rw [blockIn, List.find?_eq_none]
    intro b hb
    have hle := hordered.slot_le hb
    simp only [decide_eq_true_eq]
    omega

structure HoldsChain (P : Pallas) (server : Server) : Prop where
  decoded : ∀ block ∈ server.adopted, P.decode block.bytes = .ok block.toBlock
  ordered : SlotOrdered server.adopted
  linked : server.adopted.IsChain fun newer older => newer.previousHash = some older.hash
  blocks : ∀ slot, server.chainDB.db.blockBySlotKV.get slot =
    (blockIn server.adopted slot).map StoredBlock.value
  resolvers : ∀ slot, (server.chainDB.db.resolverBySlotKV.get slot).map Prod.fst =
    (blockIn server.adopted slot).map fun block => block.hash
  last : server.chainDB.lastBlockHash = server.adopted.head?.map fun block => block.hash

namespace HoldsChain

variable {server : Server} {toRemove : List (ℕ × BlockValue)} {chainDB : ChainDB} {isMutable : Bool}

theorem empty (P : Pallas) (immutableAfterSlots : Option ℕ) :
    HoldsChain P (Server.empty immutableAfterSlots) where
  decoded := by simp [Server.empty]
  ordered := List.Pairwise.nil
  linked := List.IsChain.nil
  blocks slot := rfl
  resolvers slot := rfl
  last := rfl

theorem getLast?_blocks (h : HoldsChain P server) :
    server.chainDB.db.blockBySlotKV.entries.getLast? =
      server.adopted.head?.map StoredBlock.entry := by
  have hmem : ∀ entry ∈ server.chainDB.db.blockBySlotKV.entries,
      ∃ block ∈ server.adopted, block.slot = entry.1 := by
    intro entry hentry
    have hget := h.blocks entry.1
    rw [(SortedMap.get_eq_some_iff _).mpr hentry, eq_comm, Option.map_eq_some_iff] at hget
    obtain ⟨block, hblock, -⟩ := hget
    exact ⟨block, mem_of_blockIn hblock⟩
  cases hchain : server.adopted with
  | nil =>
    rw [hchain] at hmem
    simpa [List.eq_nil_iff_forall_not_mem] using hmem
  | cons tip rest =>
    have hordered := h.ordered
    rw [hchain, SlotOrdered, List.pairwise_cons] at hordered
    apply SortedMap.getLast?_entries_of_forall_le
    · rw [h.blocks, hchain, blockIn_cons, if_pos rfl]
      rfl
    · intro entry hentry
      obtain ⟨block, hblock, hslot⟩ := hmem entry hentry
      rw [hchain] at hblock
      rcases List.mem_cons.mp hblock with rfl | hblock
      · exact hslot.ge
      · exact hslot ▸ hordered.1 block hblock

/-! ### Steps -/

theorem apply (h : HoldsChain P server) {bytes : BlockBody} {block : Block}
    {resolver : SortedMap TxoRef (TxoBody × Bool)} (hdecode : P.decode bytes = .ok block)
    (hprevious : ∀ last, server.chainDB.lastBlockHash = some last →
      block.previousHash = some last)
    (hslot : ∀ last ∈ server.adopted.head?, last.slot ≤ block.slot) :
    HoldsChain P ⟨server.chainDB.applied P bytes isMutable block resolver,
      ⟨block, bytes⟩ :: server.adopted⟩ where
  decoded := List.forall_mem_cons.mpr ⟨hdecode, h.decoded⟩
  ordered := by
    refine List.pairwise_cons.mpr ⟨fun older holder => ?_, h.ordered⟩
    have hordered := h.ordered
    cases hchain : server.adopted with
    | nil => simp [hchain] at holder
    | cons tip rest =>
      rw [hchain, SlotOrdered, List.pairwise_cons] at hordered
      have htip : tip.slot ≤ block.slot := hslot tip (by simp [hchain])
      rw [hchain] at holder
      rcases List.mem_cons.mp holder with rfl | holder
      · exact htip
      · exact (hordered.1 older holder).trans htip
  linked := by
    refine List.isChain_cons.mpr ⟨fun tip htip => ?_, h.linked⟩
    exact hprevious tip.hash (by rw [h.last, htip]; rfl)
  blocks slot := by
    rw [blockIn_cons]
    simp only [ChainDB.applied, SortedMap.get_put, h.blocks]
    split <;> rfl
  resolvers slot := by
    rw [blockIn_cons]
    simp only [ChainDB.applied, SortedMap.get_put]
    split
    · rfl
    · exact h.resolvers slot
  last := rfl

theorem exists_split (h : HoldsChain P server) {slot : ℕ} {height : ℕ} {hash : BlockHash}
    {bytes : BlockBody} (hfrom : server.chainDB.db.blockBySlotKV.entriesFrom slot =
      (slot, height, hash, bytes) :: toRemove) :
    ∃ newer block older, server.adopted = newer ++ block :: older ∧
      block.entry = (slot, height, hash, bytes) ∧ (∀ b ∈ newer, slot < b.slot) ∧
      cutBack server.adopted slot hash = block :: older := by
  have hmem : (slot, height, hash, bytes) ∈ server.chainDB.db.blockBySlotKV.entries :=
    (SortedMap.mem_entriesFrom.mp (hfrom ▸ List.mem_cons_self ..)).1
  have hget := h.blocks slot
  rw [(SortedMap.get_eq_some_iff _).mpr hmem, eq_comm, Option.map_eq_some_iff] at hget
  obtain ⟨block, hblock, hvalue⟩ := hget
  obtain ⟨newer, older, hsplit, hslot, hnewer⟩ := exists_split_of_blockIn h.ordered hblock
  refine ⟨newer, block, older, hsplit, by simp [StoredBlock.entry, hslot, hvalue], hnewer, ?_⟩
  have hhash : block.hash = hash := congrArg (fun value => value.2.1) hvalue
  rw [hsplit, ← hhash, ← hslot]
  exact cutBack_of_later (hslot ▸ hnewer)

theorem get_deleted {block : StoredBlock} (h : HoldsChain P server)
    (hsplit : server.adopted = newer ++ block :: older) (hnewer : ∀ b ∈ newer, block.slot < b.slot)
    {value : BlockValue} (hfrom : server.chainDB.db.blockBySlotKV.entriesFrom block.slot =
      (block.slot, value) :: toRemove) {β γ : Type} {table : SortedMap ℕ β} {f : β → γ}
    {g : StoredBlock → γ}
    (htable : ∀ slot, (table.get slot).map f = (blockIn server.adopted slot).map g) (slot : ℕ) :
    ((table.applyWrites (toRemove.reverse.map fun entry => (entry.1, none))).get slot).map f =
      (blockIn (block :: older) slot).map g := by
  have hkeys : slot ∈ toRemove.map Prod.fst ↔
      block.slot < slot ∧ (blockIn server.adopted slot).isSome := by
    have hsorted := server.chainDB.db.blockBySlotKV.sorted.filter
      (fun e => block.slot ≤ e.1)
    change (server.chainDB.db.blockBySlotKV.entriesFrom block.slot).Pairwise _ at hsorted
    rw [hfrom, List.pairwise_cons] at hsorted
    have hentries : ∀ e, e ∈ (block.slot, value) :: toRemove ↔
        server.chainDB.db.blockBySlotKV.get e.1 = some e.2 ∧ block.slot ≤ e.1 := fun e => by
      rw [← hfrom, SortedMap.mem_entriesFrom, SortedMap.get_eq_some_iff]
    constructor
    · intro hmem
      obtain ⟨entry, hentry, rfl⟩ := List.mem_map.mp hmem
      have hget := ((hentries entry).mp (List.mem_cons_of_mem _ hentry)).1
      rw [h.blocks] at hget
      exact ⟨hsorted.1 entry hentry, by simpa using Option.isSome_of_eq_some hget⟩
    · rintro ⟨hlt, hsome⟩
      obtain ⟨b, hb⟩ := Option.isSome_iff_exists.mp hsome
      have hget := h.blocks slot
      rw [hb] at hget
      rcases List.mem_cons.mp ((hentries (slot, b.value)).mpr ⟨hget, hlt.le⟩) with heq | hmem
      · exact absurd (congrArg Prod.fst heq) hlt.ne'
      · exact List.mem_map_of_mem (f := Prod.fst) hmem
  have hdeletes : (toRemove.reverse.map fun entry => (entry.1, (none : Option β))) =
      (toRemove.reverse.map Prod.fst).map fun slot => (slot, none) := by simp
  have hmem : slot ∈ toRemove.reverse.map Prod.fst ↔ slot ∈ toRemove.map Prod.fst := by
    rw [List.map_reverse, List.mem_reverse]
  rw [hdeletes, SortedMap.applyWrites_deletes, SortedMap.get_restrict,
    blockIn_of_split (hsplit ▸ h.ordered) hnewer, ← hsplit]
  simp only [hmem, hkeys, decide_eq_true_eq]
  by_cases hle : slot ≤ block.slot
  · rw [if_pos (fun hgt => absurd hgt.1 (by omega)), if_pos hle, htable]
  · by_cases hsome : (blockIn server.adopted slot).isSome
    · rw [if_neg (not_not.mpr ⟨by omega, hsome⟩), if_neg hle]
      rfl
    · have hnone := htable slot
      rw [Option.not_isSome_iff_eq_none.mp hsome, Option.map_none] at hnone
      rw [if_pos (fun hgt => hsome hgt.2), if_neg hle, hnone]
      rfl

theorem rollback (h : HoldsChain P server) {slot : ℕ} {hash : BlockHash}
    (hstage : ChainDB.stageRollback P server.chainDB slot hash isMutable = .ok chainDB) :
    HoldsChain P ⟨chainDB, cutBack server.adopted slot hash⟩ := by
  obtain ⟨height, bytes, toRemove, state, hfrom, hrun, rfl⟩ :=
    ChainDB.stageRollback_eq_ok.mp hstage
  obtain ⟨newer, block, older, hsplit, hentry, hnewer, hcut⟩ := h.exists_split hfrom
  obtain ⟨rfl, hvalue⟩ := Prod.mk.inj hentry
  have hundone := ChainDB.undone_of_run hrun
  have hsuffix : block :: older <:+ server.adopted := ⟨newer, hsplit.symm⟩
  have hhash : block.hash = hash := congrArg (fun value => value.2.1) hvalue
  rw [hcut]
  refine ⟨fun b hb => h.decoded b (hsuffix.subset hb), h.ordered.sublist hsuffix.sublist,
    h.linked.suffix hsuffix, fun slot => ?_, fun slot => ?_, ?_⟩
  · have hget := h.get_deleted hsplit hnewer hfrom (f := id) (g := StoredBlock.value)
      (by simpa using h.blocks) slot
    simpa [ChainDB.rolledBack, hundone.blocks] using hget
  · simpa [ChainDB.rolledBack, hundone.resolvers] using
      h.get_deleted hsplit hnewer hfrom h.resolvers slot
  · simp [ChainDB.rolledBack, hhash]

theorem rollbackToOrigin (h : HoldsChain P server)
    (hstage : ChainDB.stageRollbackToOrigin P server.chainDB isMutable = .ok chainDB) :
    HoldsChain P ⟨chainDB, []⟩ := by
  obtain ⟨state, hrun, rfl⟩ := ChainDB.stageRollbackToOrigin_eq_ok.mp hstage
  have hundone := ChainDB.undone_of_run hrun
  -- every slot with an entry is among the deleted ones
  have hdeleted : ∀ {β : Type} (table : SortedMap ℕ β) (slot : ℕ),
      (table.get slot).isSome = (blockIn server.adopted slot).isSome →
      (table.applyWrites (server.chainDB.db.blockBySlotKV.entries.reverse.map
        fun entry => (entry.1, none))).get slot = none := by
    intro β table slot hsome
    have hdeletes : (server.chainDB.db.blockBySlotKV.entries.reverse.map
        fun entry => (entry.1, (none : Option β))) =
        (server.chainDB.db.blockBySlotKV.entries.map Prod.fst).reverse.map
          fun slot => (slot, none) := by simp
    have hmem : slot ∈ server.chainDB.db.blockBySlotKV.entries.map Prod.fst ↔
        (blockIn server.adopted slot).isSome := by
      rw [← SortedMap.get_isSome_iff, h.blocks, Option.isSome_map]
    rw [hdeletes, SortedMap.applyWrites_deletes, SortedMap.get_restrict]
    simp only [List.mem_reverse, hmem, ← hsome, decide_eq_true_eq]
    cases table.get slot <;> simp
  refine ⟨by simp, List.Pairwise.nil, List.IsChain.nil, fun slot => ?_, fun slot => ?_, rfl⟩
  · simp only [ChainDB.rolledBack, hundone.blocks]
    exact hdeleted _ slot (by rw [h.blocks, Option.isSome_map])
  · simp only [ChainDB.rolledBack, hundone.resolvers]
    rw [hdeleted _ slot]
    · rfl
    · have hresolvers := congrArg Option.isSome (h.resolvers slot)
      simpa using hresolvers

theorem start (h : HoldsChain P server)
    (hstage : ChainDB.stageStart P server.chainDB genesis = .ok chainDB) :
    HoldsChain P ⟨chainDB, server.adopted⟩ := by
  obtain ⟨kvs, -, rfl⟩ := ChainDB.stageStart_eq_ok.mp hstage
  refine ⟨h.decoded, h.ordered, h.linked, h.blocks, h.resolvers, ?_⟩
  simp only [ChainDB.open, h.getLast?_blocks, Option.map_map]
  rfl

theorem step (h : HoldsChain P server) (horder : server.inSlotOrder P command = true)
    (hstep : server.step P genesis command = .ok server') : HoldsChain P server' := by
  obtain ⟨chainDB, hchainDB, rfl⟩ := Server.step_eq_ok.mp hstep
  cases command with
  | start => exact h.start hchainDB
  | apply bytes isMutable =>
    obtain ⟨block, resolver, hdecode, hprevious, -, rfl⟩ :=
      ChainDB.stageApply_eq_ok.mp hchainDB
    simp only [Server.inSlotOrder, Server.incoming, hdecode, Except.toOption, Option.all_some,
      Option.all_eq_true, decide_eq_true_eq] at horder
    simp only [adopt, hdecode]
    exact h.apply hdecode hprevious horder
  | rollback slot hash isMutable => exact h.rollback hchainDB
  | rollbackToOrigin isMutable => exact h.rollbackToOrigin hchainDB

end HoldsChain

theorem holdsChain_run {immutableAfterSlots : Option ℕ} {commands : List Command}
    {server : Server}
    (hordered : Run.meets (Server.step P genesis) (Server.inSlotOrder P)
      (.empty immutableAfterSlots) commands = true)
    (hrun : Run.run (Server.step P genesis) (.empty immutableAfterSlots) commands = .ok server) :
    HoldsChain P server :=
  Run.invariant_of_meets (I := fun _ => HoldsChain P) (HoldsChain.empty P immutableAfterSlots)
    (fun _ _ _ _ _ h horder hstep => h.step horder hstep) hordered hrun

/-! ## Reading the chain from the tables -/

structure ReadsAsChain (P : Pallas) (server : Server) : Prop where
  linked : server.chainDB.db.blockBySlotKV.entries.IsChain fun older newer =>
    ∃ block, P.decode newer.2.2.2 = .ok block ∧ block.previousHash = some older.2.2.1
  complete : server.chainDB.db.blockBySlotKV.entries.Perm
    (server.adopted.map StoredBlock.entry)
  endsInLast : server.chainDB.db.blockBySlotKV.entries.getLast?.map (fun entry => entry.2.2.1) =
    server.chainDB.lastBlockHash
  resolvers : server.chainDB.db.resolverBySlotKV.entries.map (fun entry => (entry.1, entry.2.1)) =
    server.chainDB.db.blockBySlotKV.entries.map fun entry => (entry.1, entry.2.2.1)

def distinctSlots (chain : List StoredBlock) : Bool :=
  (chain.map fun block => block.slot).Nodup

theorem HoldsChain.entries_eq {server : Server} (h : HoldsChain P server)
    (hdistinct : distinctSlots server.adopted = true) :
    server.chainDB.db.blockBySlotKV.entries = (server.adopted.map StoredBlock.entry).reverse := by
  have hnodup : (server.adopted.map fun block => block.slot).Nodup := by
    simpa [distinctSlots] using hdistinct
  have hstrict : (server.adopted.map StoredBlock.entry).reverse.Pairwise
      fun a b => a.1 < b.1 := by
    rw [List.pairwise_reverse, List.pairwise_map]
    rw [List.Nodup, List.pairwise_map] at hnodup
    exact (h.ordered.and hnodup).imp fun ⟨hle, hne⟩ => lt_of_le_of_ne hle (Ne.symm hne)
  apply SortedMap.entries_eq_of_mem_iff (SortedMap.sorted _) hstrict
  rintro ⟨slot, value⟩
  rw [← SortedMap.get_eq_some_iff, h.blocks, List.mem_reverse, List.mem_map,
    Option.map_eq_some_iff]
  constructor
  · rintro ⟨block, hblock, rfl⟩
    obtain ⟨hmem, rfl⟩ := mem_of_blockIn hblock
    exact ⟨block, hmem, rfl⟩
  · rintro ⟨block, hmem, hentry⟩
    obtain ⟨rfl, rfl⟩ := Prod.mk.inj hentry
    refine ⟨block, ?_, rfl⟩
    obtain ⟨found, hfound⟩ := Option.isSome_iff_exists.mp
      (List.find?_isSome.mpr ⟨block, hmem, by simp⟩ :
        (blockIn server.adopted block.slot).isSome)
    change blockIn server.adopted block.slot = some found at hfound
    obtain ⟨hmemFound, hslot⟩ := mem_of_blockIn hfound
    rw [hfound, List.inj_on_of_nodup_map hnodup hmemFound hmem hslot]

theorem HoldsChain.readsAsChain {server : Server} (h : HoldsChain P server)
    (hdistinct : distinctSlots server.adopted = true) : ReadsAsChain P server := by
  have hentries := h.entries_eq hdistinct
  refine ⟨?_, ?_, ?_, ?_⟩
  · rw [hentries, List.isChain_reverse, List.isChain_map]
    have hdecoded : server.adopted.IsChain fun newer older =>
        newer.previousHash = some older.hash ∧ P.decode newer.bytes = .ok newer.toBlock :=
      h.linked.imp_of_mem_imp fun newer older hnewer _ hlink => ⟨hlink, h.decoded newer hnewer⟩
    exact hdecoded.imp fun newer older hlink => ⟨newer.toBlock, hlink.2, hlink.1⟩
  · rw [hentries]
    exact List.reverse_perm _
  · rw [h.getLast?_blocks, h.last, Option.map_map]
    rfl
  · have hstrict : (server.chainDB.db.resolverBySlotKV.mapVal Prod.fst) =
        (server.chainDB.db.blockBySlotKV.mapVal fun value => value.2.1) := by
      apply SortedMap.ext_get
      intro slot
      rw [SortedMap.get_mapVal, SortedMap.get_mapVal, h.resolvers, h.blocks, Option.map_map]
      rfl
    exact congrArg SortedMap.entries hstrict

theorem ReadsAsChain.distinctSlots {server : Server} (h : ReadsAsChain P server) :
    distinctSlots server.adopted = true := by
  have hnodup : (server.chainDB.db.blockBySlotKV.entries.map Prod.fst).Nodup := by
    rw [List.Nodup, List.pairwise_map]
    exact (SortedMap.sorted _).imp fun hlt => hlt.ne
  have hperm := (h.complete.map Prod.fst).nodup_iff.mp hnodup
  rw [List.map_map] at hperm
  simpa [Compressor.distinctSlots, Function.comp_def, StoredBlock.entry] using hperm

/-- The tables read as the adopted chain exactly if no two of its blocks share a slot. -/
theorem readsAsChain_iff_distinctSlots {immutableAfterSlots : Option ℕ}
    {commands : List Command} {server : Server}
    (hordered : Run.meets (Server.step P genesis) (Server.inSlotOrder P)
      (.empty immutableAfterSlots) commands = true)
    (hrun : Run.run (Server.step P genesis) (.empty immutableAfterSlots) commands = .ok server) :
    ReadsAsChain P server ↔ distinctSlots server.adopted = true :=
  ⟨fun h => h.distinctSlots, (holdsChain_run hordered hrun).readsAsChain⟩

def forkBlocks : List StoredBlock :=
  [sampleBlock 10 1 none [], sampleBlock 20 2 (some 1) [], sampleBlock 25 3 (some 1) []]

def forkCommands : List Command :=
  [.start, .apply [1] true, .apply [2] true, .rollback 10 (sampleHash 1) true, .apply [3] true]

theorem readsAsChain_iff_distinctSlots_fork :
    ∃ server, Run.run (Server.step (samplePallas forkBlocks) []) (.empty none) forkCommands =
        .ok server ∧
      server.adopted.map (fun block => block.slot) = [25, 10] ∧
      ReadsAsChain (samplePallas forkBlocks) server :=
  ⟨_, Except.eq_ok_get (by decide +kernel), by decide +kernel,
    (readsAsChain_iff_distinctSlots (by decide +kernel) (Except.eq_ok_get _)).mpr
      (by decide +kernel)⟩

def boundaryBlocks : List StoredBlock :=
  [sampleBlock 0 1 none [], sampleBlock 0 2 (some 1) []]

/-- The block behind an epoch boundary block takes its slot in the table. -/
theorem boundary_block_is_overwritten :
    ∃ server,
      Run.run (Server.step (samplePallas boundaryBlocks) []) (.empty none)
        [.start, .apply [1] false, .apply [2] false] = .ok server ∧
      server.adopted = boundaryBlocks.reverse ∧
      server.chainDB.db.blockBySlotKV.entries = [(0, 2, sampleHash 2, [2])] ∧
      ¬ ReadsAsChain (samplePallas boundaryBlocks) server :=
  ⟨_, Except.eq_ok_get (by decide +kernel), by decide +kernel, by decide +kernel,
    fun hreads => absurd hreads.complete.length_eq (by decide +kernel)⟩

end CardanoIndexer.Compressor
