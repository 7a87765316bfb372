import CardanoIndexer.Compressor.Adopted
import CardanoIndexer.Compressor.Grpc
import CardanoIndexer.Compressor.Utxo

/-!
# Paging through the chain

A client that asks for page after page walks along the block table.
-/

namespace CardanoIndexer.Compressor

variable {P : Pallas} {genesis : List GenesisUtxo} {cursor : Option BlockRef} {server : Server}
  {maxItems : ℕ} {db : Tables}

/-! ## Two tables in parallel -/

def blockKey (entry : ℕ × BlockValue) : ℕ × BlockHash := (entry.1, entry.2.2.1)

def resolverKey (entry : ℕ × BlockHash × ResolverValue) : ℕ × BlockHash := (entry.1, entry.2.1)

def blockRef (entry : ℕ × BlockValue) : BlockRef := ⟨entry.1, entry.2.2.1⟩

theorem map_blockKey_entries (h : HoldsChain P server) :
    server.chainDB.db.blockBySlotKV.entries.map blockKey =
      server.chainDB.db.resolverBySlotKV.entries.map resolverKey := by
  have heq : server.chainDB.db.blockBySlotKV.mapVal (fun value => value.2.1) =
      server.chainDB.db.resolverBySlotKV.mapVal Prod.fst := by
    apply SortedMap.ext_get
    intro slot
    rw [SortedMap.get_mapVal, SortedMap.get_mapVal, h.blocks, h.resolvers, Option.map_map]
    rfl
  exact congrArg SortedMap.entries heq

theorem map_blockKey_entriesFrom (h : HoldsChain P server) (slot : ℕ) :
    (server.chainDB.db.blockBySlotKV.entriesFrom slot).map blockKey =
      (server.chainDB.db.resolverBySlotKV.entriesFrom slot).map resolverKey := by
  have hfilter := congrArg (List.filter fun key => slot ≤ key.1) (map_blockKey_entries h)
  rw [List.filter_map, List.filter_map] at hfilter
  exact hfilter

theorem intersectBlocks_some {cursor : BlockRef} {behind : List (ℕ × BlockValue)} :
    intersectBlocks db (some cursor) = .ok behind ↔
      ∃ entry, blockRef entry = cursor ∧
        db.blockBySlotKV.entriesFrom cursor.slot = entry :: behind := by
  unfold intersectBlocks
  simp only
  split
  case h_1 hnil => simp [hnil]
  case h_2 foundSlot height foundHash bytes rest hentries =>
    rw [hentries]
    constructor
    · intro h
      split at h
      · cases h
      · split at h
        · cases h
        case isFalse hslot hhash =>
          cases h
          rw [not_ne_iff] at hslot hhash
          exact ⟨_, by rw [blockRef, hslot, hhash], rfl⟩
    · rintro ⟨entry, rfl, heq⟩
      obtain ⟨rfl, rfl⟩ := List.cons.inj heq
      simp [blockRef]

theorem intersect_of_holdsChain (h : HoldsChain P server) {behind : List (ℕ × BlockValue)}
    (hbehind : intersectBlocks server.chainDB.db cursor = .ok behind) :
    behind.map blockKey = (intersectResolvers server.chainDB.db cursor).map resolverKey ∧
      behind <:+ server.chainDB.db.blockBySlotKV.entries := by
  have hsuffix := SortedMap.entries_eq_append_entriesFrom server.chainDB.db.blockBySlotKV
  cases cursor with
  | none =>
    cases hbehind
    exact ⟨map_blockKey_entriesFrom h 0, ⟨_, (hsuffix 0).symm⟩⟩
  | some cursor =>
    obtain ⟨entry, -, hentries⟩ := intersectBlocks_some.mp hbehind
    constructor
    · rw [intersectResolvers, List.map_drop, ← map_blockKey_entriesFrom h, hentries]
      rfl
    · have hfrom : entry :: behind <:+ server.chainDB.db.blockBySlotKV.entries :=
        hentries ▸ ⟨_, (hsuffix cursor.slot).symm⟩
      exact (List.suffix_cons entry behind).trans hfrom

theorem intersectResolvers_subset (db : Tables) (cursor : Option BlockRef) :
    intersectResolvers db cursor ⊆ db.resolverBySlotKV.entries := by
  intro entry hentry
  cases cursor with
  | none => exact (SortedMap.mem_entriesFrom.mp hentry).1
  | some cursor => exact (SortedMap.mem_entriesFrom.mp (List.mem_of_mem_drop hentry)).1

/-! ## One page -/

def servedBlock (db : Tables) (entry : ℕ × BlockValue) : BlockWithContext where
  ref := blockRef entry
  raw := entry.2.2.2
  txoResolver := ((db.resolverBySlotKV.get entry.1).elim [] Prod.snd).map fun output =>
    toResolvedTxo (output.1, output.2.1)

theorem zipPage_eq (db : Tables) {blocks : List (ℕ × BlockValue)}
    {resolvers : List (ℕ × BlockHash × ResolverValue)}
    (hkeys : blocks.map blockKey = resolvers.map resolverKey)
    (hstored : resolvers ⊆ db.resolverBySlotKV.entries) :
    zipPage blocks resolvers = .ok (blocks.map (servedBlock db)) := by
  have hlength : blocks.length = resolvers.length := by
    simpa using congrArg List.length hkeys
  rw [zipPage, if_neg (not_not.mpr hlength)]
  clear hlength
  induction blocks generalizing resolvers with
  | nil =>
    rw [List.map_nil, eq_comm, List.map_eq_nil_iff] at hkeys
    rw [hkeys]
    rfl
  | cons entry blocks ih =>
    cases resolvers with
    | nil => cases hkeys
    | cons resolver resolvers =>
      rw [List.map_cons, List.map_cons] at hkeys
      obtain ⟨hkey, hrest⟩ := List.cons.inj hkeys
      have hpair : pairWithContext (entry, resolver) = .ok (servedBlock db entry) := by
        have hget := (SortedMap.get_eq_some_iff _).mpr (hstored (List.mem_cons_self ..))
        obtain ⟨slot, height, hash, bytes⟩ := entry
        obtain ⟨slot', hash', outputs⟩ := resolver
        obtain ⟨rfl, rfl⟩ := Prod.mk.inj hkey
        simp [pairWithContext, servedBlock, blockRef, hget]
      refine Except.mapM_cons_eq_ok.mpr ⟨_, _, hpair, ih hrest fun r hr => ?_, rfl⟩
      exact hstored (List.mem_cons_of_mem _ hr)

def pageOf (db : Tables) (behind : List (ℕ × BlockValue)) (maxItems : ℕ) :
    PageBlocksWithCtxResponse where
  blocks := (behind.take maxItems).map (servedBlock db)
  nextCursor :=
    if maxItems < behind.length then (behind.take maxItems).getLast?.map blockRef else none
  chainTip := db.blockBySlotKV.entries.getLast?.map blockRef

theorem pageBlocksWithContext_eq (h : HoldsChain P server) {behind : List (ℕ × BlockValue)}
    (hitems : 1 ≤ maxItems) (hbehind : intersectBlocks server.chainDB.db cursor = .ok behind) :
    pageBlocksWithContext server.chainDB.db cursor maxItems =
      .ok (pageOf server.chainDB.db behind maxItems) := by
  have hkeys : (behind.take maxItems).map blockKey =
      ((intersectResolvers server.chainDB.db cursor).take maxItems).map resolverKey := by
    rw [List.map_take, List.map_take, (intersect_of_holdsChain h hbehind).1]
  have hpage := zipPage_eq server.chainDB.db hkeys (List.Subset.trans
    (List.take_subset ..) (intersectResolvers_subset ..))
  simp only [pageBlocksWithContext, if_neg (show ¬ maxItems < 1 by omega), hbehind,
    Except.ok_bind, hpage]
  rfl

theorem exists_intersectBlocks {page : PageBlocksWithCtxResponse}
    (h : pageBlocksWithContext db cursor maxItems = .ok page) :
    1 ≤ maxItems ∧ ∃ behind, intersectBlocks db cursor = .ok behind := by
  unfold pageBlocksWithContext at h
  split at h
  case isTrue => cases h
  case isFalse hitems =>
    obtain ⟨behind, hbehind, -⟩ := Except.bind_eq_ok.mp h
    exact ⟨by omega, behind, hbehind⟩

theorem HoldsChain.exists_block_of_entry (h : HoldsChain P server) {entry : ℕ × BlockValue}
    (hentry : entry ∈ server.chainDB.db.blockBySlotKV.entries) :
    ∃ block resolver, blockIn server.adopted block.slot = some block ∧ block.entry = entry ∧
      server.chainDB.db.resolverBySlotKV.get block.slot = some (block.hash, resolver) ∧
      servedBlock server.chainDB.db entry = ⟨⟨block.slot, block.hash⟩, block.bytes,
        resolver.map fun output => toResolvedTxo (output.1, output.2.1)⟩ := by
  have hget := h.blocks entry.1
  rw [(SortedMap.get_eq_some_iff _).mpr hentry, eq_comm, Option.map_eq_some_iff] at hget
  obtain ⟨block, hblock, hvalue⟩ := hget
  obtain ⟨-, hslot⟩ := mem_of_blockIn hblock
  have hresolver := h.resolvers block.slot
  rw [hslot, hblock, Option.map_some, Option.map_eq_some_iff] at hresolver
  obtain ⟨⟨hash, resolver⟩, hresolver, rfl⟩ := hresolver
  obtain ⟨slot, value⟩ := entry
  obtain rfl : block.slot = slot := hslot
  obtain rfl : block.value = value := hvalue
  refine ⟨block, resolver, hblock, rfl, hresolver, ?_⟩
  simp [servedBlock, blockRef, StoredBlock.value, hresolver]

theorem HoldsChain.intersectBlocks_notFound (h : HoldsChain P server) {cursor : BlockRef}
    (hnot : ∀ block ∈ server.adopted, block.isAt cursor.slot cursor.hash = false) :
    ∃ text, intersectBlocks server.chainDB.db (some cursor) = .error (.notFound text) := by
  cases hbehind : intersectBlocks server.chainDB.db (some cursor) with
  | ok behind =>
    obtain ⟨entry, href, hentries⟩ := intersectBlocks_some.mp hbehind
    have hentry : entry ∈ server.chainDB.db.blockBySlotKV.entries :=
      (SortedMap.mem_entriesFrom.mp (hentries ▸ List.mem_cons_self ..)).1
    obtain ⟨block, resolver, hblock, rfl, -⟩ := h.exists_block_of_entry hentry
    have hat := hnot block (mem_of_blockIn hblock).1
    rw [← href] at hat
    simp [StoredBlock.isAt, blockRef, StoredBlock.entry, StoredBlock.value] at hat
  | error status =>
    unfold intersectBlocks at hbehind
    simp only at hbehind
    split at hbehind
    · cases hbehind
      exact ⟨_, rfl⟩
    · split at hbehind
      · cases hbehind
        exact ⟨_, rfl⟩
      · split at hbehind
        · cases hbehind
          exact ⟨_, rfl⟩
        · cases hbehind

/-! ## Page after page -/

def lastReceived (cursor : Option BlockRef) (page : PageBlocksWithCtxResponse) : Option BlockRef :=
  page.blocks.getLast?.elim cursor fun last => some last.ref

def pageThrough (db : Tables) :
    Option BlockRef → List ℕ → Except Status (List PageBlocksWithCtxResponse)
  | _, [] => .ok []
  | cursor, maxItems :: sizes => do
    let page ← pageBlocksWithContext db cursor maxItems
    let rest ← pageThrough db (lastReceived cursor page) sizes
    return page :: rest

theorem intersectBlocks_lastReceived (h : HoldsChain P server) {behind : List (ℕ × BlockValue)}
    (hbehind : intersectBlocks server.chainDB.db cursor = .ok behind) (maxItems : ℕ) :
    intersectBlocks server.chainDB.db
        (lastReceived cursor (pageOf server.chainDB.db behind maxItems)) =
      .ok (behind.drop maxItems) := by
  obtain ⟨before, hbefore⟩ := (intersect_of_holdsChain h hbehind).2
  cases hlast : (behind.take maxItems).getLast? with
  | none =>
    rw [List.getLast?_eq_none_iff] at hlast
    have hdrop : behind.drop maxItems = behind := by
      have hjoin := List.take_append_drop maxItems behind
      rwa [hlast, List.nil_append] at hjoin
    rw [lastReceived, pageOf, hlast, hdrop]
    exact hbehind
  | some last =>
    obtain ⟨init, hinit⟩ := List.getLast?_eq_some_iff.mp hlast
    rw [lastReceived, pageOf, List.getLast?_map, hlast]
    refine intersectBlocks_some.mpr ⟨last, rfl, ?_⟩
    -- the table is what was received, the last block, and the rest
    have hentries : server.chainDB.db.blockBySlotKV.entries =
        (before ++ init) ++ last :: behind.drop maxItems := by
      rw [← hbefore, List.append_assoc, List.append_cons init, ← hinit, List.take_append_drop]
    exact SortedMap.entriesFrom_of_split hentries

theorem exists_pageThrough (h : HoldsChain P server) {sizes : List ℕ} (hsizes : ∀ n ∈ sizes, 1 ≤ n)
    {behind : List (ℕ × BlockValue)}
    (hbehind : intersectBlocks server.chainDB.db cursor = .ok behind) :
    ∃ responses, pageThrough server.chainDB.db cursor sizes = .ok responses ∧
      responses.flatMap PageBlocksWithCtxResponse.blocks =
        (behind.take sizes.sum).map (servedBlock server.chainDB.db) ∧
      ∀ before response after, responses = before ++ response :: after →
        response.nextCursor =
          if ((before ++ [response]).flatMap PageBlocksWithCtxResponse.blocks).length <
            behind.length then response.blocks.getLast?.map BlockWithContext.ref else none := by
  induction sizes generalizing cursor behind with
  | nil => exact ⟨[], rfl, by simp, by simp⟩
  | cons maxItems sizes ih =>
    obtain ⟨hitems, hrest⟩ := List.forall_mem_cons.mp hsizes
    have hpage := pageBlocksWithContext_eq h hitems hbehind
    obtain ⟨responses, hresponses, hblocks, hcursors⟩ :=
      ih hrest (intersectBlocks_lastReceived h hbehind maxItems)
    refine ⟨pageOf server.chainDB.db behind maxItems :: responses, by
      rw [pageThrough, hpage, Except.ok_bind, hresponses]
      rfl, ?_, ?_⟩
    · rw [List.flatMap_cons, hblocks, List.sum_cons, List.take_add, List.map_append]
      rfl
    · have hlength : (pageOf server.chainDB.db behind maxItems).blocks.length =
          min maxItems behind.length := by
        rw [pageOf, List.length_map, List.length_take]
      intro before response after hsplit
      cases before with
      | nil =>
        obtain ⟨rfl, -⟩ := List.cons.inj hsplit
        have hlt : (pageOf server.chainDB.db behind maxItems).blocks.length <
            behind.length ↔ maxItems < behind.length := by
          rw [hlength]
          omega
        simp only [List.nil_append, List.flatMap_singleton, hlt]
        rw [pageOf, List.getLast?_map, Option.map_map]
        rfl
      | cons first before =>
        obtain ⟨rfl, hafter⟩ := List.cons.inj hsplit
        rw [hcursors before response after hafter, List.cons_append, List.flatMap_cons,
          List.length_append, hlength, List.length_drop]
        congr 1
        rw [eq_iff_iff]
        omega

def ServedAs (db : Tables) (block : StoredBlock) (served : BlockWithContext) : Prop :=
  ∃ resolver, db.resolverBySlotKV.get block.slot = some (block.hash, resolver) ∧
    served = ⟨⟨block.slot, block.hash⟩, block.bytes,
      resolver.map fun output => toResolvedTxo (output.1, output.2.1)⟩

/-- **Paging enumerates the chain**, each block with its resolver, as long as no two share a slot.
-/
theorem paging_enumerates_chain {immutableAfterSlots : Option ℕ} {commands : List Command}
    {server : Server}
    (hordered : Run.meets (Server.step P genesis) (Server.inSlotOrder P)
      (.empty immutableAfterSlots) commands = true)
    (hrun : Run.run (Server.step P genesis) (.empty immutableAfterSlots) commands = .ok server)
    (hdistinct : distinctSlots server.adopted = true) :
    (∀ sizes : List ℕ, (∀ n ∈ sizes, 1 ≤ n) → ∃ responses,
      pageThrough server.chainDB.db none sizes = .ok responses ∧
      List.Forall₂ (ServedAs server.chainDB.db) (server.adopted.reverse.take sizes.sum)
        (responses.flatMap PageBlocksWithCtxResponse.blocks) ∧
      ∀ before response after, responses = before ++ response :: after →
        response.nextCursor =
          if ((before ++ [response]).flatMap PageBlocksWithCtxResponse.blocks).length <
            server.adopted.length then response.blocks.getLast?.map BlockWithContext.ref
          else none) ∧
    ∀ (cursor : BlockRef) (maxItems : ℕ), 1 ≤ maxItems →
      (∀ block ∈ server.adopted, block.isAt cursor.slot cursor.hash = false) →
      ∃ text, pageBlocksWithContext server.chainDB.db (some cursor) maxItems =
        .error (.notFound text) := by
  have hholds := holdsChain_run hordered hrun
  have hentries := hholds.entries_eq hdistinct
  refine ⟨fun sizes hsizes => ?_, fun cursor maxItems hitems hnot => ?_⟩
  · have hall : intersectBlocks server.chainDB.db none =
        .ok (server.adopted.map StoredBlock.entry).reverse := by
      rw [← hentries, intersectBlocks, SortedMap.entriesFrom, List.filter_eq_self.mpr (by simp)]
    obtain ⟨responses, hresponses, hblocks, hcursors⟩ := exists_pageThrough hholds hsizes hall
    refine ⟨responses, hresponses, ?_, by simpa using hcursors⟩
    rw [hblocks, ← List.map_reverse, ← List.map_take, List.map_map,
      List.forall₂_map_right_iff, List.forall₂_same]
    intro block hblock
    have hmem : block.entry ∈ server.chainDB.db.blockBySlotKV.entries := by
      rw [hentries, List.mem_reverse]
      exact List.mem_map_of_mem (List.mem_reverse.mp (List.mem_of_mem_take hblock))
    obtain ⟨found, resolver, -, hentry, hresolver, hserved⟩ := hholds.exists_block_of_entry hmem
    obtain ⟨hslot, hvalue⟩ := Prod.mk.inj hentry
    obtain ⟨-, hpair⟩ := Prod.mk.inj hvalue
    obtain ⟨hhash, hbytes⟩ := Prod.mk.inj hpair
    rw [hslot, hhash] at hresolver
    rw [hslot, hhash, hbytes] at hserved
    exact ⟨resolver, hresolver, hserved⟩
  · obtain ⟨text, htext⟩ := hholds.intersectBlocks_notFound hnot
    refine ⟨text, ?_⟩
    rw [pageBlocksWithContext, if_neg (by omega), htext]
    rfl

theorem paging_enumerates_chain_fork :
    ∃ server responses,
      Run.run (Server.step (samplePallas forkBlocks) []) (.empty none) forkCommands =
        .ok server ∧
      pageThrough server.chainDB.db none [1, 3] = .ok responses ∧
      List.Forall₂ (ServedAs server.chainDB.db)
        [sampleBlock 10 1 none [], sampleBlock 25 3 (some 1) []]
        (responses.flatMap PageBlocksWithCtxResponse.blocks) := by
  have hrun : Run.run (Server.step (samplePallas forkBlocks) []) (.empty none) forkCommands = .ok _ :=
    Except.eq_ok_get (by decide +kernel)
  obtain ⟨responses, hresponses, hserved, -⟩ :=
    (paging_enumerates_chain (by decide +kernel) hrun (by decide +kernel)).1 [1, 3] (by decide)
  exact ⟨_, responses, hrun, hresponses, hserved⟩

/-- Blocks are accepted by hash alone; one in an earlier slot is served before its predecessor. -/
theorem decreasing_slots_page_out_of_order :
    ∃ server page,
      Run.run (Server.step (samplePallas decreasingBlocks) []) (.empty none)
        [.start, .apply [1] false, .apply [2] false] = .ok server ∧
      distinctSlots server.adopted = true ∧
      server.adopted.reverse.map (fun block => block.hash) = [sampleHash 1, sampleHash 2] ∧
      pageBlocksWithContext server.chainDB.db none 2 = .ok page ∧
      page.blocks.map (fun block => block.ref.hash) = [sampleHash 2, sampleHash 1] :=
  ⟨_, _, Except.eq_ok_get (by decide +kernel), by decide +kernel, by decide +kernel,
    Except.eq_ok_get (by decide +kernel), by decide +kernel⟩

end CardanoIndexer.Compressor
