import CardanoIndexer.Compressor.Paging
import CardanoIndexer.Compressor.Wal
import CardanoIndexer.Polyphony.Source

/-!
# Blocks and the outputs they require

A context goes from the output table through the resolver table or the log and over the wire, with
indices cut to 32 bits, into a map keyed by text.
-/

namespace CardanoIndexer.Pipeline

open Compressor Spending
open Polyphony (BlockContext EnrichedBlockPayload insertResolved buildContext processAction
  outputRefText outputRefText_injective)

variable {P : Pallas} {genesis : List GenesisUtxo} {chain : List StoredBlock} {ref : TxoRef}
  {past : List (Transfer TxoRef TxoBody)} {start : SortedMap TxoRef TxoBody} {server : Server}
  {tx : Tx}

def storedOutput (P : Pallas) (body : TxoBody) : Option (ℕ × Era × Bytes) :=
  (P.eraOfU16 (body.era % 2 ^ 16)).map fun era => (body.slot, era, body.raw)

theorem storedOutput_eraToU16 (slot : ℕ) (era : Era) (raw : Bytes) :
    storedOutput P ⟨slot, P.eraToU16 era, raw⟩ = some (slot, era, raw) := by
  rw [storedOutput, Nat.mod_eq_of_lt (P.eraToU16_lt era), P.eraOfU16_eraToU16, Option.map_some]

theorem insertResolved_of_storedOutput {ctx : BlockContext} {body : TxoBody}
    {output : ℕ × Era × Bytes} (hindex : ref.index < 2 ^ 32)
    (houtput : storedOutput P body = some output) :
    insertResolved P ctx (toResolvedTxo (ref, body)) =
      .ok ⟨ctx.utxos.put (outputRefText ref) output⟩ := by
  obtain ⟨era, hera, rfl⟩ := Option.map_eq_some_iff.mp houtput
  simp only [insertResolved, toResolvedTxo, hera, Nat.mod_eq_of_lt hindex]
  rfl

theorem exists_buildContext {outs : List (TxoRef × TxoBody)}
    (hnodup : (outs.map Prod.fst).Nodup) (hindex : ∀ out ∈ outs, out.1.index < 2 ^ 32)
    (houtput : ∀ out ∈ outs, (storedOutput P out.2).isSome) :
    ∃ ctx, buildContext P (outs.map toResolvedTxo) = .ok ctx ∧
      ∀ key output, ctx.utxos.get key = some output ↔
        ∃ out ∈ outs, outputRefText out.1 = key ∧ storedOutput P out.2 = some output := by
  induction outs using List.reverseRecOn with
  | nil => exact ⟨.new, rfl, by simp [BlockContext.new]⟩
  | append_singleton outs last ih =>
    rw [List.map_append, List.nodup_append] at hnodup
    obtain ⟨ctx, hctx, hget⟩ := ih hnodup.1
      (fun out hout => hindex out (List.mem_append_left _ hout))
      fun out hout => houtput out (List.mem_append_left _ hout)
    obtain ⟨output, hlast⟩ := Option.isSome_iff_exists.mp (houtput last (by simp))
    refine ⟨⟨ctx.utxos.put (outputRefText last.1) output⟩, ?_, fun key value => ?_⟩
    · rw [buildContext, List.map_append, List.foldlM_append]
      change (buildContext P (outs.map toResolvedTxo) >>= fun ctx =>
        [toResolvedTxo last].foldlM (insertResolved P) ctx) = _
      rw [hctx]
      change (insertResolved P ctx (toResolvedTxo last) >>= pure) = _
      rw [insertResolved_of_storedOutput (hindex last (by simp)) hlast]
      rfl
    · rw [SortedMap.get_put]
      split
      case isTrue hkey =>
        constructor
        · rintro heq
          exact ⟨last, by simp, hkey.symm, by rw [hlast, heq]⟩
        · rintro ⟨out, hout, htext, hvalue⟩
          -- no earlier output has the key of the last one
          have heq : out = last := by
            rcases List.mem_append.mp hout with hout | hout
            · have href := outputRefText_injective (htext.trans hkey)
              exact absurd href (hnodup.2.2 _ (List.mem_map_of_mem hout) _ (by simp))
            · simpa using hout
          rw [← hlast, ← heq, hvalue]
      case isFalse hkey =>
        rw [hget]
        constructor
        · rintro ⟨out, hout, hrest⟩
          exact ⟨out, List.mem_append_left _ hout, hrest⟩
        · rintro ⟨out, hout, htext, hvalue⟩
          rcases List.mem_append.mp hout with hout | hout
          · exact ⟨out, hout, htext, hvalue⟩
          · obtain rfl : out = last := by simpa using hout
            exact absurd htext.symm hkey

/-! ## What a reference stands for -/

def Produced (P : Pallas) (genesis : List GenesisUtxo) (chain : List StoredBlock) (ref : TxoRef)
    (output : ℕ × Era × Bytes) : Prop :=
  (∃ body, (genesisTxos P genesis).get ref = some body ∧ output = (0, .byron, body.raw)) ∨
    ∃ block ∈ chain, ∃ tx ∈ block.txs, ∃ index raw, (index, raw) ∈ tx.produces ∧
      ref = ⟨tx.hash, index⟩ ∧ output = (block.slot, tx.era, raw)

theorem genesisTxos_get {body : TxoBody} (h : (genesisTxos P genesis).get ref = some body) :
    ref.index = 0 ∧ body.slot = 0 ∧ body.era = 0 := by
  cases hkvs : genesis.mapM (genesisUtxoToKv P) with
  | error e => simp [genesisTxos, insertGenesisTxos, hkvs, Except.toOption] at h
  | ok kvs =>
    rw [genesisTxos_eq hkvs, SortedMap.get_applyWrites, SortedMap.get_empty] at h
    cases hlast : SortedMap.lastWrite ref (kvs.map fun kv => (kv.1, some kv.2)) with
    | none => simp [hlast] at h
    | some value =>
      rw [hlast, Option.getD_some] at h
      obtain ⟨kv, hkv, heq⟩ := List.mem_map.mp (SortedMap.mem_of_lastWrite hlast)
      obtain ⟨rfl, rfl⟩ := Prod.mk.inj heq
      cases Option.some.inj h
      obtain ⟨utxo, -, hutxo⟩ := (Except.mem_of_mapM_eq_ok hkvs).mp hkv
      unfold genesisUtxoToKv at hutxo
      split at hutxo
      · cases hutxo
        exact ⟨rfl, rfl, rfl⟩
      · cases hutxo

theorem storedOutput_genesis {body : TxoBody} (h : (genesisTxos P genesis).get ref = some body) :
    storedOutput P body = some (0, .byron, body.raw) := by
  obtain ⟨-, hslot, hera⟩ := genesisTxos_get h
  rw [storedOutput, hslot, hera, Nat.zero_mod, P.eraOfU16_zero, Option.map_some]

theorem mem_history_made {body : TxoBody} :
    (ref, body) ∈ (history P chain).flatMap Transfer.made ↔
      ∃ block ∈ chain, ∃ tx ∈ block.txs, ∃ index raw, (index, raw) ∈ tx.produces ∧
        ref = ⟨tx.hash, index⟩ ∧ body = ⟨block.slot, P.eraToU16 tx.era, raw⟩ := by
  simp only [history, Block.transfers, Tx.transfer, Tx.produced, List.mem_flatMap,
    List.mem_reverse, List.mem_map]
  constructor
  · rintro ⟨transfer, ⟨block, hblock, tx, htx, rfl⟩, hmade⟩
    obtain ⟨index, raw, hproduces, heq⟩ := by simpa using hmade
    exact ⟨block, hblock, tx, htx, index, raw, hproduces, heq.1.symm, heq.2.symm⟩
  · rintro ⟨block, hblock, tx, htx, index, raw, hproduces, rfl, rfl⟩
    refine ⟨_, ⟨block, hblock, tx, htx, rfl⟩, ?_⟩
    exact List.mem_map.mpr ⟨(index, raw), hproduces, rfl⟩

theorem produced_iff {output : ℕ × Era × Bytes} :
    Produced P genesis chain ref output ↔
      ∃ body, (ref, body) ∈ outputs (genesisTxos P genesis) (history P chain) ∧
        storedOutput P body = some output := by
  constructor
  · rintro (⟨body, hget, rfl⟩ | ⟨block, hblock, tx, htx, index, raw, hproduces, rfl, rfl⟩)
    · exact ⟨body, List.mem_append_left _ ((SortedMap.get_eq_some_iff _).mp hget),
        storedOutput_genesis hget⟩
    · exact ⟨_, List.mem_append_right _ (mem_history_made.mpr
        ⟨block, hblock, tx, htx, index, raw, hproduces, rfl, rfl⟩), storedOutput_eraToU16 ..⟩
  · rintro ⟨body, hmem, houtput⟩
    rcases List.mem_append.mp hmem with hmem | hmem
    · have hget := (SortedMap.get_eq_some_iff _).mpr hmem
      rw [storedOutput_genesis hget, Option.some.injEq] at houtput
      exact Or.inl ⟨body, hget, houtput.symm⟩
    · obtain ⟨block, hblock, tx, htx, index, raw, hproduces, rfl, rfl⟩ :=
        mem_history_made.mp hmem
      rw [storedOutput_eraToU16, Option.some.injEq] at houtput
      exact Or.inr ⟨block, hblock, tx, htx, index, raw, hproduces, rfl, houtput.symm⟩

theorem isSome_storedOutput {body : TxoBody}
    (h : (ref, body) ∈ outputs (genesisTxos P genesis) (history P chain)) :
    (storedOutput P body).isSome := by
  rcases List.mem_append.mp h with h | h
  · rw [storedOutput_genesis ((SortedMap.get_eq_some_iff _).mpr h)]
    rfl
  · obtain ⟨block, -, tx, -, index, raw, -, -, rfl⟩ := mem_history_made.mp h
    rw [storedOutput_eraToU16]
    rfl

def FitsWire (chain : List StoredBlock) : Prop :=
  ∀ block ∈ chain, ∀ tx ∈ block.txs, tx.outputs.length < 2 ^ 32

theorem index_le_of_mem_produces {index : ℕ} {raw : Bytes} (h : (index, raw) ∈ tx.produces) :
    index ≤ tx.outputs.length := by
  unfold Tx.produces at h
  split at h
  · obtain ⟨⟨raw', index'⟩, hmem, heq⟩ := List.mem_map.mp h
    cases heq
    have hlt := List.snd_lt_of_mem_zipIdx hmem
    simpa using hlt.le
  · obtain ⟨raw', -, heq⟩ := List.mem_map.mp h
    cases heq
    exact le_rfl

theorem index_lt_of_mem_outputs (hfits : FitsWire chain) {body : TxoBody}
    (h : (ref, body) ∈ outputs (genesisTxos P genesis) (history P chain)) : ref.index < 2 ^ 32 := by
  rcases List.mem_append.mp h with h | h
  · rw [(genesisTxos_get ((SortedMap.get_eq_some_iff _).mpr h)).1]
    norm_num
  · obtain ⟨block, hblock, tx, htx, index, raw, hproduces, rfl, -⟩ := mem_history_made.mp h
    exact (index_le_of_mem_produces hproduces).trans_lt (hfits block hblock tx htx)

structure Resolves (P : Pallas) (genesis : List GenesisUtxo) (chain : List StoredBlock)
    (block : Block) (ctx : BlockContext) : Prop where
  required : ∀ tx ∈ block.txs, ∀ ref ∈ tx.requires, ∃ output,
    ctx.findUtxo ref = some output ∧
      ∀ other, Produced P genesis chain ref other ↔ other = output
  only : ∀ key output, ctx.utxos.get key = some output →
    ∃ tx ∈ block.txs, ∃ ref ∈ tx.requires, key = outputRefText ref

theorem mem_inputRefs {block : Block} :
    ref ∈ block.inputRefs ↔ ∃ tx ∈ block.txs, ref ∈ tx.requires := by
  simp [Block.inputRefs]

theorem exists_resolves {block : StoredBlock} {older : List StoredBlock}
    {out : SortedMap TxoRef (TxoBody × Bool)}
    (hvalid : Valid (genesisTxos P genesis) (history P (block :: older)))
    (hresolve : resolveBlockTxInputs P (table (genesisTxos P genesis) (history P older))
      block.toBlock = .ok out)
    (hfits : FitsWire (block :: older)) :
    ∃ ctx, buildContext P (out.entries.map fun entry => toResolvedTxo (entry.1, entry.2.1)) =
        .ok ctx ∧ Resolves P genesis (block :: older) block.toBlock ctx := by
  obtain ⟨hrequired, hothers⟩ := resolveBlockTxInputs_eq_ok.mp hresolve
  have hmem : ∀ entry ∈ out.entries, entry.1 ∈ block.inputRefs ∧ (entry.1, entry.2.1) ∈
      outputs (genesisTxos P genesis) (history P (block :: older)) := by
    intro entry hentry
    have hget := (SortedMap.get_eq_some_iff out).mpr hentry
    have hinput : entry.1 ∈ block.inputRefs := by
      by_contra hnot
      rw [hothers _ hnot] at hget
      cases hget
    obtain ⟨value, hvalue, hfound⟩ := hrequired _ hinput
    rw [hget, Option.some.injEq] at hfound
    rw [history_cons] at hvalid ⊢
    exact ⟨hinput, hfound ▸ mem_outputs_of_resolveRef hvalid.of_append hvalue⟩
  have hnodup : ((out.entries.map fun entry => (entry.1, entry.2.1)).map Prod.fst).Nodup := by
    rw [List.map_map, List.Nodup, List.pairwise_map]
    exact out.sorted.imp fun hlt => hlt.ne
  obtain ⟨ctx, hctx, hget⟩ := exists_buildContext hnodup
    (List.forall_mem_map.mpr fun entry hentry =>
      index_lt_of_mem_outputs hfits (hmem entry hentry).2)
    (List.forall_mem_map.mpr fun entry hentry => isSome_storedOutput (hmem entry hentry).2)
  refine ⟨ctx, by rw [← hctx, List.map_map]; rfl, fun tx htx ref href => ?_, fun key output hkey => ?_⟩
  · obtain ⟨value, -, hfound⟩ := hrequired ref (mem_inputRefs.mpr ⟨tx, htx, href⟩)
    have hentry := (SortedMap.get_eq_some_iff out).mp hfound
    have hbody := (hmem _ hentry).2
    obtain ⟨output, houtput⟩ := Option.isSome_iff_exists.mp (isSome_storedOutput hbody)
    refine ⟨output, (hget _ _).mpr
      ⟨(ref, value.1), List.mem_map.mpr ⟨_, hentry, rfl⟩, rfl, houtput⟩, fun other => ?_⟩
    rw [produced_iff]
    constructor
    · rintro ⟨body, hother, hotherOutput⟩
      rw [hvalid.output_unique hother hbody, houtput, Option.some.injEq] at hotherOutput
      exact hotherOutput.symm
    · rintro rfl
      exact ⟨value.1, hbody, houtput⟩
  · obtain ⟨o, ho, rfl, -⟩ := (hget key output).mp hkey
    obtain ⟨entry, hentry, rfl⟩ := List.mem_map.mp ho
    obtain ⟨tx, htx, href⟩ := mem_inputRefs.mp (hmem entry hentry).1
    exact ⟨tx, htx, entry.1, href, rfl⟩

/-! ## Blocks that the ledger accepts are applied -/

def namesUnspent (P : Pallas) (start : SortedMap TxoRef TxoBody) (slot : ℕ) :
    List (Transfer TxoRef TxoBody) → List Tx → Bool
  | _, [] => true
  | past, tx :: rest =>
    (tx.requires.all fun ref => ((table start past).get ref).isSome) &&
      namesUnspent P start slot (past ++ [tx.transfer P slot]) rest

theorem exists_split_of_namesUnspent {slot : ℕ} {txs : List Tx}
    (h : namesUnspent P start slot past txs = true) (htx : tx ∈ txs) (href : ref ∈ tx.requires) :
    ∃ before after, txs = before ++ after ∧
      ((table start (past ++ before.map (Tx.transfer P slot))).get ref).isSome := by
  induction txs generalizing past with
  | nil => cases htx
  | cons first rest ih =>
    rw [namesUnspent, Bool.and_eq_true, List.all_eq_true] at h
    rcases List.mem_cons.mp htx with rfl | htx
    · exact ⟨[], tx :: rest, rfl, by simpa using h.1 ref href⟩
    · obtain ⟨before, after, rfl, hsome⟩ := ih h.2 htx
      exact ⟨first :: before, after, rfl, by simpa using hsome⟩

theorem isSome_producedAndConsumedInBlock {block : Block} {body : TxoBody}
    (hinput : ref ∈ block.inputRefs)
    (hmade : (ref, body) ∈ (block.transfers P).flatMap Transfer.made) :
    ((producedAndConsumedInBlock P block).get ref).isSome := by
  have hwrite : (ref, some body) ∈ ((block.txs.flatMap (Tx.produced P block.slot)).filter
      fun output => output.1 ∈ block.inputRefs).map fun output => (output.1, some output.2) := by
    refine List.mem_map.mpr ⟨(ref, body), List.mem_filter.mpr ⟨?_, by simpa using hinput⟩, rfl⟩
    simpa [Block.transfers, List.flatMap_map, Tx.transfer] using hmade
  rw [producedAndConsumedInBlock, SortedMap.get_applyWrites, SortedMap.get_empty]
  cases hlast : SortedMap.lastWrite ref (((block.txs.flatMap (Tx.produced P block.slot)).filter
      fun output => output.1 ∈ block.inputRefs).map fun output => (output.1, some output.2)) with
  | none =>
    exact absurd (List.mem_map_of_mem hwrite) (SortedMap.lastWrite_eq_none_iff.mp hlast)
  | some value =>
    obtain ⟨output, -, heq⟩ := List.mem_map.mp (SortedMap.mem_of_lastWrite hlast)
    obtain ⟨-, rfl⟩ := Prod.mk.inj heq
    rfl

theorem exists_resolveBlockTxInputs {block : Block}
    (hvalid : Valid start (past ++ block.transfers P))
    (hnames : namesUnspent P start block.slot past block.txs = true) :
    ∃ out, resolveBlockTxInputs P (table start past) block = .ok out := by
  have hrefs : ∀ ref ∈ block.inputRefs, ∃ value,
      resolveRef (table start past) (producedAndConsumedInBlock P block) block ref =
        .ok value := by
    intro ref hinput
    obtain ⟨tx, htx, href⟩ := mem_inputRefs.mp hinput
    obtain ⟨before, after, hsplit, hsome⟩ := exists_split_of_namesUnspent hnames htx href
    obtain ⟨body, hbody⟩ := Option.isSome_iff_exists.mp hsome
    have hfront : past ++ block.transfers P =
        (past ++ before.map (Tx.transfer P block.slot)) ++ after.map (Tx.transfer P block.slot) := by
      rw [Block.transfers, hsplit, List.map_append, List.append_assoc]
    have hbefore : Valid start (past ++ before.map (Tx.transfer P block.slot)) :=
      (hfront ▸ hvalid).of_append
    obtain ⟨hmem, hunspent⟩ := hbefore.get_table.mp hbody
    rw [outputs_append, List.mem_append] at hmem
    rw [spent_append, List.mem_append, not_or] at hunspent
    cases hget : (table start past).get ref with
    | some found => exact ⟨(found, false), resolveRef_eq_ok.mpr (Or.inl ⟨hget, rfl⟩)⟩
    | none =>
      -- not there before the block, so a transaction of the block made it
      have hmade : (ref, body) ∈ (before.map (Tx.transfer P block.slot)).flatMap
          Transfer.made := by
        refine hmem.resolve_left fun hold => ?_
        rw [hvalid.of_append.get_table.mpr ⟨hold, hunspent.1⟩] at hget
        cases hget
      have hown : (ref, body) ∈ (block.transfers P).flatMap Transfer.made := by
        rw [Block.transfers, hsplit, List.map_append, List.flatMap_append]
        exact List.mem_append_left _ hmade
      obtain ⟨found, hfound⟩ := Option.isSome_iff_exists.mp
        (isSome_producedAndConsumedInBlock hinput hown)
      exact ⟨(found, true), resolveRef_eq_ok.mpr (Or.inr ⟨hget, hfound, rfl⟩)⟩
  have hfold : ∀ (refs : List TxoRef) (init : SortedMap TxoRef (TxoBody × Bool)),
      refs ⊆ block.inputRefs → ∃ out, refs.foldlM (fun out ref => do
        return out.put ref (← resolveRef (table start past) (producedAndConsumedInBlock P block)
          block ref)) init = Except.ok out := by
    intro refs
    induction refs with
    | nil => exact fun init _ => ⟨init, rfl⟩
    | cons ref rest ih =>
      intro init hsubset
      obtain ⟨value, hvalue⟩ := hrefs ref (hsubset (List.mem_cons_self ..))
      obtain ⟨out, hout⟩ := ih (init.put ref value)
        fun r hr => hsubset (List.mem_cons_of_mem _ hr)
      exact ⟨out, by simpa [List.foldlM_cons, hvalue] using hout⟩
  exact hfold block.inputRefs ∅ (List.Subset.refl _)

theorem mem_dropWhile_of_not {α : Type*} {p : α → Bool} {a : α} {l : List α} (h : a ∈ l)
    (ha : p a = false) : a ∈ l.dropWhile p := by
  rw [← List.takeWhile_append_dropWhile (p := p) (l := l), List.mem_append] at h
  exact h.resolve_left fun hfront => by simp [List.mem_takeWhile_imp hfront] at ha

theorem get_log_applied (self : ChainDB) (bytes : BlockBody) (block : Block)
    (resolver : SortedMap TxoRef (TxoBody × Bool)) :
    (self.applied P bytes true block resolver).db.mutableKV.get self.nextWalSeq =
      some (.apply block.slot block.hash bytes (resolver.mapVal Prod.fst)) := by
  change (self.pruneBehind block.slot (self.db.mutableKV.put self.nextWalSeq _)).get _ = _
  rw [ChainDB.pruneBehind_eq, SortedMap.get_eq_some_iff]
  refine mem_dropWhile_of_not ((SortedMap.get_eq_some_iff _).mp (by simp)) ?_
  exact decide_eq_false (self.pruneSlot_le block.slot).not_gt

/-! ## The contract -/

theorem blockIn_of_txs (hordered : SlotOrdered chain) (hrepeats : RepeatsEmpty chain)
    {block : StoredBlock} (hblock : block ∈ chain) (htxs : block.txs ≠ []) :
    blockIn chain block.slot = some block := by
  obtain ⟨newer, older, rfl⟩ := List.mem_iff_append.mp hblock
  refine blockIn_of_later fun b hb => ?_
  induction newer using List.reverseRecOn with
  | nil => cases hb
  | append_singleton newer next =>
    rw [SlotOrdered, List.append_assoc, List.pairwise_append] at hordered
    rw [RepeatsEmpty, List.append_assoc, List.isChain_append] at hrepeats
    have hnext : block.slot < next.slot :=
      (List.isChain_cons_cons.mp hrepeats.2.1).1.resolve_right htxs
    rcases List.mem_append.mp hb with hb | hb
    · exact hnext.trans_le (hordered.2.2 b hb next (by simp))
    · simpa [List.mem_singleton.mp hb] using hnext

theorem exists_resolves_of_page (h : HoldsOutputs P (genesisTxos P genesis) server)
    (hfits : FitsWire server.adopted) {block : StoredBlock} {resolver : ResolverValue}
    (hblock : blockIn server.adopted block.slot = some block)
    (hresolver : server.chainDB.db.resolverBySlotKV.get block.slot = some (block.hash, resolver)) :
    ∃ newer older ctx, server.adopted = newer ++ block :: older ∧
      buildContext P (resolver.map fun output => toResolvedTxo (output.1, output.2.1)) = .ok ctx ∧
      Resolves P genesis (block :: older) block.toBlock ctx := by
  obtain ⟨newer, older, hsplit, -, hnewer⟩ := exists_split_of_blockIn h.chain.ordered hblock
  obtain ⟨out, hout, hget⟩ := h.resolvers newer block older hsplit hnewer
  rw [hresolver, Option.some.injEq, Prod.mk.injEq] at hget
  rw [List.append_nil] at hout
  have hvalid := h.valid
  rw [hsplit, history_append] at hvalid
  obtain ⟨ctx, hctx, hresolves⟩ := exists_resolves hvalid.of_append hout
    fun b hb => hfits b (hsplit ▸ List.mem_append_right _ hb)
  exact ⟨newer, older, ctx, hsplit, hget.2 ▸ hctx, hresolves⟩

theorem exists_resolves_of_apply (h : HoldsOutputs P (genesisTxos P genesis) server)
    {bytes : BlockBody} {block : Block} (hfits : FitsWire (⟨block, bytes⟩ :: server.adopted))
    (hdecode : P.decode bytes = .ok block)
    (hprevious : ∀ last ∈ server.adopted.head?, block.previousHash = some last.hash)
    (hledger : server.followsLedger P (genesisTxos P genesis) (.apply bytes true) = true)
    (hnames : namesUnspent P (genesisTxos P genesis) block.slot (history P server.adopted)
      block.txs = true) :
    ∃ server' log ctx, server.step P genesis (.apply bytes true) = .ok server' ∧
      server'.chainDB.db.mutableKV.get server.chainDB.nextWalSeq = some log ∧
      processAction P true (logToResponseWithCtx log) =
        .ok (some (.rollForward (some ⟨block.slot, block.hash⟩) bytes ctx true)) ∧
      Resolves P genesis (⟨block, bytes⟩ :: server.adopted) block ctx := by
  have hvalid : Valid (genesisTxos P genesis) (history P server.adopted ++ block.transfers P) :=
    valid_append.mpr ⟨h.valid, (Server.followsLedger_apply hdecode hledger).2⟩
  obtain ⟨out, hout⟩ := exists_resolveBlockTxInputs hvalid hnames
  have hstage : ChainDB.stageApply P server.chainDB bytes true =
      .ok (server.chainDB.applied P bytes true block out) := by
    refine ChainDB.stageApply_eq_ok.mpr ⟨block, out, hdecode, fun last hlast => ?_,
      h.txos ▸ hout, rfl⟩
    rw [h.chain.last, Option.map_eq_some_iff] at hlast
    obtain ⟨tip, htip, rfl⟩ := hlast
    exact hprevious tip htip
  rw [← history_cons ⟨block, bytes⟩ server.adopted] at hvalid
  obtain ⟨ctx, hctx, hresolves⟩ := exists_resolves hvalid hout hfits
  refine ⟨_, _, ctx, Server.step_eq_ok.mpr ⟨_, hstage, rfl⟩, get_log_applied .., ?_, hresolves⟩
  have hentries : (out.mapVal Prod.fst).entries.map toResolvedTxo =
      out.entries.map fun entry => toResolvedTxo (entry.1, entry.2.1) :=
    List.map_map ..
  simp only [logToResponseWithCtx, processAction, hentries, hctx]
  rfl

/-- **Every context resolves its block**, that of a log entry and that of a page. -/
theorem context_resolves_block {immutableAfterSlots : Option ℕ} {first server : Server}
    {commands : List Command}
    (hfirst : (Server.empty immutableAfterSlots).step P genesis .start = .ok first)
    (hrules : Run.meets (Server.step P genesis) (Server.followsRules P genesis) first
      commands = true)
    (hrun : Run.run (Server.step P genesis) first commands = .ok server)
    (hfits : FitsWire server.adopted) :
    (∀ bytes block, P.decode bytes = .ok block →
      (∀ last ∈ server.adopted.head?, block.previousHash = some last.hash) →
      server.followsLedger P (genesisTxos P genesis) (.apply bytes true) = true →
      namesUnspent P (genesisTxos P genesis) block.slot (history P server.adopted)
        block.txs = true →
      FitsWire [⟨block, bytes⟩] →
      ∃ server' log ctx, server.step P genesis (.apply bytes true) = .ok server' ∧
        server'.chainDB.db.mutableKV.get server.chainDB.nextWalSeq = some log ∧
        processAction P true (logToResponseWithCtx log) =
          .ok (some (.rollForward (some ⟨block.slot, block.hash⟩) bytes ctx true)) ∧
        Resolves P genesis (⟨block, bytes⟩ :: server.adopted) block ctx) ∧
    (∀ cursor maxItems page,
      pageBlocksWithContext server.chainDB.db cursor maxItems = .ok page →
      ∀ served ∈ page.blocks, ∃ newer block older ctx,
        server.adopted = newer ++ block :: older ∧
        processAction P false (.apply served) =
          .ok (some (.rollForward (some ⟨block.slot, block.hash⟩) block.bytes ctx false)) ∧
        Resolves P genesis (block :: older) block.toBlock ctx) ∧
    ∀ block ∈ server.adopted, block.txs ≠ [] → ∃ maxItems page,
      pageBlocksWithContext server.chainDB.db none maxItems = .ok page ∧
        ∃ served ∈ page.blocks, served.ref = ⟨block.slot, block.hash⟩ := by
  have hholds := holdsOutputs_run (HoldsOutputs.first hfirst) hrules hrun
  refine ⟨fun bytes block hdecode hprevious hledger hnames hblockFits => ?_,
    fun cursor maxItems page hpage served hserved => ?_, fun block hblock htxs => ?_⟩
  · refine exists_resolves_of_apply hholds (fun b hb => ?_) hdecode hprevious hledger hnames
    rcases List.mem_cons.mp hb with rfl | hb
    · exact hblockFits _ (List.mem_singleton_self _)
    · exact hfits b hb
  · obtain ⟨hitems, behind, hbehind⟩ := exists_intersectBlocks hpage
    rw [pageBlocksWithContext_eq hholds.chain hitems hbehind] at hpage
    cases hpage
    obtain ⟨entry, hentry, rfl⟩ := List.mem_map.mp hserved
    obtain ⟨block, resolver, hblock, -, hresolver, hservedBlock⟩ :=
      hholds.chain.exists_block_of_entry
        ((intersect_of_holdsChain hholds.chain hbehind).2.subset (List.mem_of_mem_take hentry))
    obtain ⟨newer, older, ctx, hsplit, hctx, hresolves⟩ :=
      exists_resolves_of_page hholds hfits hblock hresolver
    refine ⟨newer, block, older, ctx, hsplit, ?_, hresolves⟩
    simp only [processAction, hservedBlock, hctx]
    rfl
  · have hget := hholds.chain.blocks block.slot
    rw [blockIn_of_txs hholds.chain.ordered hholds.repeats hblock htxs, Option.map_some] at hget
    have hmem : (block.slot, block.value) ∈ server.chainDB.db.blockBySlotKV.entriesFrom 0 :=
      SortedMap.mem_entriesFrom.mpr ⟨(SortedMap.get_eq_some_iff _).mp hget, Nat.zero_le _⟩
    refine ⟨_, _, pageBlocksWithContext_eq hholds.chain (List.length_pos_of_mem hmem)
      (rfl : intersectBlocks server.chainDB.db none = _), ?_⟩
    rw [pageOf, List.take_length]
    exact ⟨_, List.mem_map_of_mem hmem, rfl⟩

theorem context_resolves_block_spending :
    ∃ first server server' log ctx,
      (Server.empty (some 100)).step spendingPallas sampleGenesis .start = .ok first ∧
      Run.run (Server.step spendingPallas sampleGenesis) first [.apply [1] true] = .ok server ∧
      server.step spendingPallas sampleGenesis (.apply [2] true) = .ok server' ∧
      server'.chainDB.db.mutableKV.get server.chainDB.nextWalSeq = some log ∧
      processAction spendingPallas true (logToResponseWithCtx log) =
        .ok (some (.rollForward (some ⟨20, sampleHash 2⟩) [2] ctx true)) ∧
      Resolves spendingPallas sampleGenesis spendingBlocks.reverse
        (sampleBlock 20 2 (some 1)
          [sampleTx 102 true [(101, 0)] [] [] [[3]] none,
            sampleTx 103 true [(102, 0)] [] [(101, 1)] [[4]] none,
            sampleTx 104 false [(103, 0)] [(101, 1)] [] [[5], [6]] (some [7])]).toBlock ctx := by
  have hfirst : (Server.empty (some 100)).step spendingPallas sampleGenesis .start = .ok _ :=
    Except.eq_ok_get (by decide +kernel)
  obtain ⟨server', log, ctx, hstep, hlog, hctx, hresolves⟩ :=
    (context_resolves_block hfirst (by decide +kernel)
      (Except.eq_ok_get (by decide +kernel) : Run.run _ _ [.apply [1] true] = .ok _)
      (by unfold FitsWire; decide +kernel)).1 [2] _ rfl (by decide +kernel) (by decide +kernel)
        (by decide +kernel) (by unfold FitsWire; decide +kernel)
  exact ⟨_, _, server', log, ctx, hfirst, Except.eq_ok_get _, hstep, hlog, hctx, hresolves⟩

end CardanoIndexer.Pipeline
