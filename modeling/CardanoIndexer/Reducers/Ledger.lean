import CardanoIndexer.Pipeline.Enrichment
import CardanoIndexer.Polyphony.Batching
import CardanoIndexer.Timbre.Encode

/-!
# What the reducers see of the ledger

Outputs that are spent are found in the block's context by the text of their reference.
-/

namespace CardanoIndexer.Reducers

open Compressor (Pallas GenesisUtxo Tx Block StoredBlock TxoRef Era genesisTxos history)
open Pipeline (Produced Resolves)
open Polyphony (BlockContext WorkError outputRefText outputRefText_injective)
open Timbre

/-! ## Outputs -/

structure MultiAsset where
  entries : List (Hash28 × List (ShortBytes × U64))
  nodup_policies : (entries.map Prod.fst).Nodup
  nodup_names : ∀ entry ∈ entries, (entry.2.map Prod.fst).Nodup

variable {α β : Type}

theorem nodup_pairs {γ : Type} {entries : List (α × List (β × γ))}
    (houter : (entries.map Prod.fst).Nodup)
    (hinner : ∀ entry ∈ entries, (entry.2.map Prod.fst).Nodup) :
    (entries.flatMap fun entry => entry.2.map fun item => (entry.1, item.1)).Nodup := by
  rw [List.nodup_flatMap]
  refine ⟨fun entry hentry => ?_, (List.pairwise_map.mp houter).imp ?_⟩
  · have hnames := hinner entry hentry
    rw [List.Nodup, List.pairwise_map] at hnames ⊢
    exact hnames.imp fun hne heq => hne (congrArg Prod.snd heq)
  · intro entry entry' hne pair hpair hpair'
    obtain ⟨_, -, rfl⟩ := List.mem_map.mp hpair
    obtain ⟨_, -, heq⟩ := List.mem_map.mp hpair'
    exact hne (congrArg Prod.fst heq).symm

structure TxOutput where
  address : Option Address
  coin : U64
  multiassets : Option MultiAsset

structure Library where
  decodeOutput : Era → Bytes → Option TxOutput
  addressText : Address → List Char

def orPanic {α : Type} : Option α → Except WorkError α
  | some a => .ok a
  | none => .error .panic

/-! ## Errors and policies -/

inductive FindError where
  | missingUtxo
  | cborError
  deriving DecidableEq

inductive ErrorAction where
  | skip
  | warn
  | default
  deriving DecidableEq

structure RuntimePolicy where
  missingData : Option ErrorAction
  cborErrors : Option ErrorAction
  anyError : Option ErrorAction

def handleError {α : Type} : Option ErrorAction → Except WorkError (Option α)
  | some .skip | some .warn => .ok none
  | some .default | none => .error .panic

def applyPolicy {α : Type} (policy : RuntimePolicy) :
    Except FindError α → Except WorkError (Option α)
  | .ok a => .ok (some a)
  | .error e =>
    if policy.anyError.isSome then handleError policy.anyError
    else match e with
      | .missingUtxo => handleError policy.missingData
      | .cborError => handleError policy.cborErrors

def findUtxo (L : Library) (ctx : BlockContext) (ref : TxoRef) :
    Except FindError (ℕ × TxOutput × Bytes) :=
  match ctx.findUtxo ref with
  | none => .error .missingUtxo
  | some (slot, era, cbor) =>
    match L.decodeOutput era cbor with
    | none => .error .cborError
    | some output => .ok (slot, output, cbor)

abbrev Txo := TxoRef × (ℕ × Era × Bytes)

def resolvedTxo (ctx : BlockContext) (ref : TxoRef) : Txo :=
  (ref, (ctx.findUtxo ref).getD (0, .byron, []))

def uniqueBy {α β : Type} [DecidableEq β] (f : α → β) : List β → List α → List α
  | _, [] => []
  | seen, a :: rest =>
    if f a ∈ seen then uniqueBy f seen rest else a :: uniqueBy f (f a :: seen) rest

theorem uniqueBy_eq [DecidableEq β] {f : α → β} (hinj : Function.Injective f) {seen : List β}
    {xs : List α} (hnodup : xs.Nodup) (hseen : ∀ x ∈ xs, f x ∉ seen) : uniqueBy f seen xs = xs := by
  induction xs generalizing seen with
  | nil => rfl
  | cons x rest ih =>
    obtain ⟨hx, hrest⟩ := List.nodup_cons.mp hnodup
    rw [uniqueBy, if_neg (hseen x List.mem_cons_self), ih hrest]
    intro y hy hmem
    rcases List.mem_cons.mp hmem with heq | hmem
    · exact hx (hinj heq ▸ hy)
    · exact hseen y (List.mem_cons_of_mem _ hy) hmem

def consumedRefs (tx : Tx) : List TxoRef := uniqueBy outputRefText [] tx.consumes

theorem consumedRefs_eq (tx : Tx) : consumedRefs tx = tx.consumes :=
  uniqueBy_eq outputRefText_injective tx.nodup_consumes fun _ _ h => by cases h

/-! ## Chains -/

variable {P : Pallas} {L : Library} {genesis : List GenesisUtxo} {chain older : List StoredBlock}
  {ref : TxoRef} {ctx : BlockContext} {tx : Tx}

structure IsLedgerChain (P : Pallas) (L : Library) (genesis : List GenesisUtxo)
    (chain : List StoredBlock) : Prop where
  valid : Spending.Valid (genesisTxos P genesis) (history P chain)
  readable : ∀ ref output, Produced P genesis chain ref output →
    ∃ out address, L.decodeOutput output.2.1 output.2.2 = some out ∧ out.address = some address
  index_lt : ∀ ref output, Produced P genesis chain ref output → ref.index < 2 ^ 64

def AllResolved (P : Pallas) (genesis : List GenesisUtxo) :
    List (StoredBlock × BlockContext) → Prop
  | [] => True
  | (block, ctx) :: older =>
    Resolves P genesis (block :: older.map Prod.fst) block.toBlock ctx ∧
      AllResolved P genesis older

theorem Produced.cons {output : ℕ × Era × Bytes} (h : Produced P genesis chain ref output)
    (block : StoredBlock) : Produced P genesis (block :: chain) ref output := by
  rcases h with h | ⟨other, hother, h⟩
  · exact Or.inl h
  · exact Or.inr ⟨other, List.mem_cons_of_mem _ hother, h⟩

theorem produced_of_mem_produces {block : StoredBlock} (htx : tx ∈ block.txs) {index : ℕ}
    {raw : Bytes} (h : (index, raw) ∈ tx.produces) :
    Produced P genesis (block :: older) ⟨tx.hash, index⟩ (block.slot, tx.era, raw) :=
  Or.inr ⟨block, List.mem_cons_self, tx, htx, index, raw, h, rfl, rfl⟩

theorem IsLedgerChain.of_cons {block : StoredBlock} (h : IsLedgerChain P L genesis (block :: chain)) :
    IsLedgerChain P L genesis chain where
  valid := by
    have hvalid := h.valid
    rw [Compressor.history_cons] at hvalid
    exact hvalid.of_append
  readable ref output hproduced := h.readable ref output (Produced.cons hproduced block)
  index_lt ref output hproduced := h.index_lt ref output (Produced.cons hproduced block)

theorem IsLedgerChain.of_append {newer : List StoredBlock}
    (h : IsLedgerChain P L genesis (newer ++ older)) : IsLedgerChain P L genesis older := by
  induction newer with
  | nil => exact h
  | cons block rest ih => exact ih h.of_cons

theorem AllResolved.of_append {newer older : List (StoredBlock × BlockContext)}
    (h : AllResolved P genesis (newer ++ older)) : AllResolved P genesis older := by
  induction newer with
  | nil => exact h
  | cons entry rest ih => exact ih h.2

theorem IsLedgerChain.produced_unique (h : IsLedgerChain P L genesis chain)
    {output output' : ℕ × Era × Bytes} (hproduced : Produced P genesis chain ref output)
    (hproduced' : Produced P genesis chain ref output') : output = output' := by
  obtain ⟨body, hbody, houtput⟩ := Pipeline.produced_iff.mp hproduced
  obtain ⟨body', hbody', houtput'⟩ := Pipeline.produced_iff.mp hproduced'
  rw [h.valid.output_unique hbody hbody'] at houtput
  exact Option.some.inj (houtput.symm.trans houtput')

theorem findUtxo_of_resolves {block : StoredBlock}
    (hchain : IsLedgerChain P L genesis (block :: older))
    (hresolves : Resolves P genesis (block :: older) block.toBlock ctx) (htx : tx ∈ block.txs)
    (href : ref ∈ tx.consumes) :
    ∃ slot era raw out address, Produced P genesis (block :: older) ref (slot, era, raw) ∧
      L.decodeOutput era raw = some out ∧ out.address = some address ∧
      ctx.findUtxo ref = some (slot, era, raw) ∧ findUtxo L ctx ref = .ok (slot, out, raw) := by
  obtain ⟨⟨slot, era, raw⟩, hfind, honly⟩ :=
    hresolves.required tx htx ref (Compressor.Tx.requires_of_consumes href)
  have hproduced := (honly (slot, era, raw)).mpr rfl
  obtain ⟨out, address, hdecode, haddress⟩ := hchain.readable ref _ hproduced
  refine ⟨slot, era, raw, out, address, hproduced, hdecode, haddress, hfind, ?_⟩
  rw [findUtxo, hfind]
  simp only [hdecode]

theorem storedOutput_resolvedTxo {block : StoredBlock}
    (hchain : IsLedgerChain P L genesis (block :: older))
    (hresolves : Resolves P genesis (block :: older) block.toBlock ctx) (htx : tx ∈ block.txs)
    (href : ref ∈ tx.consumes) {body : Compressor.TxoBody}
    (hbody : (ref, body) ∈ Spending.outputs (genesisTxos P genesis) (history P (block :: older))) :
    Pipeline.storedOutput P body = some (resolvedTxo ctx ref).2 := by
  obtain ⟨slot, era, raw, -, -, hproduced, -, -, hctx, -⟩ :=
    findUtxo_of_resolves hchain hresolves htx href
  obtain ⟨output, houtput⟩ := Option.isSome_iff_exists.mp (Pipeline.isSome_storedOutput hbody)
  have heq := hchain.produced_unique (Pipeline.produced_iff.mpr ⟨body, hbody, houtput⟩) hproduced
  rw [houtput, heq, resolvedTxo, hctx, Option.getD_some]

def namesUnspentOutputs (P : Pallas) (genesis : List GenesisUtxo) : List StoredBlock → Bool
  | [] => true
  | block :: older =>
    Pipeline.namesUnspent P (genesisTxos P genesis) block.slot (history P older) block.txs &&
      namesUnspentOutputs P genesis older

theorem exists_allResolved (hvalid : Spending.Valid (genesisTxos P genesis) (history P chain))
    (hfits : Pipeline.FitsWire chain) (hnames : namesUnspentOutputs P genesis chain = true) :
    ∃ resolved, resolved.map Prod.fst = chain ∧ AllResolved P genesis resolved := by
  induction chain with
  | nil => exact ⟨[], rfl, trivial⟩
  | cons block older ih =>
    have hblock := hvalid
    rw [Compressor.history_cons] at hblock
    rw [namesUnspentOutputs, Bool.and_eq_true] at hnames
    obtain ⟨resolved, rfl, holder⟩ :=
      ih hblock.of_append (fun b hb => hfits b (List.mem_cons_of_mem _ hb)) hnames.2
    obtain ⟨out, hout⟩ := Pipeline.exists_resolveBlockTxInputs hblock hnames.1
    obtain ⟨ctx, -, hresolves⟩ := Pipeline.exists_resolves hvalid hout hfits
    exact ⟨(block, ctx) :: resolved, rfl, hresolves, holder⟩

/-! ## Samples -/

def sampleAddress : Address :=
  .shelley ⟨.mainnet, .key (Vector.replicate 28 7), .null⟩

def sampleAssets : MultiAsset where
  entries := [(Vector.replicate 28 8, [(⟨[1], by decide⟩, 1)])]
  nodup_policies := by simp
  nodup_names := by simp

def sampleLibrary : Library where
  decodeOutput _ raw :=
    some ⟨some sampleAddress, BitVec.ofNat 64 (raw.headD 0).val, some sampleAssets⟩
  addressText _ := []

theorem isLedgerChain_sampleLibrary
    (hvalid : Spending.Valid (genesisTxos P genesis) (history P chain))
    (hfits : Pipeline.FitsWire chain) : IsLedgerChain P sampleLibrary genesis chain where
  valid := hvalid
  readable _ _ _ := ⟨_, _, rfl, rfl⟩
  index_lt ref output hproduced := by
    obtain ⟨body, hbody, -⟩ := Pipeline.produced_iff.mp hproduced
    exact (Pipeline.index_lt_of_mem_outputs hfits hbody).trans (by norm_num)

theorem exists_spendingChain : ∃ chain : List (StoredBlock × BlockContext),
    chain.map Prod.fst = Compressor.spendingBlocks.reverse ∧
      IsLedgerChain Compressor.spendingPallas sampleLibrary Compressor.sampleGenesis
        (chain.map Prod.fst) ∧
      AllResolved Compressor.spendingPallas Compressor.sampleGenesis chain := by
  have hvalid : Spending.Valid (genesisTxos Compressor.spendingPallas Compressor.sampleGenesis)
      (history Compressor.spendingPallas Compressor.spendingBlocks.reverse) := by
    unfold Spending.Valid
    decide +kernel
  have hfits : Pipeline.FitsWire Compressor.spendingBlocks.reverse := by
    unfold Pipeline.FitsWire
    decide +kernel
  obtain ⟨chain, hblocks, hresolved⟩ := exists_allResolved hvalid hfits (by decide +kernel)
  exact ⟨chain, hblocks, hblocks ▸ isLedgerChain_sampleLibrary hvalid hfits, hresolved⟩

end CardanoIndexer.Reducers
