import CardanoIndexer.Reducers.Utxos

/-!
# The indexes of unspent outputs

What the indexes are for, in terms of the outputs that a chain makes and does not spend.
-/

namespace CardanoIndexer.Reducers

open Compressor (Pallas GenesisUtxo StoredBlock TxoRef genesisTxos history)
open Pipeline (Produced)
open Polyphony (BlockContext Store Key Value)
open Listing
open Timbre

section Keys

variable {enc : KeyEncoder} {blake2b : Bytes → Hash} {item item' : UtxosByAddressCursor}

theorem item_eq_of_addressKey {address address' : Address}
    (h : (addressKey item address).encode enc blake2b =
      (addressKey item' address').encode enc blake2b) : item = item' := by
  obtain ⟨hreducer, hbody⟩ := DataKey.encode_eq_encode_iff.mp h
  apply utxoItemBytes_injective
  cases address with
  | shelley address =>
    cases address' with
    | shelley address' => exact (owner_item_of_eq isPrefixCode_shelleyAddress hbody).2
    | byron address' => cases hreducer
  | byron address =>
    cases address' with
    | shelley address' => cases hreducer
    | byron address' => exact (owner_item_of_eq isPrefixCode_byronAddress hbody).2

theorem eq_of_assetKey {asset asset' : Hash28 × ShortBytes}
    (h : (DataKey.utxosByAsset asset.1 asset.2 item).encode enc blake2b =
      (DataKey.utxosByAsset asset'.1 asset'.2 item').encode enc blake2b) :
    asset = asset' ∧ item = item' := by
  obtain ⟨-, hbody⟩ := DataKey.encode_eq_encode_iff.mp h
  obtain ⟨hasset, hitem⟩ := owner_item_of_eq isPrefixCode_asset hbody
  obtain ⟨hpolicy, hname⟩ := assetBytes_injective hasset
  exact ⟨Prod.ext hpolicy hname, utxoItemBytes_injective hitem⟩

theorem eq_of_policyKey {policyId policyId' : Hash28}
    (h : (DataKey.utxosByPolicy policyId item).encode enc blake2b =
      (DataKey.utxosByPolicy policyId' item').encode enc blake2b) :
    policyId = policyId' ∧ item = item' := by
  obtain ⟨-, hbody⟩ := DataKey.encode_eq_encode_iff.mp h
  obtain ⟨hpolicy, hitem⟩ := owner_item_of_eq isPrefixCode_policy hbody
  exact ⟨toList_injective hpolicy, utxoItemBytes_injective hitem⟩

end Keys

/-! ## The unspent outputs in the indexes -/

structure LedgerOutput where
  ref : TxoRef
  slot : ℕ
  raw : Bytes
  output : TxOutput
  address : Address

namespace LedgerOutput

def item (o : LedgerOutput) : UtxosByAddressCursor :=
  ⟨BitVec.ofNat 64 o.slot, o.ref.txHash, BitVec.ofNat 64 o.ref.index⟩

def IsUnspentIn (L : Library) (chain : List StoredBlock) (o : LedgerOutput) : Prop :=
  ∃ era, IsUnspent chain (o.ref, (o.slot, era, o.raw)) ∧ L.decodeOutput era o.raw = some o.output ∧
    o.output.address = some o.address

def Holds (o : LedgerOutput) (policyId : Hash28) (name : ShortBytes) (amount : U64) : Prop :=
  ∃ ma, o.output.multiassets = some ma ∧ ∃ assets, (policyId, assets) ∈ ma.entries ∧
    (name, amount) ∈ assets

def HoldsPolicy (o : LedgerOutput) (policyId : Hash28) (assets : List (ShortBytes × U64)) : Prop :=
  ∃ ma, o.output.multiassets = some ma ∧ (policyId, assets) ∈ ma.entries

end LedgerOutput

structure HoldsCborByAddress (L : Library) (enc : KeyEncoder) (blake2b : Bytes → Hash)
    (chain : List StoredBlock) (store : Store) : Prop where
  get : ∀ k v, store.get k = some v ↔ ∃ o : LedgerOutput, o.IsUnspentIn L chain ∧
    k = (addressKey o.item o.address).encode enc blake2b ∧ v = o.raw
  one : ∀ o o' : LedgerOutput, o.IsUnspentIn L chain → o'.IsUnspentIn L chain →
    (addressKey o.item o.address).encode enc blake2b =
      (addressKey o'.item o'.address).encode enc blake2b → o.ref = o'.ref

structure HoldsUtxosByAsset (L : Library) (enc : KeyEncoder) (blake2b : Bytes → Hash)
    (chain : List StoredBlock) (store : Store) : Prop where
  get : ∀ k v, store.get k = some v ↔ ∃ (o : LedgerOutput) (policyId : Hash28)
    (name : ShortBytes) (amount : U64), o.IsUnspentIn L chain ∧ o.Holds policyId name amount ∧
      k = enc.encodeUtxosByAssetKey policyId name o.item ∧
      v = encodeUtxosByAssetValue blake2b o.address amount
  one : ∀ (o o' : LedgerOutput) (policyId policyId' : Hash28) (name name' : ShortBytes),
    o.IsUnspentIn L chain → o'.IsUnspentIn L chain →
    enc.encodeUtxosByAssetKey policyId name o.item =
      enc.encodeUtxosByAssetKey policyId' name' o'.item →
    o.ref = o'.ref ∧ policyId = policyId' ∧ name = name'

structure HoldsUtxosByPolicy (L : Library) (enc : KeyEncoder) (blake2b : Bytes → Hash)
    (chain : List StoredBlock) (store : Store) : Prop where
  get : ∀ k v, store.get k = some v ↔ ∃ (o : LedgerOutput) (policyId : Hash28)
    (assets : List (ShortBytes × U64)), o.IsUnspentIn L chain ∧ o.HoldsPolicy policyId assets ∧
      k = enc.encodeUtxosByPolicyKey policyId o.item ∧
      v = encodeUtxosByPolicyValue blake2b o.address assets
  one : ∀ (o o' : LedgerOutput) (policyId policyId' : Hash28),
    o.IsUnspentIn L chain → o'.IsUnspentIn L chain →
    enc.encodeUtxosByPolicyKey policyId o.item = enc.encodeUtxosByPolicyKey policyId' o'.item →
    o.ref = o'.ref ∧ policyId = policyId'

section Unspent

variable {P : Pallas} {L : Library} {genesis : List GenesisUtxo} {κ ν : Type}
  {reducer : UtxoReducer κ ν} {enc : KeyEncoder} {blake2b : Bytes → Hash}
  {chain : List StoredBlock} {store : Store} {o : LedgerOutput}

theorem LedgerOutput.ref_eq_of_item_eq (hchain : IsLedgerChain P L genesis chain)
    {o' : LedgerOutput} (ho : o.IsUnspentIn L chain) (ho' : o'.IsUnspentIn L chain)
    (hitem : o.item = o'.item) : o.ref = o'.ref := by
  obtain ⟨era, hunspent, -⟩ := ho
  obtain ⟨era', hunspent', -⟩ := ho'
  exact congrArg Prod.fst (eq_of_item_eq hchain hunspent.produced hunspent'.produced hitem)

theorem get_iff_of_lists
    (h : Lists (rowsOf reducer L enc blake2b) {txo | IsUnspent chain txo} store) (k : Key)
    (v : Value) :
    store.get k = some v ↔ ∃ o : LedgerOutput, o.IsUnspentIn L chain ∧
      reducer.keeps o.address = true ∧ ∃ row ∈ reducer.rows o.address o.output o.raw,
        (reducer.key row.1 o.item).encode enc blake2b = k ∧ reducer.value row.2 = v := by
  rw [h]
  constructor
  · rintro ⟨⟨ref, slot, era, raw⟩, hunspent, hrow⟩
    obtain ⟨out, address, hdecode, haddress, hkeeps, hrow⟩ := mem_rowsOf.mp hrow
    exact ⟨⟨ref, slot, raw, out, address⟩, ⟨era, hunspent, hdecode, haddress⟩, hkeeps, hrow⟩
  · rintro ⟨o, ⟨era, hunspent, hdecode, haddress⟩, hkeeps, hrow⟩
    exact ⟨_, hunspent, mem_rowsOf.mpr ⟨o.output, o.address, hdecode, haddress, hkeeps, hrow⟩⟩

/-! ### The lists of each reducer -/

theorem separate_utxoCborByAddress (hchain : IsLedgerChain P L genesis chain)
    (filter : Option (List (List Char))) :
    Separate (rowsOf (utxoCborByAddress L filter) L enc blake2b)
      {txo | Produced P genesis chain txo.1 txo.2} := by
  refine separate_rowsOf hchain ?_ ?_
  · intro owner owner' item item' hkey
    exact item_eq_of_addressKey hkey
  · intro address out raw item
    exact List.nodup_singleton _

theorem separate_utxosByAsset (hchain : IsLedgerChain P L genesis chain) :
    Separate (rowsOf (utxosByAsset blake2b) L enc blake2b)
      {txo | Produced P genesis chain txo.1 txo.2} := by
  refine separate_rowsOf hchain ?_ ?_
  · intro asset asset' item item' hkey
    exact (eq_of_assetKey hkey).2
  · intro address out raw item
    cases hassets : out.multiassets with
    | none => simp [utxosByAsset, hassets]
    | some ma =>
      have hkeys : ((utxosByAsset blake2b).rows address out raw).map (fun row =>
          ((utxosByAsset blake2b).key row.1 item).encode enc blake2b) =
            (ma.entries.flatMap fun entry => entry.2.map fun asset => (entry.1, asset.1)).map
              fun asset => (DataKey.utxosByAsset asset.1 asset.2 item).encode enc blake2b := by
        simp [utxosByAsset, hassets, List.map_flatMap, Function.comp_def]
      rw [hkeys]
      exact (nodup_pairs ma.nodup_policies ma.nodup_names).map fun asset asset' hkey => (eq_of_assetKey hkey).1

theorem separate_utxosByPolicy (hchain : IsLedgerChain P L genesis chain) :
    Separate (rowsOf (utxosByPolicy blake2b) L enc blake2b)
      {txo | Produced P genesis chain txo.1 txo.2} := by
  refine separate_rowsOf hchain ?_ ?_
  · intro policyId policyId' item item' hkey
    exact (eq_of_policyKey hkey).2
  · intro address out raw item
    cases hassets : out.multiassets with
    | none => simp [utxosByPolicy, hassets]
    | some ma =>
      have hkeys : ((utxosByPolicy blake2b).rows address out raw).map (fun row =>
          ((utxosByPolicy blake2b).key row.1 item).encode enc blake2b) =
            (ma.entries.map Prod.fst).map
              fun policyId => (DataKey.utxosByPolicy policyId item).encode enc blake2b := by
        simp [utxosByPolicy, hassets, Function.comp_def]
      rw [hkeys]
      exact ma.nodup_policies.map fun policyId policyId' hkey => (eq_of_policyKey hkey).1

theorem holdsCborByAddress_of_lists (hchain : IsLedgerChain P L genesis chain)
    (h : Lists (rowsOf (utxoCborByAddress L none) L enc blake2b) {txo | IsUnspent chain txo}
      store) : HoldsCborByAddress L enc blake2b chain store where
  get k v := by
    rw [get_iff_of_lists h]
    simp [utxoCborByAddress, eq_comm]
  one o o' ho ho' hkey :=
    LedgerOutput.ref_eq_of_item_eq hchain ho ho' (item_eq_of_addressKey hkey)

theorem mem_rows_utxosByAsset {row : (Hash28 × ShortBytes) × (Address × U64)} :
    row ∈ (utxosByAsset blake2b).rows o.address o.output o.raw ↔
      o.Holds row.1.1 row.1.2 row.2.2 ∧ row.2.1 = o.address := by
  obtain ⟨⟨policyId, name⟩, owner, amount⟩ := row
  cases hassets : o.output.multiassets with
  | none => simp [utxosByAsset, LedgerOutput.Holds, hassets]
  | some ma =>
    simp only [utxosByAsset, LedgerOutput.Holds, hassets, List.mem_flatMap, List.mem_map,
      Option.some.injEq, exists_eq_left', Prod.mk.injEq]
    constructor
    · rintro ⟨⟨_, assets⟩, hentry, ⟨_, _⟩, hasset, ⟨rfl, rfl⟩, rfl, rfl⟩
      exact ⟨⟨assets, hentry, hasset⟩, rfl⟩
    · rintro ⟨⟨assets, hentry, hasset⟩, rfl⟩
      exact ⟨_, hentry, _, hasset, ⟨rfl, rfl⟩, rfl, rfl⟩

theorem holdsUtxosByAsset_of_lists (hchain : IsLedgerChain P L genesis chain)
    (h : Lists (rowsOf (utxosByAsset blake2b) L enc blake2b) {txo | IsUnspent chain txo} store) :
    HoldsUtxosByAsset L enc blake2b chain store where
  get k v := by
    rw [get_iff_of_lists h]
    constructor
    · rintro ⟨o, ho, -, ⟨⟨policyId, name⟩, owner, amount⟩, hrow, rfl, rfl⟩
      obtain ⟨hholds, rfl⟩ := mem_rows_utxosByAsset.mp hrow
      exact ⟨o, policyId, name, amount, ho, hholds, rfl, rfl⟩
    · rintro ⟨o, policyId, name, amount, ho, hholds, rfl, rfl⟩
      exact ⟨o, ho, rfl, ((policyId, name), (o.address, amount)),
        mem_rows_utxosByAsset.mpr ⟨hholds, rfl⟩, rfl, rfl⟩
  one o o' policyId policyId' name name' ho ho' hkey := by
    have hkey' : (DataKey.utxosByAsset (policyId, name).1 (policyId, name).2 o.item).encode enc
        blake2b = (DataKey.utxosByAsset (policyId', name').1 (policyId', name').2 o'.item).encode
          enc blake2b := hkey
    obtain ⟨hasset, hitem⟩ := eq_of_assetKey hkey'
    obtain ⟨hpolicy, hname⟩ := Prod.mk.inj hasset
    exact ⟨LedgerOutput.ref_eq_of_item_eq hchain ho ho' hitem, hpolicy, hname⟩

theorem mem_rows_utxosByPolicy {row : Hash28 × (Address × List (ShortBytes × U64))} :
    row ∈ (utxosByPolicy blake2b).rows o.address o.output o.raw ↔
      o.HoldsPolicy row.1 row.2.2 ∧ row.2.1 = o.address := by
  obtain ⟨policyId, owner, assets⟩ := row
  cases hassets : o.output.multiassets with
  | none => simp [utxosByPolicy, LedgerOutput.HoldsPolicy, hassets]
  | some ma =>
    simp only [utxosByPolicy, LedgerOutput.HoldsPolicy, hassets, List.mem_map,
      Option.some.injEq, exists_eq_left', Prod.mk.injEq]
    constructor
    · rintro ⟨⟨_, _⟩, hentry, rfl, rfl, rfl⟩
      exact ⟨hentry, rfl⟩
    · rintro ⟨hentry, rfl⟩
      exact ⟨_, hentry, rfl, rfl, rfl⟩

theorem holdsUtxosByPolicy_of_lists (hchain : IsLedgerChain P L genesis chain)
    (h : Lists (rowsOf (utxosByPolicy blake2b) L enc blake2b) {txo | IsUnspent chain txo} store) :
    HoldsUtxosByPolicy L enc blake2b chain store where
  get k v := by
    rw [get_iff_of_lists h]
    constructor
    · rintro ⟨o, ho, -, ⟨policyId, owner, assets⟩, hrow, rfl, rfl⟩
      obtain ⟨hholds, rfl⟩ := mem_rows_utxosByPolicy.mp hrow
      exact ⟨o, policyId, assets, ho, hholds, rfl, rfl⟩
    · rintro ⟨o, policyId, assets, ho, hholds, rfl, rfl⟩
      exact ⟨o, ho, rfl, (policyId, (o.address, assets)),
        mem_rows_utxosByPolicy.mpr ⟨hholds, rfl⟩, rfl, rfl⟩
  one o o' policyId policyId' ho ho' hkey := by
    have hkey' : (DataKey.utxosByPolicy policyId o.item).encode enc blake2b =
        (DataKey.utxosByPolicy policyId' o'.item).encode enc blake2b := hkey
    obtain ⟨hpolicy, hitem⟩ := eq_of_policyKey hkey'
    exact ⟨LedgerOutput.ref_eq_of_item_eq hchain ho ho' hitem, hpolicy⟩

end Unspent

/-- **The UTxO indexes hold the unspent outputs** of a resolved chain. -/
theorem utxo_indexes_hold_unspent (P : Pallas) (L : Library) (genesis : List GenesisUtxo)
    (policy : RuntimePolicy) (blake2b : Bytes → Hash) (enc : KeyEncoder) (paranoidMode : Bool)
    (now : U64) {chain : List (StoredBlock × BlockContext)}
    (hchain : IsLedgerChain P L genesis (chain.map Prod.fst))
    (hresolved : AllResolved P genesis chain) :
    (∃ store, (utxoCborByAddress L none).indexChain L policy blake2b enc paranoidMode now chain =
        .ok store ∧ HoldsCborByAddress L enc blake2b (chain.map Prod.fst) store) ∧
    (∃ store, (utxosByAsset blake2b).indexChain L policy blake2b enc paranoidMode now chain =
        .ok store ∧ HoldsUtxosByAsset L enc blake2b (chain.map Prod.fst) store) ∧
    ∃ store, (utxosByPolicy blake2b).indexChain L policy blake2b enc paranoidMode now chain =
        .ok store ∧ HoldsUtxosByPolicy L enc blake2b (chain.map Prod.fst) store := by
  refine ⟨?_, ?_, ?_⟩
  · obtain ⟨store, hstore, hlists⟩ :=
      exists_indexChain hchain hresolved (separate_utxoCborByAddress hchain none)
    exact ⟨store, hstore, holdsCborByAddress_of_lists hchain hlists⟩
  · obtain ⟨store, hstore, hlists⟩ :=
      exists_indexChain hchain hresolved (separate_utxosByAsset hchain)
    exact ⟨store, hstore, holdsUtxosByAsset_of_lists hchain hlists⟩
  · obtain ⟨store, hstore, hlists⟩ :=
      exists_indexChain hchain hresolved (separate_utxosByPolicy hchain)
    exact ⟨store, hstore, holdsUtxosByPolicy_of_lists hchain hlists⟩

theorem utxo_indexes_hold_unspent_spending :
    ∃ chain : List (StoredBlock × BlockContext),
      chain.map Prod.fst = Compressor.spendingBlocks.reverse ∧
      AllResolved Compressor.spendingPallas Compressor.sampleGenesis chain ∧
      ∃ store, (utxoCborByAddress sampleLibrary none).indexChain sampleLibrary ⟨none, none, none⟩
          (fun _ => Compressor.sampleHash 0) ⟨1, 2⟩ true 0 chain = .ok store ∧
        HoldsCborByAddress sampleLibrary ⟨1, 2⟩ (fun _ => Compressor.sampleHash 0)
          (chain.map Prod.fst) store := by
  obtain ⟨chain, hblocks, hchain, hresolved⟩ := exists_spendingChain
  obtain ⟨hcbor, -, -⟩ := utxo_indexes_hold_unspent Compressor.spendingPallas sampleLibrary
    Compressor.sampleGenesis ⟨none, none, none⟩ (fun _ => Compressor.sampleHash 0) ⟨1, 2⟩ true 0
    hchain hresolved
  exact ⟨chain, hblocks, hresolved, hcbor⟩

end CardanoIndexer.Reducers
