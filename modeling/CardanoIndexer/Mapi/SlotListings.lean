import CardanoIndexer.Mapi.SlotPages
import CardanoIndexer.Mapi.UtxosByPaymentCreds
import CardanoIndexer.Timbre.Histories

/-!
# Transactions and mints of an asset, UTxOs of an address

A bound `to` at the last slot of all has no successor to end the range with: the range is empty.
-/

namespace CardanoIndexer.Mapi

open Timbre

variable {τ : Type} {address : Address} {κ β : Type}

/-! ## Configuration and parameters -/

structure ApiConfig extends Api where
  txsByPolicy : Option KeyEncoder
  updatesByPolicy : Option KeyEncoder
  txsByPayCred : Option KeyEncoder
  timeoutDuration : ℕ

inductive ParsedAddress where
  | payment (address : Address)
  | stake

structure AddressEnv (τ : Type) extends Env τ where
  addressFromStr : Bytes → Option ParsedAddress
  containsAsset : τ → Hash28 → Bytes → Bool

def decodeAsset (hexPolicyAndName : List Char) : Except Failure (Hash28 × Bytes) :=
  match Bytes.unhex hexPolicyAndName with
  | none => .error (.badRequest
      "Invalid encoding of asset parameter: asset must be concatenation of hex encoded policy ID and asset name")
  | some decodedConcat =>
    if decodedConcat.length < 28 ∨ 28 + 32 < decodedConcat.length then .error (.badRequest
      "Invalid length of asset parameter: asset must be concatenation of hex encoded policy ID and asset name")
    else do
      let policy ← orPanic (arrayAt 28 decodedConcat 0)
      return (policy, decodedConcat.drop 28)

def decodePaymentAddress (env : AddressEnv τ) (text : Bytes) : Except Failure Address :=
  match env.addressFromStr text with
  | none => .error (.badRequest "Could not decode address")
  | some .stake => .error (.badRequest "This endpoint does not support reward addresses")
  | some (.payment address) => .ok address

structure PaginatedResponse (β : Type) where
  data : List β
  lastUpdated : LastUpdated
  nextCursor : Option Bytes

def PaginatedResponse.page {β : Type} (response : PaginatedResponse β) : List β × Option Bytes :=
  (response.data, response.nextCursor)

def SlotListing.respond {κ β : Type} (listing : SlotListing κ β) (env : Env τ) (store : Store)
    (encoder : KeyEncoder) (params : SlotPagination) (attempts : Attempts) :
    Except Failure (PaginatedResponse β) := do
  let parsed ← parseSlotPageParams listing.slotOf listing.decodeCursor params
  let lastUpdated ← getLastUpdated env store encoder
  let (data, nextCursor) ← listing.page store parsed attempts
  return ⟨data, lastUpdated, nextCursor⟩

/-! ## Transactions of an asset -/

structure TimestampedTransaction where
  txHash : List Char
  slot : U64
  timestamp : String
  deriving DecidableEq

def policyTxContainsAsset (assetName : Bytes) (kv : Entry) : Bool :=
  (decodeTxsByPolicyValue kv.2).any fun value => assetName ∈ value.2

def readAssetTx (env : Env τ) (kv : Entry) :
    Except Failure (TxsByPolicyCursor × TimestampedTransaction) := do
  let key ← orPanic (decodeTxsByPolicyKey kv.1)
  let (txHash, _) ← orPanic (decodeTxsByPolicyValue kv.2)
  let timestamp ← orPanic (env.slotTimestamp key.slot)
  return (⟨key.slot, key.blkIndex⟩, ⟨Bytes.hex txHash.toList, key.slot, timestamp⟩)

def assetTxsListing (env : Env τ) (config : ApiConfig) (encoder : KeyEncoder) (policy : Hash28)
    (name : Bytes) : SlotListing TxsByPolicyCursor TimestampedTransaction where
  slotOf := TxsByPolicyCursor.slot
  decodeCursor := decodeTxsByPolicyCursor env.b64Decode
  encodeCursor := encodeTxsByPolicyCursor env.b64Encode
  range := encoder.encodeTxsByPolicyRange policy
  filter := some (policyTxContainsAsset name)
  timeout := some config.timeoutDuration
  read := readAssetTx env

def assetTxs (env : Env τ) (config : ApiConfig) (store : Store) (asset : List Char)
    (params : SlotPagination) (attempts : Attempts) :
    Except Failure (PaginatedResponse TimestampedTransaction) := do
  let encoder ← orInternal config.txsByPolicy
  let (policy, name) ← decodeAsset asset
  (assetTxsListing env config encoder policy name).respond env store encoder params attempts

/-! ## Mints of an asset -/

structure MintTransaction where
  txHash : List Char
  slot : U64
  timestamp : String
  amount : ℤ
  deriving DecidableEq

def policyUpdateContainsAsset (assetName : Bytes) (kv : Entry) : Bool :=
  (decodeUpdatesByPolicyValue kv.2).any fun value => assetName ∈ value.2.map Prod.fst

def readAssetMint (env : Env τ) (name : Bytes) (kv : Entry) :
    Except Failure (UpdatesByPolicyCursor × MintTransaction) := do
  let key ← orPanic (decodeUpdatesByPolicyKey kv.1)
  let (txHash, assets) ← orPanic (decodeUpdatesByPolicyValue kv.2)
  -- "mint tx contents error"
  let (_, amount) ← orInternal (assets.find? fun asset => asset.1 = name)
  let timestamp ← orPanic (env.slotTimestamp key.slot)
  return (⟨key.slot, key.blkIndex⟩, ⟨Bytes.hex txHash.toList, key.slot, timestamp, amount.toInt⟩)

def assetMintsListing (env : Env τ) (config : ApiConfig) (encoder : KeyEncoder) (policy : Hash28)
    (name : Bytes) : SlotListing UpdatesByPolicyCursor MintTransaction where
  slotOf := TxsByPolicyCursor.slot
  decodeCursor := decodeUpdatesByPolicyCursor env.b64Decode
  encodeCursor := encodeUpdatesByPolicyCursor env.b64Encode
  range := encoder.encodeUpdatesByPolicyRange policy
  filter := some (policyUpdateContainsAsset name)
  timeout := some config.timeoutDuration
  read := readAssetMint env name

def assetMints (env : Env τ) (config : ApiConfig) (store : Store) (asset : List Char)
    (params : SlotPagination) (attempts : Attempts) :
    Except Failure (PaginatedResponse MintTransaction) := do
  let encoder ← orInternal config.updatesByPolicy
  let (policy, name) ← decodeAsset asset
  (assetMintsListing env config encoder policy name).respond env store encoder params attempts

/-! ## UTxOs of an address -/

structure UtxoWithSlot (τ : Type) where
  txHash : Hash
  index : U64
  slot : U64
  txo : τ
  deriving DecidableEq

def addressUtxoContainsAsset (env : AddressEnv τ) (policy : Hash28) (name : Bytes) (kv : Entry) :
    Bool :=
  (env.decodeTxo kv.2).any fun txo => env.containsAsset txo policy name

def readAddressUtxo (env : Env τ) (kv : Entry) :
    Except Failure (UtxosByAddressCursor × UtxoWithSlot τ) := do
  let key ← orPanic (decodeUtxosByAddressKey env.byronFromBytes kv.1)
  let txo ← orInternal (env.decodeTxo kv.2)
  return (⟨key.slot, key.utxoHash, key.utxoIndex⟩, ⟨key.utxoHash, key.utxoIndex, key.slot, txo⟩)

def utxosByAddressListing (env : AddressEnv τ) (config : ApiConfig) (blake2b : Bytes → Hash)
    (encoder : KeyEncoder) (address : Address) (filterAsset : Option (Hash28 × Bytes)) :
    SlotListing UtxosByAddressCursor (UtxoWithSlot τ) where
  slotOf := UtxosByAddressCursor.slot
  decodeCursor := decodeUtxosByAddressCursor env.b64Decode
  encodeCursor := encodeAddressUtxosCursor env.b64Encode
  range := encoder.encodeAddressUtxosRange blake2b address
  filter := filterAsset.map fun asset => addressUtxoContainsAsset env asset.1 asset.2
  timeout := filterAsset.map fun _ => config.timeoutDuration
  read := readAddressUtxo env.toEnv

structure UtxoParams where
  resolveDatums : Option Bool
  asset : Option (List Char)

structure UtxoResponse (τ : Type) extends PaginatedResponse (UtxoWithSlot τ) where
  resolvedDatums : Option (List (Hash × Bytes))

def decodeFilterAsset : Option (List Char) → Except Failure (Option (Hash28 × Bytes))
  | some text => do
    let asset ← decodeAsset text
    return some asset
  | none => .ok none

def utxosByAddress (env : AddressEnv τ) (config : ApiConfig) (blake2b : Bytes → Hash)
    (store : Store) (address : Bytes) (params : UtxoParams) (pageParams : SlotPagination)
    (attempts : Attempts) : Except Failure (UtxoResponse τ) := do
  let encoder ← orInternal config.utxoCborByAddress
  let address ← decodePaymentAddress env address
  let filterAsset ← decodeFilterAsset params.asset
  let response ← (utxosByAddressListing env config blake2b encoder address filterAsset).respond
    env.toEnv store encoder pageParams attempts
  -- the datums are read whether or not they are asked for
  let datumEncoder ← orInternal config.datumByHash
  let datums := fetchDatums store datumEncoder
    (response.data.filterMap fun utxo => env.datumHash utxo.txo)
  return ⟨response, if params.resolveDatums.getD false then some datums else none⟩

/-! ## What is listed -/

structure IsListedStore (env : Env τ) (blake2b : Bytes → Hash) (store : Store) : Prop
    extends IsStore env blake2b store where
  exists_tx : ∀ {enc policy place v},
    store.get ((History.txs.key policy place).encode enc blake2b) = some v →
      ∃ txHash names, v = encodeTxsByPolicyValue txHash names
  exists_update : ∀ {enc policy place v},
    store.get ((History.updates.key policy place).encode enc blake2b) = some v →
      ∃ txHash assets, v = encodeUpdatesByPolicyValue txHash assets
  exists_timestamp : ∀ {history : History} {enc policy place v},
    store.get ((history.key policy place).encode enc blake2b) = some v →
      ∃ timestamp, env.slotTimestamp place.slot = some timestamp
  exists_txo : ∀ {owner : UtxoOwner} {enc item v},
    store.get ((owner.key item).encode enc blake2b) = some v → ∃ txo, env.decodeTxo v = some txo

def addressOwner : Address → UtxoOwner
  | .shelley address => .shelley address
  | .byron address => .byron address

section Items

variable (env : Env τ) (blake2b : Bytes → Hash) (store : Store) (encoder : KeyEncoder)

def ShowsTx (place : TxsByPolicyCursor) (v : Bytes) (shown : TimestampedTransaction) : Prop :=
  ∃ value timestamp, decodeTxsByPolicyValue v = some value ∧
    env.slotTimestamp place.slot = some timestamp ∧
    shown = ⟨Bytes.hex value.1.toList, place.slot, timestamp⟩

def ShowsMint (name : Bytes) (place : TxsByPolicyCursor) (v : Bytes) (shown : MintTransaction) :
    Prop :=
  ∃ value timestamp asset, decodeUpdatesByPolicyValue v = some value ∧
    env.slotTimestamp place.slot = some timestamp ∧
    value.2.find? (fun asset => asset.1 = name) = some asset ∧
    shown = ⟨Bytes.hex value.1.toList, place.slot, timestamp, asset.2.toInt⟩

def ShowsUtxo (place : UtxosByAddressCursor) (v : Bytes) (shown : UtxoWithSlot τ) : Prop :=
  ∃ txo, env.decodeTxo v = some txo ∧ shown = ⟨place.uHash, place.uIndex, place.slot, txo⟩

def IsAssetTx (policy : Hash28) (name : Bytes) (place : TxsByPolicyCursor)
    (shown : TimestampedTransaction) : Prop :=
  ∃ txHash names timestamp,
    store.get (encoder.encodeTxsByPolicyKey policy place.slot place.blkIndex) =
      some (encodeTxsByPolicyValue txHash names) ∧
    name ∈ names.map ShortBytes.bytes ∧ env.slotTimestamp place.slot = some timestamp ∧
    shown = ⟨Bytes.hex txHash.toList, place.slot, timestamp⟩

def IsAssetMint (policy : Hash28) (name : Bytes) (place : TxsByPolicyCursor)
    (shown : MintTransaction) : Prop :=
  ∃ txHash assets timestamp asset,
    store.get (encoder.encodeUpdatesByPolicyKey policy place.slot place.blkIndex) =
      some (encodeUpdatesByPolicyValue txHash assets) ∧
    assets.find? (fun asset => asset.1.bytes = name) = some asset ∧
    env.slotTimestamp place.slot = some timestamp ∧
    shown = ⟨Bytes.hex txHash.toList, place.slot, timestamp, asset.2.toInt⟩

def IsAddressUtxo (env : AddressEnv τ) (address : Address) (filterAsset : Option (Hash28 × Bytes))
    (place : UtxosByAddressCursor) (shown : UtxoWithSlot τ) : Prop :=
  ∃ v txo, store.get (((addressOwner address).key place).encode encoder blake2b) = some v ∧
    env.decodeTxo v = some txo ∧
    (∀ asset, filterAsset = some asset → env.containsAsset txo asset.1 asset.2 = true) ∧
    shown = ⟨place.uHash, place.uIndex, place.slot, txo⟩

end Items

/-! ## The listings are lawful -/

variable {listing : SlotListing κ β}

section Laws

variable {env : Env τ} {blake2b : Bytes → Hash} {store : Store}

theorem mem_scan_ownerRange (hstore : IsStore env blake2b store) (encoder : KeyEncoder)
    (owner : UtxoOwner) {kv : Entry} :
    kv ∈ store.scan (owner.range encoder blake2b none none).start
        (owner.range encoder blake2b none none).stop ↔
      store.get kv.1 = some kv.2 ∧ ∃ item, kv.1 = (owner.key item).encode encoder blake2b := by
  obtain ⟨k, v⟩ := kv
  rw [SortedMap.mem_scan, owner.range_eq]
  refine and_congr_right fun hget => ?_
  obtain ⟨enc, key, rfl⟩ := hstore.exists_key hget
  have hcontains : (ownerRange utxoItemBytes (owner.front encoder blake2b) none none).Contains
      (key.encode enc blake2b) ↔ ∃ item, key.encode enc blake2b =
        (owner.key item).encode encoder blake2b ∧
          IsAbove UtxosByAddressCursor.slot UtxosByAddressCursor.rank none item ∧
          IsBelow UtxosByAddressCursor.slot UtxosByAddressCursor.rank none item :=
    contains_ownerRange_iff (fun item => rfl) (fun item item' => utxoItemBytes_lt_iff) (by simp)
      (fun item => owner.encode_key encoder blake2b item)
      fun rest heq => UtxoOwner.exists_item_of_encode_eq heq
  rw [KeyRange.Contains, or_iff_right (by simp [ownerRange])] at hcontains
  simpa [IsAbove, IsBelow] using hcontains

theorem SlotListing.Law.of_keys {front : Bytes} {itemBytes tail : κ → Bytes}
    {keyOf : κ → Bytes} {Shows : κ → Bytes → β → Prop}
    (hrange : ∀ lower upper, listing.range lower upper = ownerRange itemBytes front lower upper)
    (hitem : ∀ place, itemBytes place = u64Bytes (listing.slotOf place) ++ tail place)
    (hkeyOf : ∀ place, keyOf place = front ++ (breakByte :: itemBytes place))
    (hkey : ∀ {rest v}, store.get (front ++ (breakByte :: rest)) = some v →
      ∃ place, rest = itemBytes place)
    (hdecode : ∀ place, listing.decodeCursor (listing.encodeCursor place) = .ok place)
    (hshown : ∀ {place v}, store.get (keyOf place) = some v → listing.Passes (keyOf place, v) →
      ∃ shown, listing.read (keyOf place, v) = .ok (place, shown) ∧
        ∀ other, Shows place v other ↔ other = shown) : listing.Law store keyOf Shows := by
  have hrank : ∀ a b, itemBytes a < itemBytes b ↔ keyOf a < keyOf b := by
    intro a b
    rw [hkeyOf, hkeyOf, Bytes.append_lt_append_left_iff, Bytes.cons_lt_cons_iff]
    simp
  refine ⟨hdecode, fun {a b} hlt => ?_, fun {lower upper} hupper {k v} hget => ?_, hshown⟩
  · rw [← hrank, hitem, hitem, Bytes.append_lt_append_iff (by simp), u64Bytes_lt_iff] at hlt
    rcases hlt with hlt | ⟨heq, -⟩
    · exact hlt.le
    · rw [u64Bytes_injective heq]
  · have hstop : (ownerRange itemBytes front lower upper).stop ≠ [] := by
      rcases upper with _ | _ | _ <;> simp [ownerRange]
    rw [hrange, ← contains_ownerRange_iff hitem hrank hupper hkeyOf
      fun rest hrest => hkey (hrest ▸ hget), KeyRange.Contains, or_iff_right hstop]

theorem law_assetTxsListing (hb64 : ∀ bytes, env.b64Decode (env.b64Encode bytes) = some bytes)
    (hstore : IsListedStore env blake2b store) (config : ApiConfig) (encoder : KeyEncoder)
    (policy : Hash28) (name : Bytes) :
    (assetTxsListing env config encoder policy name).Law store
      (fun place => (History.txs.key policy place).encode encoder blake2b) (ShowsTx env) := by
  refine SlotListing.Law.of_keys (History.txs.range_eq encoder policy) (fun place => rfl)
    (fun place => History.txs.encode_key encoder blake2b policy place)
    (fun hget => let ⟨_, _, heq⟩ := hstore.exists_key hget
      History.exists_item_of_encode_eq heq.symm)
    (decodeTxsByPolicyCursor_encode hb64) fun {place v} hget _ => ?_
  obtain ⟨txHash, names, rfl⟩ := hstore.exists_tx hget
  obtain ⟨timestamp, htimestamp⟩ := hstore.exists_timestamp hget
  have hkey : decodeTxsByPolicyKey ((History.txs.key policy place).encode encoder blake2b) =
      some ⟨policy, place.slot, place.blkIndex⟩ :=
    decodePolicyHistoryKey_encode encoder reducerTxsByPolicy policy place.slot place.blkIndex
  have hvalue := decodeTxsByPolicyValue_encode txHash names
  refine ⟨⟨Bytes.hex txHash.toList, place.slot, timestamp⟩, ?_, ?_⟩
  · simp [assetTxsListing, readAssetTx, hkey, hvalue, htimestamp, orPanic, Except.ok_bind]
  · simp [ShowsTx, hvalue, htimestamp]

theorem law_assetMintsListing (hb64 : ∀ bytes, env.b64Decode (env.b64Encode bytes) = some bytes)
    (hstore : IsListedStore env blake2b store) (config : ApiConfig) (encoder : KeyEncoder)
    (policy : Hash28) (name : Bytes) :
    (assetMintsListing env config encoder policy name).Law store
      (fun place => (History.updates.key policy place).encode encoder blake2b)
      (ShowsMint env name) := by
  refine SlotListing.Law.of_keys (History.updates.range_eq encoder policy) (fun place => rfl)
    (fun place => History.updates.encode_key encoder blake2b policy place)
    (fun hget => let ⟨_, _, heq⟩ := hstore.exists_key hget
      History.exists_item_of_encode_eq heq.symm)
    (decodeTxsByPolicyCursor_encode hb64) fun {place v} hget hpasses => ?_
  obtain ⟨timestamp, htimestamp⟩ := hstore.exists_timestamp hget
  obtain ⟨txHash, decoded, hvalue⟩ : ∃ txHash decoded,
      decodeUpdatesByPolicyValue v = some (txHash, decoded) := by
    obtain ⟨txHash, assets, rfl⟩ := hstore.exists_update hget
    exact ⟨_, _, decodeUpdatesByPolicyValue_encode txHash assets⟩
  have hkey : decodeUpdatesByPolicyKey
      ((History.updates.key policy place).encode encoder blake2b) =
      some ⟨policy, place.slot, place.blkIndex⟩ :=
    decodePolicyHistoryKey_encode encoder reducerUpdatesByPolicy policy place.slot place.blkIndex
  -- the filter has found the asset
  have hname : name ∈ decoded.map Prod.fst := by
    have hfilter := hpasses _ rfl
    rw [policyUpdateContainsAsset, hvalue, Option.any_some] at hfilter
    exact of_decide_eq_true hfilter
  obtain ⟨found, hfound, hname⟩ := List.mem_map.mp hname
  obtain ⟨asset, hasset⟩ := Option.isSome_iff_exists.mp (List.find?_isSome
    (p := fun asset : Bytes × U64 => decide (asset.1 = name)).mpr
      ⟨found, hfound, decide_eq_true hname⟩)
  refine ⟨⟨Bytes.hex txHash.toList, place.slot, timestamp, asset.2.toInt⟩, ?_, ?_⟩
  · simp [assetMintsListing, readAssetMint, hkey, hvalue, htimestamp, hasset, orPanic, orInternal,
      Except.ok_bind]
  · obtain ⟨first, amount⟩ := asset
    simp [ShowsMint, hvalue, htimestamp, hasset]

theorem law_utxosByAddress_of_keys {env : AddressEnv τ}
    (hb64 : ∀ bytes, env.b64Decode (env.b64Encode bytes) = some bytes) (config : ApiConfig)
    (encoder : KeyEncoder) (hbyron : ∀ a, address = .byron a → env.byronFromBytes a.toVec = some a)
    (hkey : ∀ {rest v}, store.get ((addressOwner address).front encoder blake2b ++
      (breakByte :: rest)) = some v → ∃ place, rest = utxoItemBytes place)
    (htxos : ∀ {place v}, store.get (((addressOwner address).key place).encode encoder blake2b) =
      some v → ∃ txo, env.decodeTxo v = some txo) (filterAsset : Option (Hash28 × Bytes)) :
    (utxosByAddressListing env config blake2b encoder address filterAsset).Law store
      (fun place => ((addressOwner address).key place).encode encoder blake2b)
      (ShowsUtxo env.toEnv) := by
  have hrange : ∀ lower upper,
      (utxosByAddressListing env config blake2b encoder address filterAsset).range lower upper =
        ownerRange utxoItemBytes ((addressOwner address).front encoder blake2b) lower upper := by
    intro lower upper
    rw [← UtxoOwner.range_eq]
    cases address <;> rfl
  refine SlotListing.Law.of_keys hrange (fun place => rfl)
    (fun place => (addressOwner address).encode_key encoder blake2b place) hkey
    (decodeUtxosByAddressCursor_encode hb64) fun {place v} hget _ => ?_
  obtain ⟨txo, htxo⟩ := htxos hget
  obtain ⟨decoded, hkey⟩ : ∃ decoded, decodeUtxosByAddressKey env.byronFromBytes
      (((addressOwner address).key place).encode encoder blake2b) =
        some ⟨decoded, place.slot, place.uHash, place.uIndex⟩ := by
    cases address with
    | shelley a => exact ⟨_, decodeUtxosByAddressKey_encode _ encoder a place⟩
    | byron a => exact ⟨_, decodeUtxosByAddressKey_encode_byron encoder blake2b (hbyron a rfl) place⟩
  refine ⟨⟨place.uHash, place.uIndex, place.slot, txo⟩, ?_, ?_⟩
  · simp [utxosByAddressListing, readAddressUtxo, hkey, htxo, orPanic, orInternal, Except.ok_bind]
  · simp [ShowsUtxo, htxo]

theorem law_utxosByAddressListing {env : AddressEnv τ}
    (hb64 : ∀ bytes, env.b64Decode (env.b64Encode bytes) = some bytes)
    (hstore : IsListedStore env.toEnv blake2b store) (config : ApiConfig) (encoder : KeyEncoder)
    (hbyron : ∀ a, address = .byron a → env.byronFromBytes a.toVec = some a)
    (filterAsset : Option (Hash28 × Bytes)) :
    (utxosByAddressListing env config blake2b encoder address filterAsset).Law store
      (fun place => ((addressOwner address).key place).encode encoder blake2b)
      (ShowsUtxo env.toEnv) := by
  refine law_utxosByAddress_of_keys hb64 config encoder hbyron (fun {rest v} hget => ?_)
    hstore.exists_txo filterAsset
  obtain ⟨enc, key, heq⟩ := hstore.exists_key hget
  exact UtxoOwner.exists_item_of_encode_eq heq.symm

end Laws

/-! ## All entries, page by page -/

section Pages

variable {blake2b : Bytes → Hash} {store : Store} {config : ApiConfig} {encoder : KeyEncoder}
  {params : SlotPagination} {count : ℕ} {filterAsset : Option (Hash28 × Bytes)} {name k : Bytes}
  {policy : Hash28} {place : TxsByPolicyCursor} {asset : List Char} {txHash : Hash}

theorem SlotListing.map_page_respond {env : Env τ} {lastUpdated : LastUpdated}
    (hparams : params.Accepted count)
    (hupdated : getLastUpdated env store encoder = .ok lastUpdated) {text : Option Bytes}
    {cursor : Option κ} (htext : pageCursor listing.decodeCursor text = .ok cursor)
    (hcursor : ∀ c, cursor = some c → params.Allows (listing.slotOf c)) (attempts : Attempts) :
    (listing.respond env store encoder { params with cursor := text } attempts).map
        PaginatedResponse.page =
      listing.page store ⟨count, params.order.getD .asc,
        (cursorBounds (params.order.getD .asc) params cursor).1,
        (cursorBounds (params.order.getD .asc) params cursor).2⟩ attempts := by
  rw [respond, parseSlotPageParams_eq hparams htext hcursor, Except.ok_bind, hupdated,
    Except.ok_bind]
  cases listing.page store _ attempts with
  | error error => rfl
  | ok page => rfl

theorem policyTxContainsAsset_encode {names : List ShortBytes} :
    policyTxContainsAsset name (k, encodeTxsByPolicyValue txHash names) = true ↔
      name ∈ names.map ShortBytes.bytes := by
  rw [policyTxContainsAsset, decodeTxsByPolicyValue_encode, Option.any_some, decide_eq_true_iff]

theorem isAssetTx_iff {env : Env τ} (hstore : IsListedStore env blake2b store)
    {shown : TimestampedTransaction} :
    params.Allows place.slot ∧ IsAssetTx env store encoder policy name place shown ↔
      ∃ v, (assetTxsListing env config encoder policy name).Lists store
        (fun place => (History.txs.key policy place).encode encoder blake2b) (ShowsTx env) params
        ⟨place, v, shown⟩ := by
  constructor
  · rintro ⟨hallows, txHash, names, timestamp, hget, hname, htimestamp, hshown⟩
    have hvalue := decodeTxsByPolicyValue_encode txHash names
    refine ⟨_, hget, hallows, fun f hf => ?_, _, timestamp, hvalue, htimestamp, hshown⟩
    cases hf
    exact policyTxContainsAsset_encode.mpr hname
  · rintro ⟨v, hget, hallows, hpasses, value, timestamp, hvalue, htimestamp, hshown⟩
    obtain ⟨txHash, names, rfl⟩ := hstore.exists_tx hget
    rw [decodeTxsByPolicyValue_encode] at hvalue
    cases hvalue
    have hname := policyTxContainsAsset_encode.mp (hpasses _ rfl)
    exact ⟨hallows, txHash, names, timestamp, hget, hname, htimestamp, hshown⟩

theorem find?_map_bytes (assets : List (ShortBytes × U64)) (name : Bytes) :
    (assets.map fun asset => (asset.1.bytes, asset.2)).find? (fun asset => asset.1 = name) =
      (assets.find? fun asset => asset.1.bytes = name).map fun asset =>
        (asset.1.bytes, asset.2) := by
  rw [List.find?_map]
  rfl

theorem policyUpdateContainsAsset_encode {assets : List (ShortBytes × U64)} :
    policyUpdateContainsAsset name (k, encodeUpdatesByPolicyValue txHash assets) = true ↔
      ∃ asset ∈ assets, asset.1.bytes = name := by
  rw [policyUpdateContainsAsset, decodeUpdatesByPolicyValue_encode, Option.any_some,
    decide_eq_true_iff, List.map_map, List.mem_map]
  rfl

theorem isAssetMint_iff {env : Env τ} (hstore : IsListedStore env blake2b store)
    {shown : MintTransaction} :
    params.Allows place.slot ∧ IsAssetMint env store encoder policy name place shown ↔
      ∃ v, (assetMintsListing env config encoder policy name).Lists store
        (fun place => (History.updates.key policy place).encode encoder blake2b)
        (ShowsMint env name) params ⟨place, v, shown⟩ := by
  constructor
  · rintro ⟨hallows, txHash, assets, timestamp, asset, hget, hasset, htimestamp, hshown⟩
    have hvalue := decodeUpdatesByPolicyValue_encode txHash assets
    refine ⟨_, hget, hallows, fun f hf => ?_, _, timestamp, _, hvalue, htimestamp,
      (find?_map_bytes assets name).trans (congrArg _ hasset), hshown⟩
    cases hf
    exact policyUpdateContainsAsset_encode.mpr
      ⟨asset, List.mem_of_find?_eq_some hasset, by simpa using List.find?_some hasset⟩
  · rintro ⟨v, hget, hallows, -, value, timestamp, found, hvalue, htimestamp, hfound, hshown⟩
    obtain ⟨txHash, assets, rfl⟩ := hstore.exists_update hget
    rw [decodeUpdatesByPolicyValue_encode] at hvalue
    cases hvalue
    rw [find?_map_bytes] at hfound
    obtain ⟨asset, hasset, rfl⟩ := Option.map_eq_some_iff.mp hfound
    exact ⟨hallows, txHash, assets, timestamp, asset, hget, hasset, htimestamp, hshown⟩

theorem isAddressUtxo_iff {env : AddressEnv τ} {place : UtxosByAddressCursor}
    {shown : UtxoWithSlot τ} :
    params.Allows place.slot ∧
        IsAddressUtxo blake2b store encoder env address filterAsset place shown ↔
      ∃ v, (utxosByAddressListing env config blake2b encoder address filterAsset).Lists store
        (fun place => ((addressOwner address).key place).encode encoder blake2b)
        (ShowsUtxo env.toEnv) params ⟨place, v, shown⟩ := by
  have hpasses : ∀ {k v txo}, env.decodeTxo v = some txo →
      ((utxosByAddressListing env config blake2b encoder address filterAsset).Passes (k, v) ↔
        ∀ asset, filterAsset = some asset → env.containsAsset txo asset.1 asset.2 = true) := by
    intro k v txo htxo
    cases filterAsset with
    | none => simp [SlotListing.Passes, utxosByAddressListing]
    | some asset =>
      simp [SlotListing.Passes, utxosByAddressListing, addressUtxoContainsAsset, htxo]
  constructor
  · rintro ⟨hallows, v, txo, hget, htxo, hfilter, hshown⟩
    exact ⟨v, hget, hallows, (hpasses htxo).mpr hfilter, txo, htxo, hshown⟩
  · rintro ⟨v, hget, hallows, hfilter, txo, htxo, hshown⟩
    exact ⟨hallows, v, txo, hget, htxo, (hpasses htxo).mp hfilter, hshown⟩

theorem listsAll_of_law {env : AddressEnv τ} {lastUpdated : LastUpdated}
    (law : (utxosByAddressListing env config blake2b encoder address filterAsset).Law store
      (fun place => ((addressOwner address).key place).encode encoder blake2b)
      (ShowsUtxo env.toEnv))
    (hupdated : getLastUpdated env.toEnv store encoder = .ok lastUpdated)
    (hparams : params.Accepted count) (hto : ∀ u, params.toSlot = some u → u.toNat < 2 ^ 64 - 1)
    {attempts : ℕ → Attempts} (hone : ∀ n, (attempts n).responses.OneFits)
    (hencoder : config.utxoCborByAddress = some encoder) (hdatums : config.datumByHash.isSome)
    {text : Bytes} (haddress : decodePaymentAddress env text = .ok address)
    {utxoParams : UtxoParams} (hfilter : decodeFilterAsset utxoParams.asset = .ok filterAsset) :
    ListsAll (params.order.getD .asc) UtxosByAddressCursor.rank
      (fun place shown => params.Allows place.slot ∧
        IsAddressUtxo blake2b store encoder env address filterAsset place shown)
      (fun error => ∃ n, (attempts n).FailsWith (filterAsset.map fun _ => config.timeoutDuration)
        error)
      fun n cursor => (utxosByAddress env config blake2b store text utxoParams
        { params with cursor := cursor } (attempts n)).map fun response =>
          response.toPaginatedResponse.page := by
  obtain ⟨datumEncoder, hdatums⟩ := Option.isSome_iff_exists.mp hdatums
  refine law.listsAll hto (fun a b => ?_) (fun place shown => isAddressUtxo_iff)
    (pos_of_pageCount hparams.count_eq) hone fun n text cursor htext hallows => ?_
  · rw [UtxoOwner.encode_key, UtxoOwner.encode_key, Bytes.append_lt_append_left_iff,
      Bytes.cons_lt_cons_iff, utxoItemBytes_lt_iff]
    simp
  rw [utxosByAddress, hencoder, orInternal, Except.ok_bind, haddress, Except.ok_bind, hfilter,
    Except.ok_bind, ← SlotListing.map_page_respond hparams hupdated htext hallows]
  cases SlotListing.respond _ env.toEnv store encoder _ (attempts n) with
  | error error => rfl
  | ok response =>
    rw [Except.ok_bind, hdatums]
    rfl

variable {env : AddressEnv τ} (hb64 : ∀ bytes, env.b64Decode (env.b64Encode bytes) = some bytes)
  (hstore : IsListedStore env.toEnv blake2b store)
  (hcursor : (store.get encoder.encodeCursorKey).isSome) (hparams : params.Accepted count)
  (hto : ∀ u, params.toSlot = some u → u.toNat < 2 ^ 64 - 1)
  {attempts : ℕ → Attempts} (hone : ∀ n, (attempts n).responses.OneFits)

include hb64 hstore hcursor hparams hto hone

theorem listsAll_assetTxs (hencoder : config.txsByPolicy = some encoder)
    (hasset : decodeAsset asset = .ok (policy, name)) :
    ListsAll (params.order.getD .asc) TxsByPolicyCursor.rank
      (fun place shown => params.Allows place.slot ∧
        IsAssetTx env.toEnv store encoder policy name place shown)
      (fun error => ∃ n, (attempts n).FailsWith (some config.timeoutDuration) error)
      fun n cursor => (assetTxs env.toEnv config store asset { params with cursor := cursor }
        (attempts n)).map PaginatedResponse.page := by
  obtain ⟨lastUpdated, hupdated⟩ := exists_getLastUpdated hstore.toIsStore hcursor
  refine (law_assetTxsListing hb64 hstore config encoder policy name).listsAll hto
    (fun a b => History.encode_key_lt_iff) (fun place shown => isAssetTx_iff hstore)
    (pos_of_pageCount hparams.count_eq) hone fun n text cursor htext hallows => ?_
  rw [assetTxs, hencoder, orInternal, Except.ok_bind, hasset, Except.ok_bind]
  exact SlotListing.map_page_respond hparams hupdated htext hallows _

theorem listsAll_assetMints (hencoder : config.updatesByPolicy = some encoder)
    (hasset : decodeAsset asset = .ok (policy, name)) :
    ListsAll (params.order.getD .asc) TxsByPolicyCursor.rank
      (fun place shown => params.Allows place.slot ∧
        IsAssetMint env.toEnv store encoder policy name place shown)
      (fun error => ∃ n, (attempts n).FailsWith (some config.timeoutDuration) error)
      fun n cursor => (assetMints env.toEnv config store asset { params with cursor := cursor }
        (attempts n)).map PaginatedResponse.page := by
  obtain ⟨lastUpdated, hupdated⟩ := exists_getLastUpdated hstore.toIsStore hcursor
  refine (law_assetMintsListing hb64 hstore config encoder policy name).listsAll hto
    (fun a b => History.encode_key_lt_iff) (fun place shown => isAssetMint_iff hstore)
    (pos_of_pageCount hparams.count_eq) hone fun n text cursor htext hallows => ?_
  rw [assetMints, hencoder, orInternal, Except.ok_bind, hasset, Except.ok_bind]
  exact SlotListing.map_page_respond hparams hupdated htext hallows _

theorem listsAll_utxosByAddress (hencoder : config.utxoCborByAddress = some encoder)
    (hdatums : config.datumByHash.isSome) {text : Bytes}
    (haddress : decodePaymentAddress env text = .ok address)
    (hbyron : ∀ a, address = .byron a → env.byronFromBytes a.toVec = some a)
    (utxoParams : UtxoParams) (hfilter : decodeFilterAsset utxoParams.asset = .ok filterAsset) :
    ListsAll (params.order.getD .asc) UtxosByAddressCursor.rank
      (fun place shown => params.Allows place.slot ∧
        IsAddressUtxo blake2b store encoder env address filterAsset place shown)
      (fun error => ∃ n, (attempts n).FailsWith (filterAsset.map fun _ => config.timeoutDuration)
        error)
      fun n cursor => (utxosByAddress env config blake2b store text utxoParams
        { params with cursor := cursor } (attempts n)).map fun response =>
          response.toPaginatedResponse.page := by
  obtain ⟨lastUpdated, hupdated⟩ := exists_getLastUpdated hstore.toIsStore hcursor
  exact listsAll_of_law (law_utxosByAddressListing hb64 hstore config encoder hbyron filterAsset)
    hupdated hparams hto hone hencoder hdatums haddress hfilter

end Pages

def plainAddressEnv : AddressEnv Bytes where
  toEnv := plainEnv
  addressFromStr _ := some (.payment (.shelley otherAddress))
  containsAsset _ _ _ := true

def plainConfig : ApiConfig where
  toApi := plainApi
  txsByPolicy := some ⟨1, 2⟩
  updatesByPolicy := some ⟨1, 2⟩
  txsByPayCred := some ⟨1, 2⟩
  timeoutDuration := 10

def plainPolicy : Hash28 := Vector.replicate 28 0

def plainAsset : List Char := List.replicate 56 '0'

def plainTxKey : Bytes := KeyEncoder.encodeTxsByPolicyKey ⟨1, 2⟩ plainPolicy 5 0

def plainMintKey : Bytes := KeyEncoder.encodeUpdatesByPolicyKey ⟨1, 2⟩ plainPolicy 5 0

def plainStore : Store :=
  (((SortedMap.put ∅ (KeyEncoder.encodeCursorKey ⟨1, 2⟩) (encodeCursorValue .origin 0)).put
    plainTxKey (encodeTxsByPolicyValue (Vector.replicate 32 0) [⟨[], by decide⟩])).put
    plainMintKey (encodeUpdatesByPolicyValue (Vector.replicate 32 0) [(⟨[], by decide⟩, 1)])).put
    (otherKey 5) [1]

def promptAttempts : Attempts where
  responses := ⟨fun _ _ _ => .page, fun _ _ h => by cases h⟩
  elapsed _ := 0

theorem holdsRows_plainStore : HoldsRows plainHash ⟨1, 2⟩
    [(.txsByPolicy plainPolicy 5 0,
        encodeTxsByPolicyValue (Vector.replicate 32 0) [⟨[], by decide⟩]),
      (.updatesByPolicy plainPolicy 5 0,
        encodeUpdatesByPolicyValue (Vector.replicate 32 0) [(⟨[], by decide⟩, 1)]),
      (.utxosByShelleyAddress otherAddress ⟨5, Vector.replicate 32 0, 0⟩, [1])] plainStore := by
  unfold HoldsRows
  decide +kernel

theorem HoldsRows.isListedStore {enc : KeyEncoder} {rows : List (DataKey × Bytes)} {store : Store}
    (h : HoldsRows plainHash enc rows store)
    (htxs : ∀ row ∈ rows, row.1.reducer = .txsByPolicy →
      ∃ txHash names, row.2 = encodeTxsByPolicyValue txHash names)
    (hupdates : ∀ row ∈ rows, row.1.reducer = .updatesByPolicy →
      ∃ txHash assets, row.2 = encodeUpdatesByPolicyValue txHash assets) :
    IsListedStore plainEnv plainHash store := by
  refine ⟨h.isStore ⟨_, rfl⟩, fun hget => ?_, fun hget => ?_, fun _ => ⟨_, rfl⟩, fun _ => ⟨_, rfl⟩⟩
  · obtain ⟨row, hrow, -, hreducer, rfl⟩ := h.exists_row _ hget
    exact htxs row hrow hreducer.symm
  · obtain ⟨row, hrow, -, hreducer, rfl⟩ := h.exists_row _ hget
    exact hupdates row hrow hreducer.symm

theorem isListedStore_plainStore : IsListedStore plainEnv plainHash plainStore := by
  refine holdsRows_plainStore.isListedStore ?_ ?_
  all_goals
    intro row hrow hreducer
    simp only [List.mem_cons, List.not_mem_nil, or_false] at hrow
    rcases hrow with rfl | rfl | rfl
    all_goals cases hreducer
    exact ⟨_, _, rfl⟩

end CardanoIndexer.Mapi
