import CardanoIndexer.Timbre.Address

/-!
# The keys of the reducers

Every reducer has a tag, and its keys are `<dataplane><instance>'D'<tag><fields>`.
-/

namespace CardanoIndexer.Timbre

/-! ## Tags -/

def prefixTokenRegistry : Byte := 84

def reducerTxByHash : Byte := 97
def reducerTxCountByAddress : Byte := 98
def reducerHoldersByAsset : Byte := 99
def reducerUtxosByPolicy : Byte := 100
def reducerUtxosByAsset : Byte := 101
def reducerLovelaceByAddress : Byte := 102
def reducerDatumByHash : Byte := 103
def reducerBlockByHeight : Byte := 104
def reducerTxsByAddress : Byte := 105
def reducerTxsByPayCred : Byte := 106
def reducerSupplyByAsset : Byte := 110
def reducerScriptByHash : Byte := 111
def reducerTxsByPolicy : Byte := 112
def reducerUpdatesByPolicy : Byte := 113
def reducerMintMetadataByAsset : Byte := 114
def reducerCip25MetadataByAsset : Byte := 115
def reducerBlockByTx : Byte := 116
def reducerUtxosByShelleyAddress : Byte := 121
def reducerUtxosByByronAddress : Byte := 122

inductive Reducer where
  | txByHash
  | txCountByAddress
  | holdersByAsset
  | utxosByPolicy
  | utxosByAsset
  | lovelaceByAddress
  | datumByHash
  | blockByHeight
  | txsByAddress
  | txsByPayCred
  | supplyByAsset
  | scriptByHash
  | txsByPolicy
  | updatesByPolicy
  | mintMetadataByAsset
  | cip25MetadataByAsset
  | blockByTx
  | utxosByShelleyAddress
  | utxosByByronAddress
  deriving DecidableEq

def Reducer.tag : Reducer → Byte
  | .txByHash => reducerTxByHash
  | .txCountByAddress => reducerTxCountByAddress
  | .holdersByAsset => reducerHoldersByAsset
  | .utxosByPolicy => reducerUtxosByPolicy
  | .utxosByAsset => reducerUtxosByAsset
  | .lovelaceByAddress => reducerLovelaceByAddress
  | .datumByHash => reducerDatumByHash
  | .blockByHeight => reducerBlockByHeight
  | .txsByAddress => reducerTxsByAddress
  | .txsByPayCred => reducerTxsByPayCred
  | .supplyByAsset => reducerSupplyByAsset
  | .scriptByHash => reducerScriptByHash
  | .txsByPolicy => reducerTxsByPolicy
  | .updatesByPolicy => reducerUpdatesByPolicy
  | .mintMetadataByAsset => reducerMintMetadataByAsset
  | .cip25MetadataByAsset => reducerCip25MetadataByAsset
  | .blockByTx => reducerBlockByTx
  | .utxosByShelleyAddress => reducerUtxosByShelleyAddress
  | .utxosByByronAddress => reducerUtxosByByronAddress

theorem Reducer.tag_injective : Function.Injective Reducer.tag := by
  intro a b heq
  cases a <;> cases b <;> first | rfl | exact absurd heq (by decide)

structure UtxosByAddressCursor where
  slot : U64
  uHash : Hash
  uIndex : U64
  deriving DecidableEq

structure TxsByAddressCursor where
  slot : U64
  blockIndex : U16
  txHash : Hash
  deriving DecidableEq

def utxoItemBytes (item : UtxosByAddressCursor) : Bytes :=
  u64Bytes item.slot ++ (item.uHash.toList ++ u64Bytes item.uIndex)

def txItemBytes (item : TxsByAddressCursor) : Bytes :=
  u64Bytes item.slot ++ (u16Bytes item.blockIndex ++ item.txHash.toList)

/-! ## Encoders -/

namespace KeyEncoder

variable (enc : KeyEncoder) (blake2b : Bytes → Hash)

def encodeTxByHashKey (txHash : Hash) : Bytes := enc.encodeDataKey reducerTxByHash txHash.toList

def encodeTxCountByAddressKey (address : Address) : Bytes :=
  enc.encodeDataKey reducerTxCountByAddress (encodeAddressWithType blake2b address)

def encodeLovelaceByAddressKey (address : Address) : Bytes :=
  enc.encodeDataKey reducerLovelaceByAddress (encodeAddressWithType blake2b address)

def assetBytes (policy : Hash28) (assetName : ShortBytes) : Bytes :=
  policy.toList ++ (breakByte :: encodeShortBytestring assetName)

def encodeHoldersByAssetKey (policy : Hash28) (assetName : ShortBytes) (address : Address) :
    Bytes :=
  enc.encodeDataKey reducerHoldersByAsset
    (assetBytes policy assetName ++ (breakByte :: encodeAddressWithType blake2b address))

def encodeUtxosByPolicyKey (policy : Hash28) (item : UtxosByAddressCursor) : Bytes :=
  enc.encodeDataKey reducerUtxosByPolicy (policy.toList ++ (breakByte :: utxoItemBytes item))

def encodeUtxosByAssetKey (policy : Hash28) (assetName : ShortBytes)
    (item : UtxosByAddressCursor) : Bytes :=
  enc.encodeDataKey reducerUtxosByAsset
    (assetBytes policy assetName ++ (breakByte :: utxoItemBytes item))

def encodeUtxosByShelleyAddressKey (address : ShelleyAddress) (item : UtxosByAddressCursor) :
    Bytes :=
  enc.encodeDataKey reducerUtxosByShelleyAddress
    (encodeShelleyAddress address ++ (breakByte :: utxoItemBytes item))

def encodeUtxosByByronAddressKey (address : ByronAddress) (item : UtxosByAddressCursor) : Bytes :=
  enc.encodeDataKey reducerUtxosByByronAddress
    (encodeByronAddress blake2b address ++ (breakByte :: utxoItemBytes item))

def encodeDatumByHashKey (hash : Hash) : Bytes := enc.encodeDataKey reducerDatumByHash hash.toList

def encodeBlockByHeightKey (height : U64) : Bytes :=
  enc.encodeDataKey reducerBlockByHeight (48 :: u64Bytes height)

def encodeHeightByBlockHashKey (hash : Hash) : Bytes :=
  enc.encodeDataKey reducerBlockByHeight (49 :: hash.toList)

def encodeTxsByAddressKey (address : Address) (item : TxsByAddressCursor) : Bytes :=
  enc.encodeDataKey reducerTxsByAddress
    (encodeAddressWithType blake2b address ++ (breakByte :: txItemBytes item))

def encodeTxsByPaymentCredKey (paymentCred : ShelleyPaymentPart) (item : TxsByAddressCursor) :
    Bytes :=
  enc.encodeDataKey reducerTxsByPayCred
    (encodeShelleyPaymentCred paymentCred ++ (breakByte :: txItemBytes item))

def encodeSupplyByAssetKey (policy : Hash28) (name : Bytes) : Bytes :=
  enc.encodeDataKey reducerSupplyByAsset (policy.toList ++ (breakByte :: name))

def encodeScriptByHashKey (hash : Hash28) : Bytes :=
  enc.encodeDataKey reducerScriptByHash hash.toList

def policyHistoryBytes (policy : Hash28) (slot : U64) (blkIndex : U16) : Bytes :=
  policy.toList ++ (breakByte :: (u64Bytes slot ++ u16Bytes blkIndex))

def encodeTxsByPolicyKey (policy : Hash28) (slot : U64) (blkIndex : U16) : Bytes :=
  enc.encodeDataKey reducerTxsByPolicy (policyHistoryBytes policy slot blkIndex)

def encodeUpdatesByPolicyKey (policy : Hash28) (slot : U64) (blkIndex : U16) : Bytes :=
  enc.encodeDataKey reducerUpdatesByPolicy (policyHistoryBytes policy slot blkIndex)

def encodeMintMetadataByAssetKey (policy : Hash28) (name : ShortBytes) (slot : U64)
    (blkIndex : U16) : Bytes :=
  enc.encodeDataKey reducerMintMetadataByAsset (policy.toList ++ (encodeShortBytestring name ++
    (breakByte :: (u64Bytes slot ++ u16Bytes blkIndex))))

def encodeCip25MetadataByAssetKey (policy : Hash28) (name : ShortBytes) : Bytes :=
  enc.encodeDataKey reducerCip25MetadataByAsset (policy.toList ++ encodeShortBytestring name)

def encodeBlockByTxKey (txHash : Hash) : Bytes := enc.encodeDataKey reducerBlockByTx txHash.toList

def encodeTokenRegistryByAssetKey (policy : Hash28) (name : Bytes) : Bytes :=
  [enc.dataplaneId, enc.instanceId, prefixTokenRegistry] ++ (policy.toList ++ name)

def encodeEnrichRollbackMetadataKey (bSlot : U64) (bHash : Hash) (itemIdx : U64) (uHash : Hash)
    (uIndex : U64) : Bytes :=
  enc.rollbackPrefix ++ (u64Bytes bSlot ++ (bHash.toList ++
    (rollbackEnrichUtxo :: (u64Bytes itemIdx ++ (uHash.toList ++ u64Bytes uIndex)))))

end KeyEncoder

theorem KeyEncoder.encodeDataKey_inj (enc : KeyEncoder) (tag : Byte) {body body' : Bytes} :
    enc.encodeDataKey tag body = enc.encodeDataKey tag body' ↔ body = body' := by
  rw [encodeDataKey, encodeDataKey, List.append_cancel_left_eq]

inductive DataKey where
  | txByHash (txHash : Hash)
  | txCountByAddress (address : Address)
  | lovelaceByAddress (address : Address)
  | holdersByAsset (policy : Hash28) (assetName : ShortBytes) (address : Address)
  | utxosByPolicy (policy : Hash28) (item : UtxosByAddressCursor)
  | utxosByAsset (policy : Hash28) (assetName : ShortBytes) (item : UtxosByAddressCursor)
  | utxosByShelleyAddress (address : ShelleyAddress) (item : UtxosByAddressCursor)
  | utxosByByronAddress (address : ByronAddress) (item : UtxosByAddressCursor)
  | datumByHash (hash : Hash)
  | blockByHeight (height : U64)
  | heightByBlockHash (hash : Hash)
  | txsByAddress (address : Address) (item : TxsByAddressCursor)
  | txsByPaymentCred (paymentCred : ShelleyPaymentPart) (item : TxsByAddressCursor)
  | supplyByAsset (policy : Hash28) (name : Bytes)
  | scriptByHash (hash : Hash28)
  | txsByPolicy (policy : Hash28) (slot : U64) (blkIndex : U16)
  | updatesByPolicy (policy : Hash28) (slot : U64) (blkIndex : U16)
  | mintMetadataByAsset (policy : Hash28) (name : ShortBytes) (slot : U64) (blkIndex : U16)
  | cip25MetadataByAsset (policy : Hash28) (name : ShortBytes)
  | blockByTx (txHash : Hash)

variable {key' : DataKey}

namespace DataKey

def encode (enc : KeyEncoder) (blake2b : Bytes → Hash) : DataKey → Bytes
  | txByHash txHash => enc.encodeTxByHashKey txHash
  | txCountByAddress address => enc.encodeTxCountByAddressKey blake2b address
  | lovelaceByAddress address => enc.encodeLovelaceByAddressKey blake2b address
  | holdersByAsset policy assetName address =>
    enc.encodeHoldersByAssetKey blake2b policy assetName address
  | utxosByPolicy policy item => enc.encodeUtxosByPolicyKey policy item
  | utxosByAsset policy assetName item => enc.encodeUtxosByAssetKey policy assetName item
  | utxosByShelleyAddress address item => enc.encodeUtxosByShelleyAddressKey address item
  | utxosByByronAddress address item => enc.encodeUtxosByByronAddressKey blake2b address item
  | datumByHash hash => enc.encodeDatumByHashKey hash
  | blockByHeight height => enc.encodeBlockByHeightKey height
  | heightByBlockHash hash => enc.encodeHeightByBlockHashKey hash
  | txsByAddress address item => enc.encodeTxsByAddressKey blake2b address item
  | txsByPaymentCred paymentCred item => enc.encodeTxsByPaymentCredKey paymentCred item
  | supplyByAsset policy name => enc.encodeSupplyByAssetKey policy name
  | scriptByHash hash => enc.encodeScriptByHashKey hash
  | txsByPolicy policy slot blkIndex => enc.encodeTxsByPolicyKey policy slot blkIndex
  | updatesByPolicy policy slot blkIndex => enc.encodeUpdatesByPolicyKey policy slot blkIndex
  | mintMetadataByAsset policy name slot blkIndex =>
    enc.encodeMintMetadataByAssetKey policy name slot blkIndex
  | cip25MetadataByAsset policy name => enc.encodeCip25MetadataByAssetKey policy name
  | blockByTx txHash => enc.encodeBlockByTxKey txHash

def reducer : DataKey → Reducer
  | txByHash _ => .txByHash
  | txCountByAddress _ => .txCountByAddress
  | lovelaceByAddress _ => .lovelaceByAddress
  | holdersByAsset .. => .holdersByAsset
  | utxosByPolicy .. => .utxosByPolicy
  | utxosByAsset .. => .utxosByAsset
  | utxosByShelleyAddress .. => .utxosByShelleyAddress
  | utxosByByronAddress .. => .utxosByByronAddress
  | datumByHash _ => .datumByHash
  | blockByHeight _ => .blockByHeight
  | heightByBlockHash _ => .blockByHeight
  | txsByAddress .. => .txsByAddress
  | txsByPaymentCred .. => .txsByPayCred
  | supplyByAsset .. => .supplyByAsset
  | scriptByHash _ => .scriptByHash
  | txsByPolicy .. => .txsByPolicy
  | updatesByPolicy .. => .updatesByPolicy
  | mintMetadataByAsset .. => .mintMetadataByAsset
  | cip25MetadataByAsset .. => .cip25MetadataByAsset
  | blockByTx _ => .blockByTx

def body (key : DataKey) (blake2b : Bytes → Hash) : Bytes :=
  (key.encode ⟨0, 0⟩ blake2b).drop 4

variable {blake2b : Bytes → Hash}

theorem encode_eq (enc : KeyEncoder) (key : DataKey) :
    key.encode enc blake2b = enc.encodeDataKey key.reducer.tag (key.body blake2b) := by
  cases key <;> rfl

theorem encode_eq_encode_iff {enc : KeyEncoder} {key : DataKey} :
    key.encode enc blake2b = key'.encode enc blake2b ↔
      key.reducer = key'.reducer ∧ key.body blake2b = key'.body blake2b := by
  simp [encode_eq, KeyEncoder.encodeDataKey, Reducer.tag_injective.eq_iff]

end DataKey

/-! ## Fields can be read -/

theorem utxoItemBytes_injective : Function.Injective utxoItemBytes := by
  intro a b heq
  obtain ⟨hslot, hrest⟩ := List.append_inj heq (by simp)
  obtain ⟨hhash, hindex⟩ := List.append_inj hrest (by simp)
  cases a
  cases b
  simp only [UtxosByAddressCursor.mk.injEq]
  exact ⟨u64Bytes_injective hslot, toList_injective hhash, u64Bytes_injective hindex⟩

theorem txItemBytes_injective : Function.Injective txItemBytes := by
  intro a b heq
  obtain ⟨hslot, hrest⟩ := List.append_inj heq (by simp)
  obtain ⟨hindex, hhash⟩ := List.append_inj hrest (by simp)
  cases a
  cases b
  simp only [TxsByAddressCursor.mk.injEq]
  exact ⟨u64Bytes_injective hslot, u16Bytes_injective hindex, toList_injective hhash⟩

theorem owner_item_of_eq {α : Type*} {owner : α → Bytes} (howner : IsPrefixCode owner) {a b : α}
    {item item' : Bytes}
    (heq : owner a ++ (breakByte :: item) = owner b ++ (breakByte :: item')) :
    owner a = owner b ∧ item = item' := by
  obtain ⟨hsame, hrest⟩ := howner heq
  exact ⟨hsame, (List.cons.inj hrest).2⟩

theorem isPrefixCode_policy : IsPrefixCode (Vector.toList : Hash28 → Bytes) :=
  .of_length 28 fun hash => by simp

theorem isPrefixCode_asset :
    IsPrefixCode fun asset : Hash28 × ShortBytes => KeyEncoder.assetBytes asset.1 asset.2 := by
  intro a b s t heq
  simp only [KeyEncoder.assetBytes, List.append_assoc, List.cons_append] at heq ⊢
  obtain ⟨hpolicy, hrest⟩ := isPrefixCode_policy heq
  obtain ⟨hname, hst⟩ := isPrefixCode_shortBytestring (List.cons.inj hrest).2
  exact ⟨by rw [hpolicy, hname], hst⟩

variable {policy' policy : Hash28}

theorem assetBytes_injective {name name' : ShortBytes}
    (heq : KeyEncoder.assetBytes policy name = KeyEncoder.assetBytes policy' name') :
    policy = policy' ∧ name = name' := by
  obtain ⟨hpolicy, hname⟩ := owner_item_of_eq isPrefixCode_policy heq
  exact ⟨toList_injective hpolicy, encodeShortBytestring_injective hname⟩

theorem isPrefixCode_paymentCred : IsPrefixCode encodeShelleyPaymentCred :=
  .of_length 29 length_encodeShelleyPaymentCred

theorem policyHistoryBytes_injective {slot slot' : U64} {blkIndex blkIndex' : U16}
    (heq : KeyEncoder.policyHistoryBytes policy slot blkIndex =
      KeyEncoder.policyHistoryBytes policy' slot' blkIndex') :
    policy = policy' ∧ slot = slot' ∧ blkIndex = blkIndex' := by
  obtain ⟨hpolicy, hrest⟩ := owner_item_of_eq isPrefixCode_policy heq
  obtain ⟨hslot, hindex⟩ := List.append_inj hrest (by simp)
  exact ⟨toList_injective hpolicy, u64Bytes_injective hslot, u16Bytes_injective hindex⟩

namespace DataKey

variable {blake2b : Bytes → Hash}

def IsKeyed (addresses : Set Bytes) : DataKey → Prop
  | txCountByAddress address => address.IsKeyed addresses
  | lovelaceByAddress address => address.IsKeyed addresses
  | holdersByAsset _ _ address => address.IsKeyed addresses
  | utxosByShelleyAddress address _ => address.network.IsCanonical
  | utxosByByronAddress address _ => address.toVec ∈ addresses
  | txsByAddress address _ => address.IsKeyed addresses
  | _ => True

theorem body_injOn {addresses : Set Bytes} (hinj : Set.InjOn blake2b addresses) {key : DataKey}
    (hkey : key.IsKeyed addresses) (hkey' : key'.IsKeyed addresses)
    (hreducer : key.reducer = key'.reducer) (hbody : key.body blake2b = key'.body blake2b) :
    key = key' := by
  cases key <;> cases key' <;> try cases hreducer
  case txByHash.txByHash => rw [toList_injective hbody]
  case txCountByAddress.txCountByAddress =>
    rw [encodeAddressWithType_injOn hinj hkey hkey' hbody]
  case lovelaceByAddress.lovelaceByAddress =>
    rw [encodeAddressWithType_injOn hinj hkey hkey' hbody]
  case holdersByAsset.holdersByAsset policy assetName _ policy' assetName' _ =>
    obtain ⟨hasset, haddress⟩ := owner_item_of_eq isPrefixCode_asset
      (a := (policy, assetName)) (b := (policy', assetName')) hbody
    obtain ⟨rfl, rfl⟩ := assetBytes_injective hasset
    rw [encodeAddressWithType_injOn hinj hkey hkey' haddress]
  case utxosByPolicy.utxosByPolicy =>
    obtain ⟨hpolicy, hitem⟩ := owner_item_of_eq isPrefixCode_policy hbody
    rw [toList_injective hpolicy, utxoItemBytes_injective hitem]
  case utxosByAsset.utxosByAsset policy assetName _ policy' assetName' _ =>
    obtain ⟨hasset, hitem⟩ := owner_item_of_eq isPrefixCode_asset
      (a := (policy, assetName)) (b := (policy', assetName')) hbody
    obtain ⟨rfl, rfl⟩ := assetBytes_injective hasset
    rw [utxoItemBytes_injective hitem]
  case utxosByShelleyAddress.utxosByShelleyAddress =>
    obtain ⟨haddress, hitem⟩ := owner_item_of_eq isPrefixCode_shelleyAddress hbody
    rw [encodeShelleyAddress_injective hkey hkey' haddress, utxoItemBytes_injective hitem]
  case utxosByByronAddress.utxosByByronAddress =>
    obtain ⟨haddress, hitem⟩ := owner_item_of_eq isPrefixCode_byronAddress hbody
    rw [encodeByronAddress_injOn hinj hkey hkey' haddress, utxoItemBytes_injective hitem]
  case datumByHash.datumByHash => rw [toList_injective hbody]
  case blockByHeight.blockByHeight => rw [u64Bytes_injective (List.cons.inj hbody).2]
  -- the two keys of this reducer differ in their first byte
  case blockByHeight.heightByBlockHash => exact absurd (List.cons.inj hbody).1 (by decide)
  case heightByBlockHash.blockByHeight => exact absurd (List.cons.inj hbody).1 (by decide)
  case heightByBlockHash.heightByBlockHash => rw [toList_injective (List.cons.inj hbody).2]
  case txsByAddress.txsByAddress =>
    obtain ⟨haddress, hitem⟩ := owner_item_of_eq isPrefixCode_addressWithType hbody
    rw [encodeAddressWithType_injOn hinj hkey hkey' haddress, txItemBytes_injective hitem]
  case txsByPaymentCred.txsByPaymentCred =>
    obtain ⟨hcred, hitem⟩ := owner_item_of_eq isPrefixCode_paymentCred hbody
    rw [encodeShelleyPaymentCred_injective hcred, txItemBytes_injective hitem]
  case supplyByAsset.supplyByAsset =>
    obtain ⟨hpolicy, rfl⟩ := owner_item_of_eq isPrefixCode_policy hbody
    rw [toList_injective hpolicy]
  case scriptByHash.scriptByHash => rw [toList_injective hbody]
  case txsByPolicy.txsByPolicy =>
    obtain ⟨rfl, rfl, rfl⟩ := policyHistoryBytes_injective hbody
    rfl
  case updatesByPolicy.updatesByPolicy =>
    obtain ⟨rfl, rfl, rfl⟩ := policyHistoryBytes_injective hbody
    rfl
  case mintMetadataByAsset.mintMetadataByAsset =>
    obtain ⟨hpolicy, hrest⟩ := isPrefixCode_policy hbody
    obtain ⟨hname, hrest⟩ := owner_item_of_eq isPrefixCode_shortBytestring hrest
    obtain ⟨hslot, hindex⟩ := List.append_inj hrest (by simp)
    rw [toList_injective hpolicy, encodeShortBytestring_injective hname,
      u64Bytes_injective hslot, u16Bytes_injective hindex]
  case cip25MetadataByAsset.cip25MetadataByAsset =>
    obtain ⟨hpolicy, hname⟩ := isPrefixCode_policy hbody
    rw [toList_injective hpolicy, encodeShortBytestring_injective hname]
  case blockByTx.blockByTx => rw [toList_injective hbody]

end DataKey

/-! ## Order -/

def UtxosByAddressCursor.rank (item : UtxosByAddressCursor) : ℕ ×ₗ Bytes ×ₗ ℕ :=
  toLex (item.slot.toNat, toLex (item.uHash.toList, item.uIndex.toNat))

def TxsByAddressCursor.rank (item : TxsByAddressCursor) : ℕ ×ₗ ℕ ×ₗ Bytes :=
  toLex (item.slot.toNat, toLex (item.blockIndex.toNat, item.txHash.toList))

theorem utxoItemBytes_lt_iff {a b : UtxosByAddressCursor} :
    utxoItemBytes a < utxoItemBytes b ↔ a.rank < b.rank := by
  rw [utxoItemBytes, utxoItemBytes, Bytes.append_lt_append_iff (by simp),
    Bytes.append_lt_append_iff (by simp), u64Bytes_lt_iff, u64Bytes_lt_iff,
    u64Bytes_injective.eq_iff]
  simp only [UtxosByAddressCursor.rank, Prod.Lex.toLex_lt_toLex, BitVec.toNat_inj]

theorem txItemBytes_lt_iff {a b : TxsByAddressCursor} :
    txItemBytes a < txItemBytes b ↔ a.rank < b.rank := by
  rw [txItemBytes, txItemBytes, Bytes.append_lt_append_iff (by simp),
    Bytes.append_lt_append_iff (by simp), u64Bytes_lt_iff, u16Bytes_lt_iff,
    u64Bytes_injective.eq_iff, u16Bytes_injective.eq_iff]
  simp only [TxsByAddressCursor.rank, Prod.Lex.toLex_lt_toLex, BitVec.toNat_inj]

inductive UtxoOwner where
  | shelley (address : ShelleyAddress)
  | byron (address : ByronAddress)
  | asset (policyId : Hash28) (assetName : ShortBytes)
  | policy (policyId : Hash28)

inductive TxOwner where
  | address (owner : Address)
  | paymentCred (cred : ShelleyPaymentPart)

def UtxoOwner.key (item : UtxosByAddressCursor) : UtxoOwner → DataKey
  | .shelley address => .utxosByShelleyAddress address item
  | .byron address => .utxosByByronAddress address item
  | .asset policyId assetName => .utxosByAsset policyId assetName item
  | .policy policyId => .utxosByPolicy policyId item

def TxOwner.key (item : TxsByAddressCursor) : TxOwner → DataKey
  | .address owner => .txsByAddress owner item
  | .paymentCred cred => .txsByPaymentCred cred item

def UtxoOwner.front (enc : KeyEncoder) (blake2b : Bytes → Hash) : UtxoOwner → Bytes
  | .shelley address => enc.encodeDataKey reducerUtxosByShelleyAddress (encodeShelleyAddress address)
  | .byron address =>
    enc.encodeDataKey reducerUtxosByByronAddress (encodeByronAddress blake2b address)
  | .asset policyId assetName =>
    enc.encodeDataKey reducerUtxosByAsset (KeyEncoder.assetBytes policyId assetName)
  | .policy policyId => enc.encodeDataKey reducerUtxosByPolicy policyId.toList

def TxOwner.front (enc : KeyEncoder) (blake2b : Bytes → Hash) : TxOwner → Bytes
  | .address owner =>
    enc.encodeDataKey reducerTxsByAddress (encodeAddressWithType blake2b owner)
  | .paymentCred cred =>
    enc.encodeDataKey reducerTxsByPayCred (encodeShelleyPaymentCred cred)

theorem UtxoOwner.encode_key (enc : KeyEncoder) (blake2b : Bytes → Hash) (owner : UtxoOwner)
    (item : UtxosByAddressCursor) :
    (owner.key item).encode enc blake2b =
      owner.front enc blake2b ++ (breakByte :: utxoItemBytes item) := by
  cases owner <;> simp [key, front, DataKey.encode, KeyEncoder.encodeDataKey,
    KeyEncoder.encodeUtxosByShelleyAddressKey, KeyEncoder.encodeUtxosByByronAddressKey,
    KeyEncoder.encodeUtxosByAssetKey, KeyEncoder.encodeUtxosByPolicyKey]

theorem TxOwner.encode_key (enc : KeyEncoder) (blake2b : Bytes → Hash) (owner : TxOwner)
    (item : TxsByAddressCursor) :
    (owner.key item).encode enc blake2b =
      owner.front enc blake2b ++ (breakByte :: txItemBytes item) := by
  cases owner <;> simp [key, front, DataKey.encode, KeyEncoder.encodeDataKey,
    KeyEncoder.encodeTxsByAddressKey, KeyEncoder.encodeTxsByPaymentCredKey]

/-- **Keys are unambiguous and ordered** as the items of their owner are. -/
theorem keys_unambiguous_and_ordered (enc : KeyEncoder) (blake2b : Bytes → Hash)
    {addresses : Set Bytes} (hinj : Set.InjOn blake2b addresses) :
    (∀ key key' : DataKey, key.IsKeyed addresses → key'.IsKeyed addresses →
      key.encode enc blake2b = key'.encode enc blake2b → key = key') ∧
    (∀ (owner : UtxoOwner) (item item' : UtxosByAddressCursor),
      (owner.key item).encode enc blake2b < (owner.key item').encode enc blake2b ↔
        item.rank < item'.rank) ∧
    (∀ (owner : TxOwner) (item item' : TxsByAddressCursor),
      (owner.key item).encode enc blake2b < (owner.key item').encode enc blake2b ↔
        item.rank < item'.rank) := by
  refine ⟨fun key key' hkey hkey' heq => ?_, fun owner item item' => ?_,
    fun owner item item' => ?_⟩
  · obtain ⟨hreducer, hbody⟩ := DataKey.encode_eq_encode_iff.mp heq
    exact DataKey.body_injOn hinj hkey hkey' hreducer hbody
  · rw [owner.encode_key, owner.encode_key, Bytes.append_lt_append_left_iff,
      Bytes.cons_lt_cons_iff, utxoItemBytes_lt_iff]
    simp
  · rw [owner.encode_key, owner.encode_key, Bytes.append_lt_append_left_iff,
      Bytes.cons_lt_cons_iff, txItemBytes_lt_iff]
    simp

theorem keys_unambiguous_and_ordered_byron :
    Set.InjOn (fun bytes : Bytes => (Vector.replicate 32 (bytes.getLastD 0) : Hash))
        {[1], [2]} ∧
      ((DataKey.lovelaceByAddress (.byron ⟨[1]⟩)).encode ⟨0, 0⟩
          (fun bytes => Vector.replicate 32 (bytes.getLastD 0)) =
        (DataKey.lovelaceByAddress (.byron ⟨[2]⟩)).encode ⟨0, 0⟩
          (fun bytes => Vector.replicate 32 (bytes.getLastD 0)) →
        DataKey.lovelaceByAddress (.byron ⟨[1]⟩) = .lovelaceByAddress (.byron ⟨[2]⟩)) := by
  have hinj : Set.InjOn (fun bytes : Bytes => (Vector.replicate 32 (bytes.getLastD 0) : Hash))
      {[1], [2]} := by
    rintro _ (rfl | rfl) _ (rfl | rfl) heq
    · rfl
    · exact absurd heq (by decide)
    · exact absurd heq (by decide)
    · rfl
  exact ⟨hinj, (keys_unambiguous_and_ordered ⟨0, 0⟩ _ hinj).1 _ _ (Or.inl rfl) (Or.inr rfl)⟩

end CardanoIndexer.Timbre
