import CardanoIndexer.Timbre.Decode
import CardanoIndexer.Timbre.Ranges

/-!
# Histories and their cursors
-/

namespace CardanoIndexer.Timbre

/-! ## Ranges of a policy -/

structure TxsByPolicyCursor where
  slot : U64
  blkIndex : U16
  deriving DecidableEq

abbrev UpdatesByPolicyCursor := TxsByPolicyCursor

def policyItemBytes (item : TxsByPolicyCursor) : Bytes := u64Bytes item.slot ++ u16Bytes item.blkIndex

theorem policyItemBytes_injective : Function.Injective policyItemBytes := by
  intro a b heq
  obtain ⟨hslot, hindex⟩ := List.append_inj heq (by simp)
  cases a
  cases b
  simp only [TxsByPolicyCursor.mk.injEq]
  exact ⟨u64Bytes_injective hslot, u16Bytes_injective hindex⟩

def TxsByPolicyCursor.rank (item : TxsByPolicyCursor) : ℕ ×ₗ ℕ :=
  toLex (item.slot.toNat, item.blkIndex.toNat)

inductive History where
  | txs
  | updates

def History.reducer : History → Reducer
  | .txs => .txsByPolicy
  | .updates => .updatesByPolicy

def History.key (policy : Hash28) (item : TxsByPolicyCursor) : History → DataKey
  | .txs => .txsByPolicy policy item.slot item.blkIndex
  | .updates => .updatesByPolicy policy item.slot item.blkIndex

namespace KeyEncoder

variable (enc : KeyEncoder)

def encodeTxsByPolicyRange (policy : Hash28)
    (lower upper : Option (RangeBound TxsByPolicyCursor)) : KeyRange :=
  ownerRange policyItemBytes (enc.encodeDataKey reducerTxsByPolicy policy.toList) lower upper

def encodeUpdatesByPolicyRange (policy : Hash28)
    (lower upper : Option (RangeBound UpdatesByPolicyCursor)) : KeyRange :=
  ownerRange policyItemBytes (enc.encodeDataKey reducerUpdatesByPolicy policy.toList) lower upper

end KeyEncoder

def History.range (enc : KeyEncoder) (policy : Hash28)
    (lower upper : Option (RangeBound TxsByPolicyCursor)) : History → KeyRange
  | .txs => enc.encodeTxsByPolicyRange policy lower upper
  | .updates => enc.encodeUpdatesByPolicyRange policy lower upper

variable {rest : Bytes} {α : Type} {fuel : ℕ}

namespace History

variable {enc enc' : KeyEncoder} {blake2b : Bytes → Hash} {policy : Hash28} {history : History}

def front (enc : KeyEncoder) (policy : Hash28) (history : History) : Bytes :=
  enc.encodeDataKey history.reducer.tag policy.toList

theorem range_eq (enc : KeyEncoder) (policy : Hash28)
    (lower upper : Option (RangeBound TxsByPolicyCursor)) (history : History) :
    history.range enc policy lower upper =
      ownerRange policyItemBytes (history.front enc policy) lower upper := by
  cases history <;> rfl

theorem encode_key (enc : KeyEncoder) (blake2b : Bytes → Hash) (policy : Hash28)
    (item : TxsByPolicyCursor) (history : History) :
    (history.key policy item).encode enc blake2b =
      history.front enc policy ++ (breakByte :: policyItemBytes item) := by
  cases history <;> simp [key, front, reducer, Reducer.tag, DataKey.encode,
    KeyEncoder.encodeDataKey, KeyEncoder.encodeTxsByPolicyKey, KeyEncoder.encodeUpdatesByPolicyKey,
    KeyEncoder.policyHistoryBytes, policyItemBytes]

theorem policyItemBytes_lt_iff {a b : TxsByPolicyCursor} :
    policyItemBytes a < policyItemBytes b ↔ a.rank < b.rank := by
  rw [policyItemBytes, policyItemBytes, Bytes.append_lt_append_iff (by simp), u64Bytes_lt_iff,
    u16Bytes_lt_iff, u64Bytes_injective.eq_iff]
  simp only [TxsByPolicyCursor.rank, Prod.Lex.toLex_lt_toLex, BitVec.toNat_inj]

theorem encode_key_lt_iff {item item' : TxsByPolicyCursor} :
    (history.key policy item).encode enc blake2b < (history.key policy item').encode enc blake2b ↔
      item.rank < item'.rank := by
  rw [history.encode_key, history.encode_key, Bytes.append_lt_append_left_iff,
    Bytes.cons_lt_cons_iff, policyItemBytes_lt_iff]
  simp

theorem exists_item_of_encode_eq {key : InstanceKey}
    (heq : key.encode enc' blake2b = history.front enc policy ++ (breakByte :: rest)) :
    ∃ item, rest = policyItemBytes item := by
  rw [front, KeyEncoder.encodeDataKey, List.append_assoc] at heq
  obtain ⟨data, -, -, htag, hbody⟩ := exists_data_of_encode_eq (by simp) heq
  have hreducer := Reducer.tag_injective htag
  cases history with
  | txs =>
    cases data
    case txsByPolicy policy' slot blkIndex =>
      exact ⟨⟨slot, blkIndex⟩, (owner_item_of_eq isPrefixCode_policy hbody).2.symm⟩
    all_goals cases hreducer
  | updates =>
    cases data
    case updatesByPolicy policy' slot blkIndex =>
      exact ⟨⟨slot, blkIndex⟩, (owner_item_of_eq isPrefixCode_policy hbody).2.symm⟩
    all_goals cases hreducer

theorem contains_range_iff {lower upper : Option (RangeBound TxsByPolicyCursor)}
    (hupper : ∀ endSlot, upper = some (.slot endSlot) → endSlot.toNat < 2 ^ 64 - 1)
    (key : InstanceKey) :
    (history.range enc policy lower upper).Contains (key.encode enc' blake2b) ↔
      ∃ item, key.encode enc' blake2b = (history.key policy item).encode enc blake2b ∧
        IsAbove TxsByPolicyCursor.slot TxsByPolicyCursor.rank lower item ∧
        IsBelow TxsByPolicyCursor.slot TxsByPolicyCursor.rank upper item := by
  rw [history.range_eq]
  exact contains_ownerRange_iff
    (fun item => (rfl : _ = u64Bytes item.slot ++ u16Bytes item.blkIndex))
    (fun _ _ => policyItemBytes_lt_iff) hupper (fun item => history.encode_key enc blake2b policy item)
    fun _ hrest => exists_item_of_encode_eq hrest

end History

/-! ## The mints of an asset -/

abbrev MintMetadataByAssetCursor := TxsByPolicyCursor

def mintedAssetBytes (asset : Hash28 × ShortBytes) : Bytes :=
  asset.1.toList ++ encodeShortBytestring asset.2

def KeyEncoder.encodeMintMetadataByAssetRange (enc : KeyEncoder) (policy : Hash28)
    (name : ShortBytes) (lower upper : Option (RangeBound MintMetadataByAssetCursor)) : KeyRange :=
  let front := enc.encodeDataKey reducerMintMetadataByAsset
    (policy.toList ++ encodeShortBytestring name)
  { start := match lower with
      | none => front ++ [breakByte]
      | some (.slot startSlot) => front ++ (breakByte :: u64Bytes startSlot)
      -- the other encoders add a zero here
      | some (.cursor cursor) => front ++ (breakByte :: policyItemBytes cursor)
    stop := match upper with
      | some (.cursor cursor) => front ++ (breakByte :: policyItemBytes cursor)
      | some (.slot endSlot) => front ++ (breakByte :: u64Bytes (endSlot + 1))
      | none => front ++ [breakByte + 1] }

namespace MintMetadata

variable {enc enc' : KeyEncoder} {blake2b : Bytes → Hash} {policy : Hash28} {name : ShortBytes}
  {lower upper : Option (RangeBound MintMetadataByAssetCursor)}

def front (enc : KeyEncoder) (policy : Hash28) (name : ShortBytes) : Bytes :=
  enc.encodeDataKey reducerMintMetadataByAsset (mintedAssetBytes (policy, name))

theorem encode_key (enc : KeyEncoder) (blake2b : Bytes → Hash) (policy : Hash28)
    (name : ShortBytes) (item : MintMetadataByAssetCursor) :
    (DataKey.mintMetadataByAsset policy name item.slot item.blkIndex).encode enc blake2b =
      front enc policy name ++ (breakByte :: policyItemBytes item) := by
  simp [front, mintedAssetBytes, DataKey.encode, KeyEncoder.encodeDataKey,
    KeyEncoder.encodeMintMetadataByAssetKey, policyItemBytes]

theorem isPrefixCode_mintedAsset : IsPrefixCode mintedAssetBytes :=
  (isPrefixCode_policy.comp Prod.fst).append (isPrefixCode_shortBytestring.comp Prod.snd)

theorem exists_item_of_encode_eq {key : InstanceKey}
    (heq : key.encode enc' blake2b = front enc policy name ++ (breakByte :: rest)) :
    ∃ item : MintMetadataByAssetCursor, rest = policyItemBytes item := by
  rw [front, KeyEncoder.encodeDataKey, List.append_assoc] at heq
  obtain ⟨data, -, -, htag, hbody⟩ := exists_data_of_encode_eq (by simp) heq
  have hreducer : data.reducer = .mintMetadataByAsset := Reducer.tag_injective htag
  cases data
  case mintMetadataByAsset policy' name' slot blkIndex =>
    have hbytes : mintedAssetBytes (policy', name') ++
        (breakByte :: policyItemBytes ⟨slot, blkIndex⟩) =
          mintedAssetBytes (policy, name) ++ (breakByte :: rest) := by
      rw [← hbody]
      simp [mintedAssetBytes, policyItemBytes, DataKey.body, DataKey.encode,
        KeyEncoder.encodeMintMetadataByAssetKey, KeyEncoder.encodeDataKey]
    exact ⟨⟨slot, blkIndex⟩, (owner_item_of_eq isPrefixCode_mintedAsset hbytes).2.symm⟩
  all_goals cases hreducer

theorem stop_range (enc : KeyEncoder) (policy : Hash28) (name : ShortBytes)
    (lower lower' upper : Option (RangeBound MintMetadataByAssetCursor)) :
    (enc.encodeMintMetadataByAssetRange policy name lower upper).stop =
      (ownerRange policyItemBytes (front enc policy name) lower' upper).stop := by
  rcases upper with _ | _ | _ <;> rfl

theorem contains_range_iff_or {key : Bytes} :
    (enc.encodeMintMetadataByAssetRange policy name lower upper).Contains key ↔
      (ownerRange policyItemBytes (front enc policy name) lower upper).Contains key ∨
        ∃ item, lower = some (.cursor item) ∧
          key = front enc policy name ++ (breakByte :: policyItemBytes item) ∧
          (ownerRange policyItemBytes (front enc policy name) none upper).Contains key := by
  rw [KeyRange.Contains, stop_range enc policy name lower lower upper]
  rcases lower with _ | startSlot | cursor
  · simp [KeyRange.Contains, KeyEncoder.encodeMintMetadataByAssetRange, ownerRange, front,
      mintedAssetBytes]
  · simp [KeyRange.Contains, KeyEncoder.encodeMintMetadataByAssetRange, ownerRange, front,
      mintedAssetBytes]
  · -- the other encoders start behind the cursor
    have hstart : (enc.encodeMintMetadataByAssetRange policy name (some (.cursor cursor)) upper).start =
        front enc policy name ++ (breakByte :: policyItemBytes cursor) := rfl
    have howner : (ownerRange policyItemBytes (front enc policy name) (some (.cursor cursor))
        upper).start = (front enc policy name ++ (breakByte :: policyItemBytes cursor)) ++ [0] := by
      simp [ownerRange]
    rw [KeyRange.Contains, howner, Bytes.append_zero_le_iff, hstart]
    constructor
    · rintro ⟨hle, hstop⟩
      rcases hle.lt_or_eq with hlt | rfl
      · exact Or.inl ⟨hlt, hstop⟩
      · refine Or.inr ⟨cursor, rfl, rfl, ?_, hstop⟩
        change front enc policy name ++ [breakByte] ≤ _
        rw [Bytes.append_le_append_left_iff, cons_le_cons_iff]
        exact Or.inr ⟨rfl, not_lt.mp (Bytes.not_lt_nil _)⟩
    · rintro (⟨hlt, hstop⟩ | ⟨item, hlower, rfl, -, hstop⟩)
      · exact ⟨hlt.le, hstop⟩
      · cases hlower
        exact ⟨le_refl _, hstop⟩

theorem contains_range_iff
    (hupper : ∀ endSlot, upper = some (.slot endSlot) → endSlot.toNat < 2 ^ 64 - 1)
    (key : InstanceKey) :
    (enc.encodeMintMetadataByAssetRange policy name lower upper).Contains
        (key.encode enc' blake2b) ↔
      ∃ item : MintMetadataByAssetCursor, key.encode enc' blake2b =
          (DataKey.mintMetadataByAsset policy name item.slot item.blkIndex).encode enc blake2b ∧
        (IsAbove TxsByPolicyCursor.slot TxsByPolicyCursor.rank lower item ∨
          lower = some (.cursor item)) ∧
        IsBelow TxsByPolicyCursor.slot TxsByPolicyCursor.rank upper item := by
  have hrange : ∀ lower, (ownerRange policyItemBytes (front enc policy name) lower upper).Contains
      (key.encode enc' blake2b) ↔
        ∃ item : MintMetadataByAssetCursor, key.encode enc' blake2b =
            (DataKey.mintMetadataByAsset policy name item.slot item.blkIndex).encode enc blake2b ∧
          IsAbove TxsByPolicyCursor.slot TxsByPolicyCursor.rank lower item ∧
          IsBelow TxsByPolicyCursor.slot TxsByPolicyCursor.rank upper item := fun lower =>
    contains_ownerRange_iff
      (fun item => (rfl : _ = u64Bytes item.slot ++ u16Bytes item.blkIndex))
      (fun _ _ => History.policyItemBytes_lt_iff) hupper (encode_key enc blake2b policy name)
      fun _ hrest => exists_item_of_encode_eq hrest
  rw [contains_range_iff_or, hrange, hrange]
  constructor
  · rintro (⟨item, hkey, habove, hbelow⟩ | ⟨item, hlower, hkey, item', hkey', -, hbelow⟩)
    · exact ⟨item, hkey, Or.inl habove, hbelow⟩
    · have hbytes := hkey.symm.trans (hkey'.trans (encode_key enc blake2b policy name item'))
      obtain rfl := policyItemBytes_injective (List.cons.inj (List.append_cancel_left hbytes)).2
      exact ⟨item, hkey', Or.inr hlower, hbelow⟩
  · rintro ⟨item, hkey, habove | hlower, hbelow⟩
    · exact Or.inl ⟨item, hkey, habove, hbelow⟩
    · exact Or.inr ⟨item, hlower, hkey.trans (encode_key enc blake2b policy name item), item, hkey,
        trivial, hbelow⟩

end MintMetadata

/-- **Ranges of histories are exact, but for a lower cursor into the mints of an asset.** -/
theorem history_ranges_exact (enc enc' : KeyEncoder) (blake2b : Bytes → Hash) (key : InstanceKey)
    (policy : Hash28) (lower upper : Option (RangeBound TxsByPolicyCursor))
    (hupper : ∀ endSlot, upper = some (.slot endSlot) → endSlot.toNat < 2 ^ 64 - 1) :
    (∀ history : History,
      (history.range enc policy lower upper).Contains (key.encode enc' blake2b) ↔
        ∃ item, key.encode enc' blake2b = (history.key policy item).encode enc blake2b ∧
          IsAbove TxsByPolicyCursor.slot TxsByPolicyCursor.rank lower item ∧
          IsBelow TxsByPolicyCursor.slot TxsByPolicyCursor.rank upper item) ∧
    ∀ name : ShortBytes,
      (enc.encodeMintMetadataByAssetRange policy name lower upper).Contains
          (key.encode enc' blake2b) ↔
        ∃ item : MintMetadataByAssetCursor, key.encode enc' blake2b =
            (DataKey.mintMetadataByAsset policy name item.slot item.blkIndex).encode enc blake2b ∧
          (IsAbove TxsByPolicyCursor.slot TxsByPolicyCursor.rank lower item ∨
            lower = some (.cursor item)) ∧
          IsBelow TxsByPolicyCursor.slot TxsByPolicyCursor.rank upper item :=
  ⟨fun _ => History.contains_range_iff hupper key,
    fun _ => MintMetadata.contains_range_iff hupper key⟩

theorem history_ranges_exact_slot :
    ((⟨1, 2⟩ : KeyEncoder).encodeMintMetadataByAssetRange (Vector.replicate 28 96) ⟨[1], by decide⟩
        (some (.slot 5)) (some (.slot 20))).Contains
      (InstanceKey.encode ⟨1, 2⟩ (fun _ => Vector.replicate 32 0)
        (.data (.mintMetadataByAsset (Vector.replicate 28 96) ⟨[1], by decide⟩ 20 7))) :=
  ((history_ranges_exact ⟨1, 2⟩ ⟨1, 2⟩ (fun _ => Vector.replicate 32 0)
      (.data (.mintMetadataByAsset (Vector.replicate 28 96) ⟨[1], by decide⟩ 20 7))
      (Vector.replicate 28 96) (some (.slot 5)) (some (.slot 20)) (by
        intro endSlot heq
        cases heq
        decide)).2 ⟨[1], by decide⟩).mpr
    ⟨⟨20, 7⟩, rfl, Or.inl (by decide : 5 ≤ 20), (by decide : 20 ≤ 20)⟩

/-- The range of mints behind a cursor begins with the item that the cursor names. -/
theorem mint_cursor_repeats_item :
    ((⟨1, 2⟩ : KeyEncoder).encodeMintMetadataByAssetRange (Vector.replicate 28 96) ⟨[1], by decide⟩
        (some (.cursor ⟨20, 7⟩)) none).Contains
      (InstanceKey.encode ⟨1, 2⟩ (fun _ => Vector.replicate 32 0)
        (.data (.mintMetadataByAsset (Vector.replicate 28 96) ⟨[1], by decide⟩ 20 7))) ∧
    ¬ IsAbove TxsByPolicyCursor.slot TxsByPolicyCursor.rank (some (.cursor ⟨20, 7⟩)) ⟨20, 7⟩ :=
  ⟨by decide +kernel, lt_irrefl _⟩

/-! ## Keys -/

structure TxsByPolicyKey where
  policy : Hash28
  slot : U64
  blkIndex : U16
  deriving DecidableEq

def decodePolicyHistoryKey (tag : Byte) (bytes : Bytes) : Option TxsByPolicyKey := do
  let found ← bytes[3]?
  if found = tag then do
    let policy ← arrayAt 28 bytes 4
    let slot ← u64At bytes (4 + 28 + 1)
    let blkIndex ← u16At bytes (4 + 28 + 1 + 8)
    return ⟨policy, slot, blkIndex⟩
  else none

def decodeTxsByPolicyKey : Bytes → Option TxsByPolicyKey :=
  decodePolicyHistoryKey reducerTxsByPolicy

def decodeUpdatesByPolicyKey : Bytes → Option TxsByPolicyKey :=
  decodePolicyHistoryKey reducerUpdatesByPolicy

structure TxsByPayCredKey where
  paymentCred : ShelleyPaymentPart
  slot : U64
  blockIndex : U16
  txHash : Hash
  deriving DecidableEq

def decodeTxsByPaymentCredKey (bytes : Bytes) : Option TxsByPayCredKey := do
  let tag ← bytes[3]?
  if tag = reducerTxsByPayCred then do
    let kind ← bytes[4]?
    let hash ← arrayAt 28 bytes 5
    let paymentCred ← ShelleyPaymentPart.ofKind kind hash
    let slot ← u64At bytes (5 + 28 + 1)
    let blockIndex ← u16At bytes (5 + 28 + 1 + 8)
    let txHash ← arrayAt 32 bytes (5 + 28 + 1 + 8 + 2)
    return ⟨paymentCred, slot, blockIndex, txHash⟩
  else none

theorem drop_append_of_length {front : Bytes} {n : ℕ} (h : front.length = n) (k : ℕ) :
    (front ++ rest).drop (n + k) = rest.drop k := by
  rw [← h, ← List.drop_drop, List.drop_left]

theorem decodePolicyHistoryKey_encode (enc : KeyEncoder) (tag : Byte) (policy : Hash28)
    (slot : U64) (blkIndex : U16) :
    decodePolicyHistoryKey tag
        (enc.encodeDataKey tag (KeyEncoder.policyHistoryBytes policy slot blkIndex)) =
      some ⟨policy, slot, blkIndex⟩ := by
  obtain ⟨bytes, hbytes⟩ : ∃ bytes,
      enc.encodeDataKey tag (KeyEncoder.policyHistoryBytes policy slot blkIndex) = bytes := ⟨_, rfl⟩
  have htag : bytes[3]? = some tag := by
    rw [← hbytes]
    rfl
  have hbody : bytes.drop 4 =
      policy.toList ++ (breakByte :: (u64Bytes slot ++ u16Bytes blkIndex)) := by
    rw [← hbytes]
    rfl
  have hitem : ∀ k, bytes.drop (4 + 28 + 1 + k) = (u64Bytes slot ++ u16Bytes blkIndex).drop k := by
    intro k
    rw [Nat.add_assoc, Nat.add_assoc, ← List.drop_drop, hbody,
      drop_append_of_length (length_toList_hash28 policy), Nat.add_comm, List.drop_succ_cons]
  have hslot : u64At bytes (4 + 28 + 1) = some slot := u64At_of_drop (hitem 0)
  have hindex : u16At bytes (4 + 28 + 1 + 8) = some blkIndex :=
    u16At_of_drop ((hitem 8).trans ((List.drop_left' (length_u64Bytes _)).trans
      (List.append_nil _).symm))
  rw [hbytes, decodePolicyHistoryKey, htag]
  simp [arrayAt_of_drop hbody, hslot, hindex]

theorem decodeTxsByPaymentCredKey_encode (enc : KeyEncoder) (cred : ShelleyPaymentPart)
    (item : TxsByAddressCursor) :
    decodeTxsByPaymentCredKey (enc.encodeTxsByPaymentCredKey cred item) =
      some ⟨cred, item.slot, item.blockIndex, item.txHash⟩ := by
  obtain ⟨kind, hash, hcred, hkind⟩ : ∃ (kind : Byte) (hash : Hash28),
      encodeShelleyPaymentCred cred = kind :: hash.toList ∧
        ShelleyPaymentPart.ofKind kind hash = some cred := by
    cases cred with
    | key hash => exact ⟨0, hash, rfl, rfl⟩
    | script hash => exact ⟨1, hash, rfl, rfl⟩
  obtain ⟨bytes, hbytes⟩ : ∃ bytes, enc.encodeTxsByPaymentCredKey cred item = bytes := ⟨_, rfl⟩
  have htag : bytes[3]? = some reducerTxsByPayCred := by
    rw [← hbytes]
    rfl
  have hbody : bytes.drop 4 = kind :: (hash.toList ++ (breakByte :: txItemBytes item)) := by
    rw [← hbytes]
    simp [KeyEncoder.encodeTxsByPaymentCredKey, KeyEncoder.encodeDataKey, hcred]
  have hfirst : bytes[4]? = some kind := by
    rw [← List.head?_drop, hbody]
    rfl
  have hrest : bytes.drop 5 = hash.toList ++ (breakByte :: txItemBytes item) := by
    rw [show 5 = 4 + 1 by rfl, ← List.drop_drop, hbody]
    rfl
  have hitem : ∀ k, bytes.drop (5 + 28 + 1 + k) = (txItemBytes item).drop k := by
    intro k
    rw [Nat.add_assoc, Nat.add_assoc, ← List.drop_drop, hrest,
      drop_append_of_length (length_toList_hash28 hash), Nat.add_comm, List.drop_succ_cons]
  have hslot : u64At bytes (5 + 28 + 1) = some item.slot := u64At_of_drop (hitem 0)
  have hindex : u16At bytes (5 + 28 + 1 + 8) = some item.blockIndex :=
    u16At_of_drop ((hitem 8).trans (List.drop_left' (length_u64Bytes _)))
  have hlast : (txItemBytes item).drop (8 + 2) = item.txHash.toList ++ [] := by
    rw [txItemBytes, ← List.drop_drop, List.drop_left' (length_u64Bytes _),
      List.drop_left' (length_u16Bytes _), List.append_nil]
  have hhash : arrayAt 32 bytes (5 + 28 + 1 + 8 + 2) = some item.txHash :=
    arrayAt_of_drop ((hitem (8 + 2)).trans hlast) (by decide)
  rw [hbytes, decodeTxsByPaymentCredKey, htag]
  simp [hfirst, arrayAt_of_drop hrest, hkind, hslot, hindex, hhash]

/-! ## Values -/

def decodeAll {α : Type} (field : Bytes → Option (α × Bytes)) : ℕ → Bytes → Option (List α)
  | _, [] => some []
  | 0, _ :: _ => none
  | fuel + 1, bytes => do
    let (a, rest) ← field bytes
    let as ← decodeAll field fuel rest
    return a :: as

def decodeShortBytestring : Bytes → Option (Bytes × Bytes)
  | [] => none
  | len :: rest => if len.val ≤ rest.length then some (rest.take len.val, rest.drop len.val) else none

def decodeNameAndAmount (bytes : Bytes) : Option ((Bytes × U64) × Bytes) := do
  let (name, rest) ← decodeShortBytestring bytes
  let amount ← u64At rest 0
  return ((name, amount), rest.drop 8)

def encodeTxsByPolicyValue (txHash : Hash) (assets : List ShortBytes) : Bytes :=
  txHash.toList ++ (assets.map encodeShortBytestring).flatten

def encodeUpdatesByPolicyValue (txHash : Hash) (assets : List (ShortBytes × U64)) : Bytes :=
  txHash.toList ++
    (assets.map fun asset => encodeShortBytestring asset.1 ++ u64Bytes asset.2).flatten

def decodeTxsByPolicyValue (bytes : Bytes) : Option (Hash × List Bytes) := do
  let txHash ← arrayAt 32 bytes 0
  let assets ← decodeAll decodeShortBytestring bytes.length (bytes.drop 32)
  return (txHash, assets)

def decodeUpdatesByPolicyValue (bytes : Bytes) : Option (Hash × List (Bytes × U64)) := do
  let txHash ← arrayAt 32 bytes 0
  let assets ← decodeAll decodeNameAndAmount bytes.length (bytes.drop 32)
  return (txHash, assets)

theorem decodeShortBytestring_encode (name : ShortBytes) (rest : Bytes) :
    decodeShortBytestring (encodeShortBytestring name ++ rest) = some (name.bytes, rest) := by
  have hlength : (Fin.ofNat 256 name.bytes.length).val = name.bytes.length :=
    Nat.mod_eq_of_lt (by have := name.length_le; omega)
  rw [encodeShortBytestring, List.cons_append, decodeShortBytestring, hlength, if_pos (by simp),
    List.take_left, List.drop_left]

theorem decodeNameAndAmount_encode (asset : ShortBytes × U64) (rest : Bytes) :
    decodeNameAndAmount ((encodeShortBytestring asset.1 ++ u64Bytes asset.2) ++ rest) =
      some ((asset.1.bytes, asset.2), rest) := by
  have hamount : u64At (u64Bytes asset.2 ++ rest) 0 = some asset.2 := u64At_of_drop rfl
  rw [List.append_assoc, decodeNameAndAmount, decodeShortBytestring_encode]
  simp [hamount, List.drop_left' (length_u64Bytes asset.2)]

theorem decodeAll_of_ne_nil {field : Bytes → Option (α × Bytes)} {bytes : Bytes} (h : bytes ≠ []) :
    decodeAll field (fuel + 1) bytes =
      (field bytes).bind fun first => (decodeAll field fuel first.2).bind fun as =>
        some (first.1 :: as) := by
  cases bytes with
  | nil => exact absurd rfl h
  | cons byte rest => rfl

theorem decodeAll_flatten {β : Type} {field : Bytes → Option (β × Bytes)} {encode : α → Bytes}
    {value : α → β} (hfield : ∀ a rest, field (encode a ++ rest) = some (value a, rest))
    (hne : ∀ a, encode a ≠ []) (as : List α) (hfuel : (as.map encode).flatten.length ≤ fuel) :
    decodeAll field fuel (as.map encode).flatten = some (as.map value) := by
  induction as generalizing fuel with
  | nil =>
    cases fuel <;> rfl
  | cons a rest ih =>
    have hpos := List.length_pos_of_ne_nil (hne a)
    rw [List.map_cons, List.flatten_cons, List.length_append] at hfuel
    obtain ⟨fuel, rfl⟩ : ∃ n, fuel = n + 1 := ⟨fuel - 1, by omega⟩
    rw [List.map_cons, List.flatten_cons]
    have hbytes : encode a ++ (rest.map encode).flatten ≠ [] := by
      intro hnil
      exact hne a (List.append_eq_nil_iff.mp hnil).1
    rw [decodeAll_of_ne_nil hbytes, hfield, Option.bind_some, ih (by omega)]
    rfl

theorem decodeTxsByPolicyValue_encode (txHash : Hash) (assets : List ShortBytes) :
    decodeTxsByPolicyValue (encodeTxsByPolicyValue txHash assets) =
      some (txHash, assets.map ShortBytes.bytes) := by
  have hhash : arrayAt 32 (encodeTxsByPolicyValue txHash assets) 0 = some txHash :=
    arrayAt_of_drop rfl (by decide)
  have hassets : decodeAll decodeShortBytestring (encodeTxsByPolicyValue txHash assets).length
      ((encodeTxsByPolicyValue txHash assets).drop 32) = some (assets.map ShortBytes.bytes) := by
    rw [encodeTxsByPolicyValue, List.drop_left' (length_toList_hash txHash)]
    refine decodeAll_flatten decodeShortBytestring_encode (fun name => by
      simp [encodeShortBytestring]) assets ?_
    rw [List.length_append]
    omega
  rw [decodeTxsByPolicyValue, hhash, hassets]
  rfl

theorem decodeUpdatesByPolicyValue_encode (txHash : Hash) (assets : List (ShortBytes × U64)) :
    decodeUpdatesByPolicyValue (encodeUpdatesByPolicyValue txHash assets) =
      some (txHash, assets.map fun asset => (asset.1.bytes, asset.2)) := by
  have hhash : arrayAt 32 (encodeUpdatesByPolicyValue txHash assets) 0 = some txHash :=
    arrayAt_of_drop rfl (by decide)
  have hassets : decodeAll decodeNameAndAmount (encodeUpdatesByPolicyValue txHash assets).length
      ((encodeUpdatesByPolicyValue txHash assets).drop 32) =
        some (assets.map fun asset => (asset.1.bytes, asset.2)) := by
    rw [encodeUpdatesByPolicyValue, List.drop_left' (length_toList_hash txHash)]
    refine decodeAll_flatten decodeNameAndAmount_encode (fun asset => by
      simp [encodeShortBytestring]) assets ?_
    rw [List.length_append]
    omega
  rw [decodeUpdatesByPolicyValue, hhash, hassets]
  rfl

/-! ## Cursors -/

section Cursors

variable (b64Decode : Bytes → Option Bytes) (b64Encode : Bytes → Bytes)

def encodeTxsByPolicyCursor (item : TxsByPolicyCursor) : Bytes := b64Encode (policyItemBytes item)

def encodeUpdatesByPolicyCursor (item : UpdatesByPolicyCursor) : Bytes :=
  b64Encode (policyItemBytes item)

def encodeTxsByPaymentCredCursor (item : TxsByAddressCursor) : Bytes := b64Encode (txItemBytes item)

def encodeAddressUtxosCursor (item : UtxosByAddressCursor) : Bytes := b64Encode (utxoItemBytes item)

def encodeAddressesUtxosCursor (addressIdx : U16) (item : UtxosByAddressCursor) : Bytes :=
  b64Encode (u16Bytes addressIdx ++ utxoItemBytes item)

def cursorBytes (length : ℕ) (b64Cursor : Bytes) : Except DecodeFailure Bytes := do
  let cursor ← orMalformed (b64Decode b64Cursor)
  if cursor.length ≠ length then .error .malformedCursor else .ok cursor

def decodeTxsByPolicyCursor (b64Cursor : Bytes) : Except DecodeFailure TxsByPolicyCursor := do
  let cursor ← cursorBytes b64Decode (8 + 2) b64Cursor
  let slot ← orPanic (u64At cursor 0)
  let blkIndex ← orPanic (u16At cursor 8)
  return ⟨slot, blkIndex⟩

def decodeUpdatesByPolicyCursor (b64Cursor : Bytes) :
    Except DecodeFailure UpdatesByPolicyCursor :=
  decodeTxsByPolicyCursor b64Decode b64Cursor

def decodeTxsByPaymentCredCursor (b64Cursor : Bytes) : Except DecodeFailure TxsByAddressCursor := do
  let cursor ← cursorBytes b64Decode (8 + 2 + 32) b64Cursor
  let slot ← orPanic (u64At cursor 0)
  let blockIndex ← orPanic (u16At cursor 8)
  let txHash ← orPanic (arrayAt 32 cursor 10)
  return ⟨slot, blockIndex, txHash⟩

def decodeUtxosByAddressCursor (b64Cursor : Bytes) :
    Except DecodeFailure UtxosByAddressCursor := do
  let cursor ← cursorBytes b64Decode (8 + 32 + 8) b64Cursor
  let slot ← orPanic (u64At cursor 0)
  let uHash ← orPanic (arrayAt 32 cursor 8)
  let uIndex ← orPanic (u64At cursor 40)
  return ⟨slot, uHash, uIndex⟩

def decodeUtxosByAddressesCursor (b64Cursor : Bytes) :
    Except DecodeFailure (U16 × UtxosByAddressCursor) := do
  let cursor ← cursorBytes b64Decode (2 + 8 + 32 + 8) b64Cursor
  let addressIdx ← orPanic (u16At cursor 0)
  let slot ← orPanic (u64At cursor 2)
  let uHash ← orPanic (arrayAt 32 cursor 10)
  let uIndex ← orPanic (u64At cursor 42)
  return (addressIdx, ⟨slot, uHash, uIndex⟩)

variable {b64Decode b64Encode}

theorem cursorBytes_of_decode {length : ℕ} {text cursor : Bytes}
    (hdecode : b64Decode text = some cursor) (hlength : cursor.length = length) :
    cursorBytes b64Decode length text = .ok cursor := by
  rw [cursorBytes, hdecode]
  simp [orMalformed, hlength, Except.ok_bind]

variable (hb64 : ∀ bytes, b64Decode (b64Encode bytes) = some bytes)

include hb64

theorem decodeTxsByPolicyCursor_encode (item : TxsByPolicyCursor) :
    decodeTxsByPolicyCursor b64Decode (encodeTxsByPolicyCursor b64Encode item) = .ok item := by
  have hslot : u64At (policyItemBytes item) 0 = some item.slot := u64At_of_drop rfl
  have hindex : u16At (policyItemBytes item) 8 = some item.blkIndex :=
    u16At_of_drop ((List.drop_left' (length_u64Bytes _)).trans (List.append_nil _).symm)
  rw [decodeTxsByPolicyCursor, encodeTxsByPolicyCursor,
    cursorBytes_of_decode (hb64 _) (by simp [policyItemBytes]), Except.ok_bind, hslot, hindex]
  rfl

theorem decodeTxsByPaymentCredCursor_encode (item : TxsByAddressCursor) :
    decodeTxsByPaymentCredCursor b64Decode (encodeTxsByPaymentCredCursor b64Encode item) =
      .ok item := by
  have hslot : u64At (txItemBytes item) 0 = some item.slot := u64At_of_drop rfl
  have hindex : u16At (txItemBytes item) 8 = some item.blockIndex :=
    u16At_of_drop (List.drop_left' (length_u64Bytes _))
  have hlast : (txItemBytes item).drop 10 = item.txHash.toList ++ [] := by
    rw [txItemBytes, show 10 = 8 + 2 by rfl, ← List.drop_drop,
      List.drop_left' (length_u64Bytes _), List.drop_left' (length_u16Bytes _), List.append_nil]
  have hhash : arrayAt 32 (txItemBytes item) 10 = some item.txHash :=
    arrayAt_of_drop hlast (by decide)
  rw [decodeTxsByPaymentCredCursor, encodeTxsByPaymentCredCursor,
    cursorBytes_of_decode (hb64 _) (by simp [txItemBytes]), Except.ok_bind, hslot, hindex, hhash]
  rfl

theorem decodeUtxosByAddressCursor_encode (item : UtxosByAddressCursor) :
    decodeUtxosByAddressCursor b64Decode (encodeAddressUtxosCursor b64Encode item) = .ok item := by
  have hslot : u64At (utxoItemBytes item) 0 = some item.slot := u64At_of_drop rfl
  have hhash : arrayAt 32 (utxoItemBytes item) 8 = some item.uHash :=
    arrayAt_of_drop (List.drop_left' (length_u64Bytes _)) (by decide)
  have hindex : u64At (utxoItemBytes item) 40 = some item.uIndex :=
    u64At_of_drop (drop_utxoItemBytes item)
  rw [decodeUtxosByAddressCursor, encodeAddressUtxosCursor,
    cursorBytes_of_decode (hb64 _) (by simp [utxoItemBytes]), Except.ok_bind, hslot, hhash, hindex]
  rfl

theorem decodeUtxosByAddressesCursor_encode (addressIdx : U16) (item : UtxosByAddressCursor) :
    decodeUtxosByAddressesCursor b64Decode
      (encodeAddressesUtxosCursor b64Encode addressIdx item) = .ok (addressIdx, item) := by
  obtain ⟨bytes, hbytes⟩ : ∃ bytes, u16Bytes addressIdx ++ utxoItemBytes item = bytes := ⟨_, rfl⟩
  have hitem : ∀ k, bytes.drop (2 + k) = (utxoItemBytes item).drop k := by
    intro k
    rw [← hbytes, ← List.drop_drop, List.drop_left' (length_u16Bytes _)]
  have hidx : u16At bytes 0 = some addressIdx := u16At_of_drop hbytes.symm
  have hslot : u64At bytes 2 = some item.slot := u64At_of_drop (hitem 0)
  have hhash : arrayAt 32 bytes 10 = some item.uHash :=
    arrayAt_of_drop ((hitem 8).trans (List.drop_left' (length_u64Bytes _))) (by decide)
  have hindex : u64At bytes 42 = some item.uIndex :=
    u64At_of_drop ((hitem 40).trans (drop_utxoItemBytes item))
  have hlength : bytes.length = 2 + 8 + 32 + 8 := by
    rw [← hbytes]
    simp [utxoItemBytes]
  rw [decodeUtxosByAddressesCursor, encodeAddressesUtxosCursor, hbytes,
    cursorBytes_of_decode (hb64 _) hlength, Except.ok_bind, hidx, hslot, hhash, hindex]
  rfl

end Cursors

end CardanoIndexer.Timbre
