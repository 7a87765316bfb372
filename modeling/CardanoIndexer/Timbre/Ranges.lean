import CardanoIndexer.Timbre.Namespace

/-!
# Scan ranges

A slot bound includes its slot, a cursor is excluded (`ownerRange`).
-/

namespace CardanoIndexer.Timbre

/-! ## Range encoders -/

inductive RangeBound (κ : Type*) where
  | slot (slot : U64)
  | cursor (item : κ)

section OwnerRange

variable {κ : Type*} (itemBytes : κ → Bytes)

def ownerRange (front : Bytes) (lower upper : Option (RangeBound κ)) : KeyRange where
  start := match lower with
    | none => front ++ [breakByte]
    | some (.slot startSlot) => front ++ (breakByte :: u64Bytes startSlot)
    | some (.cursor cursor) => front ++ (breakByte :: (itemBytes cursor ++ [0]))
  stop := match upper with
    | some (.cursor cursor) => front ++ (breakByte :: itemBytes cursor)
    | some (.slot endSlot) => front ++ (breakByte :: u64Bytes (endSlot + 1))
    | none => front ++ [breakByte + 1]

end OwnerRange

namespace KeyEncoder

variable (enc : KeyEncoder) (blake2b : Bytes → Hash)

def encodeByronAddressUtxosRange (address : ByronAddress)
    (lower upper : Option (RangeBound UtxosByAddressCursor)) : KeyRange :=
  ownerRange utxoItemBytes
    (enc.encodeDataKey reducerUtxosByByronAddress (encodeByronAddress blake2b address)) lower upper

def encodeShelleyAddressUtxosRange (address : ShelleyAddress)
    (lower upper : Option (RangeBound UtxosByAddressCursor)) : KeyRange :=
  ownerRange utxoItemBytes
    (enc.encodeDataKey reducerUtxosByShelleyAddress (encodeShelleyAddress address)) lower upper

def encodeAddressUtxosRange (address : Address)
    (lower upper : Option (RangeBound UtxosByAddressCursor)) : KeyRange :=
  match address with
  | .shelley address => enc.encodeShelleyAddressUtxosRange address lower upper
  | .byron address => enc.encodeByronAddressUtxosRange blake2b address lower upper

def encodeAssetUtxosRange (policy : Hash28) (assetName : ShortBytes)
    (lower upper : Option (RangeBound UtxosByAddressCursor)) : KeyRange :=
  ownerRange utxoItemBytes
    (enc.encodeDataKey reducerUtxosByAsset (assetBytes policy assetName)) lower upper

def encodePolicyUtxosRange (policy : Hash28)
    (lower upper : Option (RangeBound UtxosByAddressCursor)) : KeyRange :=
  ownerRange utxoItemBytes (enc.encodeDataKey reducerUtxosByPolicy policy.toList) lower upper

def encodeTxsByPaymentCredRange (cred : ShelleyPaymentPart)
    (lower upper : Option (RangeBound TxsByAddressCursor)) : KeyRange :=
  ownerRange txItemBytes
    (enc.encodeDataKey reducerTxsByPayCred (encodeShelleyPaymentCred cred)) lower upper

def encodeAddressTxsRange (address : Address)
    (lower upper : Option (RangeBound TxsByAddressCursor)) : KeyRange :=
  ownerRange txItemBytes
    (enc.encodeDataKey reducerTxsByAddress (encodeAddressWithType blake2b address)) lower upper

end KeyEncoder

def UtxoOwner.range (enc : KeyEncoder) (blake2b : Bytes → Hash)
    (lower upper : Option (RangeBound UtxosByAddressCursor)) : UtxoOwner → KeyRange
  | .shelley address => enc.encodeAddressUtxosRange blake2b (.shelley address) lower upper
  | .byron address => enc.encodeAddressUtxosRange blake2b (.byron address) lower upper
  | .asset policyId assetName => enc.encodeAssetUtxosRange policyId assetName lower upper
  | .policy policyId => enc.encodePolicyUtxosRange policyId lower upper

def TxOwner.range (enc : KeyEncoder) (blake2b : Bytes → Hash)
    (lower upper : Option (RangeBound TxsByAddressCursor)) : TxOwner → KeyRange
  | .address owner => enc.encodeAddressTxsRange blake2b owner lower upper
  | .paymentCred cred => enc.encodeTxsByPaymentCredRange cred lower upper

theorem UtxoOwner.range_eq (enc : KeyEncoder) (blake2b : Bytes → Hash)
    (lower upper : Option (RangeBound UtxosByAddressCursor)) (owner : UtxoOwner) :
    owner.range enc blake2b lower upper =
      ownerRange utxoItemBytes (owner.front enc blake2b) lower upper := by
  cases owner <;> rfl

theorem TxOwner.range_eq (enc : KeyEncoder) (blake2b : Bytes → Hash)
    (lower upper : Option (RangeBound TxsByAddressCursor)) (owner : TxOwner) :
    owner.range enc blake2b lower upper =
      ownerRange txItemBytes (owner.front enc blake2b) lower upper := by
  cases owner <;> rfl

/-! ## Bounds -/

section Bounds

variable {κ ρ : Type*} [LinearOrder ρ] (slotOf : κ → U64) (rank : κ → ρ) {tail : κ → Bytes}
  {key : Bytes}

def IsAbove (lower : Option (RangeBound κ)) (item : κ) : Prop :=
  match lower with
  | none => True
  | some (.slot startSlot) => startSlot.toNat ≤ (slotOf item).toNat
  | some (.cursor cursor) => rank cursor < rank item

def IsBelow (upper : Option (RangeBound κ)) (item : κ) : Prop :=
  match upper with
  | none => True
  | some (.slot endSlot) => (slotOf item).toNat ≤ endSlot.toNat
  | some (.cursor cursor) => rank item < rank cursor

variable {slotOf rank} {itemBytes : κ → Bytes} {front : Bytes} {lower upper : Option (RangeBound κ)}

theorem exists_rest_of_contains (h : (ownerRange itemBytes front lower upper).Contains key) :
    ∃ rest, key = front ++ (breakByte :: rest) := by
  obtain ⟨hlow, hhigh⟩ := h
  obtain ⟨low, hstart⟩ : ∃ low,
      (ownerRange itemBytes front lower upper).start = front ++ (breakByte :: low) := by
    rcases lower with _ | _ | _
    · exact ⟨[], rfl⟩
    · exact ⟨_, rfl⟩
    · exact ⟨_, rfl⟩
  obtain ⟨byte, high, hstop, hbyte⟩ : ∃ byte high,
      (ownerRange itemBytes front lower upper).stop = front ++ (byte :: high) ∧
        (byte = breakByte ∨ byte = breakByte + 1 ∧ high = []) := by
    rcases upper with _ | _ | _
    · exact ⟨_, _, rfl, Or.inr ⟨rfl, rfl⟩⟩
    · exact ⟨_, _, rfl, Or.inl rfl⟩
    · exact ⟨_, _, rfl, Or.inl rfl⟩
  rw [hstart] at hlow
  rw [hstop] at hhigh
  have hlt := hhigh.resolve_left (by simp)
  obtain ⟨rest, rfl⟩ := Bytes.isPrefix_of_between hlow hlt
  rw [Bytes.append_le_append_left_iff] at hlow
  rw [Bytes.append_lt_append_left_iff] at hlt
  cases rest with
  | nil => exact absurd hlow (not_le.mpr (Bytes.nil_lt_cons _ _))
  | cons first rest =>
    refine ⟨rest, ?_⟩
    suffices hfirst : first = breakByte by rw [hfirst]
    have hge : breakByte ≤ first := by
      rcases cons_le_cons_iff.mp hlow with h | h
      · exact h.le
      · exact h.1.le
    refine le_antisymm ?_ hge
    rcases hbyte with rfl | ⟨rfl, rfl⟩
    · rcases Bytes.cons_lt_cons_iff.mp hlt with h | h
      · exact h.le
      · exact h.1.le
    · rw [← lt_add_one_iff (by decide)]
      exact (Bytes.cons_lt_cons_iff.mp hlt).resolve_right fun h => Bytes.not_lt_nil _ h.2

theorem append_lt_u64Bytes_iff {slot bound : U64} {tail : Bytes} :
    u64Bytes slot ++ tail < u64Bytes bound ↔ slot.toNat < bound.toNat := by
  rw [← List.append_nil (u64Bytes bound), Bytes.append_lt_append_iff (by simp), u64Bytes_lt_iff]
  exact or_iff_left fun h => Bytes.not_lt_nil _ h.2

theorem contains_ownerRange_item
    (hitem : ∀ item, itemBytes item = u64Bytes (slotOf item) ++ tail item)
    (hrank : ∀ item item', itemBytes item < itemBytes item' ↔ rank item < rank item')
    (hupper : ∀ endSlot, upper = some (.slot endSlot) → endSlot.toNat < 2 ^ 64 - 1) (item : κ) :
    (ownerRange itemBytes front lower upper).Contains (front ++ (breakByte :: itemBytes item)) ↔
      IsAbove slotOf rank lower item ∧ IsBelow slotOf rank upper item := by
  refine and_congr ?_ ?_
  · rcases lower with _ | startSlot | cursor
    · refine iff_of_true ?_ trivial
      change front ++ [breakByte] ≤ front ++ (breakByte :: itemBytes item)
      rw [Bytes.append_le_append_left_iff, cons_le_cons_iff]
      exact Or.inr ⟨rfl, not_lt.mp (Bytes.not_lt_nil _)⟩
    · change front ++ (breakByte :: u64Bytes startSlot) ≤ front ++ (breakByte :: itemBytes item) ↔ _
      rw [Bytes.append_le_append_left_iff, cons_le_cons_iff, hitem]
      simp only [lt_irrefl, false_or, true_and]
      rw [← not_lt, append_lt_u64Bytes_iff, not_lt]
      rfl
    · change front ++ (breakByte :: (itemBytes cursor ++ [0])) ≤
        front ++ (breakByte :: itemBytes item) ↔ _
      rw [Bytes.append_le_append_left_iff, cons_le_cons_iff]
      simp only [lt_irrefl, false_or, true_and]
      rw [Bytes.append_zero_le_iff, hrank]
      rfl
  · rcases upper with _ | endSlot | cursor
    · refine iff_of_true (Or.inr ?_) trivial
      change front ++ (breakByte :: itemBytes item) < front ++ [breakByte + 1]
      rw [Bytes.append_lt_append_left_iff, Bytes.cons_lt_cons_iff]
      exact Or.inl (by decide)
    · have hstop : (ownerRange itemBytes front lower (some (.slot endSlot))).stop =
          front ++ (breakByte :: u64Bytes (endSlot + 1)) := rfl
      have hslot : (endSlot + 1).toNat = endSlot.toNat + 1 := by
        have hlt := hupper endSlot rfl
        rw [BitVec.toNat_add]
        change (endSlot.toNat + 1) % 2 ^ 64 = _
        exact Nat.mod_eq_of_lt (by omega)
      rw [hstop, or_iff_right (by simp), Bytes.append_lt_append_left_iff, Bytes.cons_lt_cons_iff,
        hitem]
      simp only [lt_irrefl, false_or, true_and]
      rw [append_lt_u64Bytes_iff, hslot, Nat.lt_succ_iff]
      rfl
    · have hstop : (ownerRange itemBytes front lower (some (.cursor cursor))).stop =
          front ++ (breakByte :: itemBytes cursor) := rfl
      rw [hstop, or_iff_right (by simp), Bytes.append_lt_append_left_iff, Bytes.cons_lt_cons_iff]
      simp only [lt_irrefl, false_or, true_and]
      rw [hrank]
      rfl

theorem contains_ownerRange_iff {keyOf : κ → Bytes}
    (hitem : ∀ item, itemBytes item = u64Bytes (slotOf item) ++ tail item)
    (hrank : ∀ item item', itemBytes item < itemBytes item' ↔ rank item < rank item')
    (hupper : ∀ endSlot, upper = some (.slot endSlot) → endSlot.toNat < 2 ^ 64 - 1)
    (hkeyOf : ∀ item, keyOf item = front ++ (breakByte :: itemBytes item))
    (hkey : ∀ rest, key = front ++ (breakByte :: rest) → ∃ item, rest = itemBytes item) :
    (ownerRange itemBytes front lower upper).Contains key ↔
      ∃ item, key = keyOf item ∧ IsAbove slotOf rank lower item ∧
        IsBelow slotOf rank upper item := by
  constructor
  · intro h
    obtain ⟨rest, hrest⟩ := exists_rest_of_contains h
    obtain ⟨item, rfl⟩ := hkey rest hrest
    rw [hrest] at h
    exact ⟨item, hrest.trans (hkeyOf item).symm,
      (contains_ownerRange_item hitem hrank hupper item).mp h⟩
  · rintro ⟨item, rfl, hbounds⟩
    rw [hkeyOf]
    exact (contains_ownerRange_item hitem hrank hupper item).mpr hbounds

end Bounds

/-! ## The keys of an owner -/

variable {blake2b : Bytes → Hash} {enc' enc : KeyEncoder} {rest : Bytes} {data : DataKey}

theorem exists_data_of_encode_eq {key : InstanceKey} {tag : Byte} {body : Bytes} (hbody : body ≠ [])
    (heq : key.encode enc' blake2b = enc.encodeDataKey tag body) :
    ∃ data : DataKey, key = .data data ∧ enc' = enc ∧ data.reducer.tag = tag ∧
      data.body blake2b = body := by
  have hlength : 5 ≤ (key.encode enc' blake2b).length := by
    have hpos := List.length_pos_of_ne_nil hbody
    rw [heq, KeyEncoder.encodeDataKey, List.length_append]
    change 5 ≤ 4 + body.length
    omega
  have hthird : (key.encode enc' blake2b)[2]? = some prefixData := by
    rw [heq]
    rfl
  cases key with
  | cursor => exact absurd hlength (by simp [InstanceKey.encode, KeyEncoder.encodeCursorKey])
  | info => exact absurd hlength (by simp [InstanceKey.encode, KeyEncoder.encodeInfoKey])
  | verification =>
    exact absurd hlength (by simp [InstanceKey.encode, KeyEncoder.verificationKey])
  | tokenRegistry policy name =>
    exact absurd (Option.some.inj hthird : prefixTokenRegistry = prefixData) (by decide)
  | storageRollback bSlot bHash operationIdx modifiedKey =>
    exact absurd (Option.some.inj hthird : prefixRollback = prefixData) (by decide)
  | enrichRollback bSlot bHash itemIdx uHash uIndex =>
    exact absurd (Option.some.inj hthird : prefixRollback = prefixData) (by decide)
  | data data =>
    rw [InstanceKey.encode, DataKey.encode_eq] at heq
    simp only [KeyEncoder.encodeDataKey, List.cons_append, List.nil_append, List.cons.injEq] at heq
    obtain ⟨hdp, hinst, -, htag, hrest⟩ := heq
    refine ⟨data, rfl, ?_, htag, hrest⟩
    cases enc
    cases enc'
    exact KeyEncoder.mk.injEq .. ▸ ⟨hdp, hinst⟩

namespace UtxoOwner

def reducer : UtxoOwner → Reducer
  | .shelley _ => .utxosByShelleyAddress
  | .byron _ => .utxosByByronAddress
  | .asset .. => .utxosByAsset
  | .policy _ => .utxosByPolicy

def bytes (blake2b : Bytes → Hash) : UtxoOwner → Bytes
  | .shelley address => encodeShelleyAddress address
  | .byron address => encodeByronAddress blake2b address
  | .asset policyId assetName => KeyEncoder.assetBytes policyId assetName
  | .policy policyId => policyId.toList

theorem front_eq (enc : KeyEncoder) (blake2b : Bytes → Hash) (owner : UtxoOwner) :
    owner.front enc blake2b = enc.encodeDataKey owner.reducer.tag (owner.bytes blake2b) := by
  cases owner <;> rfl

variable {owner : UtxoOwner}

theorem exists_item_of_body (hreducer : data.reducer = owner.reducer)
    (hbody : data.body blake2b = owner.bytes blake2b ++ (breakByte :: rest)) :
    ∃ item, rest = utxoItemBytes item := by
  cases owner with
  | shelley address =>
    cases data
    case utxosByShelleyAddress address' item =>
      exact ⟨item, (owner_item_of_eq isPrefixCode_shelleyAddress hbody).2.symm⟩
    all_goals cases hreducer
  | byron address =>
    cases data
    case utxosByByronAddress address' item =>
      exact ⟨item, (owner_item_of_eq isPrefixCode_byronAddress hbody).2.symm⟩
    all_goals cases hreducer
  | asset policyId assetName =>
    cases data
    case utxosByAsset policyId' assetName' item =>
      exact ⟨item, (owner_item_of_eq isPrefixCode_asset (a := (policyId', assetName'))
        (b := (policyId, assetName)) hbody).2.symm⟩
    all_goals cases hreducer
  | policy policyId =>
    cases data
    case utxosByPolicy policyId' item =>
      exact ⟨item, (owner_item_of_eq isPrefixCode_policy hbody).2.symm⟩
    all_goals cases hreducer

theorem exists_item_of_encode_eq {key : InstanceKey}
    (heq : key.encode enc' blake2b = owner.front enc blake2b ++ (breakByte :: rest)) :
    ∃ item, rest = utxoItemBytes item := by
  rw [front_eq, KeyEncoder.encodeDataKey, List.append_assoc] at heq
  obtain ⟨data, -, -, htag, hbody⟩ := exists_data_of_encode_eq (by simp) heq
  exact exists_item_of_body (Reducer.tag_injective htag) hbody

end UtxoOwner

namespace TxOwner

def reducer : TxOwner → Reducer
  | .address _ => .txsByAddress
  | .paymentCred _ => .txsByPayCred

def bytes (blake2b : Bytes → Hash) : TxOwner → Bytes
  | .address owner => encodeAddressWithType blake2b owner
  | .paymentCred cred => encodeShelleyPaymentCred cred

theorem front_eq (enc : KeyEncoder) (blake2b : Bytes → Hash) (owner : TxOwner) :
    owner.front enc blake2b = enc.encodeDataKey owner.reducer.tag (owner.bytes blake2b) := by
  cases owner <;> rfl

variable {owner : TxOwner}

theorem exists_item_of_body (hreducer : data.reducer = owner.reducer)
    (hbody : data.body blake2b = owner.bytes blake2b ++ (breakByte :: rest)) :
    ∃ item, rest = txItemBytes item := by
  cases owner with
  | address owner =>
    cases data
    case txsByAddress address' item =>
      exact ⟨item, (owner_item_of_eq isPrefixCode_addressWithType hbody).2.symm⟩
    all_goals cases hreducer
  | paymentCred cred =>
    cases data
    case txsByPaymentCred cred' item =>
      exact ⟨item, (owner_item_of_eq isPrefixCode_paymentCred hbody).2.symm⟩
    all_goals cases hreducer

theorem exists_item_of_encode_eq {key : InstanceKey}
    (heq : key.encode enc' blake2b = owner.front enc blake2b ++ (breakByte :: rest)) :
    ∃ item, rest = txItemBytes item := by
  rw [front_eq, KeyEncoder.encodeDataKey, List.append_assoc] at heq
  obtain ⟨data, -, -, htag, hbody⟩ := exists_data_of_encode_eq (by simp) heq
  exact exists_item_of_body (Reducer.tag_injective htag) hbody

end TxOwner

/-- **Scan ranges are exact**: of all keys of all instances, they hold the owner's between the
bounds. -/
theorem ranges_exact (enc enc' : KeyEncoder) (blake2b : Bytes → Hash) (key : InstanceKey) :
    (∀ (owner : UtxoOwner) (lower upper : Option (RangeBound UtxosByAddressCursor)),
      (∀ endSlot, upper = some (.slot endSlot) → endSlot.toNat < 2 ^ 64 - 1) →
      ((owner.range enc blake2b lower upper).Contains (key.encode enc' blake2b) ↔
        ∃ item, key.encode enc' blake2b = (owner.key item).encode enc blake2b ∧
          IsAbove UtxosByAddressCursor.slot UtxosByAddressCursor.rank lower item ∧
          IsBelow UtxosByAddressCursor.slot UtxosByAddressCursor.rank upper item)) ∧
    (∀ (owner : TxOwner) (lower upper : Option (RangeBound TxsByAddressCursor)),
      (∀ endSlot, upper = some (.slot endSlot) → endSlot.toNat < 2 ^ 64 - 1) →
      ((owner.range enc blake2b lower upper).Contains (key.encode enc' blake2b) ↔
        ∃ item, key.encode enc' blake2b = (owner.key item).encode enc blake2b ∧
          IsAbove TxsByAddressCursor.slot TxsByAddressCursor.rank lower item ∧
          IsBelow TxsByAddressCursor.slot TxsByAddressCursor.rank upper item)) := by
  constructor
  · intro owner lower upper hupper
    rw [owner.range_eq]
    exact contains_ownerRange_iff
      (fun item => (rfl : _ = u64Bytes item.slot ++ (item.uHash.toList ++ u64Bytes item.uIndex)))
      (fun _ _ => utxoItemBytes_lt_iff) hupper (owner.encode_key enc blake2b)
      fun _ hrest => UtxoOwner.exists_item_of_encode_eq hrest
  · intro owner lower upper hupper
    rw [owner.range_eq]
    exact contains_ownerRange_iff
      (fun item => (rfl : _ = u64Bytes item.slot ++
        (u16Bytes item.blockIndex ++ item.txHash.toList)))
      (fun _ _ => txItemBytes_lt_iff) hupper (owner.encode_key enc blake2b)
      fun _ hrest => TxOwner.exists_item_of_encode_eq hrest

theorem ranges_exact_policy :
    ((UtxoOwner.policy (Vector.replicate 28 96)).range ⟨1, 2⟩ (fun _ => Vector.replicate 32 0)
        (some (.slot 5)) (some (.slot 20))).Contains
      (InstanceKey.encode ⟨1, 2⟩ (fun _ => Vector.replicate 32 0)
        (.data (.utxosByPolicy (Vector.replicate 28 96) ⟨20, Vector.replicate 32 255, 7⟩))) :=
  ((ranges_exact ⟨1, 2⟩ ⟨1, 2⟩ (fun _ => Vector.replicate 32 0)
      (.data (.utxosByPolicy (Vector.replicate 28 96) ⟨20, Vector.replicate 32 255, 7⟩))).1
    (.policy (Vector.replicate 28 96)) (some (.slot 5)) (some (.slot 20)) (by
      intro endSlot heq
      cases heq
      decide)).mpr
    ⟨⟨20, Vector.replicate 32 255, 7⟩, rfl, (by decide : 5 ≤ 20), (by decide : 20 ≤ 20)⟩

end CardanoIndexer.Timbre
