import CardanoIndexer.Timbre.Decode
import CardanoIndexer.Timbre.Ranges

/-!
# Ranges of a payment credential

A cursor names an address of its own, and the range starts there whatever its credential is.
-/

namespace CardanoIndexer.Timbre

def KeyEncoder.encodeUtxosByPaymentCredRange (enc : KeyEncoder) (network : Byte)
    (payment : ShelleyPaymentPart) (lower upper : Option UtxosByPaymentCredCursor) :
    KeyRange where
  start := match lower with
    | none => enc.encodeDataKey reducerUtxosByShelleyAddress
        (network :: (encodeShelleyPaymentCred payment ++ [breakByte]))
    | some ⟨address, slot, uHash, uIndex⟩ => enc.encodeDataKey reducerUtxosByShelleyAddress
        (encodeShelleyAddress address ++
          (breakByte :: (utxoItemBytes ⟨slot, uHash, uIndex⟩ ++ [0])))
  stop := match upper with
    | some ⟨address, slot, uHash, uIndex⟩ => enc.encodeDataKey reducerUtxosByShelleyAddress
        (encodeShelleyAddress address ++ (breakByte :: utxoItemBytes ⟨slot, uHash, uIndex⟩))
    | none => enc.encodeDataKey reducerUtxosByShelleyAddress
        (network :: (encodeShelleyPaymentCred payment ++ [breakByte + 1]))

/-! ## The order of Shelley keys -/

def credBytes (network : Byte) (payment : ShelleyPaymentPart) : Bytes :=
  network :: encodeShelleyPaymentCred payment

def utxoBytes (delegation : ShelleyDelegationPart) (item : UtxosByAddressCursor) : Bytes :=
  encodeShelleyDelegation delegation ++ (breakByte :: utxoItemBytes item)

def ShelleyAddress.cred (address : ShelleyAddress) : Bytes :=
  credBytes address.network.tag address.payment

def UtxosByPaymentCredCursor.item (cursor : UtxosByPaymentCredCursor) : UtxosByAddressCursor :=
  ⟨cursor.slot, cursor.uHash, cursor.uIndex⟩

@[simp] theorem length_credBytes (network : Byte) (payment : ShelleyPaymentPart) :
    (credBytes network payment).length = 30 := by simp [credBytes]

@[simp] theorem length_cred (address : ShelleyAddress) : address.cred.length = 30 :=
  length_credBytes ..

theorem credBytes_inj {network network' : Byte} {payment payment' : ShelleyPaymentPart} :
    credBytes network payment = credBytes network' payment' ↔
      network = network' ∧ payment = payment' := by
  simp [credBytes, encodeShelleyPaymentCred_injective.eq_iff]

@[simp] theorem length_utxoItemBytes (item : UtxosByAddressCursor) :
    (utxoItemBytes item).length = 48 := by simp [utxoItemBytes]

theorem encodeUtxosByShelleyAddressKey_eq (enc : KeyEncoder) (address : ShelleyAddress)
    (item : UtxosByAddressCursor) :
    enc.encodeUtxosByShelleyAddressKey address item =
      enc.encodeDataKey reducerUtxosByShelleyAddress
        (address.cred ++ (breakByte :: utxoBytes address.delegation item)) := by
  simp [KeyEncoder.encodeUtxosByShelleyAddressKey, ShelleyAddress.cred, credBytes, utxoBytes,
    encodeShelleyAddress]

variable {enc : KeyEncoder} {network : Byte} {payment : ShelleyPaymentPart}
  {lower upper : Option UtxosByPaymentCredCursor} {address : ShelleyAddress}
  {blake2b : Bytes → Hash}

theorem key_lt_stop_iff {item : UtxosByAddressCursor} :
    enc.encodeUtxosByShelleyAddressKey address item <
        (enc.encodeUtxosByPaymentCredRange network payment lower none).stop ↔
      address.cred ≤ credBytes network payment := by
  have hstop : (enc.encodeUtxosByPaymentCredRange network payment lower none).stop =
      enc.encodeDataKey reducerUtxosByShelleyAddress
        (credBytes network payment ++ [breakByte + 1]) := rfl
  have htail : breakByte :: utxoBytes address.delegation item < [breakByte + 1] :=
    Bytes.cons_lt_cons_iff.mpr (Or.inl (by decide))
  rw [hstop, encodeUtxosByShelleyAddressKey_eq, KeyEncoder.encodeDataKey, KeyEncoder.encodeDataKey,
    Bytes.append_lt_append_left_iff, Bytes.append_lt_append_iff (by simp), and_iff_left htail,
    le_iff_lt_or_eq]

theorem start_none_le_key_iff {item : UtxosByAddressCursor} :
    (enc.encodeUtxosByPaymentCredRange network payment none upper).start ≤
        enc.encodeUtxosByShelleyAddressKey address item ↔
      credBytes network payment ≤ address.cred := by
  have hstart : (enc.encodeUtxosByPaymentCredRange network payment none upper).start =
      enc.encodeDataKey reducerUtxosByShelleyAddress (credBytes network payment ++ [breakByte]) :=
    rfl
  have htail : ¬ breakByte :: utxoBytes address.delegation item < [breakByte] := by
    rw [Bytes.cons_lt_cons_iff]
    simp only [lt_irrefl, false_or, true_and]
    exact Bytes.not_lt_nil _
  rw [← not_lt, hstart, encodeUtxosByShelleyAddressKey_eq, KeyEncoder.encodeDataKey,
    KeyEncoder.encodeDataKey, Bytes.append_lt_append_left_iff,
    Bytes.append_lt_append_iff (by simp), or_iff_left (fun h => htail h.2), not_lt]

theorem start_some_eq (upper : Option UtxosByPaymentCredCursor)
    (cursor : UtxosByPaymentCredCursor) :
    (enc.encodeUtxosByPaymentCredRange network payment (some cursor) upper).start =
      enc.encodeUtxosByShelleyAddressKey cursor.address cursor.item ++ [0] := by
  simp [KeyEncoder.encodeUtxosByPaymentCredRange, KeyEncoder.encodeUtxosByShelleyAddressKey,
    KeyEncoder.encodeDataKey, UtxosByPaymentCredCursor.item]

theorem start_some_le_key_iff {cursor : UtxosByPaymentCredCursor} {item : UtxosByAddressCursor} :
    (enc.encodeUtxosByPaymentCredRange network payment (some cursor) upper).start ≤
        enc.encodeUtxosByShelleyAddressKey address item ↔
      cursor.address.cred < address.cred ∨ cursor.address.cred = address.cred ∧
        utxoBytes cursor.address.delegation cursor.item < utxoBytes address.delegation item := by
  rw [start_some_eq, Bytes.append_zero_le_iff, encodeUtxosByShelleyAddressKey_eq,
    encodeUtxosByShelleyAddressKey_eq, KeyEncoder.encodeDataKey, KeyEncoder.encodeDataKey,
    Bytes.append_lt_append_left_iff, Bytes.append_lt_append_iff (by simp), Bytes.cons_lt_cons_iff]
  simp only [lt_irrefl, false_or, true_and]

/-! ## Which cursors keep to the credential -/

def IsLastUtxo (cursor : UtxosByPaymentCredCursor) : Prop :=
  cursor.address.delegation = .null ∧ utxoItemBytes cursor.item = List.replicate 48 255

def NotBefore (network : Byte) (payment : ShelleyPaymentPart)
    (cursor : UtxosByPaymentCredCursor) : Prop :=
  credBytes network payment ≤ cursor.address.cred ∨
    IsLastUtxo cursor ∧ ∀ network' payment', cursor.address.cred < credBytes network' payment' →
      credBytes network payment ≤ credBytes network' payment'

def KeepsCredential (blake2b : Bytes → Hash) (enc : KeyEncoder) (network : Byte)
    (payment : ShelleyPaymentPart) (range : KeyRange) : Prop :=
  ∀ (enc' : KeyEncoder) (key : InstanceKey), range.Contains (key.encode enc' blake2b) →
    ∃ address item, enc' = enc ∧ key = .data (.utxosByShelleyAddress address item) ∧
      address.network.tag = network ∧ address.payment = payment

theorem le_replicate_255 (bytes : Bytes) : bytes ≤ List.replicate bytes.length 255 := by
  induction bytes with
  | nil => exact le_rfl
  | cons byte rest ih =>
    rw [List.length_cons, List.replicate_succ, cons_le_cons_iff]
    rcases lt_or_eq_of_le (Fin.le_last byte) with h | h
    · exact Or.inl h
    · exact Or.inr ⟨h, ih⟩

theorem isLastUtxo_iff (cursor : UtxosByPaymentCredCursor) :
    IsLastUtxo cursor ↔ ∀ delegation item,
      ¬ utxoBytes cursor.address.delegation cursor.item < utxoBytes delegation item := by
  have hnull : ∀ item, utxoBytes .null item = 3 :: breakByte :: utxoItemBytes item := fun _ => rfl
  constructor
  · rintro ⟨hdelegation, hitem⟩ delegation item
    rw [hdelegation, hnull, hitem]
    cases delegation with
    | null =>
      rw [hnull, not_lt, cons_le_cons_iff, cons_le_cons_iff]
      have hle := le_replicate_255 (utxoItemBytes item)
      rw [length_utxoItemBytes] at hle
      exact Or.inr ⟨rfl, Or.inr ⟨rfl, hle⟩⟩
    | key hash =>
      rw [not_lt]
      exact cons_le_cons_iff.mpr (Or.inl (by decide))
    | script hash =>
      rw [not_lt]
      exact cons_le_cons_iff.mpr (Or.inl (by decide))
    | pointer slot txIdx certIdx =>
      rw [not_lt]
      exact cons_le_cons_iff.mpr (Or.inl (by decide))
  · intro hlast
    obtain ⟨last, hbytes⟩ : ∃ last : UtxosByAddressCursor,
        utxoItemBytes last = List.replicate 48 255 :=
      ⟨⟨BitVec.allOnes 64, Vector.replicate 32 255, BitVec.allOnes 64⟩, by decide +kernel⟩
    have hle := hlast .null last
    rw [hnull, hbytes] at hle
    unfold IsLastUtxo
    cases hdelegation : cursor.address.delegation with
    | null =>
      rw [hdelegation, hnull, Bytes.cons_lt_cons_iff, Bytes.cons_lt_cons_iff] at hle
      simp only [lt_irrefl, false_or, true_and, not_lt] at hle
      have hge := le_replicate_255 (utxoItemBytes cursor.item)
      rw [length_utxoItemBytes] at hge
      exact ⟨rfl, le_antisymm hge hle⟩
    | key hash =>
      rw [hdelegation] at hle
      exact absurd (Bytes.cons_lt_cons_iff.mpr (Or.inl (by decide))) hle
    | script hash =>
      rw [hdelegation] at hle
      exact absurd (Bytes.cons_lt_cons_iff.mpr (Or.inl (by decide))) hle
    | pointer slot txIdx certIdx =>
      rw [hdelegation] at hle
      exact absurd (Bytes.cons_lt_cons_iff.mpr (Or.inl (by decide))) hle

theorem exists_shelley_of_contains {enc' : KeyEncoder} {key : InstanceKey}
    (h : (enc.encodeUtxosByPaymentCredRange network payment lower upper).Contains
      (key.encode enc' blake2b)) :
    ∃ address item, enc' = enc ∧ key = .data (.utxosByShelleyAddress address item) := by
  obtain ⟨hlow, hhigh⟩ := h
  obtain ⟨low, hne, hstart⟩ : ∃ low : Bytes, low ≠ [] ∧
      (enc.encodeUtxosByPaymentCredRange network payment lower upper).start =
        enc.encodeDataKey reducerUtxosByShelleyAddress low := by
    rcases lower with _ | cursor
    · exact ⟨_, by simp, rfl⟩
    · exact ⟨_, by simp [encodeShelleyAddress], rfl⟩
  obtain ⟨high, hstop⟩ : ∃ high,
      (enc.encodeUtxosByPaymentCredRange network payment lower upper).stop =
        enc.encodeDataKey reducerUtxosByShelleyAddress high := by
    rcases upper with _ | cursor
    · exact ⟨_, rfl⟩
    · exact ⟨_, rfl⟩
  rw [hstart] at hlow
  rw [hstop] at hhigh
  obtain ⟨body, hbody⟩ := Bytes.isPrefix_of_between hlow (hhigh.resolve_left (by simp
    [KeyEncoder.encodeDataKey]))
  have hbodyNe : body ≠ [] := by
    rintro rfl
    rw [← hbody, KeyEncoder.encodeDataKey, Bytes.append_le_append_left_iff] at hlow
    cases low with
    | nil => exact hne rfl
    | cons byte rest => exact absurd hlow (not_le.mpr (Bytes.nil_lt_cons _ _))
  obtain ⟨data, rfl, rfl, htag, -⟩ := exists_data_of_encode_eq hbodyNe hbody.symm
  have hreducer : data.reducer = .utxosByShelleyAddress := Reducer.tag_injective htag
  cases data
  case utxosByShelleyAddress address item => exact ⟨address, item, rfl, rfl⟩
  all_goals cases hreducer

theorem keepsCredential_iff_forall :
    KeepsCredential blake2b enc network payment
        (enc.encodeUtxosByPaymentCredRange network payment lower none) ↔
      ∀ address item,
        (enc.encodeUtxosByPaymentCredRange network payment lower none).start ≤
            enc.encodeUtxosByShelleyAddressKey address item →
          address.cred ≤ credBytes network payment → address.cred = credBytes network payment := by
  constructor
  · intro hkeeps address item hstart hle
    obtain ⟨address', item', -, heq, htag, hpayment⟩ :=
      hkeeps enc (.data (.utxosByShelleyAddress address item))
        ⟨hstart, Or.inr (key_lt_stop_iff.mpr hle)⟩
    cases heq
    exact credBytes_inj.mpr ⟨htag, hpayment⟩
  · intro hforall enc' key hcontains
    obtain ⟨address, item, rfl, rfl⟩ := exists_shelley_of_contains hcontains
    refine ⟨address, item, rfl, rfl, credBytes_inj.mp ?_⟩
    refine hforall address item hcontains.1 (key_lt_stop_iff.mp (hcontains.2.resolve_left ?_))
    simp [KeyEncoder.encodeUtxosByPaymentCredRange, KeyEncoder.encodeDataKey]

theorem keepsCredential_iff :
    KeepsCredential blake2b enc network payment
        (enc.encodeUtxosByPaymentCredRange network payment lower none) ↔
      ∀ cursor, lower = some cursor → NotBefore network payment cursor := by
  rw [keepsCredential_iff_forall]
  cases lower with
  | none =>
    refine iff_of_true (fun address item hstart hle => ?_) fun cursor h => by cases h
    exact le_antisymm hle (start_none_le_key_iff.mp hstart)
  | some cursor =>
    simp only [start_some_le_key_iff, Option.some.injEq, forall_eq']
    constructor
    · intro hforall
      by_contra hnot
      simp only [NotBefore, not_or, not_and, not_le] at hnot
      obtain ⟨hlt, hlast⟩ := hnot
      by_cases hutxo : IsLastUtxo cursor
      · -- a credential between the two
        obtain ⟨network', payment', hafter, hbefore⟩ : ∃ network' payment',
            cursor.address.cred < credBytes network' payment' ∧
              credBytes network' payment' < credBytes network payment := by
          simpa using hlast hutxo
        obtain ⟨network'', htag⟩ : ∃ network'' : Network, network''.tag = network' :=
          ⟨.other network', rfl⟩
        subst htag
        exact hbefore.ne (hforall ⟨network'', payment', .null⟩ cursor.item (Or.inl hafter)
          hbefore.le)
      · -- another key of the credential of the cursor
        rw [isLastUtxo_iff] at hutxo
        push Not at hutxo
        obtain ⟨delegation, item, hbehind⟩ := hutxo
        exact hlt.ne (hforall ⟨cursor.address.network, cursor.address.payment, delegation⟩ item
          (Or.inr ⟨rfl, hbehind⟩) hlt.le)
    · rintro (hge | ⟨hlast, hnext⟩) address item hstart hle
      · rcases hstart with hlt | ⟨heq, -⟩
        · exact absurd (hge.trans_lt hlt) (not_lt.mpr hle)
        · exact le_antisymm hle (hge.trans heq.le)
      · rcases hstart with hlt | ⟨heq, hbehind⟩
        · exact le_antisymm hle (hnext _ _ hlt)
        · exact absurd hbehind ((isLastUtxo_iff cursor).mp hlast _ _)

end CardanoIndexer.Timbre
