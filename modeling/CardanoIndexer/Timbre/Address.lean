import CardanoIndexer.Lib.PrefixCode
import CardanoIndexer.Timbre.Keys

/-!
# Addresses in keys

All of these encodings are prefix codes, so keys are readable although the delimiter between fields
may occur inside them.
-/

namespace CardanoIndexer

abbrev Hash28 := Vector Byte 28

abbrev U16 := BitVec 16

namespace Timbre

/-! ## Addresses -/

inductive Network where
  | testnet
  | mainnet
  | other (tag : Byte)
  deriving DecidableEq

def Network.tag : Network → Byte
  | .testnet => 0
  | .mainnet => 1
  | .other x => x

def Network.IsCanonical : Network → Prop
  | .testnet => True
  | .mainnet => True
  | .other x => x ≠ 0 ∧ x ≠ 1

inductive ShelleyPaymentPart where
  | key (hash : Hash28)
  | script (hash : Hash28)
  deriving DecidableEq

inductive ShelleyDelegationPart where
  | key (hash : Hash28)
  | script (hash : Hash28)
  | pointer (slot txIdx certIdx : U64)
  | null
  deriving DecidableEq

structure ShelleyAddress where
  network : Network
  payment : ShelleyPaymentPart
  delegation : ShelleyDelegationPart
  deriving DecidableEq

structure ByronAddress where
  toVec : Bytes
  deriving DecidableEq

inductive Address where
  | shelley (address : ShelleyAddress)
  | byron (address : ByronAddress)
  deriving DecidableEq

def maxByronAddressLen : ℕ := 3000
def addressShelley : Byte := 83
def addressByron : Byte := 66

def u16Bytes (n : U16) : Bytes := Bytes.toBE 2 n.toNat

@[simp] theorem length_u16Bytes (n : U16) : (u16Bytes n).length = 2 := Bytes.length_toBE ..

theorem u16Bytes_lt_iff {n m : U16} : u16Bytes n < u16Bytes m ↔ n.toNat < m.toNat :=
  Bytes.toBE_lt_toBE_iff n.isLt m.isLt

theorem u16Bytes_injective : Function.Injective u16Bytes := fun n m heq =>
  BitVec.eq_of_toNat_eq (Bytes.toBE_injective n.isLt m.isLt heq)

/-! ## Encoders -/

def encodeShelleyPaymentCred : ShelleyPaymentPart → Bytes
  | .key hash => 0 :: hash.toList
  | .script hash => 1 :: hash.toList

def encodeShelleyDelegation : ShelleyDelegationPart → Bytes
  | .key hash => 0 :: hash.toList
  | .script hash => 1 :: hash.toList
  | .pointer slot txIdx certIdx => 2 :: (u64Bytes slot ++ (u64Bytes txIdx ++ u64Bytes certIdx))
  | .null => [3]

def encodeShelleyAddress (address : ShelleyAddress) : Bytes :=
  address.network.tag ::
    (encodeShelleyPaymentCred address.payment ++
      (breakByte :: encodeShelleyDelegation address.delegation))

section

variable (blake2b : Bytes → Hash)

def encodeByronAddress (address : ByronAddress) : Bytes :=
  if address.toVec.length ≤ maxByronAddressLen then
    0 :: (Bytes.toBE 2 address.toVec.length ++ address.toVec)
  else 1 :: (blake2b address.toVec).toList

def encodeAddressWithType : Address → Bytes
  | .shelley address => addressShelley :: encodeShelleyAddress address
  | .byron address => addressByron :: encodeByronAddress blake2b address

end

structure ShortBytes where
  bytes : Bytes
  length_le : bytes.length ≤ 255
  deriving DecidableEq

theorem ShortBytes.length_nil_le : ([] : Bytes).length ≤ 255 := by decide

def encodeShortBytestring (short : ShortBytes) : Bytes :=
  Fin.ofNat 256 short.bytes.length :: short.bytes

/-! ## Addresses can be split off -/

@[simp] theorem length_toList_hash (hash : Hash) : hash.toList.length = 32 := by simp

@[simp] theorem length_toList_hash28 (hash : Hash28) : hash.toList.length = 28 := by simp

theorem toList_injective {n : ℕ} : Function.Injective (Vector.toList : Vector Byte n → Bytes) :=
  fun _ _ heq => Vector.toList_inj.mp heq

@[simp] theorem length_encodeShelleyPaymentCred (payment : ShelleyPaymentPart) :
    (encodeShelleyPaymentCred payment).length = 29 := by
  cases payment <;> simp [encodeShelleyPaymentCred]

theorem encodeShelleyPaymentCred_injective : Function.Injective encodeShelleyPaymentCred := by
  intro a b heq
  cases a <;> cases b <;>
    simp_all [encodeShelleyPaymentCred, toList_injective.eq_iff]

theorem isPrefixCode_delegation : IsPrefixCode encodeShelleyDelegation := by
  refine .of_take 1 (fun a => ?_) fun a b heq => ?_
  · cases a <;> simp [encodeShelleyDelegation]
  · cases a <;> cases b <;> simp_all [encodeShelleyDelegation]

theorem encodeShelleyDelegation_injective : Function.Injective encodeShelleyDelegation := by
  intro a b heq
  cases a with
  | key hash =>
    cases b <;> simp_all [encodeShelleyDelegation, toList_injective.eq_iff]
  | script hash =>
    cases b <;> simp_all [encodeShelleyDelegation, toList_injective.eq_iff]
  | pointer slot txIdx certIdx =>
    cases b with
    | pointer slot' txIdx' certIdx' =>
      obtain ⟨hslot, hrest⟩ := List.append_inj (List.cons.inj heq).2 (by simp)
      obtain ⟨htx, hcert⟩ := List.append_inj hrest (by simp)
      rw [u64Bytes_injective hslot, u64Bytes_injective htx, u64Bytes_injective hcert]
    | key hash => simp [encodeShelleyDelegation] at heq
    | script hash => simp [encodeShelleyDelegation] at heq
    | null => simp [encodeShelleyDelegation] at heq
  | null =>
    cases b <;> simp_all [encodeShelleyDelegation]

theorem Network.tag_injective {n m : Network} (hn : n.IsCanonical) (hm : m.IsCanonical)
    (heq : n.tag = m.tag) : n = m := by
  cases n <;> cases m <;> simp_all [Network.tag, Network.IsCanonical]

def encodeShelleyFront (address : ShelleyAddress) : Bytes :=
  address.network.tag :: (encodeShelleyPaymentCred address.payment ++ [breakByte])

theorem encodeShelleyAddress_eq (address : ShelleyAddress) :
    encodeShelleyAddress address =
      encodeShelleyFront address ++ encodeShelleyDelegation address.delegation := by
  simp [encodeShelleyAddress, encodeShelleyFront]

theorem isPrefixCode_shelleyAddress : IsPrefixCode encodeShelleyAddress := by
  have hfront : IsPrefixCode encodeShelleyFront :=
    .of_length 31 fun a => by simp [encodeShelleyFront]
  rw [funext encodeShelleyAddress_eq]
  exact hfront.append (isPrefixCode_delegation.comp ShelleyAddress.delegation)

theorem encodeShelleyAddress_injective {a b : ShelleyAddress} (ha : a.network.IsCanonical)
    (hb : b.network.IsCanonical) (heq : encodeShelleyAddress a = encodeShelleyAddress b) :
    a = b := by
  obtain ⟨htag, hrest⟩ := List.cons.inj heq
  obtain ⟨hpayment, hrest⟩ := List.append_inj hrest (by simp)
  obtain ⟨-, hdelegation⟩ := List.cons.inj hrest
  cases a
  cases b
  simp only [ShelleyAddress.mk.injEq]
  exact ⟨Network.tag_injective ha hb htag, encodeShelleyPaymentCred_injective hpayment,
    encodeShelleyDelegation_injective hdelegation⟩

theorem isPrefixCode_shortBytestring : IsPrefixCode encodeShortBytestring := by
  refine .of_take 1 (fun a => by simp [encodeShortBytestring]) fun a b heq => ?_
  have hlength : Fin.ofNat 256 a.bytes.length = Fin.ofNat 256 b.bytes.length := by
    simpa [encodeShortBytestring] using heq
  have ha := a.length_le
  have hb := b.length_le
  rw [Fin.ext_iff, Fin.val_ofNat, Fin.val_ofNat, Nat.mod_eq_of_lt (by omega),
    Nat.mod_eq_of_lt (by omega)] at hlength
  simp [encodeShortBytestring, hlength]

theorem encodeShortBytestring_injective : Function.Injective encodeShortBytestring := by
  intro a b heq
  cases a
  cases b
  simpa [encodeShortBytestring] using (List.cons.inj heq).2

section

variable {blake2b : Bytes → Hash} {addresses : Set Bytes}

theorem isPrefixCode_byronAddress : IsPrefixCode (encodeByronAddress blake2b) := by
  refine .of_take 3 (fun a => ?_) fun a b heq => ?_
  · unfold encodeByronAddress
    split <;> simp
  · unfold encodeByronAddress at heq ⊢
    by_cases ha : a.toVec.length ≤ maxByronAddressLen <;>
      by_cases hb : b.toVec.length ≤ maxByronAddressLen
    · simp only [if_pos ha, if_pos hb, List.take_succ_cons, List.cons.injEq, true_and] at heq ⊢
      rw [List.take_left' (by simp), List.take_left' (by simp)] at heq
      have hlength := Bytes.toBE_injective (by unfold maxByronAddressLen at ha; omega)
        (by unfold maxByronAddressLen at hb; omega) heq
      simp [hlength]
    · simp [ha, hb] at heq
    · simp [ha, hb] at heq
    · simp [ha, hb]

theorem encodeByronAddress_injOn (hinj : Set.InjOn blake2b addresses) {a b : ByronAddress}
    (ha : a.toVec ∈ addresses) (hb : b.toVec ∈ addresses)
    (heq : encodeByronAddress blake2b a = encodeByronAddress blake2b b) : a = b := by
  suffices h : a.toVec = b.toVec by
    cases a
    cases b
    exact congrArg ByronAddress.mk h
  unfold encodeByronAddress at heq
  by_cases hla : a.toVec.length ≤ maxByronAddressLen <;>
    by_cases hlb : b.toVec.length ≤ maxByronAddressLen
  · rw [if_pos hla, if_pos hlb] at heq
    exact (List.append_inj (List.cons.inj heq).2 (by simp)).2
  · simp [hla, hlb] at heq
  · simp [hla, hlb] at heq
  · rw [if_neg hla, if_neg hlb] at heq
    exact hinj ha hb (toList_injective (List.cons.inj heq).2)

theorem isPrefixCode_addressWithType : IsPrefixCode (encodeAddressWithType blake2b) := by
  intro a b s t heq
  cases a with
  | shelley a =>
    cases b with
    | shelley b =>
      obtain ⟨hsame, hst⟩ := isPrefixCode_shelleyAddress (List.cons.inj heq).2
      exact ⟨congrArg (addressShelley :: ·) hsame, hst⟩
    | byron b => exact absurd (List.cons.inj heq).1 (by decide)
  | byron a =>
    cases b with
    | shelley b => exact absurd (List.cons.inj heq).1 (by decide)
    | byron b =>
      obtain ⟨hsame, hst⟩ := isPrefixCode_byronAddress (List.cons.inj heq).2
      exact ⟨congrArg (addressByron :: ·) hsame, hst⟩

def Address.IsKeyed (addresses : Set Bytes) : Address → Prop
  | .shelley address => address.network.IsCanonical
  | .byron address => address.toVec ∈ addresses

theorem encodeAddressWithType_injOn (hinj : Set.InjOn blake2b addresses) {a b : Address}
    (ha : a.IsKeyed addresses) (hb : b.IsKeyed addresses)
    (heq : encodeAddressWithType blake2b a = encodeAddressWithType blake2b b) : a = b := by
  cases a with
  | shelley a =>
    cases b with
    | shelley b => rw [encodeShelleyAddress_injective ha hb (List.cons.inj heq).2]
    | byron b => exact absurd (List.cons.inj heq).1 (by decide)
  | byron a =>
    cases b with
    | shelley b => exact absurd (List.cons.inj heq).1 (by decide)
    | byron b => rw [encodeByronAddress_injOn hinj ha hb (List.cons.inj heq).2]

end

end Timbre

end CardanoIndexer
