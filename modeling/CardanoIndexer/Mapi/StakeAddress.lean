import CardanoIndexer.Mapi.Request

/-!
# Stake addresses
-/

namespace CardanoIndexer.Mapi

open Timbre

inductive StakePayload where
  | stake (hash : Hash28)
  | script (hash : Hash28)
  deriving DecidableEq

structure StakeAddress where
  network : Network
  payload : StakePayload
  deriving DecidableEq

inductive AnyAddress where
  | payment (address : Address)
  | stake (address : StakeAddress)
  deriving DecidableEq

def hash28OfBytes (bytes : Bytes) : Option Hash28 :=
  if h : bytes.length = 28 then some ⟨bytes.toArray, by simpa using h⟩ else none

def StakeAddress.ofShelley (address : ShelleyAddress) : Option StakeAddress :=
  match address.delegation with
  | .key hash => some ⟨address.network, .stake hash⟩
  | .script hash => some ⟨address.network, .script hash⟩
  | .pointer .. => none
  | .null => none

def StakePayload.hash : StakePayload → Hash28
  | .stake hash => hash
  | .script hash => hash

def StakePayload.typeid : StakePayload → Byte
  | .stake _ => 14
  | .script _ => 15

def StakeAddress.toHeader (address : StakeAddress) : Byte :=
  address.payload.typeid <<< 4 ||| address.network.tag

def StakeAddress.toVec (address : StakeAddress) : Bytes :=
  address.toHeader :: address.payload.hash.toList

def StakeAddress.fromBytes : Bytes → Option StakeAddress
  | [] => none
  | header :: payload => do
    let hash ← hash28OfBytes payload
    let network := Network.ofTag (header &&& 15)
    if header >>> 4 = 14 then some ⟨network, .stake hash⟩
    else if header >>> 4 = 15 then some ⟨network, .script hash⟩
    else none

def StakeAddress.hrp (address : StakeAddress) : Option String :=
  match address.network with
  | .testnet => some "stake_test"
  | .mainnet => some "stake"
  | .other _ => none

def StakeAddress.toBech32 (bech32Encode : String → Bytes → Text) (address : StakeAddress) :
    Option Text := do
  let hrp ← address.hrp
  return bech32Encode hrp address.toVec

def StakeAddress.IsNamed (address : StakeAddress) : Prop :=
  address.network = .testnet ∨ address.network = .mainnet

variable {address : StakeAddress}

theorem StakeAddress.exists_toBech32 (h : address.IsNamed) (bech32Encode : String → Bytes → Text) :
    ∃ text, address.toBech32 bech32Encode = some text := by
  rcases h with h | h
  · exact ⟨bech32Encode "stake_test" address.toVec, by simp [toBech32, hrp, h]⟩
  · exact ⟨bech32Encode "stake" address.toVec, by simp [toBech32, hrp, h]⟩

theorem hash28OfBytes_toList (hash : Hash28) : hash28OfBytes hash.toList = some hash := by
  simp [hash28OfBytes, Vector.toList]

theorem StakeAddress.fromBytes_toVec (h : address.IsNamed) :
    fromBytes address.toVec = some address := by
  obtain ⟨network, payload⟩ := address
  rw [toVec, fromBytes, hash28OfBytes_toList]
  rcases h with h | h <;> cases h
  · cases payload <;> rfl
  · cases payload <;> rfl

end CardanoIndexer.Mapi
