import CardanoIndexer.Lib.Tally
import CardanoIndexer.Mapi.SlotListings
import CardanoIndexer.Mapi.StakeAddress
import CardanoIndexer.Timbre.Values
import Mathlib.Data.BitVec

/-!
# Holders of a policy
-/

namespace CardanoIndexer.Mapi

open Timbre Tally

structure HolderEnv (τ : Type) extends Env τ where
  bech32Encode : String → Bytes → Text
  addressText : AnyAddress → Text
  addressFromStr : Text → Option AnyAddress
  addressToVec : AnyAddress → Bytes
  addressFromBytes : Bytes → Option AnyAddress

variable {τ : Type} {holder : Text}

def decodePolicyId (hexPolicy : Text) : Except Failure Hash28 :=
  match Bytes.unhex hexPolicy with
  | none => .error (.badRequest "Policy ID must be hex encoded")
  | some bytes => match hash28OfBytes bytes with
      | none => .error (.badRequest "Malformed policy ID")
      | some policy => .ok policy

def decodePolicyHoldersCursor (env : HolderEnv τ) (b64Cursor : Bytes) :
    Except DecodeFailure AnyAddress :=
  match (env.b64Decode b64Cursor).bind env.addressFromBytes with
  | none => .error .malformedCursor
  | some address => .ok address

def encodePolicyHoldersCursor (env : HolderEnv τ) (address : AnyAddress) : Bytes :=
  env.b64Encode (env.addressToVec address)

/-! ## Sums -/

abbrev AssetMap := SortedMap Bytes U64

def addAmounts (overflowChecks : Bool) (a b : U64) : Except Failure U64 :=
  if overflowChecks = true ∧ 2 ^ 64 ≤ a.toNat + b.toNat then .error .panic else .ok (a + b)

def addAsset (overflowChecks : Bool) (assetMap : AssetMap) (asset : Bytes × U64) :
    Except Failure AssetMap :=
  match assetMap.get asset.1 with
  | none => .ok (assetMap.put asset.1 asset.2)
  | some amt => do
    let sum ← addAmounts overflowChecks amt asset.2
    return assetMap.put asset.1 sum

abbrev HeldAssets := Option Text × List (Bytes × U64)

def addUtxo (overflowChecks : Bool) (readKv : Entry → Except Failure HeldAssets)
    (holders : SortedMap Text AssetMap) (kv : Entry) :
    Except Failure (SortedMap Text AssetMap) := do
  let held ← readKv kv
  match held.1 with
  | none => return holders
  | some holder => do
    let assetMap ← Run.run (addAsset overflowChecks) ((holders.get holder).getD ∅) held.2
    return holders.put holder assetMap

def readAddressHolder (env : HolderEnv τ) (kv : Entry) : Except Failure HeldAssets := do
  let decodedKey ← orPanic (decodeKey env.byronFromBytes kv.1)
  match decodedKey with
  | .reducer _ _ (.policyUtxos _) => do
    let value ← orPanic (decodeUtxosByPolicyValue env.byronFromBytes kv.2)
    match value.1 with
    | .address address => return (some (env.addressText (.payment address)), value.2)
    | .hash _ => throw .internalServerError
  | _ => throw .internalServerError

def accountOf : DecodedAddress → Option StakeAddress
  | .address (.shelley address) => StakeAddress.ofShelley address
  | _ => none

def readAccountHolder (env : HolderEnv τ) (kv : Entry) : Except Failure HeldAssets := do
  let value ← orPanic (decodeUtxosByPolicyValue env.byronFromBytes kv.2)
  match accountOf value.1 with
  | none => return (none, value.2)
  | some stake => do
    let text ← orPanic (stake.toBech32 env.bech32Encode)
    return (some text, value.2)

/-! ## Pages -/

structure PolicyHolder where
  holder : Text
  assets : List (Text × U64)
  deriving DecidableEq

def policyHolder (entry : Text × AssetMap) : PolicyHolder :=
  ⟨entry.1, entry.2.entries.map fun asset => (Bytes.hex asset.1, asset.2)⟩

def retainBehind (env : HolderEnv τ) (cursor : Option AnyAddress) (holders : List PolicyHolder) :
    List PolicyHolder :=
  match cursor with
  | some address => holders.filter fun x => env.addressText address < x.holder
  | none => holders

def nextHolderCursor (env : HolderEnv τ) (count : ℕ) (holders : List PolicyHolder) :
    Except Failure (Option Bytes) :=
  if count < holders.length then do
    let last ← orPanic holders[count - 1]?
    let lastAddress ← orPanic (env.addressFromStr last.holder)
    return some (encodePolicyHoldersCursor env lastAddress)
  else return none

def policyHolders (env : HolderEnv τ) (encoder : Option KeyEncoder) (overflowChecks : Bool)
    (readKv : Entry → Except Failure HeldAssets) (store : Store) (policy : Text)
    (pageParams : CursorPagination) (attempts : Attempts) :
    Except Failure (PaginatedResponse PolicyHolder) := do
  let encoder ← orInternal encoder
  let policy ← decodePolicyId policy
  let (count, cursor) ← parseCursorPageParams (decodePolicyHoldersCursor env) pageParams
  let lastUpdated ← getLastUpdated env.toEnv store encoder
  let kvs ← batchScanEntireRange store (encoder.encodePolicyUtxosRange policy none none) attempts
  let sums ← Run.run (addUtxo overflowChecks readKv) ∅ kvs
  let holders := retainBehind env cursor
    (Sorting.byKey PolicyHolder.holder (sums.entries.map policyHolder))
  let nextCursor ← nextHolderCursor env count holders
  return ⟨holders.take count, lastUpdated, nextCursor⟩

def policyAddresses (env : HolderEnv τ) (utxosByPolicy : Option KeyEncoder)
    (overflowChecks : Bool) :=
  policyHolders env utxosByPolicy overflowChecks (readAddressHolder env)

def policyAccounts (env : HolderEnv τ) (utxosByPolicy : Option KeyEncoder)
    (overflowChecks : Bool) :=
  policyHolders env utxosByPolicy overflowChecks (readAccountHolder env)

/-! ## UTxOs of a policy -/

structure PolicyUtxo where
  item : UtxosByAddressCursor
  owner : Address
  canonical : owner.IsCanonical
  not_hashed : ∀ byron, owner = .byron byron → byron.toVec.length ≤ maxByronAddressLen
  assets : List (ShortBytes × U64)

namespace PolicyUtxo

def rows (utxo : PolicyUtxo) : List (Bytes × U64) :=
  utxo.assets.map fun asset => (asset.1.bytes, asset.2)

def key (enc : KeyEncoder) (blake2b : Bytes → Hash) (policy : Hash28) (utxo : PolicyUtxo) : Bytes :=
  ((UtxoOwner.policy policy).key utxo.item).encode enc blake2b

def value (blake2b : Bytes → Hash) (utxo : PolicyUtxo) : Bytes :=
  encodeUtxosByPolicyValue blake2b utxo.owner utxo.assets

def entry (enc : KeyEncoder) (blake2b : Bytes → Hash) (policy : Hash28) (utxo : PolicyUtxo) :
    Entry :=
  (utxo.key enc blake2b policy, utxo.value blake2b)

def addressHolder (env : HolderEnv τ) (utxo : PolicyUtxo) : Option Text :=
  some (env.addressText (.payment utxo.owner))

def accountHolder (env : HolderEnv τ) (utxo : PolicyUtxo) : Option Text :=
  (accountOf (.address utxo.owner)).bind fun stake => stake.toBech32 env.bech32Encode

theorem told_owner (blake2b : Bytes → Hash) (utxo : PolicyUtxo) :
    utxo.owner.told blake2b = .address utxo.owner := by
  rw [Address.told_eq_decoded utxo.canonical]
  cases howner : utxo.owner with
  | shelley address => rfl
  | byron address => exact if_pos (utxo.not_hashed address howner)

end PolicyUtxo

structure HoldsUtxos (env : Env τ) (blake2b : Bytes → Hash) (store : Store) (encoder : KeyEncoder)
    (policy : Hash28) (utxos : List PolicyUtxo) : Prop extends IsStore env blake2b store where
  nodup : (utxos.map PolicyUtxo.item).Nodup
  get_iff : ∀ {item v},
    store.get (((UtxoOwner.policy policy).key item).encode encoder blake2b) = some v ↔
      ∃ utxo ∈ utxos, utxo.item = item ∧ v = utxo.value blake2b

def rowsOf (holderOf : PolicyUtxo → Option Text) (holder : Text) (utxos : List PolicyUtxo) :
    List (Bytes × U64) :=
  (utxos.filter fun utxo => holderOf utxo = some holder).flatMap PolicyUtxo.rows

def ListsHolders (E : Failure → Prop) (holderOf : PolicyUtxo → Option Text)
    (utxos : List PolicyUtxo)
    (server : ℕ → Option Bytes → Except Failure (List PolicyHolder × Option Bytes)) : Prop :=
  ∃ all : List PolicyHolder, (all.Pairwise fun a b => a.holder < b.holder) ∧
    (∀ holder, holder ∈ all.map PolicyHolder.holder ↔
      ∃ utxo ∈ utxos, holderOf utxo = some holder) ∧
    (∀ shown ∈ all, (shown.assets.map Prod.fst).Nodup ∧ ∀ name amount,
      (Bytes.hex name, amount) ∈ shown.assets ↔
        name ∈ (rowsOf holderOf shown.holder utxos).map Prod.fst ∧
          amount.toNat = total name (rowsOf holderOf shown.holder utxos)) ∧
    ∀ fuel, utxos.length < fuel → Paging.Yields E all (Paging.follow server fuel 0 none)

/-! ## Sums are exact if they fit -/

variable {utxo : PolicyUtxo}

section Sums

variable (overflowChecks : Bool) {holderOf : PolicyUtxo → Option Text}
  {readKv : Entry → Except Failure HeldAssets} {rows : List (Bytes × U64)}
  {utxos' : List PolicyUtxo} {m : AssetMap}

theorem rowsOf_append (holder : Text) (utxos more : List PolicyUtxo) :
    rowsOf holderOf holder (utxos ++ more) =
      rowsOf holderOf holder utxos ++ rowsOf holderOf holder more := by
  rw [rowsOf, List.filter_append, List.flatMap_append]
  rfl

theorem rowsOf_singleton (holder : Text) (utxo : PolicyUtxo) :
    rowsOf holderOf holder [utxo] = if holderOf utxo = some holder then utxo.rows else [] := by
  by_cases hholder : holderOf utxo = some holder
  · simp [rowsOf, hholder]
  · simp [rowsOf, hholder]

theorem rowsOf_perm {utxos : List PolicyUtxo} (h : utxos.Perm utxos') (holder : Text) :
    (rowsOf holderOf holder utxos).Perm (rowsOf holderOf holder utxos') :=
  (h.filter _).flatMap_right _

theorem addAsset_eq (h : IsTally m rows) {asset : Bytes × U64}
    (hfits : total asset.1 (rows ++ [asset]) < 2 ^ 64) :
    addAsset overflowChecks m asset =
      .ok (m.put asset.1 ((m.get asset.1).getD 0 + asset.2)) := by
  rw [total_append, total_singleton asset.1 asset.1 asset.2, if_pos rfl] at hfits
  have hheld := h.getD_get asset.1
  rw [addAsset]
  cases hget : m.get asset.1 with
  | none => simp
  | some amt =>
    rw [hget, Option.getD_some] at hheld
    have hsum : amt.toNat + asset.2.toNat < 2 ^ 64 := by
      rw [hheld, BitVec.toNat_ofNat, Nat.mod_eq_of_lt (by omega)]
      exact hfits
    simp only [addAmounts]
    rw [if_neg fun hpanic => absurd hpanic.2 (by omega)]
    rfl

theorem exists_run_addAsset {assets : List (Bytes × U64)} (h : IsTally m rows)
    (hfits : ∀ name, total name (rows ++ assets) < 2 ^ 64) :
    ∃ m', Run.run (addAsset overflowChecks) m assets = .ok m' ∧ IsTally m' (rows ++ assets) := by
  refine Run.exists_run_eq_ok (fun seen m => IsTally m (rows ++ seen)) ?_
    (by rwa [List.append_nil])
  intro seen asset rest m hsplit hm
  refine ⟨_, addAsset_eq overflowChecks hm ?_, ?_⟩
  · have hall := hfits asset.1
    rw [← hsplit, ← List.append_assoc, List.append_cons, total_append] at hall
    omega
  · rw [← List.append_assoc]
    exact hm.add asset.1 asset.2

structure IsSummed (holderOf : PolicyUtxo → Option Text) (sums : SortedMap Text AssetMap)
    (utxos : List PolicyUtxo) : Prop where
  isSome_iff : ∀ holder, (sums.get holder).isSome ↔ ∃ utxo ∈ utxos, holderOf utxo = some holder
  isTally : ∀ holder, IsTally ((sums.get holder).getD ∅) (rowsOf holderOf holder utxos)

theorem IsSummed.perm {sums : SortedMap Text AssetMap} {utxos : List PolicyUtxo}
    (h : IsSummed holderOf sums utxos) (hperm : utxos.Perm utxos') :
    IsSummed holderOf sums utxos' := by
  refine ⟨fun holder => ?_, fun holder => (h.isTally holder).perm (rowsOf_perm hperm holder)⟩
  rw [h.isSome_iff]
  exact exists_congr fun utxo => and_congr_left fun _ => hperm.mem_iff

theorem exists_addUtxo {sums : SortedMap Text AssetMap} {seen : List PolicyUtxo}
    (h : IsSummed holderOf sums seen) {kv : Entry}
    (hread : readKv kv = .ok (holderOf utxo, utxo.rows))
    (hfits : ∀ holder name, total name (rowsOf holderOf holder (seen ++ [utxo])) < 2 ^ 64) :
    ∃ sums', addUtxo overflowChecks readKv sums kv = .ok sums' ∧
      IsSummed holderOf sums' (seen ++ [utxo]) := by
  simp only [rowsOf_append, rowsOf_singleton] at hfits
  cases hholder : holderOf utxo with
  | none =>
    refine ⟨sums, by simp [addUtxo, hread, hholder], fun holder => ?_, fun holder => ?_⟩
    · rw [h.isSome_iff]
      simp [hholder]
    · rw [rowsOf_append, rowsOf_singleton, hholder, if_neg (by simp), List.append_nil]
      exact h.isTally holder
  | some holder =>
    have hfits := hfits holder
    rw [if_pos hholder] at hfits
    obtain ⟨assetMap, hrun, htally⟩ := exists_run_addAsset overflowChecks (h.isTally holder) hfits
    refine ⟨sums.put holder assetMap, ?_, fun other => ?_, fun other => ?_⟩
    · simp [addUtxo, hread, hholder, hrun]
    · rw [SortedMap.get_put]
      by_cases hother : other = holder
      · simp [hother, hholder]
      · have hne : holder ≠ other := fun heq => hother heq.symm
        simp [hother, h.isSome_iff, hholder, hne]
    · rw [SortedMap.get_put, rowsOf_append, rowsOf_singleton, hholder]
      by_cases hother : other = holder
      · subst hother
        rw [if_pos rfl, if_pos rfl]
        exact htally
      · rw [if_neg hother, if_neg fun heq => hother (Option.some.inj heq).symm, List.append_nil]
        exact h.isTally other

theorem exists_sums {entryOf : PolicyUtxo → Entry} {utxos : List PolicyUtxo}
    (hread : ∀ utxo ∈ utxos, readKv (entryOf utxo) = .ok (holderOf utxo, utxo.rows))
    (hfits : ∀ holder name, total name (rowsOf holderOf holder utxos) < 2 ^ 64) :
    ∃ sums, Run.run (addUtxo overflowChecks readKv) ∅ (utxos.map entryOf) = .ok sums ∧
      IsSummed holderOf sums utxos := by
  rw [Run.run, List.foldlM_map]
  refine Run.exists_run_eq_ok (fun seen sums => IsSummed holderOf sums seen) ?_
    ⟨fun _ => ?_, fun _ => ?_⟩
  · intro seen utxo rest sums hsplit hsums
    refine exists_addUtxo overflowChecks hsums (hread utxo (by simp [← hsplit])) fun holder name => ?_
    have hall := hfits holder name
    rw [← hsplit, List.append_cons, rowsOf_append, total_append] at hall
    omega
  · simp
  · exact isTally_nil

end Sums

/-! ## Entries -/

section Entries

variable {env : HolderEnv τ} {blake2b : Bytes → Hash} {store : Store} {encoder : KeyEncoder}
  {policy : Hash28} {utxos : List PolicyUtxo}

theorem item_of_key_eq (blake2b : Bytes → Hash) {a b : UtxosByAddressCursor}
    (heq : ((UtxoOwner.policy policy).key a).encode encoder blake2b =
      ((UtxoOwner.policy policy).key b).encode encoder blake2b) : a = b := by
  rw [UtxoOwner.encode_key, UtxoOwner.encode_key] at heq
  exact utxoItemBytes_injective (List.cons.inj (List.append_cancel_left heq)).2

theorem exists_scanned_eq {env : Env τ} {ι : Type} {utxos : List ι} {itemOf : ι → UtxosByAddressCursor}
    {valueOf : ι → Bytes} (hstore : IsStore env blake2b store)
    (hnodup : (utxos.map itemOf).Nodup)
    (hget : ∀ {item v},
      store.get (((UtxoOwner.policy policy).key item).encode encoder blake2b) = some v ↔
        ∃ utxo ∈ utxos, itemOf utxo = item ∧ v = valueOf utxo) :
    ∃ listed : List ι, listed.Perm utxos ∧
      scanned store .asc (encoder.encodePolicyUtxosRange policy none none) =
        listed.map fun utxo =>
          (((UtxoOwner.policy policy).key (itemOf utxo)).encode encoder blake2b, valueOf utxo) := by
  refine ⟨Sorting.byKey (fun utxo =>
    ((UtxoOwner.policy policy).key (itemOf utxo)).encode encoder blake2b) utxos,
    List.perm_insertionSort .., ?_⟩
  refine SortedMap.entries_eq_of_mem_iff (SortedMap.scan_sorted ..) ?_ fun kv => ?_
  · rw [List.pairwise_map]
    exact Sorting.pairwise_lt_byKey (List.Nodup.of_map _ hnodup) fun a ha b hb heq =>
      List.inj_on_of_nodup_map hnodup ha hb (item_of_key_eq blake2b heq)
  · rw [List.mem_map]
    simp only [Sorting.mem_byKey]
    refine (mem_scan_ownerRange hstore encoder (.policy policy)).trans ?_
    constructor
    · rintro ⟨hkv, item, hkey⟩
      rw [hkey, hget] at hkv
      obtain ⟨utxo, hutxo, rfl, hvalue⟩ := hkv
      exact ⟨utxo, hutxo, Prod.ext hkey.symm hvalue.symm⟩
    · rintro ⟨utxo, hutxo, rfl⟩
      exact ⟨hget.mpr ⟨utxo, hutxo, rfl, rfl⟩, itemOf utxo, rfl⟩

variable (hbyron : ∀ address : ByronAddress, env.byronFromBytes address.toVec = some address)

include hbyron

theorem decode_value (utxo : PolicyUtxo) :
    decodeUtxosByPolicyValue env.byronFromBytes (utxo.value blake2b) =
      some (.address utxo.owner, utxo.rows) := by
  rw [PolicyUtxo.value, decodeUtxosByPolicyValue_encode hbyron, utxo.told_owner]
  rfl

theorem readAddressHolder_entry (utxo : PolicyUtxo) :
    readAddressHolder env (utxo.entry encoder blake2b policy) =
      .ok (utxo.addressHolder env, utxo.rows) := by
  have hkey : decodeKey env.byronFromBytes (utxo.key encoder blake2b policy) = _ :=
    decodeKey_encode hbyron blake2b encoder _
  rw [readAddressHolder, PolicyUtxo.entry, hkey]
  change (orPanic (decodeUtxosByPolicyValue _ (utxo.value blake2b)) >>= _) = _
  rw [decode_value hbyron utxo]
  rfl

theorem readAccountHolder_entry
    (hnamed : ∀ stake, accountOf (.address utxo.owner) = some stake → stake.IsNamed) :
    readAccountHolder env (utxo.entry encoder blake2b policy) =
      .ok (utxo.accountHolder env, utxo.rows) := by
  rw [readAccountHolder, PolicyUtxo.entry, decode_value hbyron utxo, orPanic, Except.ok_bind,
    PolicyUtxo.accountHolder]
  cases haccount : accountOf (.address utxo.owner) with
  | none => rfl
  | some stake =>
    obtain ⟨text, htext⟩ := StakeAddress.exists_toBech32 (hnamed stake haccount) env.bech32Encode
    simp [htext, orPanic]

end Entries

/-! ## Pages are those of the list of holders -/

section Pages

variable {env : HolderEnv τ} {shown : PolicyHolder}

def HolderEnv.Reads (env : HolderEnv τ) (address : AnyAddress) : Prop :=
  env.addressFromStr (env.addressText address) = some address ∧
    env.addressFromBytes (env.addressToVec address) = some address

def holderCursor (env : HolderEnv τ) (shown : PolicyHolder) : Bytes :=
  ((env.addressFromStr shown.holder).map (encodePolicyHoldersCursor env)).getD []

def IsKnown (env : HolderEnv τ) (holder : Text) : Prop :=
  ∃ address, env.addressText address = holder ∧ env.Reads address

theorem nextHolderCursor_eq {holders : List PolicyHolder} {count : ℕ} (hcount : 0 < count)
    (hknown : ∀ shown ∈ holders, IsKnown env shown.holder) :
    nextHolderCursor env count holders = .ok
      (if count < holders.length then holders[count - 1]?.map (holderCursor env) else none) := by
  rw [nextHolderCursor]
  by_cases hmore : count < holders.length
  · rw [if_pos hmore, if_pos hmore]
    obtain ⟨last, hlast⟩ : ∃ last, holders[count - 1]? = some last :=
      ⟨_, List.getElem?_eq_getElem (by omega)⟩
    obtain ⟨address, htext, hreads⟩ := hknown last (List.mem_of_getElem? hlast)
    have haddress : env.addressFromStr last.holder = some address := htext ▸ hreads.1
    simp [hlast, orPanic, haddress, holderCursor]
  · rw [if_neg hmore, if_neg hmore]
    rfl

theorem pageCursor_holderCursor (hb64 : ∀ bytes, env.b64Decode (env.b64Encode bytes) = some bytes)
    (hknown : IsKnown env shown.holder) :
    ∃ address, pageCursor (decodePolicyHoldersCursor env) (some (holderCursor env shown)) =
        .ok (some address) ∧ env.addressText address = shown.holder := by
  obtain ⟨address, htext, hstr, hbytes⟩ := hknown
  refine ⟨address, ?_, htext⟩
  rw [htext] at hstr
  rw [holderCursor, hstr, Option.map_some, Option.getD_some, encodePolicyHoldersCursor, pageCursor,
    decodePolicyHoldersCursor, hb64, Option.bind_some, hbytes]

def holdersOf (sums : SortedMap Text AssetMap) : List PolicyHolder :=
  Sorting.byKey PolicyHolder.holder (sums.entries.map policyHolder)

theorem mem_holdersOf {sums : SortedMap Text AssetMap} :
    shown ∈ holdersOf sums ↔
      ∃ holder assetMap, sums.get holder = some assetMap ∧ policyHolder (holder, assetMap) = shown := by
  rw [holdersOf, Sorting.mem_byKey, List.mem_map]
  simp only [Prod.exists, SortedMap.get_eq_some_iff]

theorem pairwise_holdersOf (sums : SortedMap Text AssetMap) :
    (holdersOf sums).Pairwise fun a b => a.holder < b.holder := by
  have hsorted : (sums.entries.map policyHolder).Pairwise fun a b => a.holder < b.holder := by
    rw [List.pairwise_map]
    exact sums.sorted
  refine Sorting.pairwise_lt_byKey (hsorted.imp fun hlt heq => absurd hlt (by simp [heq])) ?_
  intro a ha b hb heq
  obtain ⟨⟨holder, assetMap⟩, hentry, rfl⟩ := List.mem_map.mp ha
  obtain ⟨⟨holder', assetMap'⟩, hentry', rfl⟩ := List.mem_map.mp hb
  obtain rfl : holder = holder' := heq
  rw [← SortedMap.get_eq_some_iff] at hentry hentry'
  cases hentry.symm.trans hentry'
  rfl

section Sums

variable {holderOf : PolicyUtxo → Option Text} {sums : SortedMap Text AssetMap}
  {utxos : List PolicyUtxo} (hsummed : IsSummed holderOf sums utxos)

include hsummed

theorem mem_map_holdersOf :
    holder ∈ (holdersOf sums).map PolicyHolder.holder ↔
      ∃ utxo ∈ utxos, holderOf utxo = some holder := by
  rw [← hsummed.isSome_iff, Option.isSome_iff_exists, List.mem_map]
  constructor
  · rintro ⟨shown, hshown, rfl⟩
    obtain ⟨holder, assetMap, hget, rfl⟩ := mem_holdersOf.mp hshown
    exact ⟨assetMap, hget⟩
  · rintro ⟨assetMap, hget⟩
    exact ⟨_, mem_holdersOf.mpr ⟨holder, assetMap, hget, rfl⟩, rfl⟩

theorem length_holdersOf_le : (holdersOf sums).length ≤ utxos.length := by
  have hnodup : ((holdersOf sums).map PolicyHolder.holder).Nodup := by
    rw [List.Nodup, List.pairwise_map]
    exact (pairwise_holdersOf sums).imp fun hlt => hlt.ne
  have hsub : (holdersOf sums).map PolicyHolder.holder ⊆ utxos.filterMap holderOf := by
    intro holder hholder
    exact List.mem_filterMap.mpr ((mem_map_holdersOf hsummed).mp hholder)
  calc (holdersOf sums).length = ((holdersOf sums).map PolicyHolder.holder).length := by
        rw [List.length_map]
    _ ≤ (utxos.filterMap holderOf).length := (hnodup.subperm hsub).length_le
    _ ≤ utxos.length := List.length_filterMap_le ..

theorem assets_of_mem_holdersOf
    (hfits : ∀ holder name, total name (rowsOf holderOf holder utxos) < 2 ^ 64)
    (hshown : shown ∈ holdersOf sums) :
    (shown.assets.map Prod.fst).Nodup ∧ ∀ name amount, (Bytes.hex name, amount) ∈ shown.assets ↔
      name ∈ (rowsOf holderOf shown.holder utxos).map Prod.fst ∧
        amount.toNat = total name (rowsOf holderOf shown.holder utxos) := by
  obtain ⟨holder, assetMap, hget, rfl⟩ := mem_holdersOf.mp hshown
  have htally := hsummed.isTally holder
  rw [hget, Option.getD_some] at htally
  constructor
  · rw [policyHolder, List.map_map, List.Nodup, List.pairwise_map]
    refine assetMap.sorted.imp fun {a b} hlt heq => ?_
    exact hlt.ne (Bytes.hex_injective heq)
  · intro name amount
    refine Iff.trans ?_ (htally.mem_entries_iff (hfits holder name))
    rw [policyHolder, List.mem_map]
    constructor
    · rintro ⟨⟨name', amount'⟩, hentry, heq⟩
      obtain ⟨hname, rfl⟩ := Prod.mk.inj heq
      rwa [← Bytes.hex_injective hname]
    · intro hentry
      exact ⟨(name, amount), hentry, rfl⟩

end Sums

variable {blake2b : Bytes → Hash} {store : Store} {encoder : KeyEncoder} {policy : Hash28}
  {utxos : List PolicyUtxo} {readKv : Entry → Except Failure HeldAssets} {overflowChecks : Bool}
  {policyText : Text} {given : Option ℕ} {count : ℕ} {attempts : ℕ → Attempts}

theorem isPage_policyHolders {lastUpdated : LastUpdated}
    (hupdated : getLastUpdated env.toEnv store encoder = .ok lastUpdated)
    (hpolicy : decodePolicyId policyText = .ok policy) (hcount : pageCount given = .ok count)
    {sums : SortedMap Text AssetMap}
    (hsums : Run.run (addUtxo overflowChecks readKv) ∅
      (scanned store .asc (encoder.encodePolicyUtxosRange policy none none)) = .ok sums)
    (hknown : ∀ shown ∈ holdersOf sums, IsKnown env shown.holder) {text : Option Bytes}
    {cursor : Option AnyAddress}
    (htext : pageCursor (decodePolicyHoldersCursor env) text = .ok cursor)
    (hone : ∀ n, (attempts n).responses.OneFits) (n : ℕ) :
    Paging.IsPage (fun error => ∃ n, (attempts n).FailsWith none error) count id (holderCursor env)
      (retainBehind env cursor (holdersOf sums))
      ((policyHolders env (some encoder) overflowChecks readKv store policyText ⟨given, text⟩
        (attempts n)).map PaginatedResponse.page) := by
  have hretained : ∀ shown ∈ retainBehind env cursor (holdersOf sums), IsKnown env shown.holder := by
    intro shown hshown
    cases cursor with
    | none => exact hknown shown hshown
    | some address => exact hknown shown (List.mem_of_mem_filter hshown)
  have hscan : (attempts n).Gives none
      (scanned store .asc (encoder.encodePolicyUtxosRange policy none none))
      (batchScanEntireRange store (encoder.encodePolicyUtxosRange policy none none) (attempts n)) :=
    batchScanEntireRange_spec (hone n)
  simp only [policyHolders, orInternal, Except.ok_bind, hpolicy,
    parseCursorPageParams_eq hcount htext, hupdated]
  cases hkvs : batchScanEntireRange store (encoder.encodePolicyUtxosRange policy none none)
      (attempts n) with
  | error error =>
    rw [hkvs] at hscan
    exact ⟨n, hscan⟩
  | ok kvs =>
    rw [hkvs] at hscan
    obtain rfl : kvs = scanned store .asc _ := hscan
    rw [Except.ok_bind, hsums, Except.ok_bind]
    change Paging.IsPage _ _ _ _ _ ((nextHolderCursor env count
      (retainBehind env cursor (holdersOf sums)) >>= _).map _)
    rw [nextHolderCursor_eq (pos_of_pageCount hcount) hretained]
    exact ⟨(List.map_id _).symm, rfl⟩

theorem listsHolders_policyHolders {holderOf : PolicyUtxo → Option Text}
    (hb64 : ∀ bytes, env.b64Decode (env.b64Encode bytes) = some bytes)
    (hstore : HoldsUtxos env.toEnv blake2b store encoder policy utxos)
    (hcursor : (store.get encoder.encodeCursorKey).isSome)
    (hpolicy : decodePolicyId policyText = .ok policy) (hcount : pageCount given = .ok count)
    (hone : ∀ n, (attempts n).responses.OneFits)
    (hread : ∀ utxo ∈ utxos,
      readKv (utxo.entry encoder blake2b policy) = .ok (holderOf utxo, utxo.rows))
    (hknown : ∀ utxo ∈ utxos, ∀ holder, holderOf utxo = some holder → IsKnown env holder)
    (hfits : ∀ holder name, total name (rowsOf holderOf holder utxos) < 2 ^ 64) :
    ListsHolders (fun error => ∃ n, (attempts n).FailsWith none error) holderOf utxos
      fun n cursor => (policyHolders env (some encoder) overflowChecks readKv store policyText
        ⟨given, cursor⟩ (attempts n)).map PaginatedResponse.page := by
  obtain ⟨lastUpdated, hupdated⟩ := exists_getLastUpdated hstore.toIsStore hcursor
  obtain ⟨listed, hperm, hscanned⟩ :=
    exists_scanned_eq hstore.toIsStore hstore.nodup hstore.get_iff
  obtain ⟨sums, hsums, hsummed⟩ := exists_sums overflowChecks
    (fun utxo hutxo => hread utxo (hperm.mem_iff.mp hutxo)) fun holder name => by
      rw [total_perm (rowsOf_perm hperm holder)]
      exact hfits holder name
  rw [show listed.map (PolicyUtxo.entry encoder blake2b policy) = _ from hscanned.symm] at hsums
  have hsummed := hsummed.perm hperm
  have hshown : ∀ shown ∈ holdersOf sums, IsKnown env shown.holder := by
    intro shown hshown
    obtain ⟨utxo, hutxo, hholder⟩ :=
      (mem_map_holdersOf hsummed).mp (List.mem_map_of_mem hshown)
    exact hknown utxo hutxo _ hholder
  refine ⟨holdersOf sums, pairwise_holdersOf sums, fun _ => mem_map_holdersOf hsummed,
    fun _ => assets_of_mem_holdersOf hsummed hfits, fun fuel hfuel => ?_⟩
  have hpage := fun n text cursor
      (htext : pageCursor (decodePolicyHoldersCursor env) text = .ok cursor) =>
    isPage_policyHolders hupdated hpolicy hcount hsums hshown htext hone n
  rw [← List.map_id (holdersOf sums)]
  refine Paging.yields_follow (R := (· < ·)) (pairwise_holdersOf sums) (pos_of_pageCount hcount)
    (fun n => hpage n none none rfl) (fun n shown hmem => ?_)
    ((length_holdersOf_le hsummed).trans_lt hfuel) 0
  obtain ⟨address, htext, hholder⟩ := pageCursor_holderCursor hb64 (hshown shown hmem)
  have hnext := hpage n _ _ htext
  rwa [retainBehind, hholder] at hnext

end Pages

section PolicyStore

variable {blake2b : Bytes → Hash} {encoder : KeyEncoder} {policy : Hash28}
  {utxos : List PolicyUtxo}

def policyStore (blake2b : Bytes → Hash) (encoder : KeyEncoder) (policy : Hash28)
    (utxos : List PolicyUtxo) : Store :=
  (SortedMap.put ∅ encoder.encodeCursorKey (encodeCursorValue .origin 0)).applyWrites
    (utxos.map fun utxo => (utxo.key encoder blake2b policy, some (utxo.value blake2b)))

theorem get_policyStore (hnodup : (utxos.map PolicyUtxo.item).Nodup) {k v : Bytes} :
    (policyStore blake2b encoder policy utxos).get k = some v ↔
      (∃ utxo ∈ utxos, k = utxo.key encoder blake2b policy ∧ v = utxo.value blake2b) ∨
        k = encoder.encodeCursorKey ∧ v = encodeCursorValue .origin 0 := by
  have hkeys : ((utxos.map fun utxo =>
      (utxo.key encoder blake2b policy, some (utxo.value blake2b))).map Prod.fst).Nodup := by
    rw [List.map_map]
    refine List.Nodup.map_on (fun a ha b hb heq => ?_) (List.Nodup.of_map _ hnodup)
    have hkey : a.key encoder blake2b policy = b.key encoder blake2b policy := heq
    exact List.inj_on_of_nodup_map hnodup ha hb (item_of_key_eq blake2b hkey)
  have hcursor : ∀ utxo : PolicyUtxo, utxo.key encoder blake2b policy ≠ encoder.encodeCursorKey := by
    intro utxo heq
    have hthird := congrArg (fun bytes : Bytes => bytes[3]?) heq
    cases hthird
  rw [policyStore, SortedMap.get_applyWrites_eq_some_iff hkeys, SortedMap.get_put,
    SortedMap.get_empty]
  refine or_congr ?_ ?_
  · simp [eq_comm]
  · by_cases hk : k = encoder.encodeCursorKey
    · simp [hk, hcursor, eq_comm]
    · simp [hk]

theorem holdsUtxos_policyStore {env : Env τ} (hnodup : (utxos.map PolicyUtxo.item).Nodup)
    (hslot : ∃ timestamp, env.slotTimestamp 0 = some timestamp) :
    HoldsUtxos env blake2b (policyStore blake2b encoder policy utxos) encoder policy utxos := by
  refine ⟨⟨fun hget => ?_, fun hget => ?_⟩, hnodup, fun {item v} => ?_⟩
  · rcases (get_policyStore hnodup).mp hget with ⟨utxo, -, rfl, -⟩ | ⟨rfl, -⟩
    · exact ⟨encoder, .data ((UtxoOwner.policy policy).key utxo.item), rfl⟩
    · exact ⟨encoder, .cursor, rfl⟩
  · rcases (get_policyStore hnodup).mp hget with ⟨utxo, -, hkey, -⟩ | ⟨-, rfl⟩
    · have hthird := congrArg (fun bytes : Bytes => bytes[3]?) hkey
      cases hthird
    · exact ⟨.origin, 0, rfl, hslot⟩
  · rw [get_policyStore hnodup]
    constructor
    · rintro (⟨utxo, hutxo, hkey, hv⟩ | ⟨hkey, -⟩)
      · exact ⟨utxo, hutxo, (item_of_key_eq blake2b hkey).symm, hv⟩
      · have hthird := congrArg (fun bytes : Bytes => bytes[3]?) hkey
        cases hthird
    · rintro ⟨utxo, hutxo, rfl, hv⟩
      exact Or.inl ⟨utxo, hutxo, rfl, hv⟩

end PolicyStore

def holderAddress : ShelleyAddress :=
  ⟨.mainnet, .key (Vector.replicate 28 7), .key (Vector.replicate 28 8)⟩

def holderAccount : StakeAddress := ⟨.mainnet, .stake (Vector.replicate 28 8)⟩

def holderEnv : HolderEnv Bytes where
  toEnv := { plainEnv with byronFromBytes := fun bytes => some ⟨bytes⟩ }
  bech32Encode hrp bytes := hrp.toList ++ '1' :: Bytes.hex bytes
  addressText
    | .payment _ => ['a']
    | .stake stake =>
      (stake.toBech32 fun hrp bytes => hrp.toList ++ '1' :: Bytes.hex bytes).getD []
  addressFromStr text :=
    some (if text = ['a'] then .payment (.shelley holderAddress) else .stake holderAccount)
  addressToVec
    | .payment _ => [0]
    | .stake _ => [1]
  addressFromBytes bytes :=
    some (if bytes = [0] then .payment (.shelley holderAddress) else .stake holderAccount)

def holderUtxo (index amount : U64) : PolicyUtxo where
  item := ⟨5, Vector.replicate 32 0, index⟩
  owner := .shelley holderAddress
  canonical := trivial
  not_hashed _ h := by cases h
  assets := [(⟨[], ShortBytes.length_nil_le⟩, amount)]

def twoUtxos (first second : U64) : List PolicyUtxo := [holderUtxo 0 first, holderUtxo 1 second]

def holderStore (first second : U64) : Store :=
  policyStore plainHash ⟨1, 2⟩ plainPolicy (twoUtxos first second)

theorem holdsUtxos_holderStore (first second : U64) :
    HoldsUtxos holderEnv.toEnv plainHash (holderStore first second) ⟨1, 2⟩ plainPolicy
      (twoUtxos first second) :=
  holdsUtxos_policyStore (show [(⟨5, Vector.replicate 32 0, 0⟩ : UtxosByAddressCursor),
    ⟨5, Vector.replicate 32 0, 1⟩].Nodup by decide) ⟨_, rfl⟩

theorem total_twoUtxos_le (holderOf : PolicyUtxo → Option Text) (first second : U64)
    (holder : Text) (name : Bytes) :
    total name (rowsOf holderOf holder (twoUtxos first second)) ≤ first.toNat + second.toNat := by
  rw [twoUtxos, ← List.singleton_append, rowsOf_append, total_append, rowsOf_singleton,
    rowsOf_singleton]
  have hrows : ∀ index amount,
      total name (if holderOf (holderUtxo index amount) = some holder then
        (holderUtxo index amount).rows else []) ≤ amount.toNat := by
    intro index amount
    split
    · rw [PolicyUtxo.rows, holderUtxo, List.map_singleton, total_singleton]
      split
      · exact le_rfl
      · exact Nat.zero_le _
    · exact Nat.zero_le _
  exact Nat.add_le_add (hrows 0 first) (hrows 1 second)

theorem not_listsHolders_of_overflow (overflowChecks : Bool) (holder : Text)
    {holderOf : PolicyUtxo → Option Text} {utxos : List PolicyUtxo}
    {server : ℕ → Option Bytes → Except Failure (List PolicyHolder × Option Bytes)}
    (hsum : total [] (rowsOf holderOf holder utxos) = 2 ^ 64)
    (hpage : server 0 none =
      if overflowChecks then .error .panic else .ok ([⟨holder, [([], 0)]⟩], none)) :
    ¬ ListsHolders (fun error => ∃ _ : ℕ, promptAttempts.FailsWith none error) holderOf utxos
      server := by
  rintro ⟨all, -, -, hassets, hfollow⟩
  have hyields := hfollow (utxos.length + 1) (Nat.lt_succ_self _)
  rw [Paging.follow, hpage] at hyields
  cases overflowChecks with
  | true =>
    obtain ⟨-, hfails⟩ := hyields
    exact hfails.ne_panic rfl
  | false =>
    obtain rfl : [⟨holder, [([], 0)]⟩] = all := hyields
    have hzero := ((hassets _ List.mem_cons_self).2 [] 0).mp List.mem_cons_self
    rw [hsum] at hzero
    exact absurd hzero.2 (by decide)

end CardanoIndexer.Mapi
