import CardanoIndexer.Lib.Paging
import CardanoIndexer.Mapi.StakeAddress
import CardanoIndexer.Mapi.UtxosByPaymentCreds

/-!
# Redeemers of a transaction

The ledger counts script accounts first; `tx_info` sorts the bytes of stake addresses, in which
they come last.
-/

namespace CardanoIndexer.Mapi

open Timbre

/-! ## Transactions -/

abbrev TxIn := Hash × U64

inductive RedeemerTag where
  | spend
  | mint
  | cert
  | reward
  | vote
  | propose
  deriving DecidableEq

structure Redeemer (δ : Type) where
  tag : RedeemerTag
  index : ℕ
  data : δ

structure InfoTx (τ δ : Type) where
  inputs : List TxIn
  referenceInputs : List TxIn
  collateral : List TxIn
  producesAt : ℕ → Option τ
  mints : List Hash28
  withdrawals : List (Bytes × U64)
  redeemers : List (Redeemer δ)
  scripts : List Hash28
  furtherScripts : List Hash28

structure InfoEnv (τ δ : Type) extends Env τ where
  decodeTx : Bytes → Option (InfoTx τ δ)
  txoAddress : τ → Option AnyAddress
  referenceScript : τ → Option Hash28
  bech32Encode : String → Bytes → Text
  addressText : AnyAddress → Text
  addressFromBech32 : Text → Option AnyAddress

def inputRank (input : TxIn) : Bytes ×ₗ ℕ := toLex (input.1.toList, input.2.toNat)

variable {τ δ : Type} {α : Type}

/-! ## Inputs -/

section Inputs

variable (env : InfoEnv τ δ) (store : Store) (encoder : KeyEncoder)

def fetchTxo (ref : TxIn) : Except Failure τ := do
  let cbor ← orInternal (store.get (encoder.encodeTxByHashKey ref.1))
  let tx ← orInternal (env.decodeTx cbor)
  orInternal (tx.producesAt ref.2.toNat)

def fetchTxos (txoRefs : List TxIn) : Except Failure (List (TxIn × τ)) :=
  txoRefs.mapM fun ref => do
    let txo ← fetchTxo env store encoder ref
    return (ref, txo)

def resolveInputs (txins : List TxIn) (resolver : List (TxIn × τ)) :
    Except Failure (List (TxIn × τ)) :=
  (Sorting.byKey inputRank txins.dedup).mapM fun ref =>
    orPanic (resolver.find? fun resolved => resolved.1 = ref)

structure InfoUtxo where
  txHash : Text
  index : U64
  address : Text

def toMapiTxos (utxos : List (TxIn × τ)) : Except Failure (List InfoUtxo) :=
  utxos.mapM fun utxo => do
    let address ← orPanic (env.txoAddress utxo.2)
    return ⟨Bytes.hex utxo.1.1.toList, utxo.1.2, env.addressText address⟩

end Inputs

def paymentScript : AnyAddress → Option Hash28
  | .payment (.shelley ⟨_, .script hash, _⟩) => some hash
  | _ => none

def StakePayload.scriptHash : StakePayload → Option Hash28
  | .stake _ => none
  | .script hash => some hash

def scriptsNeeded (env : InfoEnv τ δ) (tx : InfoTx τ δ) (inputs : List (TxIn × τ))
    (accounts : List StakeAddress) : List Hash28 :=
  inputs.filterMap (fun input => (env.txoAddress input.2).bind paymentScript) ++ tx.mints ++
    tx.furtherScripts ++ accounts.filterMap fun account => account.payload.scriptHash

def scriptsFound (env : InfoEnv τ δ) (tx : InfoTx τ δ) (inputs : List (TxIn × τ)) : List Hash28 :=
  inputs.filterMap (fun input => env.referenceScript input.2) ++ tx.scripts

/-! ## Redeemers -/

structure SpendRedeemer (δ : Type) where
  scriptHash : Text
  input : Text × U64
  inputIndex : ℕ
  data : δ
  deriving DecidableEq

structure MintRedeemer (δ : Type) where
  policy : Text
  data : δ
  deriving DecidableEq

structure WdrlRedeemer (δ : Type) where
  stakeAddress : Text
  data : δ
  deriving DecidableEq

structure IndexedRedeemer (δ : Type) where
  index : ℕ
  data : δ
  deriving DecidableEq

structure Redeemers (δ : Type) where
  spends : List (SpendRedeemer δ)
  mints : List (MintRedeemer δ)
  withdrawals : List (WdrlRedeemer δ)
  certificates : List (IndexedRedeemer δ)
  votes : List (IndexedRedeemer δ)
  proposals : List (IndexedRedeemer δ)
  deriving DecidableEq

def Redeemers.empty : Redeemers δ := ⟨[], [], [], [], [], []⟩

structure Counted where
  inputs : List InfoUtxo
  policies : List Hash28
  rewardAcnts : List Bytes

def inputScript (env : InfoEnv τ δ) (address : Text) : Except Failure Hash28 := do
  let address ← orInternal (env.addressFromBech32 address)
  orInternal (paymentScript address)

def addRedeemer (env : InfoEnv τ δ) (counted : Counted) (out : Redeemers δ) (rdmr : Redeemer δ) :
    Except Failure (Redeemers δ) :=
  match rdmr.tag with
  | .spend => do
    let relevantInput ← orInternal counted.inputs[rdmr.index]?
    let scriptHash ← inputScript env relevantInput.address
    return { out with spends := out.spends ++ [⟨Bytes.hex scriptHash.toList,
      (relevantInput.txHash, relevantInput.index), rdmr.index, rdmr.data⟩] }
  | .mint => do
    let policy ← orPanic counted.policies[rdmr.index]?
    return { out with mints := out.mints ++ [⟨Bytes.hex policy.toList, rdmr.data⟩] }
  | .reward => do
    let racntBytes ← orPanic counted.rewardAcnts[rdmr.index]?
    let account ← orPanic (StakeAddress.fromBytes racntBytes)
    let address ← orPanic (account.toBech32 env.bech32Encode)
    return { out with withdrawals := out.withdrawals ++ [⟨address, rdmr.data⟩] }
  | .cert => return { out with certificates := out.certificates ++ [⟨rdmr.index, rdmr.data⟩] }
  | .vote => return { out with votes := out.votes ++ [⟨rdmr.index, rdmr.data⟩] }
  | .propose => return { out with proposals := out.proposals ++ [⟨rdmr.index, rdmr.data⟩] }

def withdrawalAccount (env : InfoEnv τ δ) (withdrawal : Bytes × U64) :
    Except Failure StakeAddress := do
  let account ← orPanic (StakeAddress.fromBytes withdrawal.1)
  let _ ← orPanic (account.toBech32 env.bech32Encode)
  return account

def redeemersOf (env : InfoEnv τ δ) (store : Store) (encoder : KeyEncoder) (tx : InfoTx τ δ) :
    Except Failure (Redeemers δ) := do
  let resolver ← fetchTxos env store encoder (tx.inputs ++ tx.referenceInputs ++ tx.collateral)
  let resolvedInputs ← resolveInputs tx.inputs resolver
  let resolvedRefInputs ← resolveInputs tx.referenceInputs resolver
  let resolvedCollInputs ← resolveInputs tx.collateral resolver
  let inputs ← toMapiTxos env resolvedInputs
  let _ ← toMapiTxos env resolvedRefInputs
  let _ ← toMapiTxos env resolvedCollInputs
  let accounts ← tx.withdrawals.mapM (withdrawalAccount env)
  if (scriptsNeeded env tx resolvedInputs accounts).all
      (· ∈ scriptsFound env tx (resolvedInputs ++ resolvedRefInputs)) then
    Run.run (addRedeemer env ⟨inputs, Sorting.byKey Vector.toList tx.mints,
      Sorting.byKey id (tx.withdrawals.map Prod.fst)⟩) .empty tx.redeemers
  else throw .internalServerError

def getTxBytes (store : Store) (txByHash : Option KeyEncoder) (hexTxHash : Text) :
    Except LookupFailure Bytes :=
  match Bytes.unhex hexTxHash with
  | none => .error (.badRequest "Transaction hash must be hex encoded")
  | some bytes => match hashOfBytes bytes with
      | none => .error (.badRequest "Malformed transaction hash")
      | some txHash => do
        let encoder ← asRequest (orInternal txByHash)
        match store.get (encoder.encodeTxByHashKey txHash) with
        | none => throw .notFound
        | some cbor => return cbor

structure TxInfo (δ : Type) where
  redeemers : Redeemers δ
  lastUpdated : LastUpdated

def txInfo (env : InfoEnv τ δ) (store : Store) (txByHash : Option KeyEncoder) (txHash : Text) :
    Except LookupFailure (TxInfo δ) := do
  let cbor ← getTxBytes store txByHash txHash
  let encoder ← asRequest (orInternal txByHash)
  let lastUpdated ← asRequest (getLastUpdated env.toEnv store encoder)
  let tx ← asRequest (orInternal (env.decodeTx cbor))
  let redeemers ← asRequest (redeemersOf env store encoder tx)
  return ⟨redeemers, lastUpdated⟩

/-! ## The orders of the ledger -/

def inLedgerOrder {α ρ : Type} [DecidableEq α] [LinearOrder ρ] (rank : α → ρ) (items : List α) :
    List α :=
  Sorting.byKey rank items.dedup

theorem mem_inLedgerOrder {ρ : Type} [DecidableEq α] [LinearOrder ρ] {rank : α → ρ} {items : List α}
    {a : α} : a ∈ inLedgerOrder rank items ↔ a ∈ items := by
  rw [inLedgerOrder, Sorting.mem_byKey, List.mem_dedup]

def StakePayload.rank : StakePayload → ℕ ×ₗ Bytes
  | .script hash => toLex (0, hash.toList)
  | .stake hash => toLex (1, hash.toList)

def accountRank (account : StakeAddress) : ℕ ×ₗ ℕ ×ₗ Bytes :=
  toLex (account.network.tag.val, account.payload.rank)

def InfoTx.accounts (tx : InfoTx τ δ) : List StakeAddress :=
  tx.withdrawals.filterMap fun withdrawal => StakeAddress.fromBytes withdrawal.1

structure Orders where
  inputs : List TxIn
  policies : List Hash28
  accounts : List StakeAddress

def InfoTx.ledgerOrders (tx : InfoTx τ δ) : Orders where
  inputs := inLedgerOrder inputRank tx.inputs
  policies := inLedgerOrder Vector.toList tx.mints
  accounts := inLedgerOrder accountRank tx.accounts

structure IsReported (env : InfoEnv τ δ) (orders : Orders) (rdmrs : List (Redeemer δ))
    (out : Redeemers δ) : Prop where
  spends : List.Forall₂ (fun rdmr shown => ∃ input, orders.inputs[rdmr.index]? = some input ∧
      shown.input = (Bytes.hex input.1.toList, input.2) ∧ shown.inputIndex = rdmr.index ∧
      shown.data = rdmr.data)
    (rdmrs.filter fun rdmr => rdmr.tag = .spend) out.spends
  mints : List.Forall₂ (fun rdmr shown => ∃ policy, orders.policies[rdmr.index]? = some policy ∧
      shown = ⟨Bytes.hex policy.toList, rdmr.data⟩)
    (rdmrs.filter fun rdmr => rdmr.tag = .mint) out.mints
  withdrawals : List.Forall₂ (fun rdmr shown => ∃ account,
      orders.accounts[rdmr.index]? = some account ∧
      account.toBech32 env.bech32Encode = some shown.stakeAddress ∧ shown.data = rdmr.data)
    (rdmrs.filter fun rdmr => rdmr.tag = .reward) out.withdrawals

section Accepted

variable (env : InfoEnv τ δ) (store : Store) (encoder : KeyEncoder) (tx : InfoTx τ δ)

def NeedsScript (hash : Hash28) : Prop :=
  (∃ ref ∈ tx.inputs, ∃ txo address, fetchTxo env store encoder ref = .ok txo ∧
      env.txoAddress txo = some address ∧ paymentScript address = some hash) ∨
    hash ∈ tx.mints ∨ hash ∈ tx.furtherScripts ∨
    ∃ account ∈ tx.accounts, account.payload.scriptHash = some hash

def HasScript (hash : Hash28) : Prop :=
  (∃ ref ∈ tx.inputs ++ tx.referenceInputs, ∃ txo, fetchTxo env store encoder ref = .ok txo ∧
      env.referenceScript txo = some hash) ∨
    hash ∈ tx.scripts

structure IsAccepted : Prop where
  exists_txo : ∀ ref ∈ tx.inputs ++ tx.referenceInputs ++ tx.collateral, ∃ txo address,
    fetchTxo env store encoder ref = .ok txo ∧ env.txoAddress txo = some address
  nodup_mints : tx.mints.Nodup
  nodup_withdrawals : (tx.withdrawals.map Prod.fst).Nodup
  exists_network : ∃ network : Network, (network = .testnet ∨ network = .mainnet) ∧
    ∀ withdrawal ∈ tx.withdrawals, ∃ payload,
      withdrawal.1 = StakeAddress.toVec ⟨network, payload⟩
  spend : ∀ rdmr ∈ tx.redeemers, rdmr.tag = .spend → ∃ input txo address hash,
    tx.ledgerOrders.inputs[rdmr.index]? = some input ∧
      fetchTxo env store encoder input = .ok txo ∧ env.txoAddress txo = some address ∧
      paymentScript address = some hash
  mint : ∀ rdmr ∈ tx.redeemers, rdmr.tag = .mint → ∃ policy,
    tx.ledgerOrders.policies[rdmr.index]? = some policy
  reward : ∀ rdmr ∈ tx.redeemers, rdmr.tag = .reward → ∃ account hash,
    tx.ledgerOrders.accounts[rdmr.index]? = some account ∧ account.payload = .script hash
  hasScript : ∀ hash, NeedsScript env store encoder tx hash → HasScript env store encoder tx hash

end Accepted

section Report

variable {env : InfoEnv τ δ} {store : Store} {encoder : KeyEncoder} {tx : InfoTx τ δ}
  {resolver : List (TxIn × τ)} {account key a b : StakeAddress} {rdmrs : List (Redeemer δ)}
  {txins refs : List TxIn} {counted : Counted} {rdmr : Redeemer δ} {orders : Orders} {txHash : Hash}
  {cbor : Bytes}

theorem exists_find?_of_fetchTxos (hresolver : fetchTxos env store encoder refs = .ok resolver)
    {ref : TxIn} (href : ref ∈ refs) :
    ∃ txo, resolver.find? (fun resolved => resolved.1 = ref) = some (ref, txo) ∧
      fetchTxo env store encoder ref = .ok txo := by
  have hmem : ∀ resolved, resolved ∈ resolver ↔ ∃ ref ∈ refs, ∃ txo,
      fetchTxo env store encoder ref = .ok txo ∧ (ref, txo) = resolved := by
    intro resolved
    rw [Except.mem_of_mapM_eq_ok hresolver]
    refine exists_congr fun ref => and_congr_right fun _ => ?_
    simp [Except.bind_eq_ok]
  obtain ⟨resolved, hresolved⟩ := Except.exists_ok_of_mapM hresolver href
  obtain ⟨txo, htxo, heq⟩ := Except.bind_eq_ok.mp hresolved
  cases hfind : resolver.find? fun resolved => resolved.1 = ref with
  | none =>
    rw [List.find?_eq_none] at hfind
    exact absurd (decide_eq_true rfl) (hfind (ref, txo) ((hmem _).mpr ⟨ref, href, txo, htxo, rfl⟩))
  | some found =>
    obtain ⟨ref', -, txo', htxo', rfl⟩ := (hmem found).mp (List.mem_of_find?_eq_some hfind)
    have hsome := List.find?_some hfind
    obtain rfl : ref' = ref := of_decide_eq_true hsome
    exact ⟨txo', rfl, htxo'⟩

theorem exists_resolveInputs (hresolver : fetchTxos env store encoder refs = .ok resolver)
    (hsub : ∀ ref ∈ txins, ref ∈ refs) :
    ∃ resolved, resolveInputs txins resolver = .ok resolved ∧
      (∀ (i : ℕ) ref, (inLedgerOrder inputRank txins)[i]? = some ref →
        ∃ txo, resolved[i]? = some (ref, txo)) ∧
      ∀ ref txo, (ref, txo) ∈ resolved ↔ ref ∈ txins ∧ fetchTxo env store encoder ref = .ok txo := by
  have hordered : ∀ ref, ref ∈ Sorting.byKey inputRank txins.dedup ↔ ref ∈ txins :=
    fun ref => mem_inLedgerOrder
  have hfind := fun ref (href : ref ∈ txins) => exists_find?_of_fetchTxos hresolver (hsub ref href)
  obtain ⟨resolved, hresolved⟩ : ∃ resolved, resolveInputs txins resolver = .ok resolved := by
    refine Except.exists_mapM_eq_ok fun ref href => ?_
    obtain ⟨txo, hfound, -⟩ := hfind ref ((hordered ref).mp href)
    exact ⟨(ref, txo), by rw [hfound]; rfl⟩
  refine ⟨resolved, hresolved, fun i ref href => ?_, fun ref txo => ?_⟩
  · obtain ⟨txo, hfound, -⟩ := hfind ref ((hordered ref).mp (List.mem_of_getElem? href))
    obtain ⟨shown, hshown, heq⟩ := Except.getElem?_of_mapM_eq_ok hresolved href
    rw [hfound] at heq
    cases heq
    exact ⟨txo, hshown⟩
  · rw [Except.mem_of_mapM_eq_ok hresolved]
    constructor
    · rintro ⟨ref', href', heq⟩
      obtain ⟨txo', hfound, htxo'⟩ := hfind ref' ((hordered ref').mp href')
      rw [hfound] at heq
      cases heq
      exact ⟨(hordered ref).mp href', htxo'⟩
    · rintro ⟨href, htxo⟩
      obtain ⟨txo', hfound, htxo'⟩ := hfind ref href
      cases htxo.symm.trans htxo'
      exact ⟨ref, (hordered ref).mpr href, by rw [hfound]; rfl⟩

theorem IsAccepted.exists_shown (h : IsAccepted env store encoder tx)
    (hresolver : fetchTxos env store encoder
      (tx.inputs ++ tx.referenceInputs ++ tx.collateral) = .ok resolver)
    (hsub : ∀ ref ∈ txins, ref ∈ tx.inputs ++ tx.referenceInputs ++ tx.collateral) :
    ∃ resolved shown, resolveInputs txins resolver = .ok resolved ∧
      toMapiTxos env resolved = .ok shown ∧
      (∀ ref txo, (ref, txo) ∈ resolved ↔
        ref ∈ txins ∧ fetchTxo env store encoder ref = .ok txo) ∧
      ∀ (i : ℕ) ref txo address, (inLedgerOrder inputRank txins)[i]? = some ref →
        fetchTxo env store encoder ref = .ok txo → env.txoAddress txo = some address →
          shown[i]? = some ⟨Bytes.hex ref.1.toList, ref.2, env.addressText address⟩ := by
  obtain ⟨resolved, hresolved, hat, hmem⟩ := exists_resolveInputs hresolver hsub
  obtain ⟨shown, hshown⟩ : ∃ shown, toMapiTxos env resolved = .ok shown := by
    refine Except.exists_mapM_eq_ok fun utxo hutxo => ?_
    obtain ⟨href, htxo⟩ := (hmem utxo.1 utxo.2).mp hutxo
    obtain ⟨txo', address, htxo', haddress⟩ := h.exists_txo utxo.1 (hsub utxo.1 href)
    cases htxo.symm.trans htxo'
    exact ⟨_, by rw [haddress]; rfl⟩
  refine ⟨resolved, shown, hresolved, hshown, hmem, fun i ref txo address href htxo haddress => ?_⟩
  obtain ⟨txo', htxo'⟩ := hat i ref href
  cases htxo.symm.trans ((hmem ref txo').mp (List.mem_of_getElem? htxo')).2
  obtain ⟨info, hinfo, heq⟩ := Except.getElem?_of_mapM_eq_ok hshown htxo'
  rw [haddress] at heq
  cases heq
  exact hinfo

/-! ## Accounts are counted by their bytes: keys first, scripts last -/

def StakeAddress.isScript (account : StakeAddress) : Bool := account.payload.scriptHash.isSome

def InfoTx.accountsByBytes (tx : InfoTx τ δ) : List StakeAddress :=
  tx.ledgerOrders.accounts.filter (!·.isScript) ++ tx.ledgerOrders.accounts.filter (·.isScript)

theorem StakePayload.rank_injective : Function.Injective StakePayload.rank := by
  intro a b heq
  obtain ⟨hkind, hhash⟩ : (toLex.symm a.rank).1 = (toLex.symm b.rank).1 ∧
      (toLex.symm a.rank).2 = (toLex.symm b.rank).2 := by rw [heq]; exact ⟨rfl, rfl⟩
  match a, b with
  | .stake hash, .stake hash' | .script hash, .script hash' =>
    exact congrArg _ (toList_injective hhash)
  | .stake hash, .script hash' | .script hash, .stake hash' => cases hkind

theorem toVec_lt_of_rank_lt (hnetwork : a.network = b.network) (hkind : a.isScript = b.isScript)
    (hlt : accountRank a < accountRank b) : a.toVec < b.toVec := by
  obtain ⟨network, payload⟩ := a
  obtain ⟨network', payload'⟩ := b
  obtain rfl : network = network' := hnetwork
  match payload, payload' with
  | .stake hash, .stake hash' | .script hash, .script hash' =>
    simpa [accountRank, StakePayload.rank, Prod.Lex.toLex_lt_toLex, StakeAddress.toVec,
      StakeAddress.toHeader, StakePayload.typeid, StakePayload.hash] using hlt
  | .stake hash, .script hash' | .script hash, .stake hash' => cases hkind

theorem toVec_lt_of_isScript (hnamed : a.IsNamed) (hnetwork : a.network = b.network)
    (ha : a.isScript = false) (hb : b.isScript = true) : a.toVec < b.toVec := by
  obtain ⟨network, payload⟩ := a
  obtain ⟨network', payload'⟩ := b
  obtain rfl : network = network' := hnetwork
  cases payload with
  | script hash => cases ha
  | stake hash => cases payload' with
      | stake hash' => cases hb
      | script hash' =>
        refine Bytes.cons_lt_cons_iff.mpr (Or.inl ?_)
        rcases hnamed with h | h <;> cases h
        · exact (by decide : (14 : Byte) <<< 4 ||| 0 < 15 <<< 4 ||| 0)
        · exact (by decide : (14 : Byte) <<< 4 ||| 1 < 15 <<< 4 ||| 1)

theorem IsAccepted.accounts_spec (h : IsAccepted env store encoder tx) :
    ∃ network : Network, (∀ account ∈ tx.accounts, account.network = network ∧ account.IsNamed) ∧
      (∀ withdrawal ∈ tx.withdrawals, ∃ account ∈ tx.accounts,
        StakeAddress.fromBytes withdrawal.1 = some account ∧ account.toVec = withdrawal.1) ∧
      ∀ account ∈ tx.accounts, account.toVec ∈ tx.withdrawals.map Prod.fst := by
  obtain ⟨network, hnamed, hpayload⟩ := h.exists_network
  have hread : ∀ withdrawal ∈ tx.withdrawals, ∃ account : StakeAddress,
      account.network = network ∧ StakeAddress.fromBytes withdrawal.1 = some account ∧
        account.toVec = withdrawal.1 := by
    intro withdrawal hmem
    obtain ⟨payload, heq⟩ := hpayload withdrawal hmem
    refine ⟨⟨network, payload⟩, rfl, ?_, heq.symm⟩
    rw [heq]
    exact StakeAddress.fromBytes_toVec hnamed
  have hof : ∀ account ∈ tx.accounts, account.network = network ∧
      account.toVec ∈ tx.withdrawals.map Prod.fst := by
    intro account haccount
    obtain ⟨withdrawal, hmem, hbytes⟩ := List.mem_filterMap.mp haccount
    obtain ⟨account', hnetwork, hbytes', hvec⟩ := hread withdrawal hmem
    cases hbytes.symm.trans hbytes'
    exact ⟨hnetwork, hvec ▸ List.mem_map_of_mem hmem⟩
  refine ⟨network, fun account haccount => ?_, fun withdrawal hmem => ?_,
    fun account haccount => (hof account haccount).2⟩
  · obtain ⟨rfl, -⟩ := hof account haccount
    exact ⟨rfl, hnamed⟩
  · obtain ⟨account, -, hbytes, hvec⟩ := hread withdrawal hmem
    exact ⟨account, List.mem_filterMap.mpr ⟨withdrawal, hmem, hbytes⟩, hbytes, hvec⟩

theorem mem_ledgerOrders_accounts :
    account ∈ tx.ledgerOrders.accounts ↔ account ∈ tx.accounts := mem_inLedgerOrder

theorem mem_accountsByBytes : account ∈ tx.accountsByBytes ↔ account ∈ tx.accounts := by
  rw [InfoTx.accountsByBytes, List.mem_append, List.mem_filter, List.mem_filter,
    mem_ledgerOrders_accounts]
  cases account.isScript <;> simp

theorem IsAccepted.pairwise_accounts (h : IsAccepted env store encoder tx) :
    tx.ledgerOrders.accounts.Pairwise fun a b => accountRank a < accountRank b := by
  obtain ⟨network, hnetwork, -, -⟩ := h.accounts_spec
  refine Sorting.pairwise_lt_byKey (List.nodup_dedup _) fun a ha b hb heq => ?_
  have hpayload := StakePayload.rank_injective (Prod.mk.inj (toLex_inj.mp heq)).2
  have ha := (hnetwork a (List.mem_dedup.mp ha)).1
  have hb := (hnetwork b (List.mem_dedup.mp hb)).1
  cases a
  cases b
  simp_all

theorem IsAccepted.map_toVec_accountsByBytes (h : IsAccepted env store encoder tx) :
    tx.accountsByBytes.map StakeAddress.toVec =
      Sorting.byKey id (tx.withdrawals.map Prod.fst) := by
  obtain ⟨network, hnetwork, hread, hvec⟩ := h.accounts_spec
  have hsame : ∀ kind : Bool, (tx.ledgerOrders.accounts.filter (·.isScript == kind)).Pairwise
      fun a b => a.toVec < b.toVec := by
    intro kind
    refine (h.pairwise_accounts.filter _).imp_of_mem fun {a b} ha hb hlt => ?_
    obtain ⟨ha, hkind⟩ := List.mem_filter.mp ha
    obtain ⟨hb, hkind'⟩ := List.mem_filter.mp hb
    have hna := (hnetwork a (mem_ledgerOrders_accounts.mp ha)).1
    have hnb := (hnetwork b (mem_ledgerOrders_accounts.mp hb)).1
    exact toVec_lt_of_rank_lt (hna.trans hnb.symm)
      ((beq_iff_eq.mp hkind).trans (beq_iff_eq.mp hkind').symm) hlt
  have hsorted : (tx.accountsByBytes.map StakeAddress.toVec).Pairwise
      fun a b => id a < id b := by
    rw [List.pairwise_map, InfoTx.accountsByBytes, List.pairwise_append]
    refine ⟨by simpa using hsame false, by simpa using hsame true, fun a ha b hb => ?_⟩
    obtain ⟨ha, hkey⟩ := List.mem_filter.mp ha
    obtain ⟨hb, hscript⟩ := List.mem_filter.mp hb
    obtain ⟨hna, hnamed⟩ := hnetwork a (mem_ledgerOrders_accounts.mp ha)
    have hnb := (hnetwork b (mem_ledgerOrders_accounts.mp hb)).1
    exact toVec_lt_of_isScript hnamed (hna.trans hnb.symm) (by simpa using hkey) hscript
  refine Paging.eq_of_pairwise (R := (· < ·)) hsorted
    (Sorting.pairwise_lt_byKey h.nodup_withdrawals fun _ _ _ _ heq => heq) fun bytes => ?_
  rw [Sorting.mem_byKey, List.mem_map]
  constructor
  · rintro ⟨account, haccount, rfl⟩
    exact hvec account (mem_accountsByBytes.mp haccount)
  · intro hbytes
    obtain ⟨withdrawal, hwithdrawal, rfl⟩ := List.mem_map.mp hbytes
    obtain ⟨account, haccount, -, heq⟩ := hread withdrawal hwithdrawal
    exact ⟨account, mem_accountsByBytes.mpr haccount, heq⟩

theorem IsAccepted.exists_withdrawalAccounts (h : IsAccepted env store encoder tx) :
    ∃ accounts, tx.withdrawals.mapM (withdrawalAccount env) = .ok accounts ∧
      ∀ account ∈ accounts, account ∈ tx.accounts := by
  obtain ⟨network, hnetwork, hread, -⟩ := h.accounts_spec
  have hok : ∀ withdrawal ∈ tx.withdrawals, ∃ account ∈ tx.accounts,
      withdrawalAccount env withdrawal = .ok account := by
    intro withdrawal hwithdrawal
    obtain ⟨account, haccount, hbytes, -⟩ := hread withdrawal hwithdrawal
    obtain ⟨text, htext⟩ :=
      StakeAddress.exists_toBech32 (hnetwork account haccount).2 env.bech32Encode
    exact ⟨account, haccount, by simp [withdrawalAccount, hbytes, htext, orPanic]⟩
  obtain ⟨accounts, haccounts⟩ := Except.exists_mapM_eq_ok fun withdrawal hwithdrawal =>
    (hok withdrawal hwithdrawal).imp fun _ h => h.2
  refine ⟨accounts, haccounts, fun account haccount => ?_⟩
  obtain ⟨withdrawal, hwithdrawal, heq⟩ := (Except.mem_of_mapM_eq_ok haccounts).mp haccount
  obtain ⟨account', haccount', heq'⟩ := hok withdrawal hwithdrawal
  cases heq.symm.trans heq'
  exact haccount'

theorem IsAccepted.ledgerOrders_accounts_eq (h : IsAccepted env store encoder tx) :
    tx.ledgerOrders.accounts = tx.ledgerOrders.accounts.filter (·.isScript) ++
      tx.ledgerOrders.accounts.filter (!·.isScript) := by
  obtain ⟨network, hnetwork, -, -⟩ := h.accounts_spec
  refine Paging.eq_of_pairwise (R := (· < ·)) h.pairwise_accounts ?_ fun account => ?_
  · rw [List.pairwise_append]
    refine ⟨h.pairwise_accounts.filter _, h.pairwise_accounts.filter _, fun a ha b hb => ?_⟩
    obtain ⟨ha, hscript⟩ := List.mem_filter.mp ha
    obtain ⟨hb, hkey⟩ := List.mem_filter.mp hb
    have hna := (hnetwork a (mem_ledgerOrders_accounts.mp ha)).1
    have hnb := (hnetwork b (mem_ledgerOrders_accounts.mp hb)).1
    obtain ⟨na, pa⟩ := a
    obtain ⟨nb, pb⟩ := b
    obtain rfl : na = nb := hna.trans hnb.symm
    cases pa with
    | stake hash => cases hscript
    | script hash => cases pb with
        | script hash' => cases hkey
        | stake hash' => simp [accountRank, StakePayload.rank, Prod.Lex.toLex_lt_toLex]
  · rw [List.mem_append, List.mem_filter, List.mem_filter]
    cases account.isScript <;> simp

/-! ## The report -/

def InfoTx.reportedOrders (tx : InfoTx τ δ) : Orders :=
  { tx.ledgerOrders with accounts := tx.accountsByBytes }

structure Agrees (env : InfoEnv τ δ) (orders : Orders) (rdmrs : List (Redeemer δ))
    (counted : Counted) : Prop where
  spend : ∀ rdmr ∈ rdmrs, rdmr.tag = .spend → ∃ input address hash,
    orders.inputs[rdmr.index]? = some input ∧
      counted.inputs[rdmr.index]? =
        some ⟨Bytes.hex input.1.toList, input.2, env.addressText address⟩ ∧
      inputScript env (env.addressText address) = .ok hash
  mint : ∀ rdmr ∈ rdmrs, rdmr.tag = .mint → ∃ policy,
    orders.policies[rdmr.index]? = some policy ∧ counted.policies[rdmr.index]? = some policy
  reward : ∀ rdmr ∈ rdmrs, rdmr.tag = .reward → ∃ account : StakeAddress,
    orders.accounts[rdmr.index]? = some account ∧
      counted.rewardAcnts[rdmr.index]? = some account.toVec ∧ account.IsNamed

theorem filter_tag_concat (seen : List (Redeemer δ)) (rdmr : Redeemer δ) (tag : RedeemerTag) :
    (seen ++ [rdmr]).filter (fun r => r.tag = tag) =
      seen.filter (fun r => r.tag = tag) ++ if rdmr.tag = tag then [rdmr] else [] := by
  rw [List.filter_append]
  congr 1
  by_cases htag : rdmr.tag = tag
  · simp [htag]
  · simp [htag]

theorem exists_addRedeemer (hagrees : Agrees env orders rdmrs counted) {seen : List (Redeemer δ)}
    {out : Redeemers δ} (hout : IsReported env orders seen out) (hmem : rdmr ∈ rdmrs) :
    ∃ out', addRedeemer env counted out rdmr = .ok out' ∧
      IsReported env orders (seen ++ [rdmr]) out' := by
  obtain ⟨hspends, hmints, hwithdrawals⟩ := hout
  cases htag : rdmr.tag with
  | spend =>
    obtain ⟨input, address, hash, hinput, hshown, hscript⟩ := hagrees.spend rdmr hmem htag
    refine ⟨_, by simp only [addRedeemer, htag, hshown, orInternal, Except.ok_bind, hscript]; rfl,
      ?_, ?_, ?_⟩
    all_goals rw [filter_tag_concat, htag]
    · exact List.rel_append hspends (.cons ⟨input, hinput, rfl, rfl, rfl⟩ .nil)
    · simpa using hmints
    · simpa using hwithdrawals
  | mint =>
    obtain ⟨policy, hpolicy, hcounted⟩ := hagrees.mint rdmr hmem htag
    refine ⟨_, by simp only [addRedeemer, htag, hcounted, orPanic, Except.ok_bind]; rfl,
      ?_, ?_, ?_⟩
    all_goals rw [filter_tag_concat, htag]
    · simpa using hspends
    · exact List.rel_append hmints (.cons ⟨policy, hpolicy, rfl⟩ .nil)
    · simpa using hwithdrawals
  | reward =>
    obtain ⟨account, haccount, hcounted, hnamed⟩ := hagrees.reward rdmr hmem htag
    obtain ⟨text, htext⟩ := StakeAddress.exists_toBech32 hnamed env.bech32Encode
    refine ⟨_, by simp only [addRedeemer, htag, hcounted, StakeAddress.fromBytes_toVec hnamed,
      htext, orPanic, Except.ok_bind]; rfl, ?_, ?_, ?_⟩
    all_goals rw [filter_tag_concat, htag]
    · simpa using hspends
    · simpa using hmints
    · exact List.rel_append hwithdrawals (.cons ⟨account, haccount, htext, rfl⟩ .nil)
  | cert | vote | propose =>
    refine ⟨_, by simp only [addRedeemer, htag]; rfl, ?_, ?_, ?_⟩
    all_goals rw [filter_tag_concat, htag]
    · simpa using hspends
    · simpa using hmints
    · simpa using hwithdrawals

theorem exists_report (hagrees : Agrees env orders rdmrs counted) :
    ∃ out, Run.run (addRedeemer env counted) .empty rdmrs = .ok out ∧
      IsReported env orders rdmrs out := by
  refine Run.exists_run_eq_ok (fun seen out => IsReported env orders seen out) ?_
    ⟨.nil, .nil, .nil⟩
  intro seen rdmr rest out hsplit hout
  exact exists_addRedeemer hagrees hout (by simp [← hsplit])

theorem IsAccepted.scriptsNeeded_subset (h : IsAccepted env store encoder tx)
    {inputs refInputs : List (TxIn × τ)} {accounts : List StakeAddress}
    (hinputs : ∀ ref txo, (ref, txo) ∈ inputs ↔
      ref ∈ tx.inputs ∧ fetchTxo env store encoder ref = .ok txo)
    (hrefInputs : ∀ ref txo, (ref, txo) ∈ refInputs ↔
      ref ∈ tx.referenceInputs ∧ fetchTxo env store encoder ref = .ok txo)
    (haccounts : ∀ account ∈ accounts, account ∈ tx.accounts) :
    (scriptsNeeded env tx inputs accounts).all
      (· ∈ scriptsFound env tx (inputs ++ refInputs)) = true := by
  rw [List.all_eq_true]
  intro hash hhash
  have hneeds : NeedsScript env store encoder tx hash := by
    simp only [scriptsNeeded, List.mem_append, List.mem_filterMap, Option.bind_eq_some_iff] at hhash
    rcases hhash with ((⟨⟨ref, txo⟩, hmem, address, haddress, hscript⟩ | hmint) | hfurther) |
      ⟨account, haccount, hscript⟩
    · obtain ⟨href, htxo⟩ := (hinputs ref txo).mp hmem
      exact Or.inl ⟨ref, href, txo, address, htxo, haddress, hscript⟩
    · exact Or.inr (Or.inl hmint)
    · exact Or.inr (Or.inr (Or.inl hfurther))
    · exact Or.inr (Or.inr (Or.inr ⟨account, haccounts account haccount, hscript⟩))
  refine decide_eq_true ?_
  rw [scriptsFound, List.mem_append, List.mem_filterMap]
  rcases h.hasScript hash hneeds with ⟨ref, href, txo, htxo, hscript⟩ | hwitness
  · refine Or.inl ⟨(ref, txo), ?_, hscript⟩
    rcases List.mem_append.mp href with href | href
    · exact List.mem_append_left _ ((hinputs ref txo).mpr ⟨href, htxo⟩)
    · exact List.mem_append_right _ ((hrefInputs ref txo).mpr ⟨href, htxo⟩)
  · exact Or.inr hwitness

def ReadsScripts (env : InfoEnv τ δ) (store : Store) (encoder : KeyEncoder) (tx : InfoTx τ δ) :
    Prop :=
  ∀ ref ∈ tx.inputs, ∀ txo address, fetchTxo env store encoder ref = .ok txo →
    env.txoAddress txo = some address → (paymentScript address).isSome →
      env.addressFromBech32 (env.addressText address) = some address

theorem IsAccepted.agrees (h : IsAccepted env store encoder tx)
    (hbech32 : ReadsScripts env store encoder tx) {inputs : List InfoUtxo}
    (hinputs : ∀ (i : ℕ) ref txo address, (inLedgerOrder inputRank tx.inputs)[i]? = some ref →
      fetchTxo env store encoder ref = .ok txo → env.txoAddress txo = some address →
        inputs[i]? = some ⟨Bytes.hex ref.1.toList, ref.2, env.addressText address⟩) :
    Agrees env tx.reportedOrders tx.redeemers ⟨inputs, Sorting.byKey Vector.toList tx.mints,
      Sorting.byKey id (tx.withdrawals.map Prod.fst)⟩ := by
  refine ⟨fun rdmr hrdmr htag => ?_, fun rdmr hrdmr htag => ?_, fun rdmr hrdmr htag => ?_⟩
  · obtain ⟨input, txo, address, hash, hinput, htxo, haddress, hscript⟩ := h.spend rdmr hrdmr htag
    refine ⟨input, address, hash, hinput, hinputs _ input txo address hinput htxo haddress, ?_⟩
    have hmem := mem_inLedgerOrder.mp (List.mem_of_getElem? hinput)
    rw [inputScript, hbech32 input hmem txo address htxo haddress (by simp [hscript])]
    simp [orInternal, hscript]
  · obtain ⟨policy, hpolicy⟩ := h.mint rdmr hrdmr htag
    have hsorted : inLedgerOrder Vector.toList tx.mints = Sorting.byKey Vector.toList tx.mints := by
      rw [inLedgerOrder, h.nodup_mints.dedup]
    exact ⟨policy, hpolicy, hsorted ▸ hpolicy⟩
  · -- the two orders of the accounts have the same length
    obtain ⟨ledgerAccount, hash, hledger, -⟩ := h.reward rdmr hrdmr htag
    have hlength : tx.accountsByBytes.length = tx.ledgerOrders.accounts.length := by
      conv_rhs => rw [h.ledgerOrders_accounts_eq]
      rw [InfoTx.accountsByBytes, List.length_append, List.length_append, Nat.add_comm]
    obtain ⟨account, haccount⟩ : ∃ account, tx.accountsByBytes[rdmr.index]? = some account :=
      ⟨_, List.getElem?_eq_getElem (hlength ▸ (List.getElem?_eq_some_iff.mp hledger).1)⟩
    obtain ⟨network, hnetwork, -, -⟩ := h.accounts_spec
    refine ⟨account, haccount, ?_,
      (hnetwork account (mem_accountsByBytes.mp (List.mem_of_getElem? haccount))).2⟩
    change (Sorting.byKey id (tx.withdrawals.map Prod.fst))[rdmr.index]? = _
    rw [← h.map_toVec_accountsByBytes, List.getElem?_map, haccount]
    rfl

theorem exists_redeemersOf (h : IsAccepted env store encoder tx)
    (hbech32 : ReadsScripts env store encoder tx) :
    ∃ out, redeemersOf env store encoder tx = .ok out ∧
      IsReported env tx.reportedOrders tx.redeemers out := by
  obtain ⟨resolver, hresolver⟩ : ∃ resolver, fetchTxos env store encoder
      (tx.inputs ++ tx.referenceInputs ++ tx.collateral) = .ok resolver := by
    refine Except.exists_mapM_eq_ok fun ref href => ?_
    obtain ⟨txo, -, htxo, -⟩ := h.exists_txo ref href
    exact ⟨(ref, txo), by rw [htxo]; rfl⟩
  obtain ⟨resolved, shown, hinputs, hshown, hresolved, hshownAt⟩ :=
    h.exists_shown hresolver fun ref (href : ref ∈ tx.inputs) => by simp [href]
  obtain ⟨refResolved, refShown, hrefInputs, hrefShown, hrefResolved, -⟩ :=
    h.exists_shown hresolver fun ref (href : ref ∈ tx.referenceInputs) => by simp [href]
  obtain ⟨collResolved, collShown, hcollInputs, hcollShown, -, -⟩ :=
    h.exists_shown hresolver fun ref (href : ref ∈ tx.collateral) => by simp [href]
  obtain ⟨accounts, haccounts, hmem⟩ := h.exists_withdrawalAccounts
  obtain ⟨out, hout, hreported⟩ := exists_report (h.agrees hbech32 hshownAt)
  refine ⟨out, ?_, hreported⟩
  simp only [redeemersOf, hresolver, hinputs, hrefInputs, hcollInputs, hshown, hrefShown,
    hcollShown, haccounts, Except.ok_bind]
  rw [if_pos (h.scriptsNeeded_subset hresolved hrefResolved hmem)]
  exact hout

theorem exists_txInfo (hget : store.get (encoder.encodeTxByHashKey txHash) = some cbor)
    (hdecode : env.decodeTx cbor = some tx)
    (hupdated : ∃ lastUpdated, getLastUpdated env.toEnv store encoder = .ok lastUpdated)
    (h : IsAccepted env store encoder tx) (hbech32 : ReadsScripts env store encoder tx) :
    ∃ info, txInfo env store (some encoder) (Bytes.hex txHash.toList) = .ok info ∧
      IsReported env tx.reportedOrders tx.redeemers info.redeemers := by
  obtain ⟨lastUpdated, hupdated⟩ := hupdated
  obtain ⟨out, hout, hreported⟩ := exists_redeemersOf h hbech32
  refine ⟨⟨out, lastUpdated⟩, ?_, hreported⟩
  have hbytes : getTxBytes store (some encoder) (Bytes.hex txHash.toList) = .ok cbor := by
    simp [getTxBytes, asRequest, orInternal, hget]
  simp only [txInfo, hbytes, asRequest, orInternal, hupdated, hdecode, hout, Except.ok_bind]
  rfl

end Report

def sampleScripts : List Hash28 := [1, 2, 3, 4].map (Vector.replicate 28)

def lockedAddress : AnyAddress :=
  .payment (.shelley ⟨.mainnet, .script (Vector.replicate 28 1), .null⟩)

def scriptAccount (n : Byte) : StakeAddress := ⟨.mainnet, .script (Vector.replicate 28 n)⟩

def keyAccount : StakeAddress := ⟨.mainnet, .stake (Vector.replicate 28 5)⟩

def sampleTx (accounts : List StakeAddress) (redeemers : List (Redeemer ℕ)) :
    InfoTx AnyAddress ℕ where
  inputs := [(Vector.replicate 32 1, 0)]
  referenceInputs := []
  collateral := []
  producesAt _ := some lockedAddress
  mints := [Vector.replicate 28 2]
  withdrawals := accounts.map fun account => (account.toVec, 1)
  redeemers := redeemers
  scripts := sampleScripts
  furtherScripts := []

def sampleEnv (accounts : List StakeAddress) (redeemers : List (Redeemer ℕ)) :
    InfoEnv AnyAddress ℕ where
  decodeBech32 _ := none
  b64Decode := some
  b64Encode := id
  byronFromBytes _ := none
  decodeTxo _ := none
  datumHash _ := none
  slotTimestamp _ := some "1970-01-01 00:00:00"
  decodeTx _ := some (sampleTx accounts redeemers)
  txoAddress := some
  referenceScript _ := none
  bech32Encode hrp bytes := hrp.toList ++ '1' :: Bytes.hex bytes
  addressText _ := ['a']
  addressFromBech32 _ := some lockedAddress

def sampleTxStore : Store :=
  ((SortedMap.put ∅ (KeyEncoder.encodeCursorKey ⟨1, 2⟩) (encodeCursorValue .origin 0)).put
    (KeyEncoder.encodeTxByHashKey ⟨1, 2⟩ (Vector.replicate 32 0)) [0]).put
    (KeyEncoder.encodeTxByHashKey ⟨1, 2⟩ (Vector.replicate 32 1)) [1]

section Samples

variable {accounts : List StakeAddress} {redeemers : List (Redeemer ℕ)}

theorem fetchTxo_sample :
    fetchTxo (sampleEnv accounts redeemers) sampleTxStore ⟨1, 2⟩ (Vector.replicate 32 1, 0) =
      .ok lockedAddress := by
  have hget : sampleTxStore.get
      (KeyEncoder.encodeTxByHashKey ⟨1, 2⟩ (Vector.replicate 32 1)) = some [1] := by
    decide +kernel
  rw [fetchTxo, hget]
  rfl

theorem accounts_sampleTx (hnetwork : ∀ account ∈ accounts, account.network = .mainnet) :
    (sampleTx accounts redeemers).accounts = accounts := by
  have hread : ∀ account ∈ accounts,
      StakeAddress.fromBytes account.toVec = some account := fun account haccount =>
    StakeAddress.fromBytes_toVec (Or.inr (hnetwork account haccount))
  rw [InfoTx.accounts, sampleTx, List.filterMap_map]
  refine (List.filterMap_congr hread).trans ?_
  exact List.filterMap_some

theorem isAccepted_sampleTx (hnetwork : ∀ account ∈ accounts, account.network = .mainnet)
    (hnodup : (accounts.map StakeAddress.toVec).Nodup)
    (hscripts : ∀ account ∈ accounts, ∀ hash, account.payload.scriptHash = some hash →
      hash ∈ sampleScripts)
    (hspend : ∀ rdmr ∈ redeemers, rdmr.tag = .spend → rdmr.index = 0)
    (hmint : ∀ rdmr ∈ redeemers, rdmr.tag = .mint → rdmr.index = 0)
    (hreward : ∀ rdmr ∈ redeemers, rdmr.tag = .reward → ∃ account hash,
      (inLedgerOrder accountRank accounts)[rdmr.index]? = some account ∧
        account.payload = .script hash) :
    IsAccepted (sampleEnv accounts redeemers) sampleTxStore ⟨1, 2⟩
      (sampleTx accounts redeemers) where
  exists_txo ref href := by
    obtain rfl : ref = (Vector.replicate 32 1, 0) := by simpa [sampleTx] using href
    exact ⟨lockedAddress, lockedAddress, fetchTxo_sample, rfl⟩
  nodup_mints := List.nodup_singleton _
  nodup_withdrawals := by
    rw [sampleTx, List.map_map]
    exact hnodup
  exists_network := by
    refine ⟨.mainnet, Or.inr rfl, fun withdrawal hwithdrawal => ?_⟩
    obtain ⟨account, haccount, rfl⟩ := List.mem_map.mp hwithdrawal
    exact ⟨account.payload, by rw [← hnetwork account haccount]⟩
  spend rdmr hrdmr htag := by
    refine ⟨(Vector.replicate 32 1, 0), lockedAddress, lockedAddress, Vector.replicate 28 1, ?_,
      fetchTxo_sample, rfl, rfl⟩
    rw [hspend rdmr hrdmr htag]
    rfl
  mint rdmr hrdmr htag := by
    refine ⟨Vector.replicate 28 2, ?_⟩
    rw [hmint rdmr hrdmr htag]
    rfl
  reward rdmr hrdmr htag := by
    rw [InfoTx.ledgerOrders, accounts_sampleTx hnetwork]
    exact hreward rdmr hrdmr htag
  hasScript hash hneeds := by
    refine Or.inr ?_
    rcases hneeds with ⟨ref, href, txo, address, htxo, haddress, hscript⟩ | hmint | hfurther |
      ⟨account, haccount, hscript⟩
    · obtain rfl : ref = (Vector.replicate 32 1, 0) := by simpa [sampleTx] using href
      cases htxo.symm.trans fetchTxo_sample
      cases haddress
      cases hscript
      exact List.mem_cons_self
    · obtain rfl : hash = Vector.replicate 28 2 := by simpa [sampleTx] using hmint
      exact List.mem_cons_of_mem _ List.mem_cons_self
    · cases hfurther
    · rw [accounts_sampleTx hnetwork] at haccount
      exact hscripts account haccount hash hscript

theorem readsScripts_sampleTx :
    ReadsScripts (sampleEnv accounts redeemers) sampleTxStore ⟨1, 2⟩
      (sampleTx accounts redeemers) := by
  intro ref href txo address htxo haddress _
  obtain rfl : ref = (Vector.replicate 32 1, 0) := by simpa [sampleTx] using href
  cases htxo.symm.trans fetchTxo_sample
  cases haddress
  rfl

theorem exists_lastUpdated_sample : ∃ lastUpdated,
    getLastUpdated (sampleEnv accounts redeemers).toEnv sampleTxStore ⟨1, 2⟩ = .ok lastUpdated := by
  have hget : sampleTxStore.get (KeyEncoder.encodeCursorKey ⟨1, 2⟩) =
      some (encodeCursorValue .origin 0) := by
    decide +kernel
  have hcursor : decodeCursorValue (encodeCursorValue .origin 0) = some (.origin, 0) := by
    decide +kernel
  refine ⟨⟨"1970-01-01 00:00:00", Bytes.hex (List.replicate 32 0), 0⟩, ?_⟩
  simp only [getLastUpdated, hget, orInternal, Except.ok_bind, hcursor, orPanic]
  rfl

end Samples

theorem get_sampleTxStore : sampleTxStore.get
    (KeyEncoder.encodeTxByHashKey ⟨1, 2⟩ (Vector.replicate 32 0)) = some [0] := by
  decide +kernel

def twoScripts : List StakeAddress := [scriptAccount 4, scriptAccount 3]

def threeRedeemers : List (Redeemer ℕ) := [⟨.spend, 0, 10⟩, ⟨.mint, 0, 20⟩, ⟨.reward, 1, 30⟩]

def keyAndScript : List StakeAddress := [keyAccount, scriptAccount 3]

def oneRedeemer : List (Redeemer ℕ) := [⟨.reward, 0, 30⟩]

end CardanoIndexer.Mapi
