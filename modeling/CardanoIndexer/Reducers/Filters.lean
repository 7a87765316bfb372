import CardanoIndexer.Mapi.StakeAddress
import CardanoIndexer.Reducers.Ledger

/-!
# Filters

Predicates stop at the first answer; a missing input is an error, unless the policy lets it pass.
-/

namespace CardanoIndexer.Reducers

open Compressor (Tx Block TxoRef)
open Mapi (AnyAddress)
open Polyphony (BlockContext WorkError)
open Timbre

/-! ## Patterns -/

abbrev Text := List Char

structure FilterLibrary extends Library where
  hex : AnyAddress → Text
  bech32 : AnyAddress → Option Text
  paymentHex : ShelleyPaymentPart → Text
  paymentBech32 : ShelleyPaymentPart → Text
  delegationHex : ShelleyDelegationPart → Text
  delegationBech32 : ShelleyDelegationPart → Option Text
  hasScript : AnyAddress → Bool
  withdrawals : Tx → List Bytes
  addressFromBytes : Bytes → Option AnyAddress

structure AddressPattern where
  exactHex : Option Text
  exactBech32 : Option Text
  paymentHex : Option Text
  paymentBech32 : Option Text
  stakeHex : Option Text
  stakeBech32 : Option Text
  isScript : Option Bool

structure BlockPattern where
  slotBefore : Option ℕ
  slotAfter : Option ℕ

structure TransactionPattern where
  isValid : Option Bool

inductive Predicate where
  | allOf (predicates : List Predicate)
  | anyOf (predicates : List Predicate)
  | not (predicate : Predicate)
  | block (pattern : BlockPattern)
  | transaction (pattern : TransactionPattern)
  | inputAddress (pattern : AddressPattern)
  | outputAddress (pattern : AddressPattern)
  | withdrawalAddress (pattern : AddressPattern)
  | collateralAddress (pattern : AddressPattern)
  | address (pattern : AddressPattern)

def shelleyOf : AnyAddress → Option ShelleyAddress
  | .payment (.shelley address) => some address
  | _ => none

def fieldMatches (field text : Option Text) : Bool := field.any fun x => text = some x

section Eval

variable (L : FilterLibrary)

def AddressPattern.matchesAddress (self : AddressPattern) (addr : AnyAddress) : Bool :=
  let shelley := shelleyOf addr
  if fieldMatches self.exactHex (some (L.hex addr)) then true
  else if fieldMatches self.exactBech32 (L.bech32 addr) then true
  else if fieldMatches self.paymentHex (shelley.map fun a => L.paymentHex a.payment) then true
  else if fieldMatches self.paymentBech32 (shelley.map fun a => L.paymentBech32 a.payment) then true
  else if fieldMatches self.stakeHex (shelley.map fun a => L.delegationHex a.delegation) then true
  else if fieldMatches self.stakeBech32 (shelley.bind fun a => L.delegationBech32 a.delegation) then
    true
  else match self.isScript with
    | some x => L.hasScript addr = x
    | none => false

/-! ## Evaluation -/

def outputAddresses (tx : Tx) : List AnyAddress :=
  tx.outputs.filterMap fun raw =>
    (L.decodeOutput tx.era raw).bind fun output => output.address.map .payment

def withdrawalAddresses (tx : Tx) : List AnyAddress :=
  (L.withdrawals tx).filterMap L.addressFromBytes

def evalReferences (policy : RuntimePolicy) (ctx : BlockContext) (pattern : AddressPattern) :
    List TxoRef → Except WorkError Bool
  | [] => .ok false
  | input :: rest => do
    let utxo ← applyPolicy policy (findUtxo L.toLibrary ctx input)
    match utxo.bind fun found => found.2.1.address with
    | some addr =>
      if pattern.matchesAddress L (.payment addr) then return true
      else evalReferences policy ctx pattern rest
    | none => evalReferences policy ctx pattern rest

def evalOutputAddress (tx : Tx) (pattern : AddressPattern) : Except WorkError Bool :=
  .ok ((outputAddresses L tx).any (pattern.matchesAddress L))

def evalInputAddress (policy : RuntimePolicy) (ctx : BlockContext) (tx : Tx)
    (pattern : AddressPattern) : Except WorkError Bool :=
  evalReferences L policy ctx pattern tx.inputs

def evalCollateralAddress (policy : RuntimePolicy) (ctx : BlockContext) (tx : Tx)
    (pattern : AddressPattern) : Except WorkError Bool :=
  evalReferences L policy ctx pattern tx.collateral

def evalWithdrawalAddress (tx : Tx) (pattern : AddressPattern) : Except WorkError Bool :=
  .ok ((withdrawalAddresses L tx).any (pattern.matchesAddress L))

def evalAddress (policy : RuntimePolicy) (ctx : BlockContext) (tx : Tx)
    (pattern : AddressPattern) : Except WorkError Bool := do
  if ← evalOutputAddress L tx pattern then return true
  if ← evalInputAddress L policy ctx tx pattern then return true
  if ← evalWithdrawalAddress L tx pattern then return true
  if ← evalCollateralAddress L policy ctx tx pattern then return true
  return false

def evalBlock (block : Block) (pattern : BlockPattern) : Except WorkError Bool :=
  match pattern.slotAfter with
  | some x => .ok (block.slot > x)
  | none => match pattern.slotBefore with
      | some x => .ok (block.slot < x)
      | none => .ok false

def evalTransaction (tx : Tx) (pattern : TransactionPattern) : Except WorkError Bool :=
  match pattern.isValid with
  | some b => .ok (tx.isValid = b)
  | none => .ok false

variable (policy : RuntimePolicy) (block : Block) (ctx : BlockContext) (tx : Tx)

mutual

def evalPredicate : Predicate → Except WorkError Bool
  | .not x => do
    let answer ← evalPredicate x
    return !answer
  | .anyOf x => evalAnyOf x
  | .allOf x => evalAllOf x
  | .outputAddress x => evalOutputAddress L tx x
  | .inputAddress x => evalInputAddress L policy ctx tx x
  | .withdrawalAddress x => evalWithdrawalAddress L tx x
  | .collateralAddress x => evalCollateralAddress L policy ctx tx x
  | .address x => evalAddress L policy ctx tx x
  | .block x => evalBlock block x
  | .transaction x => evalTransaction tx x

def evalAnyOf : List Predicate → Except WorkError Bool
  | [] => .ok false
  | p :: rest => do if ← evalPredicate p then return true else evalAnyOf rest

def evalAllOf : List Predicate → Except WorkError Bool
  | [] => .ok true
  | p :: rest => do if ← evalPredicate p then evalAllOf rest else return false

end

/-! ## What a tree says -/

def referencedAddresses (refs : List TxoRef) : List AnyAddress :=
  refs.filterMap fun ref => match findUtxo L.toLibrary ctx ref with
    | .ok found => found.2.1.address.map .payment
    | .error _ => none

def BlockPattern.reads (self : BlockPattern) (slot : ℕ) : Bool :=
  self.slotAfter.all (· < slot) && self.slotBefore.all (slot < ·)

mutual

def Predicate.reads : Predicate → Bool
  | .allOf ps => readsAll ps
  | .anyOf ps => readsAny ps
  | .not p => !p.reads
  | .block pattern => pattern.reads block.slot
  | .transaction pattern => pattern.isValid = some tx.isValid
  | .inputAddress pattern => (referencedAddresses L ctx tx.inputs).any (pattern.matchesAddress L)
  | .outputAddress pattern => (outputAddresses L tx).any (pattern.matchesAddress L)
  | .withdrawalAddress pattern => (withdrawalAddresses L tx).any (pattern.matchesAddress L)
  | .collateralAddress pattern =>
    (referencedAddresses L ctx tx.collateral).any (pattern.matchesAddress L)
  | .address pattern =>
    (outputAddresses L tx).any (pattern.matchesAddress L) ||
      (referencedAddresses L ctx tx.inputs).any (pattern.matchesAddress L) ||
      (withdrawalAddresses L tx).any (pattern.matchesAddress L) ||
      (referencedAddresses L ctx tx.collateral).any (pattern.matchesAddress L)

def readsAll : List Predicate → Bool
  | [] => true
  | p :: rest => p.reads && readsAll rest

def readsAny : List Predicate → Bool
  | [] => false
  | p :: rest => p.reads || readsAny rest

end

end Eval

mutual

def Predicate.oneBound : Predicate → Bool
  | .allOf ps | .anyOf ps => allOneBound ps
  | .not p => p.oneBound
  | .block pattern => pattern.slotAfter.isSome != pattern.slotBefore.isSome
  | _ => true

def allOneBound : List Predicate → Bool
  | [] => true
  | p :: rest => p.oneBound && allOneBound rest

end

/-! ## The evaluation agrees with the reading -/

section Agreement

variable {L : FilterLibrary} {policy : RuntimePolicy} {block : Block} {ctx : BlockContext} {tx : Tx}

def Resolved (L : FilterLibrary) (ctx : BlockContext) (refs : List TxoRef) : Prop :=
  ∀ ref ∈ refs, ∃ found, findUtxo L.toLibrary ctx ref = .ok found

theorem evalReferences_eq {pattern : AddressPattern} {refs : List TxoRef}
    (hrefs : Resolved L ctx refs) : evalReferences L policy ctx pattern refs =
      .ok ((referencedAddresses L ctx refs).any (pattern.matchesAddress L)) := by
  induction refs with
  | nil => rfl
  | cons ref rest ih =>
    obtain ⟨found, hfound⟩ := hrefs ref List.mem_cons_self
    have hrest := ih fun ref href => hrefs ref (List.mem_cons_of_mem _ href)
    have hcons : referencedAddresses L ctx (ref :: rest) =
        (found.2.1.address.map .payment).toList ++ referencedAddresses L ctx rest := by
      cases haddress : found.2.1.address <;> simp [referencedAddresses, hfound, haddress]
    rw [evalReferences, hfound, hrest, hcons]
    cases haddress : found.2.1.address with
    | none => simp [applyPolicy, haddress]
    | some addr =>
      cases hmatches : pattern.matchesAddress L (.payment addr) <;>
        simp [applyPolicy, haddress, hmatches]

theorem evalBlock_eq {pattern : BlockPattern}
    (hone : pattern.slotAfter.isSome != pattern.slotBefore.isSome) :
    evalBlock block pattern = .ok (pattern.reads block.slot) := by
  rw [evalBlock, BlockPattern.reads]
  cases hafter : pattern.slotAfter <;> cases hbefore : pattern.slotBefore <;>
    simp [hafter, hbefore] at hone ⊢

variable (hresolved : Resolved L ctx (tx.inputs ++ tx.collateral))
include hresolved

theorem evalInputAddress_eq (pattern : AddressPattern) : evalInputAddress L policy ctx tx pattern =
    .ok ((referencedAddresses L ctx tx.inputs).any (pattern.matchesAddress L)) :=
  evalReferences_eq fun ref href => hresolved ref (List.mem_append_left _ href)

theorem evalCollateralAddress_eq (pattern : AddressPattern) :
    evalCollateralAddress L policy ctx tx pattern =
      .ok ((referencedAddresses L ctx tx.collateral).any (pattern.matchesAddress L)) :=
  evalReferences_eq fun ref href => hresolved ref (List.mem_append_right _ href)

theorem evalAddress_eq (pattern : AddressPattern) : evalAddress L policy ctx tx pattern =
    .ok ((Predicate.address pattern).reads L block ctx tx) := by
  rw [evalAddress, evalOutputAddress, evalInputAddress_eq hresolved, evalWithdrawalAddress,
    evalCollateralAddress_eq hresolved, Predicate.reads]
  cases (outputAddresses L tx).any (pattern.matchesAddress L) <;>
    cases (referencedAddresses L ctx tx.inputs).any (pattern.matchesAddress L) <;>
    cases (withdrawalAddresses L tx).any (pattern.matchesAddress L) <;>
    cases (referencedAddresses L ctx tx.collateral).any (pattern.matchesAddress L) <;> rfl

mutual

theorem evalPredicate_eq : ∀ {p : Predicate}, p.oneBound = true →
    evalPredicate L policy block ctx tx p = .ok (p.reads L block ctx tx)
  | .allOf ps, hone => by
    rw [evalPredicate, Predicate.reads, evalAllOf_eq hone]
  | .anyOf ps, hone => by
    rw [evalPredicate, Predicate.reads, evalAnyOf_eq hone]
  | .not p, hone => by
    have hp : p.oneBound = true := hone
    rw [evalPredicate, Predicate.reads, evalPredicate_eq hp]
    rfl
  | .block pattern, hone => by
    rw [evalPredicate, Predicate.reads, evalBlock_eq hone]
  | .transaction pattern, _ => by
    rw [evalPredicate, Predicate.reads, evalTransaction]
    cases pattern.isValid with
    | none => simp
    | some b => simp [eq_comm]
  | .inputAddress pattern, _ => by
    rw [evalPredicate, Predicate.reads, evalInputAddress_eq hresolved]
  | .outputAddress pattern, _ => by
    rw [evalPredicate, Predicate.reads, evalOutputAddress]
  | .withdrawalAddress pattern, _ => by
    rw [evalPredicate, Predicate.reads, evalWithdrawalAddress]
  | .collateralAddress pattern, _ => by
    rw [evalPredicate, Predicate.reads, evalCollateralAddress_eq hresolved]
  | .address pattern, _ => by
    rw [evalPredicate, evalAddress_eq hresolved]

theorem evalAnyOf_eq : ∀ {ps : List Predicate}, allOneBound ps = true →
    evalAnyOf L policy block ctx tx ps = .ok (readsAny L block ctx tx ps)
  | [], _ => by rw [evalAnyOf, readsAny]
  | p :: rest, hone => by
    rw [allOneBound, Bool.and_eq_true] at hone
    rw [evalAnyOf, evalPredicate_eq hone.1, evalAnyOf_eq hone.2, readsAny]
    cases p.reads L block ctx tx <;> rfl

theorem evalAllOf_eq : ∀ {ps : List Predicate}, allOneBound ps = true →
    evalAllOf L policy block ctx tx ps = .ok (readsAll L block ctx tx ps)
  | [], _ => by rw [evalAllOf, readsAll]
  | p :: rest, hone => by
    rw [allOneBound, Bool.and_eq_true] at hone
    rw [evalAllOf, evalPredicate_eq hone.1, evalAllOf_eq hone.2, readsAll]
    cases p.reads L block ctx tx <;> rfl

end

end Agreement

def plainFilters : FilterLibrary :=
  ⟨sampleLibrary, fun _ => [], fun _ => none, fun _ => [], fun _ => [], fun _ => [], fun _ => none,
    fun _ => false, fun _ => [], fun _ => none⟩

def lateBlock : Block := ⟨20, Vector.replicate 32 0, 0, none, []⟩

def emptyTx : Tx := ⟨Vector.replicate 32 0, .conway, true, [], [], [], [], none⟩

theorem resolved_emptyTx : Resolved plainFilters .new (emptyTx.inputs ++ emptyTx.collateral) := by
  intro ref href
  cases href

end CardanoIndexer.Reducers
