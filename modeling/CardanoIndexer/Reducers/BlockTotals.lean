import CardanoIndexer.Reducers.Ledger
import CardanoIndexer.Timbre.BlockRecord

/-!
# The totals of a block

The fee of a Byron or failed transaction is computed from the outputs it spends, in machine words.
-/

namespace CardanoIndexer.Reducers

open Compressor (Tx Block TxoRef)
open Polyphony (BlockContext WorkError outputRefText)
open Timbre

/-! ## Words -/

section Words

variable {w : ℕ} (overflowChecks : Bool)

def addWord (a b : BitVec w) : Except WorkError (BitVec w) :=
  if overflowChecks = true ∧ 2 ^ w ≤ a.toNat + b.toNat then .error .panic else .ok (a + b)

def subWord (a b : BitVec w) : Except WorkError (BitVec w) :=
  if overflowChecks = true ∧ a.toNat < b.toNat then .error .panic else .ok (a - b)

def sumWords {ι : Type} (value : ι → Except WorkError (BitVec w)) (start : BitVec w)
    (items : List ι) : Except WorkError (BitVec w) :=
  Run.run (fun total item => do
    let amount ← value item
    addWord overflowChecks total amount) start items

def IsWord (a : U64) (x : ℤ) : Prop :=
  (a.toNat : ℤ) = x % 2 ^ 64 ∧ (overflowChecks = true → 0 ≤ x ∧ x < 2 ^ 64)

variable {overflowChecks} {a b c : U64} {x y : ℤ}

theorem isWord_toNat (a : U64) : IsWord overflowChecks a a.toNat := by
  have hlt := a.isLt
  exact ⟨by omega, fun _ => by omega⟩

theorem IsWord.add (ha : IsWord overflowChecks a x) (hb : IsWord overflowChecks b y)
    (h : addWord overflowChecks a b = .ok c) : IsWord overflowChecks c (x + y) := by
  obtain ⟨ha, hax⟩ := ha
  obtain ⟨hb, hby⟩ := hb
  rw [addWord] at h
  split at h
  · cases h
  · cases h
    refine ⟨?_, fun hchecks => ?_⟩
    · rw [BitVec.toNat_add]
      omega
    · have := hax hchecks
      have := hby hchecks
      simp [hchecks] at *
      omega

theorem IsWord.sub (ha : IsWord overflowChecks a x) (hb : IsWord overflowChecks b y)
    (h : subWord overflowChecks a b = .ok c) : IsWord overflowChecks c (x - y) := by
  obtain ⟨ha, hax⟩ := ha
  obtain ⟨hb, hby⟩ := hb
  rw [subWord] at h
  split at h
  · cases h
  · cases h
    have hlt := b.isLt
    refine ⟨?_, fun hchecks => ?_⟩
    · rw [BitVec.toNat_sub]
      omega
    · have := hax hchecks
      have := hby hchecks
      simp [hchecks] at *
      omega

theorem isWord_sumWords {ι : Type} {value : ι → Except WorkError U64} {number : ι → ℤ}
    {items : List ι} (hvalue : ∀ item ∈ items, ∀ amount, value item = .ok amount →
      IsWord overflowChecks amount (number item))
    (h : sumWords overflowChecks value 0 items = .ok a) :
    IsWord overflowChecks a (items.map number).sum := by
  induction items using List.reverseRecOn generalizing a with
  | nil =>
    cases h
    exact isWord_toNat 0
  | append_singleton past item ih =>
    obtain ⟨mid, hmid, hlast⟩ := (Run.run_concat_eq_ok _).mp h
    obtain ⟨amount, hamount, hadd⟩ := Except.bind_eq_ok.mp hlast
    rw [List.map_append, List.sum_append, List.map_singleton, List.sum_singleton]
    exact (ih (fun item hitem => hvalue item (List.mem_append_left _ hitem)) hmid).add
      (hvalue item (by simp) amount hamount) hadd

end Words

/-! ## The reducer -/

structure BlockLibrary extends Library where
  fee : Tx → Option U64
  redeemers : Tx → List (U64 × U64)
  headerBytes : Block → Bytes
  size : Block → ℕ

namespace BlockByHeight

variable (L : BlockLibrary) (policy : RuntimePolicy) (overflowChecks : Bool) (ctx : BlockContext)

def sumFound (refs : List TxoRef) : Except WorkError U64 :=
  sumWords overflowChecks (fun ref => do
    let utxo ← applyPolicy policy (findUtxo L.toLibrary ctx ref)
    return utxo.elim 0 fun found => found.2.1.coin) 0 refs

def sumProduced (tx : Tx) : Except WorkError U64 :=
  sumWords overflowChecks (fun output => do
    let txo ← orPanic (L.decodeOutput tx.era output.2)
    return txo.coin) 0 tx.produces

def computeByronTxFee (tx : Tx) : Except WorkError U64 :=
  -- the assertion on the era
  if tx.era ≠ .byron then .error .panic
  else do
    let consumed ← sumFound L policy overflowChecks ctx (consumedRefs tx)
    let produced ← sumProduced L overflowChecks tx
    subWord overflowChecks consumed produced

def collateralRefs (tx : Tx) : List TxoRef := uniqueBy outputRefText [] tx.collateral

def computeTotalCollateral (tx : Tx) : Except WorkError U64 := do
  let collateral ← sumFound L policy overflowChecks ctx (collateralRefs tx)
  match tx.collateralReturn with
  | some raw => do
    let collret ← orPanic (L.decodeOutput tx.era raw)
    subWord overflowChecks collateral collret.coin
  | none => return collateral

def feesOf (tx : Tx) : Except WorkError U64 :=
  if tx.isValid then match L.fee tx with
    | some c => .ok c
    | none => computeByronTxFee L policy overflowChecks ctx tx
  else computeTotalCollateral L policy overflowChecks ctx tx

def addOutputs (total : U128) (tx : Tx) : Except WorkError U128 :=
  if tx.isValid then
    sumWords overflowChecks (fun raw => do
      let output ← orPanic (L.decodeOutput tx.era raw)
      return output.coin.setWidth 128) total tx.outputs
  else .ok total

def addRedeemer (totals : U32 × U64 × U64) (exUnits : U64 × U64) :
    Except WorkError (U32 × U64 × U64) := do
  let invocations ← addWord overflowChecks totals.1 1
  let mem ← addWord overflowChecks totals.2.1 exUnits.1
  let steps ← addWord overflowChecks totals.2.2 exUnits.2
  return (invocations, mem, steps)

def addTx (totals : BlockByHeightValue) (tx : Tx) : Except WorkError BlockByHeightValue := do
  let output ← addOutputs L overflowChecks totals.output tx
  let fees ← feesOf L policy overflowChecks ctx tx
  let fees ← addWord overflowChecks totals.fees fees
  let exUnits ← Run.run (addRedeemer overflowChecks)
    (totals.invocations, totals.mem, totals.steps) (L.redeemers tx)
  return { totals with
    output
    fees
    invocations := exUnits.1
    mem := exUnits.2.1
    steps := exUnits.2.2
    txHashes := totals.txHashes ++ [tx.hash] }

def reduceBlock (block : Block) : Except WorkError BlockByHeightOutput := do
  let record ← Run.run (addTx L policy overflowChecks ctx)
    ⟨block.hash, L.headerBytes block, [], BitVec.ofNat 32 (L.size block), 0, 0, 0, 0, 0⟩ block.txs
  return ⟨BitVec.ofNat 64 block.number, record⟩

end BlockByHeight

/-! ## Fees as numbers -/

def feeRefs (L : BlockLibrary) (tx : Tx) : List TxoRef :=
  if tx.isValid then match L.fee tx with
    | some _ => []
    | none => consumedRefs tx
  else BlockByHeight.collateralRefs tx

def coinOf (L : BlockLibrary) (tx : Tx) (raw : Bytes) : ℤ :=
  (L.decodeOutput tx.era raw).elim 0 fun output => output.coin.toNat

/-- The declared fee, the inputs minus the outputs, or the collateral minus its return, where
`coins` tells what outputs hold. -/
def feeOf (L : BlockLibrary) (coins : TxoRef → ℕ) (tx : Tx) : ℤ :=
  if tx.isValid then match L.fee tx with
    | some c => c.toNat
    | none => ((consumedRefs tx).map fun ref => (coins ref : ℤ)).sum -
        (tx.produces.map fun output => coinOf L tx output.2).sum
  else ((BlockByHeight.collateralRefs tx).map fun ref => (coins ref : ℤ)).sum -
    (tx.collateralReturn.toList.map (coinOf L tx)).sum

theorem eq_ok_of_applyPolicy {α : Type} {policy : RuntimePolicy} {x : Except FindError α} {a : α}
    (h : applyPolicy policy x = .ok (some a)) : x = .ok a := by
  have hskips : ∀ action : Option ErrorAction, handleError action ≠ .ok (some a) := by
    intro action haction
    rcases action with _ | _ | _ | _ <;> cases haction
  cases x with
  | ok b =>
    cases h
    rfl
  | error e =>
    simp only [applyPolicy] at h
    split at h
    · exact absurd h (hskips _)
    · cases e <;> exact absurd h (hskips _)

section Totals

variable {L : BlockLibrary} {policy : RuntimePolicy} {overflowChecks : Bool} {ctx : BlockContext}
  {coins : TxoRef → ℕ} {tx : Tx} {a : U64}

theorem isWord_coinOf {raw : Bytes} {output : TxOutput}
    (h : orPanic (L.decodeOutput tx.era raw) = .ok output) :
    IsWord overflowChecks output.coin (coinOf L tx raw) := by
  rw [coinOf]
  cases hdecode : L.decodeOutput tx.era raw with
  | none =>
    rw [hdecode] at h
    cases h
  | some output =>
    rw [hdecode] at h
    cases h
    exact isWord_toNat _

theorem isWord_sumProduced (h : BlockByHeight.sumProduced L overflowChecks tx = .ok a) :
    IsWord overflowChecks a (tx.produces.map fun output => coinOf L tx output.2).sum := by
  refine isWord_sumWords (fun output _ amount hamount => ?_) h
  obtain ⟨txo, htxo, hcoin⟩ := Except.bind_eq_ok.mp hamount
  cases hcoin
  exact isWord_coinOf htxo

variable (hcoins : ∀ ref found, findUtxo L.toLibrary ctx ref = .ok found →
  found.2.1.coin.toNat = coins ref)
include hcoins

theorem isWord_sumFound {refs : List TxoRef}
    (hskipped : ∀ ref ∈ refs, applyPolicy policy (findUtxo L.toLibrary ctx ref) ≠ .ok none)
    (h : BlockByHeight.sumFound L policy overflowChecks ctx refs = .ok a) :
    IsWord overflowChecks a (refs.map fun ref => (coins ref : ℤ)).sum := by
  refine isWord_sumWords (fun ref href amount hamount => ?_) h
  obtain ⟨utxo, hutxo, hcoin⟩ := Except.bind_eq_ok.mp hamount
  cases hcoin
  cases utxo with
  | none => exact absurd hutxo (hskipped ref href)
  | some found =>
    dsimp only [Option.elim_some]
    rw [← hcoins ref found (eq_ok_of_applyPolicy hutxo)]
    exact isWord_toNat _

theorem isWord_feesOf (hskipped : ∀ ref ∈ feeRefs L tx,
      applyPolicy policy (findUtxo L.toLibrary ctx ref) ≠ .ok none)
    (h : BlockByHeight.feesOf L policy overflowChecks ctx tx = .ok a) :
    IsWord overflowChecks a (feeOf L coins tx) := by
  rw [BlockByHeight.feesOf] at h
  rw [feeRefs] at hskipped
  rw [feeOf]
  cases hvalid : tx.isValid with
  | true =>
    rw [hvalid] at h hskipped
    cases hfee : L.fee tx with
    | some c =>
      simp only [if_true, hfee] at h ⊢
      cases h
      exact isWord_toNat _
    | none =>
      simp only [if_true, hfee] at h hskipped ⊢
      rw [BlockByHeight.computeByronTxFee] at h
      split at h
      · cases h
      · obtain ⟨consumed, hconsumed, h⟩ := Except.bind_eq_ok.mp h
        obtain ⟨produced, hproduced, hsub⟩ := Except.bind_eq_ok.mp h
        exact (isWord_sumFound hcoins hskipped hconsumed).sub (isWord_sumProduced hproduced) hsub
  | false =>
    rw [hvalid] at h hskipped
    simp only [Bool.false_eq_true, if_false] at h hskipped ⊢
    obtain ⟨collateral, hcollateral, h⟩ := Except.bind_eq_ok.mp h
    have hword := isWord_sumFound hcoins hskipped hcollateral
    cases hreturn : tx.collateralReturn with
    | none =>
      rw [hreturn] at h
      cases h
      simpa using hword
    | some raw =>
      rw [hreturn] at h
      obtain ⟨collret, hcollret, hsub⟩ := Except.bind_eq_ok.mp h
      simpa using hword.sub (isWord_coinOf hcollret) hsub

theorem isWord_fees {txs : List Tx} {start totals : BlockByHeightValue} (hstart : start.fees = 0)
    (hskipped : ∀ tx ∈ txs, ∀ ref ∈ feeRefs L tx,
      applyPolicy policy (findUtxo L.toLibrary ctx ref) ≠ .ok none)
    (h : Run.run (BlockByHeight.addTx L policy overflowChecks ctx) start txs = .ok totals) :
    IsWord overflowChecks totals.fees (txs.map (feeOf L coins)).sum := by
  induction txs using List.reverseRecOn generalizing totals with
  | nil =>
    cases h
    rw [hstart]
    exact isWord_toNat 0
  | append_singleton past tx ih =>
    obtain ⟨mid, hmid, hlast⟩ := (Run.run_concat_eq_ok _).mp h
    obtain ⟨output, -, hlast⟩ := Except.bind_eq_ok.mp hlast
    obtain ⟨fees, hfees, hlast⟩ := Except.bind_eq_ok.mp hlast
    obtain ⟨sum, hsum, hlast⟩ := Except.bind_eq_ok.mp hlast
    obtain ⟨exUnits, -, hlast⟩ := Except.bind_eq_ok.mp hlast
    cases hlast
    rw [List.map_append, List.sum_append, List.map_singleton, List.sum_singleton]
    exact (ih (fun tx htx => hskipped tx (List.mem_append_left _ htx)) hmid).add
      (isWord_feesOf hcoins (hskipped tx (by simp)) hfees) hsum

end Totals

def feeLibrary : BlockLibrary :=
  { sampleLibrary with
    fee tx := if tx.era = .byron then none else some 4
    redeemers _ := [(10, 20)]
    headerBytes _ := []
    size _ := 100 }

def feeBlock : Block where
  slot := 10
  hash := Compressor.sampleHash 1
  number := 1
  previousHash := none
  txs :=
    [{ Compressor.sampleTx 101 true [(9, 0)] [] [] [[3]] none with era := .byron },
      Compressor.sampleTx 102 true [(101, 0)] [] [] [[1]] none,
      Compressor.sampleTx 103 false [(102, 0)] [(8, 0)] [] [[1]] (some [6])]

def feeContext : BlockContext :=
  (BlockContext.new.insertTxo ⟨Compressor.sampleHash 9, 0⟩ 0 .byron [5]).insertTxo
    ⟨Compressor.sampleHash 8, 0⟩ 0 .alonzo [7]

end CardanoIndexer.Reducers
