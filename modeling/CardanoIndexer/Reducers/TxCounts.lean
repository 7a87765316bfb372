import CardanoIndexer.Reducers.Balance
import CardanoIndexer.Reducers.Values

/-!
# Transactions of addresses
-/

namespace CardanoIndexer.Reducers

open BalanceByAddress (filterMatches)
open Compressor (Pallas GenesisUtxo Tx Block StoredBlock TxoRef)
open Pipeline (Produced Resolves)
open Polyphony (BlockContext WorkError Store StorageAction DataOp Key movesAt)
open Timbre
open Counter

/-! ## The reducers -/

inductive TxInvolvement where
  | input
  | output
  deriving DecidableEq

section Reducers

variable (L : Library) (policy : RuntimePolicy)

def inboundAddress (ctx : BlockContext) (input : TxoRef) :
    Except WorkError (List (Address × TxInvolvement)) := do
  match ← applyPolicy policy (findUtxo L ctx input) with
  | none => return []
  | some (_, utxo, _) =>
    let address ← orPanic utxo.address
    return [(address, .input)]

def outboundAddress (tx : Tx) (output : ℕ × Bytes) :
    Except WorkError (List (Address × TxInvolvement)) := do
  let decoded ← orPanic (L.decodeOutput tx.era output.2)
  let address ← orPanic decoded.address
  return [(address, .output)]

def involvements (ctx : BlockContext) (tx : Tx) :
    Except WorkError (List (Address × TxInvolvement)) := do
  let consumed ← (consumedRefs tx).mapM (inboundAddress L policy ctx)
  let produced ← tx.produces.mapM (outboundAddress L tx)
  return consumed.flatten ++ produced.flatten

namespace TxCountByAddress

variable (toVec : Address → Bytes)

def reduceTx (ctx : BlockContext) (tx : Tx) : Except WorkError (List Address) := do
  let touched ← involvements L policy ctx tx
  return uniqueBy toVec [] (touched.map Prod.fst)

def reduceBlock (filter : Option (Block → BlockContext → Tx → Except WorkError Bool))
    (block : Block) (ctx : BlockContext) : Except WorkError (List Address) := do
  let outputs ← block.txs.mapM fun tx => do
    if ← filterMatches filter block ctx tx then reduceTx L policy toVec ctx tx else return []
  return outputs.flatten

def dataOp (blake2b : Bytes → Hash) (address : Address) : DataOp :=
  ⟨reducerTxCountByAddress, encodeAddressWithType blake2b address, .incrementU64 1⟩

def reduce (blake2b : Bytes → Hash)
    (filter : Option (Block → BlockContext → Tx → Except WorkError Bool)) (block : Block)
    (ctx : BlockContext) : Except WorkError (List DataOp) := do
  let outputs ← reduceBlock L policy toVec filter block ctx
  return outputs.map (dataOp blake2b)

end TxCountByAddress

structure TxsByAddressOutput where
  address : Address
  slot : U64
  txHash : Hash
  txBlockIndex : U16
  input : Bool
  output : Bool

def encodeTxsByAddressValue (input output : Bool) : Bytes :=
  [(if input then 128 else 0) + (if output then 64 else 0)]

namespace TxsByAddress

def see : List (Address × List TxInvolvement) → Address × TxInvolvement →
    List (Address × List TxInvolvement)
  | [], touched => [(touched.1, [touched.2])]
  | entry :: rest, touched =>
    if entry.1 = touched.1 then (entry.1, entry.2 ++ [touched.2]) :: rest
    else entry :: see rest touched

def reduceTx (block : Block) (ctx : BlockContext) (tx : Tx) (idx : ℕ) :
    Except WorkError (List TxsByAddressOutput) := do
  let touched ← involvements L policy ctx tx
  return (touched.foldl see []).map fun (address, actions) =>
    ⟨address, BitVec.ofNat 64 block.slot, tx.hash, BitVec.ofNat 16 idx, .input ∈ actions,
      .output ∈ actions⟩

def reduceBlock (filter : Option (Block → BlockContext → Tx → Except WorkError Bool))
    (block : Block) (ctx : BlockContext) : Except WorkError (List TxsByAddressOutput) := do
  let outputs ← block.txs.zipIdx.mapM fun (tx, idx) => do
    if ← filterMatches filter block ctx tx then reduceTx L policy block ctx tx idx else return []
  return outputs.flatten

def dataOp (blake2b : Bytes → Hash) (output : TxsByAddressOutput) : DataOp :=
  ⟨reducerTxsByAddress, encodeAddressWithType blake2b output.address ++
      (breakByte :: txItemBytes ⟨output.slot, output.txBlockIndex, output.txHash⟩),
    .set (encodeTxsByAddressValue output.input output.output)⟩

def reduce (blake2b : Bytes → Hash)
    (filter : Option (Block → BlockContext → Tx → Except WorkError Bool)) (block : Block)
    (ctx : BlockContext) : Except WorkError (List DataOp) := do
  let outputs ← reduceBlock L policy filter block ctx
  return outputs.map (dataOp blake2b)

end TxsByAddress

end Reducers

/-! ## What the reducers go through -/

section Touched

variable (L : Library) (blake2b : Bytes → Hash)
  (filter : Option (Block → BlockContext → Tx → Except WorkError Bool))

def involvementOf (output : BalanceOutput) : Address × TxInvolvement :=
  (output.address, if output.increment then .output else .input)

def touchedBy (slot : ℕ) (ctx : BlockContext) (tx : Tx) : List (Address × TxInvolvement) :=
  (txOutputs L slot ctx tx).map involvementOf

def passes (entry : StoredBlock × BlockContext) (tx : Tx) : Bool :=
  match filterMatches filter entry.1.toBlock entry.2 tx with
  | .ok answer => answer
  | .error _ => false

def counts (bytes : Bytes) (entry : StoredBlock × BlockContext) (tx : Tx) : Bool :=
  passes filter entry tx && (touchedBy L entry.1.slot entry.2 tx).any fun touched =>
    encodeAddressWithType blake2b touched.1 = bytes

def itemsOf (bytes : Bytes) (blocks : List (StoredBlock × BlockContext)) :
    List TxsByAddressCursor :=
  blocks.reverse.flatMap fun entry =>
    (entry.1.txs.zipIdx.filter fun place => counts L blake2b filter bytes entry place.1).map
      fun place => ⟨BitVec.ofNat 64 entry.1.slot, BitVec.ofNat 16 place.2, place.1.hash⟩

def countOutputs (toVec : Address → Bytes) (entry : StoredBlock × BlockContext) : List Address :=
  (entry.1.txs.filter (passes filter entry)).flatMap fun tx =>
    uniqueBy toVec [] ((touchedBy L entry.1.slot entry.2 tx).map Prod.fst)

def listOutputs (entry : StoredBlock × BlockContext) : List TxsByAddressOutput :=
  (entry.1.txs.zipIdx.filter fun place => passes filter entry place.1).flatMap fun place =>
    ((touchedBy L entry.1.slot entry.2 place.1).foldl TxsByAddress.see []).map fun seen =>
      ⟨seen.1, BitVec.ofNat 64 entry.1.slot, place.1.hash, BitVec.ofNat 16 place.2,
        .input ∈ seen.2, .output ∈ seen.2⟩

def FilterAnswers (blocks : List (StoredBlock × BlockContext)) : Prop :=
  ∀ entry ∈ blocks, ∀ tx ∈ entry.1.txs, ∃ answer,
    filterMatches filter entry.1.toBlock entry.2 tx = .ok answer

def touchedAddresses (blocks : List (StoredBlock × BlockContext)) : Set Address :=
  { address | ∃ entry ∈ blocks, ∃ output ∈ blockOutputs L entry, output.address = address }

end Touched

variable {tx : Tx}

section Reduce

variable {P : Pallas} {L : Library} {genesis : List GenesisUtxo} {policy : RuntimePolicy}
  {toVec : Address → Bytes} {blake2b : Bytes → Hash}
  {filter : Option (Block → BlockContext → Tx → Except WorkError Bool)}
  {blocks : List (StoredBlock × BlockContext)}

theorem involvements_eq (hchain : IsLedgerChain P L genesis (blocks.map Prod.fst))
    (hresolved : AllResolved P genesis blocks) :
    ∀ entry ∈ blocks, ∀ tx ∈ entry.1.txs,
      involvements L policy entry.2 tx = .ok (touchedBy L entry.1.slot entry.2 tx) := by
  induction blocks with
  | nil => exact fun _ hentry => by cases hentry
  | cons entry older ih =>
    obtain ⟨block, ctx⟩ := entry
    obtain ⟨hresolves, holder⟩ := hresolved
    refine List.forall_mem_cons.mpr ⟨fun tx htx => ?_, ih hchain.of_cons holder⟩
    have hconsumed : (consumedRefs tx).mapM (inboundAddress L policy ctx) =
        .ok (tx.consumes.map fun ref =>
          (balanceOutputs L false (resolvedTxo ctx ref).2).map involvementOf) := by
      rw [consumedRefs_eq]
      refine Except.mapM_eq_ok_map fun ref href => ?_
      obtain ⟨slot, era, raw, out, address, -, hdecode, haddress, hctx, hfind⟩ :=
        findUtxo_of_resolves hchain hresolves htx href
      simp [inboundAddress, hfind, applyPolicy, haddress, orPanic, balanceOutputs, resolvedTxo,
        hctx, hdecode, involvementOf]
    have hproduced : tx.produces.mapM (outboundAddress L tx) =
        .ok (tx.produces.map fun output =>
          (balanceOutputs L true (block.slot, tx.era, output.2)).map involvementOf) := by
      refine Except.mapM_eq_ok_map fun output houtput => ?_
      obtain ⟨out, address, hdecode, haddress⟩ :=
        hchain.readable _ _ (produced_of_mem_produces htx houtput)
      simp [outboundAddress, hdecode, haddress, orPanic, balanceOutputs, involvementOf]
    rw [involvements, hconsumed, hproduced, touchedBy, txOutputs, List.map_append,
      List.map_flatMap, List.map_flatMap]
    rfl

theorem mapM_filter_eq {α β : Type} {xs : List α} {test : α → Except WorkError Bool}
    {answer : α → Bool} {f : α → Except WorkError (List β)} {g : α → List β}
    (htest : ∀ x ∈ xs, test x = .ok (answer x)) (hf : ∀ x ∈ xs, f x = .ok (g x)) :
    (do
      let outputs ← xs.mapM fun x => do
        if ← test x then f x else return []
      return outputs.flatten : Except WorkError (List β)) =
      .ok ((xs.filter answer).flatMap g) := by
  have hall : xs.mapM (fun x => (do
      if ← test x then f x else return [] : Except WorkError (List β))) =
        .ok (xs.map fun x => if answer x then g x else []) := by
    refine Except.mapM_eq_ok_map fun x hx => ?_
    rw [htest x hx, Except.ok_bind]
    cases answer x with
    | true => simp [hf x hx]
    | false => rfl
  have hflat : xs.flatMap (fun x => if answer x then g x else []) =
      (xs.filter answer).flatMap g := by
    clear hall htest hf
    induction xs with
    | nil => rfl
    | cons x rest ih => cases hx : answer x <;> simp [hx, ih]
  rw [hall, Except.ok_bind, ← List.flatMap_def, hflat]
  rfl

theorem filterMatches_eq (hanswers : FilterAnswers filter blocks)
    {entry : StoredBlock × BlockContext} (hentry : entry ∈ blocks) (htx : tx ∈ entry.1.txs) :
    filterMatches filter entry.1.toBlock entry.2 tx = .ok (passes filter entry tx) := by
  obtain ⟨answer, hanswer⟩ := hanswers entry hentry tx htx
  rw [passes, hanswer]

theorem reduces_counts (hchain : IsLedgerChain P L genesis (blocks.map Prod.fst))
    (hresolved : AllResolved P genesis blocks) (hanswers : FilterAnswers filter blocks) :
    Reduces (TxCountByAddress.reduce L policy toVec blake2b filter) .u64
      (fun entry => (countOutputs L filter toVec entry).map (TxCountByAddress.dataOp blake2b))
      blocks := by
  intro entry hentry
  constructor
  · have houtputs : TxCountByAddress.reduceBlock L policy toVec filter entry.1.toBlock entry.2 =
        .ok (countOutputs L filter toVec entry) :=
      mapM_filter_eq (fun tx htx => filterMatches_eq hanswers hentry htx) fun tx htx => by
        rw [TxCountByAddress.reduceTx, involvements_eq hchain hresolved entry hentry tx htx]
        rfl
    rw [TxCountByAddress.reduce, houtputs]
    rfl
  · intro op hop
    obtain ⟨output, -, rfl⟩ := List.mem_map.mp hop
    rfl

theorem reduces_lists (hchain : IsLedgerChain P L genesis (blocks.map Prod.fst))
    (hresolved : AllResolved P genesis blocks) (hanswers : FilterAnswers filter blocks) :
    Reduces (TxsByAddress.reduce L policy blake2b filter) .value
      (fun entry => (listOutputs L filter entry).map (TxsByAddress.dataOp blake2b)) blocks := by
  intro entry hentry
  constructor
  · have houtputs : TxsByAddress.reduceBlock L policy filter entry.1.toBlock entry.2 =
        .ok (listOutputs L filter entry) :=
      mapM_filter_eq (fun place hplace => filterMatches_eq hanswers hentry
          (List.fst_mem_of_mem_zipIdx hplace)) fun place hplace => by
        rw [TxsByAddress.reduceTx, involvements_eq hchain hresolved entry hentry place.1
          (List.fst_mem_of_mem_zipIdx hplace)]
        rfl
    rw [TxsByAddress.reduce, houtputs]
    rfl
  · intro op hop
    obtain ⟨output, -, rfl⟩ := List.mem_map.mp hop
    rfl

end Reduce

/-! ## Counters -/

section Unique

variable {α β : Type} [DecidableEq β] {f : α → β} {xs : List α} {seen : List β} {a : α}

theorem mem_of_mem_uniqueBy (h : a ∈ uniqueBy f seen xs) : a ∈ xs ∧ f a ∉ seen := by
  induction xs generalizing seen with
  | nil => cases h
  | cons x rest ih =>
    rw [uniqueBy] at h
    split_ifs at h with hx
    · exact ⟨List.mem_cons_of_mem _ (ih h).1, (ih h).2⟩
    · rcases List.mem_cons.mp h with rfl | h
      · exact ⟨List.mem_cons_self, hx⟩
      · obtain ⟨ha, hseen⟩ := ih h
        exact ⟨List.mem_cons_of_mem _ ha, fun hmem => hseen (List.mem_cons_of_mem _ hmem)⟩

theorem nodup_uniqueBy (seen : List β) (xs : List α) : (uniqueBy f seen xs).Nodup := by
  induction xs generalizing seen with
  | nil => exact List.nodup_nil
  | cons x rest ih =>
    rw [uniqueBy]
    split_ifs
    · exact ih seen
    · refine List.nodup_cons.mpr ⟨fun hmem => ?_, ih _⟩
      exact (mem_of_mem_uniqueBy hmem).2 List.mem_cons_self

theorem mem_uniqueBy_of_mem (hinj : ∀ a ∈ xs, ∀ b ∈ xs, f a = f b → a = b) (ha : a ∈ xs)
    (hseen : f a ∉ seen) : a ∈ uniqueBy f seen xs := by
  induction xs generalizing seen with
  | nil => cases ha
  | cons x rest ih =>
    have hrest : ∀ a ∈ rest, ∀ b ∈ rest, f a = f b → a = b := fun a ha b hb =>
      hinj a (List.mem_cons_of_mem _ ha) b (List.mem_cons_of_mem _ hb)
    rw [uniqueBy]
    by_cases hax : a = x
    · rw [if_neg (hax ▸ hseen), hax]
      exact List.mem_cons_self
    · have ha' : a ∈ rest := (List.mem_cons.mp ha).resolve_left hax
      split_ifs
      · exact ih hrest ha' hseen
      · refine List.mem_cons_of_mem _ (ih hrest ha' fun hmem => ?_)
        rcases List.mem_cons.mp hmem with heq | hmem
        · exact hax (hinj a ha x List.mem_cons_self heq)
        · exact hseen hmem

end Unique

section Counters

variable {L : Library} {toVec : Address → Bytes} {blake2b : Bytes → Hash} {enc : KeyEncoder}
  {filter : Option (Block → BlockContext → Tx → Except WorkError Bool)}
  {blocks : List (StoredBlock × BlockContext)} {γ : Type}

theorem filter_uniqueBy {addresses : List Address}
    (hvec : ∀ a ∈ addresses, ∀ b ∈ addresses, toVec a = toVec b → a = b)
    (henc : ∀ a ∈ addresses, ∀ b ∈ addresses,
      encodeAddressWithType blake2b a = encodeAddressWithType blake2b b → a = b) (bytes : Bytes)
    (c : γ) :
    (((uniqueBy toVec [] addresses).filter fun address =>
        encodeAddressWithType blake2b address = bytes).map fun _ => c) =
      if addresses.any fun address => encodeAddressWithType blake2b address = bytes then [c]
      else [] := by
  by_cases hany : ∃ a ∈ addresses, encodeAddressWithType blake2b a = bytes
  · obtain ⟨a, ha, rfl⟩ := hany
    have hsingle : (uniqueBy toVec [] addresses).filter (fun address =>
        encodeAddressWithType blake2b address = encodeAddressWithType blake2b a) = [a] := by
      rw [← List.perm_singleton]
      refine (List.perm_ext_iff_of_nodup ((nodup_uniqueBy _ _).filter _)
        (List.nodup_singleton a)).mpr fun b => ?_
      rw [List.mem_filter, List.mem_singleton, decide_eq_true_eq]
      constructor
      · rintro ⟨hb, heq⟩
        exact henc b (mem_of_mem_uniqueBy hb).1 a ha heq
      · rintro rfl
        exact ⟨mem_uniqueBy_of_mem hvec ha List.not_mem_nil, rfl⟩
    rw [hsingle, if_pos (List.any_eq_true.mpr ⟨a, ha, decide_eq_true rfl⟩)]
    rfl
  · have hnone : (uniqueBy toVec [] addresses).filter (fun address =>
        encodeAddressWithType blake2b address = bytes) = [] := by
      rw [List.filter_eq_nil_iff]
      intro a ha heq
      exact hany ⟨a, (mem_of_mem_uniqueBy ha).1, of_decide_eq_true heq⟩
    rw [hnone, if_neg]
    · rfl
    · intro htrue
      obtain ⟨a, ha, heq⟩ := List.any_eq_true.mp htrue
      exact hany ⟨a, ha, of_decide_eq_true heq⟩

theorem mem_touchedAddresses {entry : StoredBlock × BlockContext} (hentry : entry ∈ blocks)
    (htx : tx ∈ entry.1.txs) {touched : Address × TxInvolvement}
    (h : touched ∈ touchedBy L entry.1.slot entry.2 tx) :
    touched.1 ∈ touchedAddresses L blocks := by
  obtain ⟨output, houtput, rfl⟩ := List.mem_map.mp h
  exact ⟨entry, hentry, output, List.mem_flatMap.mpr ⟨tx, htx, houtput⟩, rfl⟩

theorem flatMap_ite_singleton {α : Type} (p : α → Bool) (c : γ) (xs : List α) :
    (xs.flatMap fun x => if p x then [c] else []) = (xs.filter p).map fun _ => c := by
  induction xs with
  | nil => rfl
  | cons x rest ih => cases hx : p x <;> simp [hx, ih]

theorem map_filter_countOutputs (filter) {entry : StoredBlock × BlockContext}
    (hentry : entry ∈ blocks) (hvec : Set.InjOn toVec (touchedAddresses L blocks))
    (henc : Set.InjOn (encodeAddressWithType blake2b) (touchedAddresses L blocks)) (bytes : Bytes)
    (c : γ) :
    (((countOutputs L filter toVec entry).filter fun address =>
        encodeAddressWithType blake2b address = bytes).map fun _ => c) =
      (entry.1.txs.filter (counts L blake2b filter bytes entry)).map fun _ => c := by
  have htx : ∀ tx ∈ entry.1.txs.filter (passes filter entry),
      (((uniqueBy toVec [] ((touchedBy L entry.1.slot entry.2 tx).map Prod.fst)).filter
          fun address => encodeAddressWithType blake2b address = bytes).map fun _ => c) =
        if (touchedBy L entry.1.slot entry.2 tx).any fun touched =>
          encodeAddressWithType blake2b touched.1 = bytes then [c] else [] := by
    intro tx htx
    have hmem : ∀ address ∈ (touchedBy L entry.1.slot entry.2 tx).map Prod.fst,
        address ∈ touchedAddresses L blocks := by
      intro address haddress
      obtain ⟨touched, htouched, rfl⟩ := List.mem_map.mp haddress
      exact mem_touchedAddresses hentry (List.mem_of_mem_filter htx) htouched
    rw [filter_uniqueBy (fun a ha b hb => hvec (hmem a ha) (hmem b hb))
      (fun a ha b hb => henc (hmem a ha) (hmem b hb)), List.any_map]
    rfl
  rw [countOutputs, List.filter_flatMap, List.map_flatMap, List.flatMap_congr htx,
    flatMap_ite_singleton, List.filter_filter]
  refine congrArg _ (List.filter_congr fun tx _ => ?_)
  exact Bool.and_comm ..

theorem movesAt_txCounts (address : Address) (hvec : Set.InjOn toVec (touchedAddresses L blocks))
    (henc : Set.InjOn (encodeAddressWithType blake2b) (touchedAddresses L blocks)) :
    movesAt (enc.encodeTxCountByAddressKey blake2b address) (actionsOf enc
        (fun entry => (countOutputs L filter toVec entry).map (TxCountByAddress.dataOp blake2b))
        blocks) =
      (itemsOf L blake2b filter (encodeAddressWithType blake2b address) blocks).map
        fun _ => ⟨true, 1⟩ := by
  have hkey : ∀ other : Address, ((TxCountByAddress.dataOp blake2b other).toAction enc).key =
      enc.encodeTxCountByAddressKey blake2b address ↔
        encodeAddressWithType blake2b other = encodeAddressWithType blake2b address := by
    exact fun other => enc.encodeDataKey_inj reducerTxCountByAddress
  have hactions : actionsOf enc (fun entry =>
      (countOutputs L filter toVec entry).map (TxCountByAddress.dataOp blake2b)) blocks =
        (blocks.reverse.flatMap (countOutputs L filter toVec)).map fun other =>
          (TxCountByAddress.dataOp blake2b other).toAction enc := by
    simp [actionsOf, List.map_flatMap, Function.comp_def]
  rw [hactions]
  refine (Polyphony.movesAt_map fun other _ => hkey other).trans ?_
  rw [itemsOf, List.filter_flatMap, List.map_flatMap, List.map_flatMap]
  refine List.flatMap_congr fun entry hentry => ?_
  have hblock := map_filter_countOutputs filter (List.mem_reverse.mp hentry) hvec henc
    (encodeAddressWithType blake2b address) (⟨true, 1⟩ : Move)
  refine hblock.trans ?_
  have hplaces : entry.1.txs.filter (counts L blake2b filter (encodeAddressWithType blake2b address)
      entry) = (entry.1.txs.zipIdx.filter fun place => counts L blake2b filter
        (encodeAddressWithType blake2b address) entry place.1).map Prod.fst := by
    rw [← List.zipIdx_map_fst 0 entry.1.txs, List.filter_map]
    rw [List.zipIdx_map_fst]
    rfl
  rw [hplaces, List.map_map, List.map_map]
  rfl

end Counters

/-! ## Lists -/

def listedKeys (enc : KeyEncoder) (blake2b : Bytes → Hash) (store : Store) (address : Address) :
    List Key :=
  (store.entries.map Prod.fst).filter fun k =>
    (enc.encodeDataKey reducerTxsByAddress
      (encodeAddressWithType blake2b address ++ [breakByte])).isPrefixOf k

structure IsSlotted (chain : List StoredBlock) : Prop where
  slots : ((chain.filter fun block => block.txs ≠ []).map fun block => block.slot).Nodup
  slot_lt : ∀ block ∈ chain, block.slot < 2 ^ 64
  length_le : ∀ block ∈ chain, block.txs.length ≤ 65536

section Lists

variable {L : Library} {blake2b : Bytes → Hash} {enc : KeyEncoder}
  {filter : Option (Block → BlockContext → Tx → Except WorkError Bool)}
  {blocks : List (StoredBlock × BlockContext)}

theorem map_fst_see (seen : List (Address × List TxInvolvement))
    (touched : Address × TxInvolvement) (address : Address) :
    address ∈ (TxsByAddress.see seen touched).map Prod.fst ↔
      address ∈ seen.map Prod.fst ∨ address = touched.1 := by
  induction seen with
  | nil => simp [TxsByAddress.see]
  | cons entry rest ih =>
    rw [TxsByAddress.see]
    split_ifs with hentry
    · simp only [List.map_cons, List.mem_cons, hentry]
      tauto
    · rw [List.map_cons, List.mem_cons, ih, List.map_cons, List.mem_cons, or_assoc]

theorem mem_foldl_see (touched : List (Address × TxInvolvement))
    (seen : List (Address × List TxInvolvement)) (address : Address) :
    address ∈ (touched.foldl TxsByAddress.see seen).map Prod.fst ↔
      address ∈ seen.map Prod.fst ∨ address ∈ touched.map Prod.fst := by
  induction touched generalizing seen with
  | nil => simp
  | cons first rest ih =>
    rw [List.foldl_cons, ih, map_fst_see, List.map_cons, List.mem_cons, or_assoc]

theorem mem_listOutputs {entry : StoredBlock × BlockContext} {address : Address}
    {item : TxsByAddressCursor} :
    (∃ output ∈ listOutputs L filter entry, output.address = address ∧
        (⟨output.slot, output.txBlockIndex, output.txHash⟩ : TxsByAddressCursor) = item) ↔
      ∃ place ∈ entry.1.txs.zipIdx, passes filter entry place.1 = true ∧
        address ∈ (touchedBy L entry.1.slot entry.2 place.1).map Prod.fst ∧
        (⟨BitVec.ofNat 64 entry.1.slot, BitVec.ofNat 16 place.2, place.1.hash⟩ :
          TxsByAddressCursor) = item := by
  constructor
  · rintro ⟨output, houtput, rfl, rfl⟩
    obtain ⟨place, hplace, houtput⟩ := List.mem_flatMap.mp houtput
    obtain ⟨seen, hseen, rfl⟩ := List.mem_map.mp houtput
    rw [List.mem_filter] at hplace
    refine ⟨place, hplace.1, hplace.2, ?_, rfl⟩
    exact ((mem_foldl_see _ [] seen.1).mp (List.mem_map_of_mem hseen)).resolve_left List.not_mem_nil
  · rintro ⟨place, hplace, hpasses, haddress, rfl⟩
    obtain ⟨seen, hseen, rfl⟩ :=
      List.mem_map.mp ((mem_foldl_see _ [] address).mpr (Or.inr haddress))
    exact ⟨_, List.mem_flatMap.mpr ⟨place, List.mem_filter.mpr ⟨hplace, hpasses⟩,
      List.mem_map_of_mem hseen⟩, rfl, rfl⟩

theorem isSome_run_writesAt_iff {k : Key} :
    (Register.run (writesAt k (actionsOf enc
        (fun entry => (listOutputs L filter entry).map (TxsByAddress.dataOp blake2b)) blocks))
      none).isSome ↔
      ∃ entry ∈ blocks, ∃ output ∈ listOutputs L filter entry,
        ((TxsByAddress.dataOp blake2b output).toAction enc).key = k := by
  have hset : ∀ outputs : List TxsByAddressOutput,
      (outputs.map fun output => registerOp (TxsByAddress.dataOp blake2b output).op) =
        (outputs.map fun output => encodeTxsByAddressValue output.input output.output).map .set := by
    intro outputs
    rw [List.map_map]
    rfl
  rw [writesAt_actionsOf fun output => Iff.rfl, hset, Register.run_map_set, List.getLast?_isSome]
  constructor
  · intro hne
    obtain ⟨value, hvalue⟩ := List.exists_mem_of_ne_nil _ hne
    obtain ⟨output, houtput, -⟩ := List.mem_map.mp hvalue
    obtain ⟨houtput, hkey⟩ := List.mem_filter.mp houtput
    obtain ⟨entry, hentry, houtput⟩ := List.mem_flatMap.mp houtput
    exact ⟨entry, List.mem_reverse.mp hentry, output, houtput, of_decide_eq_true hkey⟩
  · rintro ⟨entry, hentry, output, houtput, hkey⟩
    refine List.ne_nil_of_mem (List.mem_map_of_mem (List.mem_filter.mpr ⟨?_, decide_eq_true hkey⟩))
    exact List.mem_flatMap.mpr ⟨entry, List.mem_reverse.mpr hentry, houtput⟩

theorem mem_itemsOf {bytes : Bytes} {item : TxsByAddressCursor} :
    item ∈ itemsOf L blake2b filter bytes blocks ↔
      ∃ entry ∈ blocks, ∃ place ∈ entry.1.txs.zipIdx,
        counts L blake2b filter bytes entry place.1 = true ∧
        (⟨BitVec.ofNat 64 entry.1.slot, BitVec.ofNat 16 place.2, place.1.hash⟩ :
          TxsByAddressCursor) = item := by
  simp only [itemsOf, List.mem_flatMap, List.mem_reverse, List.mem_map, List.mem_filter, and_assoc]

def listedKey (enc : KeyEncoder) (bytes : Bytes) (item : TxsByAddressCursor) : Key :=
  enc.encodeDataKey reducerTxsByAddress (bytes ++ (breakByte :: txItemBytes item))

theorem listedKey_injective (bytes : Bytes) : Function.Injective (listedKey enc bytes) := by
  intro item item' heq
  have hbody := (enc.encodeDataKey_inj reducerTxsByAddress).mp heq
  exact txItemBytes_injective (List.cons.inj (List.append_cancel_left hbody)).2

theorem mem_listedKeys {store : Store} (hget : ∀ k, store.get k = Register.run (writesAt k
      (actionsOf enc (fun entry => (listOutputs L filter entry).map (TxsByAddress.dataOp blake2b))
        blocks)) none) (address : Address) (k : Key) :
    k ∈ listedKeys enc blake2b store address ↔
      k ∈ (itemsOf L blake2b filter (encodeAddressWithType blake2b address) blocks).map
        (listedKey enc (encodeAddressWithType blake2b address)) := by
  have hstored : k ∈ store.entries.map Prod.fst ↔ (store.get k).isSome := by
    rw [SortedMap.get_isSome_iff]
  rw [listedKeys, List.mem_filter, hstored, hget, isSome_run_writesAt_iff, List.mem_map]
  simp only [mem_itemsOf]
  constructor
  · rintro ⟨⟨entry, hentry, output, houtput, rfl⟩, hprefix⟩
    -- behind the tag, the bytes of both addresses stand before a delimiter
    obtain ⟨rest, hrest⟩ := List.isPrefixOf_iff_prefix.mp hprefix
    have hbody : encodeAddressWithType blake2b output.address ++ (breakByte :: txItemBytes
        ⟨output.slot, output.txBlockIndex, output.txHash⟩) =
          encodeAddressWithType blake2b address ++ (breakByte :: rest) := by
      refine (enc.encodeDataKey_inj reducerTxsByAddress).mp (Eq.trans hrest.symm ?_)
      simp [KeyEncoder.encodeDataKey]
    obtain ⟨hbytes, -⟩ := isPrefixCode_addressWithType hbody
    obtain ⟨place, hplace, hpasses, htouched, hitem⟩ :=
      mem_listOutputs.mp ⟨output, houtput, rfl, rfl⟩
    refine ⟨_, ⟨entry, hentry, place, hplace, ?_, hitem⟩, ?_⟩
    · obtain ⟨touched, htouched, heq⟩ := List.mem_map.mp htouched
      rw [counts, hpasses, Bool.true_and, List.any_eq_true]
      exact ⟨touched, htouched, decide_eq_true (by rw [heq, hbytes])⟩
    · rw [listedKey, ← hbytes]
      rfl
  · rintro ⟨item, ⟨entry, hentry, place, hplace, hcounts, hitem⟩, rfl⟩
    rw [counts, Bool.and_eq_true, List.any_eq_true] at hcounts
    obtain ⟨hpasses, touched, htouched, hbytes⟩ := hcounts
    obtain ⟨output, houtput, haddress, hout⟩ :=
      mem_listOutputs.mpr ⟨place, hplace, hpasses, List.mem_map_of_mem htouched, hitem⟩
    refine ⟨⟨entry, hentry, output, houtput, ?_⟩, ?_⟩
    · have hkey : ((TxsByAddress.dataOp blake2b output).toAction enc).key =
          listedKey enc (encodeAddressWithType blake2b output.address)
            ⟨output.slot, output.txBlockIndex, output.txHash⟩ := rfl
      rw [hkey, hout, haddress, of_decide_eq_true hbytes]
    · refine List.isPrefixOf_iff_prefix.mpr ⟨txItemBytes item, ?_⟩
      simp [listedKey, KeyEncoder.encodeDataKey]

theorem ofNat_inj {w n m : ℕ} (hn : n < 2 ^ w) (hm : m < 2 ^ w)
    (heq : BitVec.ofNat w n = BitVec.ofNat w m) : n = m := by
  have hnat := congrArg BitVec.toNat heq
  rwa [BitVec.toNat_ofNat, BitVec.toNat_ofNat, Nat.mod_eq_of_lt hn, Nat.mod_eq_of_lt hm] at hnat

theorem nodup_itemsOf (hslotted : IsSlotted (blocks.map Prod.fst)) (bytes : Bytes) :
    (itemsOf L blake2b filter bytes blocks).Nodup := by
  rw [itemsOf, List.nodup_flatMap]
  constructor
  · -- the transactions of a block have different positions
    intro entry hentry
    have hlength : entry.1.txs.length ≤ 65536 :=
      hslotted.length_le _ (List.mem_map_of_mem (List.mem_reverse.mp hentry))
    have hlt : ∀ place ∈ entry.1.txs.zipIdx, place.2 < 2 ^ 16 := fun place hplace =>
      lt_of_lt_of_le (by simpa using List.snd_lt_of_mem_zipIdx hplace) hlength
    have hplaces : entry.1.txs.zipIdx.Nodup := by
      refine List.Nodup.of_map Prod.snd ?_
      rw [List.zipIdx_map_snd]
      exact List.nodup_range'
    refine List.Nodup.map_on (fun place hplace place' hplace' heq => ?_) (hplaces.filter _)
    have hplace := List.mem_of_mem_filter hplace
    have hplace' := List.mem_of_mem_filter hplace'
    have hindex : place.2 = place'.2 := ofNat_inj (hlt _ hplace) (hlt _ hplace')
      (congrArg TxsByAddressCursor.blockIndex heq)
    have htx := List.mem_zipIdx_iff_getElem?.mp hplace
    rw [hindex, List.mem_zipIdx_iff_getElem?.mp hplace'] at htx
    exact Prod.ext (Option.some.inj htx).symm hindex
  · -- blocks with transactions have different slots
    have hslots := hslotted.slots
    rw [List.Nodup, List.pairwise_map, List.filter_map, List.pairwise_map, List.pairwise_filter]
      at hslots
    rw [List.pairwise_reverse]
    refine hslots.imp_of_mem fun {entry entry'} hentry hentry' hne => ?_
    intro item hitem' hitem
    obtain ⟨place, hplace, hitem⟩ := List.mem_map.mp hitem
    obtain ⟨place', hplace', hitem'⟩ := List.mem_map.mp hitem'
    have hplace := List.fst_mem_of_mem_zipIdx (List.mem_of_mem_filter hplace)
    have hplace' := List.fst_mem_of_mem_zipIdx (List.mem_of_mem_filter hplace')
    refine hne (decide_eq_true (List.ne_nil_of_mem hplace))
      (decide_eq_true (List.ne_nil_of_mem hplace')) ?_
    exact ofNat_inj (hslotted.slot_lt _ (List.mem_map_of_mem hentry))
      (hslotted.slot_lt _ (List.mem_map_of_mem hentry'))
      (congrArg TxsByAddressCursor.slot (hitem.trans hitem'.symm))

end Lists

/-! ## Counts and lists -/

section Match

variable {L : Library} {toVec : Address → Bytes} {blake2b : Bytes → Hash} {enc : KeyEncoder}
  {filter : Option (Block → BlockContext → Tx → Except WorkError Bool)}
  {blocks : List (StoredBlock × BlockContext)}

theorem length_itemsOf_le (bytes : Bytes) : (itemsOf L blake2b filter bytes blocks).length ≤
    ((blocks.map Prod.fst).flatMap fun block => block.txs).length := by
  induction blocks with
  | nil => exact le_refl 0
  | cons entry older ih =>
    have hcons : itemsOf L blake2b filter bytes (entry :: older) =
        itemsOf L blake2b filter bytes older ++ itemsOf L blake2b filter bytes [entry] := by
      simp [itemsOf]
    have hentry : (itemsOf L blake2b filter bytes [entry]).length ≤ entry.1.txs.length := by
      simp only [itemsOf, List.reverse_singleton, List.flatMap_singleton, List.length_map]
      exact (List.length_filter_le _ _).trans_eq List.length_zipIdx
    rw [hcons, List.length_append, List.map_cons, List.flatMap_cons, List.length_append]
    omega

theorem total_ups (items : List TxsByAddressCursor) :
    total (items.map fun _ => (⟨true, 1⟩ : Move)) = items.length := by
  induction items with
  | nil => rfl
  | cons item rest ih =>
    rw [List.map_cons, ← List.singleton_append, total_append, ih, total_singleton]
    simp [Move.delta, add_comm]

theorem staysIn_txCounts (hvec : Set.InjOn toVec (touchedAddresses L blocks))
    (henc : Set.InjOn (encodeAddressWithType blake2b) (touchedAddresses L blocks))
    (hbounded : ((blocks.map Prod.fst).flatMap fun block => block.txs).length < 2 ^ 64) (k : Key) :
    StaysIn 0 (256 ^ Polyphony.Kind.u64.width) (movesAt k (actionsOf enc
      (fun entry => (countOutputs L filter toVec entry).map (TxCountByAddress.dataOp blake2b))
      blocks)) := by
  by_cases hk : ∃ address, enc.encodeTxCountByAddressKey blake2b address = k
  · obtain ⟨address, rfl⟩ := hk
    rw [movesAt_txCounts address hvec henc]
    refine StaysIn.of_up (fun move hmove => ?_) (le_refl 0) ?_
    · obtain ⟨item, -, rfl⟩ := List.mem_map.mp hmove
      rfl
    · have hlength : (itemsOf L blake2b filter (encodeAddressWithType blake2b address)
          blocks).length < 256 ^ 8 := (length_itemsOf_le _).trans_lt hbounded
      rw [total_ups, zero_add]
      exact_mod_cast hlength
  · -- no output of the reducer is under this key
    have hnone : k ∉ (actionsOf enc (fun entry => (countOutputs L filter toVec entry).map
        (TxCountByAddress.dataOp blake2b)) blocks).map StorageAction.key := by
      intro hmem
      obtain ⟨a, ha, rfl⟩ := List.mem_map.mp hmem
      obtain ⟨entry, -, ha⟩ := List.mem_flatMap.mp ha
      rw [List.map_map] at ha
      obtain ⟨address, -, rfl⟩ := List.mem_map.mp ha
      exact hk ⟨address, rfl⟩
    rw [movesAt, Polyphony.opsAt_eq_nil hnone]
    exact StaysIn.nil (le_refl 0) (by positivity)

end Match

/-- **Counts match lists**, however a chain is divided into batches. -/
theorem counts_match_lists (P : Pallas) (L : Library) (genesis : List GenesisUtxo)
    (policy : RuntimePolicy) (toVec : Address → Bytes) (blake2b : Bytes → Hash) (enc : KeyEncoder)
    (filter : Option (Block → BlockContext → Tx → Except WorkError Bool)) (maxLen maxBytes : ℕ)
    (paranoidMode : Bool) (now : U64) {addresses : Set Bytes} {batches : List Batch}
    (hchain : IsLedgerChain P L genesis ((blocksOf batches).map Prod.fst))
    (hresolved : AllResolved P genesis (blocksOf batches))
    (hslotted : IsSlotted ((blocksOf batches).map Prod.fst))
    (hbounded : (((blocksOf batches).map Prod.fst).flatMap fun block => block.txs).length < 2 ^ 64)
    (hanswers : FilterAnswers filter (blocksOf batches))
    (hkeyed : OutputsKeyed P L genesis ((blocksOf batches).map Prod.fst) addresses)
    (hinj : Set.InjOn blake2b addresses)
    (hvec : Set.InjOn toVec (touchedAddresses L (blocksOf batches))) :
    ∃ counters lists,
      indexBatches (TxCountByAddress.reduce L policy toVec blake2b filter) enc maxLen maxBytes
        paranoidMode now batches = .ok counters ∧
      indexBatches (TxsByAddress.reduce L policy blake2b filter) enc maxLen maxBytes paranoidMode now
        batches = .ok lists ∧
      ∀ address, counters.get (enc.encodeTxCountByAddressKey blake2b address) =
        if (listedKeys enc blake2b lists address).length = 0 then none
        else some (Bytes.toBE 8 (listedKeys enc blake2b lists address).length) := by
  have haddresses := isKeyed_of_mem_blockOutputs hchain hresolved hkeyed
  have henc : Set.InjOn (encodeAddressWithType blake2b)
      (touchedAddresses L (blocksOf batches)) := by
    rintro _ ⟨entry, hentry, output, houtput, rfl⟩ _ ⟨entry', hentry', output', houtput', rfl⟩
    exact encodeAddressWithType_injOn hinj (haddresses entry hentry output houtput)
      (haddresses entry' hentry' output' houtput')
  obtain ⟨counters, hcounters, hcounter⟩ := exists_indexBatches (by decide)
    (reduces_counts hchain hresolved hanswers) (fun _ => 0)
    (staysIn_txCounts hvec henc hbounded)
  obtain ⟨lists, hlists, hlist⟩ := exists_indexBatches_values enc maxLen maxBytes paranoidMode now
    (reduces_lists hchain hresolved hanswers)
  refine ⟨counters, lists, hcounters, hlists, fun address => ?_⟩
  set items := itemsOf L blake2b filter (encodeAddressWithType blake2b address) (blocksOf batches)
    with hitems
  have hlength : (listedKeys enc blake2b lists address).length = items.length := by
    have hkeys : (listedKeys enc blake2b lists address).Nodup := by
      refine List.Nodup.filter _ ?_
      rw [List.Nodup, List.pairwise_map]
      exact lists.sorted.imp fun hlt => ne_of_lt hlt
    have hnodup : (items.map (listedKey enc (encodeAddressWithType blake2b address))).Nodup :=
      (nodup_itemsOf hslotted _).map (listedKey_injective _)
    have hperm := (List.perm_ext_iff_of_nodup hkeys hnodup).mpr (mem_listedKeys hlist address)
    rw [hperm.length_eq, List.length_map]
  have hmoves : allMoves (periodsAt enc (fun entry => (countOutputs L filter toVec entry).map
      (TxCountByAddress.dataOp blake2b)) (enc.encodeTxCountByAddressKey blake2b address) batches) =
        items.map fun _ => ⟨true, 1⟩ := by
    rw [allMoves_periodsAt, movesAt_txCounts address hvec henc]
  have hrun : Counter.run true (periodsAt enc (fun entry => (countOutputs L filter toVec entry).map
      (TxCountByAddress.dataOp blake2b)) (enc.encodeTxCountByAddressKey blake2b address) batches) =
        if items.length = 0 then none else some items.length := by
    refine run_of_up (fun move hmove => ?_) (by rw [hmoves, total_ups])
    rw [hmoves] at hmove
    obtain ⟨item, -, rfl⟩ := List.mem_map.mp hmove
    exact ⟨rfl, one_ne_zero⟩
  rw [hcounter, Polyphony.Kind.removes, hrun, hlength]
  split <;> rfl

theorem isSlotted_spendingBlocks : IsSlotted Compressor.spendingBlocks.reverse where
  slots := by decide +kernel
  slot_lt := by decide +kernel
  length_le := by decide +kernel

theorem counts_match_lists_spending :
    ∃ batches counters lists,
      (blocksOf batches).map Prod.fst = Compressor.spendingBlocks.reverse ∧
      indexBatches (TxCountByAddress.reduce sampleLibrary ⟨none, none, none⟩ (fun _ => [])
        (fun _ => Compressor.sampleHash 0) none) ⟨1, 2⟩ 10 1000 true 0 batches = .ok counters ∧
      indexBatches (TxsByAddress.reduce sampleLibrary ⟨none, none, none⟩
        (fun _ => Compressor.sampleHash 0) none) ⟨1, 2⟩ 10 1000 true 0 batches = .ok lists ∧
      ∀ address, counters.get ((⟨1, 2⟩ : KeyEncoder).encodeTxCountByAddressKey
          (fun _ => Compressor.sampleHash 0) address) =
        if (listedKeys ⟨1, 2⟩ (fun _ => Compressor.sampleHash 0) lists address).length = 0 then none
        else some (Bytes.toBE 8
          (listedKeys ⟨1, 2⟩ (fun _ => Compressor.sampleHash 0) lists address).length) := by
  obtain ⟨chain, hblocks, hchain, hresolved⟩ := exists_spendingChain
  let batches : List Batch := [⟨chain, false, .byKey, fun h => by cases h⟩]
  have hall : blocksOf batches = chain := List.append_nil chain
  have hvec : Set.InjOn (fun _ => ([] : Bytes)) (touchedAddresses sampleLibrary chain) := by
    have hone : ∀ address ∈ touchedAddresses sampleLibrary chain, address = sampleAddress := by
      rintro _ ⟨entry, -, output, houtput, rfl⟩
      obtain ⟨tx, -, houtput⟩ := List.mem_flatMap.mp houtput
      obtain ⟨increment, txo, houtput⟩ : ∃ increment txo,
          output ∈ balanceOutputs sampleLibrary increment txo := by
        rcases List.mem_append.mp houtput with houtput | houtput
        · obtain ⟨ref, -, houtput⟩ := List.mem_flatMap.mp houtput
          exact ⟨_, _, houtput⟩
        · obtain ⟨made, -, houtput⟩ := List.mem_flatMap.mp houtput
          exact ⟨_, _, houtput⟩
      obtain ⟨out, hdecode, haddress⟩ := address_of_mem_balanceOutputs houtput
      cases hdecode
      exact (Option.some.inj haddress).symm
    exact fun a ha b hb _ => (hone a ha).trans (hone b hb).symm
  rw [← hall] at hblocks hchain hresolved hvec
  obtain ⟨counters, lists, hcounters, hlists, hcounts⟩ := counts_match_lists Compressor.spendingPallas
    sampleLibrary Compressor.sampleGenesis ⟨none, none, none⟩ (fun _ => [])
    (fun _ => Compressor.sampleHash 0) ⟨1, 2⟩ none 10 1000 true 0 hchain hresolved
    (hblocks ▸ isSlotted_spendingBlocks) (hblocks ▸ by decide +kernel)
    (fun _ _ _ _ => ⟨true, rfl⟩) outputsKeyed_sampleLibrary (Set.injOn_empty _) hvec
  exact ⟨batches, counters, lists, hblocks, hcounters, hlists, hcounts⟩

end CardanoIndexer.Reducers
