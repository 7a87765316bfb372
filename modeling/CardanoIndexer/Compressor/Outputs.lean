import CardanoIndexer.Compressor.Adopted
import CardanoIndexer.Lib.Spending
import Mathlib.Data.List.TakeWhile

/-!
# The output table and its undo

`HoldsOutputs`: the output table is that of the adopted chain's spending history.
-/

namespace CardanoIndexer.Compressor

open Spending

variable (P : Pallas) {chain older newer rest : List StoredBlock}
  {out : SortedMap TxoRef (TxoBody × Bool)} {resolver : SortedMap TxoRef TxoBody}
  {blockHash : BlockHash} {ref : TxoRef}

/-! ## Histories -/

def Tx.transfer (slot : ℕ) (tx : Tx) : Transfer TxoRef TxoBody := ⟨tx.produced P slot, tx.consumes⟩

def Block.transfers (block : Block) : List (Transfer TxoRef TxoBody) :=
  block.txs.map (Tx.transfer P block.slot)

def history (chain : List StoredBlock) : List (Transfer TxoRef TxoBody) :=
  chain.reverse.flatMap fun block => block.toBlock.transfers P

variable {P}

theorem Block.writes_eq (block : Block) :
    block.writes P = (block.transfers P).flatMap Transfer.writes := by
  simp only [Block.writes, Block.transfers, List.flatMap_map]
  rfl

@[simp] theorem history_nil : history P [] = [] := rfl

theorem history_cons (block : StoredBlock) (chain : List StoredBlock) :
    history P (block :: chain) = history P chain ++ block.toBlock.transfers P := by
  simp [history]

theorem history_append (newer older : List StoredBlock) :
    history P (newer ++ older) = history P older ++ history P newer := by
  simp [history]

theorem mem_of_producedAndConsumedInBlock {block : Block} {body : TxoBody}
    (h : (producedAndConsumedInBlock P block).get ref = some body) :
    (ref, body) ∈ (block.transfers P).flatMap Transfer.made := by
  rw [producedAndConsumedInBlock, SortedMap.get_applyWrites, SortedMap.get_empty] at h
  cases hlast : SortedMap.lastWrite ref
      (((block.txs.flatMap (Tx.produced P block.slot)).filter fun output =>
        output.1 ∈ block.inputRefs).map fun output => (output.1, some output.2)) with
  | none => simp [hlast] at h
  | some value =>
    rw [hlast, Option.getD_some] at h
    obtain ⟨output, houtput, heq⟩ := List.mem_map.mp (SortedMap.mem_of_lastWrite hlast)
    obtain ⟨rfl, rfl⟩ := Prod.mk.inj heq
    cases Option.some.inj h
    have hmem := List.mem_of_mem_filter houtput
    simpa [Block.transfers, List.flatMap_map, Tx.transfer] using hmem

section Resolving

variable {start : SortedMap TxoRef TxoBody} {past : List (Transfer TxoRef TxoBody)}
  {block : Block}

theorem mem_outputs_of_resolveRef (hvalid : Valid start past) {value : TxoBody × Bool}
    (h : resolveRef (table start past) (producedAndConsumedInBlock P block) block ref = .ok value) :
    (ref, value.1) ∈ outputs start (past ++ block.transfers P) := by
  rw [outputs_append, List.mem_append]
  rcases resolveRef_eq_ok.mp h with ⟨hget, -⟩ | ⟨-, hmade, -⟩
  · exact Or.inl (hvalid.get_table.mp hget).1
  · exact Or.inr (mem_of_producedAndConsumedInBlock hmade)

theorem resolver_get_of_available (hvalid : Valid start (past ++ block.transfers P))
    (hresolve : resolveBlockTxInputs P (table start past) block = .ok out) {before after : List Tx}
    {tx : Tx} (hsplit : block.txs = before ++ tx :: after) (href : ref ∈ tx.requires)
    (hknown : ref ∈ (outputs start (past ++ before.map (Tx.transfer P block.slot))).map Prod.fst)
    (hunspent : ref ∉ spent (past ++ before.map (Tx.transfer P block.slot))) :
    ∃ body flag, out.get ref = some (body, flag) ∧
      (table start (past ++ before.map (Tx.transfer P block.slot))).get ref = some body := by
  have hfront : past ++ block.transfers P =
      (past ++ before.map (Tx.transfer P block.slot)) ++
        (tx :: after).map (Tx.transfer P block.slot) := by
    rw [Block.transfers, hsplit, List.map_append, List.append_assoc]
  have hinput : ref ∈ block.inputRefs := by
    rw [Block.inputRefs, List.mem_dedup, hsplit]
    exact List.mem_flatMap.mpr ⟨tx, by simp, href⟩
  obtain ⟨⟨body, flag⟩, hresolved, hget⟩ :=
    (resolveBlockTxInputs_eq_ok.mp hresolve).1 ref hinput
  obtain ⟨⟨ref, found⟩, hfound, rfl⟩ := List.mem_map.mp hknown
  have hbefore : Valid start (past ++ before.map (Tx.transfer P block.slot)) :=
    (hfront ▸ hvalid).of_append
  have hbody := mem_outputs_of_resolveRef hvalid.of_append hresolved
  have heq : found = body := by
    refine hvalid.output_unique ?_ hbody
    rw [hfront, outputs_append]
    exact List.mem_append_left _ hfound
  exact ⟨body, flag, hget, hbefore.get_table.mpr ⟨heq ▸ hfound, hunspent⟩⟩

end Resolving

theorem resolverMap_entries (out : SortedMap TxoRef (TxoBody × Bool)) :
    ChainDB.resolverMap out.entries = out.mapVal Prod.fst := by
  apply SortedMap.ext_get
  intro ref
  have hnodup : ((out.entries.map fun output => (output.1, some output.2.1)).map
      Prod.fst).Nodup := by
    rw [List.map_map, List.Nodup, List.pairwise_map]
    exact out.sorted.imp fun hlt => hlt.ne
  rw [ChainDB.resolverMap, SortedMap.get_applyWrites, SortedMap.get_mapVal,
    SortedMap.get_empty]
  cases hget : out.get ref with
  | some value =>
    rw [SortedMap.lastWrite_of_nodup hnodup
      (List.mem_map.mpr ⟨(ref, value), out.get_eq_some_iff.mp hget, rfl⟩)]
    rfl
  | none =>
    rw [SortedMap.lastWrite_eq_none_iff.mpr]
    · rfl
    · intro hmem
      rw [List.map_map] at hmem
      have hsome := (SortedMap.get_isSome_iff out).mpr hmem
      simp [hget] at hsome

theorem restoreConsumed_of_get (old : SortedMap TxoRef TxoBody) {refs : List TxoRef}
    (hnodup : refs.Nodup) {txos : SortedMap TxoRef TxoBody}
    (hget : ∀ ref ∈ refs, ∃ body, resolver.get ref = some body ∧ old.get ref = some body) :
    restoreConsumed blockHash refs (resolver, txos) =
      .ok (resolver.restrict fun ref => ref ∉ refs,
        txos.applyWrites (refs.map fun ref => (ref, old.get ref))) := by
  induction refs generalizing resolver txos with
  | nil =>
    have hall : (resolver.restrict fun ref => ref ∉ ([] : List TxoRef)) = resolver :=
      SortedMap.ext_get fun ref => by simp
    rw [hall]
    rfl
  | cons ref rest ih =>
    rw [List.nodup_cons] at hnodup
    obtain ⟨⟨body, hresolver, hold⟩, hrest⟩ := List.forall_mem_cons.mp hget
    have hne : ∀ other ∈ rest, other ≠ ref := fun other hother heq =>
      hnodup.1 (heq ▸ hother)
    have herase : ((resolver.erase ref).restrict fun other => other ∉ rest) =
        resolver.restrict fun other => other ∉ ref :: rest := by
      apply SortedMap.ext_get
      intro other
      by_cases heq : other = ref
      · simp [heq]
      · simp [heq]
    simp only [restoreConsumed, hresolver]
    rw [ih hnodup.2 fun other hother => by
      simpa [hne other hother] using hrest other hother, herase]
    simp [SortedMap.applyWrites, SortedMap.applyWrite, hold]

theorem undoTxs_of_valid (slot : ℕ) {start : SortedMap TxoRef TxoBody}
    {past : List (Transfer TxoRef TxoBody)} {txs : List Tx}
    (hvalid : Valid start (past ++ txs.map (Tx.transfer P slot)))
    (hresolver : ∀ before tx after, txs = before ++ tx :: after → ∀ ref ∈ tx.consumes,
      ∃ body, resolver.get ref = some body ∧
        (table start (past ++ before.map (Tx.transfer P slot))).get ref = some body) :
    undoTxs blockHash txs.reverse
        (resolver, table start (past ++ txs.map (Tx.transfer P slot))) =
      .ok (table start past) := by
  induction txs using List.reverseRecOn generalizing resolver with
  | nil => simp [undoTxs]
  | append_singleton before tx ih =>
    rw [List.map_append, List.map_singleton, ← List.append_assoc] at hvalid ⊢
    obtain ⟨hbefore, hfollows⟩ := valid_concat.mp hvalid
    have hproduced : (tx.produces.map fun output =>
        ((⟨tx.hash, output.1⟩ : TxoRef), (none : Option TxoBody))) =
        (tx.transfer P slot).made.map fun output => (output.1, none) := by
      simp [Tx.transfer, Tx.produced]
    rw [List.reverse_concat, undoTxs, restoreConsumed_of_get
      (table start (past ++ before.map (Tx.transfer P slot))) tx.nodup_consumes
      (hresolver before tx [] rfl)]
    simp only [Except.ok_bind]
    rw [table_concat, hproduced]
    change undoTxs blockHash before.reverse (_, (((table start _).applyWrites
      (tx.transfer P slot).writes).applyWrites _).applyWrites _) = _
    rw [show tx.consumes = (tx.transfer P slot).spent from rfl, hfollows.undo_writes hbefore]
    apply ih hbefore
    intro first other rest hsplit ref href
    -- what an earlier transaction spent, the last one does not spend again
    have hspent : ref ∉ (tx.transfer P slot).spent := fun hmem =>
      hfollows.unspent ref hmem (by
        rw [spent_append, hsplit]
        refine List.mem_append_right _ (List.mem_flatMap.mpr ⟨other.transfer P slot, ?_, href⟩)
        simp)
    simpa [hspent] using
      hresolver first other (rest ++ [tx]) (by simp [hsplit]) ref href

/-! ## What the tables keep of a chain -/

def visible : List StoredBlock → List StoredBlock
  | [] => []
  | block :: rest => block :: visible (rest.dropWhile fun older => older.slot = block.slot)
termination_by chain => chain.length
decreasing_by
  have hlength : (rest.dropWhile fun older => older.slot = block.slot).length ≤ rest.length :=
    (List.dropWhile_sublist _).length_le
  simp only [List.length_cons]
  omega

def RepeatsEmpty (chain : List StoredBlock) : Prop :=
  chain.IsChain fun newer older => older.slot < newer.slot ∨ older.txs = []

theorem blockIn_dropWhile {slot slot' : ℕ} (hne : slot ≠ slot') :
    blockIn (chain.dropWhile fun block => block.slot = slot') slot = blockIn chain slot := by
  induction chain with
  | nil => rfl
  | cons block rest ih =>
    by_cases hslot : block.slot = slot'
    · rw [List.dropWhile_cons_of_pos (by simpa using hslot), ih, blockIn_cons,
        if_neg (hslot ▸ hne)]
    · rw [List.dropWhile_cons_of_neg (by simpa using hslot)]

theorem slot_lt_of_mem_dropWhile {block older : StoredBlock}
    (hordered : SlotOrdered (block :: rest))
    (holder : older ∈ rest.dropWhile fun b => b.slot = block.slot) : older.slot < block.slot := by
  induction rest with
  | nil => simp at holder
  | cons head rest ih =>
    rw [SlotOrdered, List.pairwise_cons, List.pairwise_cons] at hordered
    by_cases hhead : head.slot = block.slot
    · rw [List.dropWhile_cons_of_pos (by simpa using hhead)] at holder
      refine ih (List.pairwise_cons.mpr ⟨fun b hb => ?_, hordered.2.2⟩) holder
      exact hordered.1 b (List.mem_cons_of_mem _ hb)
    · rw [List.dropWhile_cons_of_neg (by simpa using hhead)] at holder
      have hlt : head.slot < block.slot :=
        lt_of_le_of_ne (hordered.1 head (List.mem_cons_self ..)) hhead
      rcases List.mem_cons.mp holder with rfl | holder
      · exact hlt
      · exact (hordered.2.1 older holder).trans_lt hlt

theorem SlotOrdered.dropWhile {block : StoredBlock} (h : SlotOrdered (block :: rest))
    (p : StoredBlock → Bool) : SlotOrdered (rest.dropWhile p) :=
  (List.pairwise_cons.mp h).2.sublist (List.dropWhile_sublist p)

theorem visible_subset (chain : List StoredBlock) : visible chain ⊆ chain := by
  fun_induction visible with
  | case1 => exact List.Subset.refl _
  | case2 block rest ih =>
    exact List.cons_subset_cons _ (List.Subset.trans ih (List.dropWhile_sublist _).subset)

theorem pairwise_visible (hordered : SlotOrdered chain) :
    (visible chain).Pairwise fun newer older => older.slot < newer.slot := by
  fun_induction visible with
  | case1 => exact List.Pairwise.nil
  | case2 block rest ih =>
    refine List.pairwise_cons.mpr ⟨fun older holder => ?_, ih (hordered.dropWhile _)⟩
    exact slot_lt_of_mem_dropWhile hordered (visible_subset _ holder)

theorem mem_visible_iff (hordered : SlotOrdered chain) {block : StoredBlock} :
    block ∈ visible chain ↔ blockIn chain block.slot = some block := by
  fun_induction visible with
  | case1 => simp [blockIn]
  | case2 head rest ih =>
    rw [List.mem_cons, ih (hordered.dropWhile _), blockIn_cons]
    by_cases hslot : block.slot = head.slot
    · rw [if_pos hslot, Option.some.injEq]
      constructor
      · rintro (rfl | hblock)
        · rfl
        · exact absurd hslot
            (slot_lt_of_mem_dropWhile hordered (mem_of_blockIn hblock).1).ne
      · intro heq
        exact Or.inl heq.symm
    · rw [if_neg hslot, blockIn_dropWhile hslot]
      exact or_iff_right fun heq => hslot (heq ▸ rfl)

theorem history_dropWhile {block : StoredBlock}
    (hrepeats : RepeatsEmpty (block :: newer ++ older)) :
    history P ((newer.dropWhile fun b => b.slot = block.slot) ++ older) =
      history P (newer ++ older) := by
  induction newer generalizing block with
  | nil => rfl
  | cons head rest ih =>
    by_cases hslot : head.slot = block.slot
    · obtain ⟨hhead, hrest⟩ := List.isChain_cons_cons.mp hrepeats
      have htxs : head.txs = [] := hhead.resolve_left (by omega)
      rw [List.dropWhile_cons_of_pos (by simpa using hslot), ← hslot, ih hrest,
        List.cons_append, history_cons]
      simp [Block.transfers, htxs]
    · rw [List.dropWhile_cons_of_neg (by simpa using hslot)]

section Undo

variable {start : SortedMap TxoRef TxoBody} (isMutable : Bool)

theorem exists_undoEntry {state : Tables × ℕ} {block : StoredBlock}
    (hdecode : P.decode block.bytes = .ok block.toBlock)
    (hvalid : Valid start (history P (block :: older)))
    (htxos : state.1.txoKV = table start (history P (block :: older)))
    (hresolve : resolveBlockTxInputs P (table start (history P older)) block.toBlock = .ok out)
    (hget : state.1.resolverBySlotKV.get block.slot = some (block.hash, out.entries)) :
    ∃ state', ChainDB.undoEntry P isMutable state block.entry = .ok state' ∧
      state'.1.txoKV = table start (history P older) ∧
      state'.1.resolverBySlotKV = state.1.resolverBySlotKV.erase block.slot := by
  rw [history_cons] at hvalid htxos
  have hundo : undoTxs block.hash block.txs.reverse
      (ChainDB.resolverMap out.entries, state.1.txoKV) = .ok (table start (history P older)) := by
    rw [htxos]
    refine undoTxs_of_valid block.slot hvalid fun before tx after hsplit ref href => ?_
    have hfollows : Follows start
        (history P older ++ before.map (Tx.transfer P block.slot)) (tx.transfer P block.slot) := by
      have hcut : Valid start (history P older ++ before.map (Tx.transfer P block.slot) ++
          tx.transfer P block.slot :: after.map (Tx.transfer P block.slot)) := by
        rw [List.append_assoc]
        simpa [Block.transfers, hsplit] using hvalid
      exact hcut.follows
    obtain ⟨body, flag, hout, hbefore⟩ := resolver_get_of_available hvalid hresolve hsplit
      (Tx.requires_of_consumes href) (hfollows.known ref href) (hfollows.unspent ref href)
    refine ⟨body, ?_, hbefore⟩
    rw [resolverMap_entries, SortedMap.get_mapVal, hout, Option.map_some]
  exact ⟨_, ChainDB.undoEntry_eq_ok.mpr ⟨block.toBlock, _, _, hdecode, hget, hundo, rfl⟩, rfl, rfl⟩

def HasResolvers (P : Pallas) (start : SortedMap TxoRef TxoBody) (chain older : List StoredBlock)
    (resolvers : SortedMap ℕ (BlockHash × ResolverValue)) : Prop :=
  ∀ newer block rest, chain = newer ++ block :: rest → (∀ b ∈ newer, block.slot < b.slot) →
    ∃ out, resolveBlockTxInputs P (table start (history P (rest ++ older))) block.toBlock = .ok out ∧
      resolvers.get block.slot = some (block.hash, out.entries)

theorem HasResolvers.dropWhile {block : StoredBlock}
    {resolvers : SortedMap ℕ (BlockHash × ResolverValue)}
    (h : HasResolvers P start (block :: chain) older resolvers)
    (hordered : SlotOrdered (block :: chain)) :
    HasResolvers P start (chain.dropWhile fun b => b.slot = block.slot) older
      (resolvers.erase block.slot) := by
  intro newer found rest hsplit hnewer
  have hlt : found.slot < block.slot :=
    slot_lt_of_mem_dropWhile hordered (by rw [hsplit]; simp)
  obtain ⟨out, hresolve, hget⟩ := h
    (block :: (chain.takeWhile fun b => b.slot = block.slot) ++ newer) found rest (by
      rw [List.append_assoc, ← hsplit, List.cons_append, List.takeWhile_append_dropWhile]) (by
      intro b hb
      rw [List.cons_append, List.mem_cons, List.mem_append] at hb
      rcases hb with rfl | hb | hb
      · exact hlt
      · have hslot : b.slot = block.slot := by simpa using List.mem_takeWhile_imp hb
        omega
      · exact hnewer b hb)
  exact ⟨out, hresolve, by simpa [hlt.ne] using hget⟩

theorem exists_run_undo (older : List StoredBlock) (state : Tables × ℕ)
    (hordered : SlotOrdered newer) (hrepeats : RepeatsEmpty (newer ++ older))
    (hdecoded : ∀ block ∈ newer, P.decode block.bytes = .ok block.toBlock)
    (hvalid : Valid start (history P (newer ++ older)))
    (htxos : state.1.txoKV = table start (history P (newer ++ older)))
    (hresolvers : HasResolvers P start newer older state.1.resolverBySlotKV) :
    ∃ state', Run.run (ChainDB.undoEntry P isMutable) state
        ((visible newer).map StoredBlock.entry) = .ok state' ∧
      state'.1.txoKV = table start (history P older) := by
  fun_induction visible newer generalizing state with
  | case1 => exact ⟨state, rfl, htxos⟩
  | case2 block rest ih =>
    obtain ⟨out, hresolve, hget⟩ := hresolvers [] block rest rfl (by simp)
    obtain ⟨mid, hstep, hmidTxos, hmidResolvers⟩ := exists_undoEntry isMutable
      (hdecoded block (List.mem_cons_self ..)) hvalid htxos hresolve hget
    have hrest : rest.dropWhile (fun b => b.slot = block.slot) <:+ rest :=
      List.dropWhile_suffix _
    have hsuffix : rest.dropWhile (fun b => b.slot = block.slot) ++ older <:+
        block :: rest ++ older := by
      obtain ⟨same, hsame⟩ := hrest.trans (List.suffix_cons block rest)
      exact ⟨same, by rw [← List.append_assoc, hsame]⟩
    have hhistory := history_dropWhile (P := P) hrepeats
    obtain ⟨state', hrun, htxos'⟩ := ih mid (hordered.dropWhile _)
      (List.IsChain.suffix hrepeats hsuffix)
      (fun b hb => hdecoded b (List.mem_cons_of_mem _ (hrest.subset hb)))
      (by
        rw [hhistory]
        rw [List.cons_append, history_cons] at hvalid
        exact hvalid.of_append)
      (by
        rw [hhistory]
        exact hmidTxos)
      (by
        rw [hmidResolvers]
        exact hresolvers.dropWhile hordered)
    refine ⟨state', ?_, htxos'⟩
    rw [List.map_cons, Run.run_cons, hstep]
    exact hrun

end Undo

end CardanoIndexer.Compressor
