import CardanoIndexer.Lib.Run
import CardanoIndexer.Polyphony.Source

/-!
# The emulated source

The pointer into the canned blocks only moves forward: the target of `Bn` is the block `n + 1`
places before it, whatever was rolled back.
-/

namespace CardanoIndexer.Polyphony

open Compressor (BlockRef BlockBody Pallas)

inductive Instruction where
  | forwards
  | backwards (amount : ℕ)
  deriving DecidableEq

def toDigit (token : Char) : Option ℕ :=
  if token.isDigit then some (token.toNat - '0'.toNat) else none

def parseInstructions : List Char → Except String (List Instruction)
  | [] => .ok []
  | 'F' :: rest => do
    let ops ← parseInstructions rest
    return .forwards :: ops
  | ['B'] => .error "Backwards instruction B must be immediately followed by a u8"
  | 'B' :: amountToken :: rest =>
    match toDigit amountToken with
    | none => .error "Invalid backwards instruction amount"
    | some amount =>
      if amount = 0 then .error "Backwards amount cannot be 0"
      else do
        let ops ← parseInstructions rest
        return .backwards amount :: ops
  | _ :: _ => .error "Invalid emulator instruction, must be 'F' or 'Bn' where 'n' is a u8"

variable {n : ℕ}

theorem pos_of_parseInstructions {text : List Char} {ops : List Instruction}
    (h : parseInstructions text = .ok ops) (hn : .backwards n ∈ ops) : 0 < n := by
  induction text using parseInstructions.induct generalizing ops with
  | case1 =>
    cases h
    cases hn
  | case2 rest ih =>
    obtain ⟨ops, hops, hcons⟩ := Except.bind_eq_ok.mp h
    cases hcons
    exact ih hops (by simpa using hn)
  | case3 => cases h
  | case4 amountToken rest hnone =>
    rw [parseInstructions, hnone] at h
    cases h
  | case5 amountToken rest hzero =>
    rw [parseInstructions, hzero] at h
    cases h
  | case6 amountToken rest amount hamount hpos ih =>
    rw [parseInstructions, hamount] at h
    simp only [if_neg hpos] at h
    obtain ⟨ops, hops, hcons⟩ := Except.bind_eq_ok.mp h
    cases hcons
    rcases List.mem_cons.mp hn with heq | hn
    · cases heq
      exact Nat.pos_of_ne_zero hpos
    · exact ih hops hn
  | case7 token rest hnotF hnotB hnotBn =>
    rw [parseInstructions] at h
    · cases h
    all_goals assumption

structure Emulator where
  blocks : List BlockBody
  blockPtr : ℕ
  deriving DecidableEq

section Worker

variable (P : Pallas)

def Emulator.pointAt (self : Emulator) (i : ℕ) : Except WorkError (BlockBody × BlockRef) :=
  match self.blocks[i]? with
  | none => .error .panic
  | some blockBytes => match P.decode blockBytes with
      | .error _ => .error .panic
      | .ok block => .ok (blockBytes, ⟨block.slot, block.hash⟩)

def Emulator.execute (self : Emulator) :
    Instruction → Except WorkError (Emulator × EnrichedBlockPayload)
  | .forwards => do
    let (blockBytes, point) ← self.pointAt P self.blockPtr
    return ({ self with blockPtr := self.blockPtr + 1 },
      .rollForward (some point) blockBytes .new true)
  | .backwards n =>
    -- the pointer underflows
    if self.blockPtr < n + 1 then .error .panic
    else do
      let (_, point) ← self.pointAt P (self.blockPtr - (n + 1))
      return (self, .rollBack (some point))

def emulate (blocks : List BlockBody) (ops : List Instruction) :
    Except WorkError (Emulator × List EnrichedBlockPayload) :=
  Run.run (fun state op => do
    let (self, message) ← state.1.execute P op
    return (self, state.2 ++ [message])) (⟨blocks, 0⟩, []) ops

end Worker

/-! ## What a script means -/

def replay (chain : List (Option BlockRef)) : EnrichedBlockPayload → Option (List (Option BlockRef))
  | .rollForward point _ _ _ => some (point :: chain)
  | .rollBack point =>
    if point ∈ chain then some (chain.drop (chain.idxOf point)) else none

def EachBackwards (Q : List Instruction → ℕ → Prop) (ops : List Instruction) : Prop :=
  ∀ past n, past ++ [.backwards n] <+: ops → Q past n

def appliedBlocks (ops : List Instruction) : ℕ :=
  ops.foldl (fun applied op => match op with
    | .forwards => applied + 1
    | .backwards n => applied - n) 0

def countForwards (ops : List Instruction) : ℕ := ops.count .forwards

def trailingForwards (ops : List Instruction) : ℕ :=
  (ops.reverse.takeWhile (· = .forwards)).length

def TargetsBelowTip (P : Pallas) (blocks : List BlockBody) (past : List Instruction) (n : ℕ) : Prop :=
  ∃ self sent chain point, emulate P blocks past = .ok (self, sent) ∧
    sent.foldlM replay [] = some chain ∧
    self.execute P (.backwards n) = .ok (self, .rollBack point) ∧ chain[n]? = some point

variable {Q : List Instruction → ℕ → Prop}

theorem eachBackwards_concat_forwards {ops : List Instruction} :
    EachBackwards Q (ops ++ [.forwards]) ↔ EachBackwards Q ops := by
  simp [EachBackwards, List.prefix_concat_iff]

theorem eachBackwards_concat_backwards {ops : List Instruction} :
    EachBackwards Q (ops ++ [.backwards n]) ↔ EachBackwards Q ops ∧ Q ops n := by
  simp only [EachBackwards, List.prefix_concat_iff]
  constructor
  · intro h
    exact ⟨fun past m hm => h past m (Or.inr hm), h ops n (Or.inl rfl)⟩
  · rintro ⟨hpast, hlast⟩ past m (heq | hm)
    · obtain ⟨rfl, hop⟩ := List.append_singleton_inj.mp heq
      cases hop
      exact hlast
    · exact hpast past m hm

@[simp] theorem appliedBlocks_concat (ops : List Instruction) (op : Instruction) :
    appliedBlocks (ops ++ [op]) = match op with
      | .forwards => appliedBlocks ops + 1
      | .backwards n => appliedBlocks ops - n := by
  rw [appliedBlocks, List.foldl_concat]
  rfl

@[simp] theorem trailingForwards_concat (ops : List Instruction) (op : Instruction) :
    trailingForwards (ops ++ [op]) = match op with
      | .forwards => trailingForwards ops + 1
      | .backwards _ => 0 := by
  cases op <;> simp [trailingForwards]

@[simp] theorem countForwards_concat (ops : List Instruction) (op : Instruction) :
    countForwards (ops ++ [op]) = match op with
      | .forwards => countForwards ops + 1
      | .backwards _ => countForwards ops := by
  cases op <;> simp [countForwards]

theorem appliedBlocks_le_count (ops : List Instruction) :
    appliedBlocks ops ≤ countForwards ops := by
  induction ops using List.reverseRecOn with
  | nil => exact le_rfl
  | append_singleton past op ih => cases op <;> simp <;> omega

theorem trailingForwards_le_count (ops : List Instruction) :
    trailingForwards ops ≤ countForwards ops := by
  induction ops using List.reverseRecOn with
  | nil => exact le_rfl
  | append_singleton past op ih => cases op <;> simp [ih]

/-! ## The chain that the messages describe -/

section Script

variable {P : Pallas} {blocks : List BlockBody} {points : List BlockRef} {past : List Instruction}
  {chain : List ℕ} {ptr i : ℕ}

def HavePoints (P : Pallas) (blocks : List BlockBody) (points : List BlockRef) : Prop :=
  ∀ (i : ℕ) (point : BlockRef), points[i]? = some point → ∃ bytes block,
    blocks[i]? = some bytes ∧ P.decode bytes = .ok block ∧ point = ⟨block.slot, block.hash⟩

theorem HavePoints.exists_pointAt (h : HavePoints P blocks points) (ptr : ℕ)
    (hi : i < points.length) : ∃ bytes point, points[i]? = some point ∧
      (⟨blocks, ptr⟩ : Emulator).pointAt P i = .ok (bytes, point) := by
  have hpoint := List.getElem?_eq_getElem hi
  obtain ⟨bytes, block, hbytes, hdecode, heq⟩ := h i _ hpoint
  refine ⟨bytes, _, hpoint, ?_⟩
  rw [Emulator.pointAt, hbytes, heq]
  simp only [hdecode]

theorem HavePoints.execute_forwards (h : HavePoints P blocks points) (hptr : ptr < points.length) :
    ∃ bytes, (⟨blocks, ptr⟩ : Emulator).execute P .forwards =
      .ok (⟨blocks, ptr + 1⟩, .rollForward points[ptr]? bytes .new true) := by
  obtain ⟨bytes, point, hpoint, hat⟩ := h.exists_pointAt ptr hptr
  refine ⟨bytes, ?_⟩
  rw [Emulator.execute, hat, hpoint]
  rfl

theorem HavePoints.execute_backwards (h : HavePoints P blocks points) (hn : n < ptr)
    (hptr : ptr ≤ points.length) : (⟨blocks, ptr⟩ : Emulator).execute P (.backwards n) =
      .ok (⟨blocks, ptr⟩, .rollBack points[ptr - (n + 1)]?) := by
  obtain ⟨bytes, point, hpoint, hat⟩ :=
    h.exists_pointAt ptr (show ptr - (n + 1) < points.length by omega)
  rw [Emulator.execute, if_neg (by dsimp only; omega), hat, hpoint]
  rfl

theorem emulate_concat {op : Instruction} {self self' : Emulator}
    {sent : List EnrichedBlockPayload} {message : EnrichedBlockPayload}
    (hpast : emulate P blocks past = .ok (self, sent))
    (hop : self.execute P op = .ok (self', message)) :
    emulate P blocks (past ++ [op]) = .ok (self', sent ++ [message]) := by
  refine (Run.run_concat_eq_ok _).mpr ⟨_, hpast, ?_⟩
  rw [hop]
  rfl

structure ScriptedChain (past : List Instruction) (chain : List ℕ) : Prop where
  descends : chain.Pairwise (· > ·)
  below : ∀ c ∈ chain, c < countForwards past
  recent : ∀ j < trailingForwards past, chain[j]? = some (countForwards past - (j + 1))
  gap : ∀ c, chain[trailingForwards past]? = some c →
    c + (trailingForwards past + 1) < countForwards past

theorem ScriptedChain.forwards (h : ScriptedChain past chain) :
    ScriptedChain (past ++ [.forwards]) (countForwards past :: chain) := by
  refine ⟨List.pairwise_cons.mpr ⟨h.below, h.descends⟩, ?_, ?_, ?_⟩
  all_goals simp only [countForwards_concat, trailingForwards_concat]
  · intro c hc
    rcases List.mem_cons.mp hc with rfl | hc
    · exact Nat.lt_succ_self _
    · exact (h.below c hc).trans (Nat.lt_succ_self _)
  · intro j hj
    cases j with
    | zero => rfl
    | succ j =>
      rw [List.getElem?_cons_succ, h.recent j (Nat.lt_of_succ_lt_succ hj)]
      simp
  · intro c hc
    have hgap := h.gap c (by simpa using hc)
    omega

theorem ScriptedChain.backwards (h : ScriptedChain past chain) (hpos : 0 < n)
    (hn : n < trailingForwards past) : ScriptedChain (past ++ [.backwards n]) (chain.drop n) := by
  refine ⟨h.descends.drop, ?_, ?_, ?_⟩
  all_goals simp only [countForwards_concat, trailingForwards_concat]
  · exact fun c hc => h.below c (List.mem_of_mem_drop hc)
  · exact fun j hj => absurd hj (Nat.not_lt_zero j)
  · intro c hc
    rw [List.getElem?_drop, Nat.add_zero, h.recent n hn] at hc
    have hle := trailingForwards_le_count past
    cases hc
    omega

theorem ScriptedChain.add_le (h : ScriptedChain past chain) {j a b : ℕ} (ha : chain[i]? = some a)
    (hb : chain[i + j]? = some b) : b + j ≤ a := by
  induction j generalizing b with
  | zero => exact (Option.some.inj (hb.symm.trans ha)).le
  | succ j ih =>
    obtain ⟨hlt, rfl⟩ := List.getElem?_eq_some_iff.mp hb
    have hmid : i + j < chain.length := Nat.lt_of_succ_lt hlt
    have hstep := List.pairwise_iff_getElem.mp h.descends (i + j) (i + (j + 1)) hmid hlt
      (Nat.lt_succ_self _)
    have hle := ih (List.getElem?_eq_getElem hmid)
    omega

theorem ScriptedChain.target_iff (h : ScriptedChain past chain) (hnodup : points.Nodup)
    (henough : countForwards past ≤ points.length) (hn : n < countForwards past) :
    (chain.map (points[·]?))[n]? = some points[countForwards past - (n + 1)]? ↔
      n < trailingForwards past := by
  constructor
  · intro htarget
    rw [List.getElem?_map, Option.map_eq_some_iff] at htarget
    obtain ⟨c, hc, hpoint⟩ := htarget
    have hbelow := h.below c (List.mem_of_getElem? hc)
    have heq : c = countForwards past - (n + 1) :=
      (List.getElem?_inj (hbelow.trans_le henough) hnodup).mp hpoint
    by_contra hnot
    obtain ⟨j, rfl⟩ := Nat.exists_eq_add_of_le (not_lt.mp hnot)
    obtain ⟨hlt, -⟩ := List.getElem?_eq_some_iff.mp hc
    have hfirst := List.getElem?_eq_getElem (show trailingForwards past < chain.length by omega)
    have hgap := h.gap _ hfirst
    have hle := h.add_le hfirst hc
    omega
  · intro hlt
    rw [List.getElem?_map, h.recent n hlt]
    rfl

theorem replay_rollBack {chain : List (Option BlockRef)} (hnodup : chain.Nodup)
    {point : Option BlockRef} (hpoint : chain[n]? = some point) :
    replay chain (.rollBack point) = some (chain.drop n) := by
  obtain ⟨hlt, rfl⟩ := List.getElem?_eq_some_iff.mp hpoint
  rw [replay, if_pos (List.getElem_mem hlt), hnodup.idxOf_getElem n hlt]

theorem ScriptedChain.nodup_points (h : ScriptedChain past chain) (hnodup : points.Nodup)
    (henough : countForwards past ≤ points.length) : (chain.map (points[·]?)).Nodup := by
  refine List.Nodup.map_on ?_ (h.descends.imp fun hgt => hgt.ne')
  intro c hc d hd heq
  exact (List.getElem?_inj ((h.below c hc).trans_le henough) hnodup).mp heq

theorem exists_scriptedChain (hpoints : HavePoints P blocks points) (hnodup : points.Nodup)
    (hpos : ∀ n, .backwards n ∈ past → 0 < n) (henough : countForwards past ≤ points.length)
    (hfresh : EachBackwards (fun past n => n < trailingForwards past) past) :
    ∃ sent chain, emulate P blocks past = .ok (⟨blocks, countForwards past⟩, sent) ∧
      sent.foldlM replay [] = some (chain.map (points[·]?)) ∧ ScriptedChain past chain := by
  induction past using List.reverseRecOn with
  | nil =>
    refine ⟨[], [], rfl, rfl, List.Pairwise.nil, ?_, ?_, ?_⟩ <;> simp [trailingForwards]
  | append_singleton past op ih =>
    have hpast : ∀ n, .backwards n ∈ past → 0 < n := fun n hn =>
      hpos n (List.mem_append_left _ hn)
    cases op with
    | forwards =>
      rw [countForwards_concat] at henough ⊢
      obtain ⟨sent, chain, hsent, hreplay, hchain⟩ := ih hpast (Nat.le_of_succ_le henough)
        (eachBackwards_concat_forwards.mp hfresh)
      obtain ⟨bytes, hop⟩ := hpoints.execute_forwards henough
      refine ⟨_, _, emulate_concat hsent hop, ?_, hchain.forwards⟩
      rw [List.foldlM_append, hreplay]
      rfl
    | backwards n =>
      obtain ⟨hfresh, hn⟩ := eachBackwards_concat_backwards.mp hfresh
      rw [countForwards_concat] at henough ⊢
      obtain ⟨sent, chain, hsent, hreplay, hchain⟩ := ih hpast henough hfresh
      have hlt := hn.trans_le (trailingForwards_le_count past)
      refine ⟨_, _, emulate_concat hsent (hpoints.execute_backwards hlt henough), ?_,
        hchain.backwards (hpos n (by simp)) hn⟩
      rw [List.foldlM_append, hreplay, List.map_drop]
      have htarget := (hchain.target_iff hnodup henough hlt).mpr hn
      simpa using replay_rollBack (hchain.nodup_points hnodup henough) htarget

theorem targets_iff (hpoints : HavePoints P blocks points) (hnodup : points.Nodup)
    (hpos : ∀ n, .backwards n ∈ past → 0 < n) (henough : countForwards past ≤ points.length)
    (hfresh : EachBackwards (fun past n => n < trailingForwards past) past)
    (hn : n < countForwards past) :
    TargetsBelowTip P blocks past n ↔ n < trailingForwards past := by
  obtain ⟨sent, chain, hsent, hreplay, hchain⟩ :=
    exists_scriptedChain hpoints hnodup hpos henough hfresh
  have hop := hpoints.execute_backwards hn henough
  rw [← hchain.target_iff hnodup henough hn]
  constructor
  · rintro ⟨self, sent', chain', point, hsent', hreplay', hop', htarget⟩
    cases hsent.symm.trans hsent'
    cases hreplay.symm.trans hreplay'
    cases hop.symm.trans hop'
    exact htarget
  · intro htarget
    exact ⟨_, sent, _, _, hsent, hreplay, hop, htarget⟩

end Script

/-- **The emulator scripts valid forks exactly if no rollback follows another too closely.** -/
theorem rollbacks_target_chain_iff {P : Pallas} {blocks : List BlockBody} {points : List BlockRef}
    (hpoints : HavePoints P blocks points) (hnodup : points.Nodup) {text : List Char}
    {ops : List Instruction} (hparse : parseInstructions text = .ok ops)
    (hshallow : EachBackwards (fun past n => n < appliedBlocks past) ops)
    (henough : countForwards ops ≤ points.length) :
    EachBackwards (TargetsBelowTip P blocks) ops ↔
      EachBackwards (fun past n => n < trailingForwards past) ops := by
  have hpos : ∀ n, .backwards n ∈ ops → 0 < n := fun n hn => pos_of_parseInstructions hparse hn
  clear hparse
  induction ops using List.reverseRecOn with
  | nil => simp [EachBackwards]
  | append_singleton past op ih =>
    have hpast : ∀ n, .backwards n ∈ past → 0 < n := fun n hn =>
      hpos n (List.mem_append_left _ hn)
    cases op with
    | forwards =>
      rw [countForwards_concat] at henough
      rw [eachBackwards_concat_forwards] at hshallow
      rw [eachBackwards_concat_forwards, eachBackwards_concat_forwards]
      exact ih hshallow (Nat.le_of_succ_le henough) hpast
    | backwards n =>
      rw [countForwards_concat] at henough
      rw [eachBackwards_concat_backwards] at hshallow
      rw [eachBackwards_concat_backwards, eachBackwards_concat_backwards]
      refine (and_congr_left' (ih hshallow.1 henough hpast)).trans (and_congr_right fun hfresh => ?_)
      exact targets_iff hpoints hnodup hpast henough hfresh
        (hshallow.2.trans_le (appliedBlocks_le_count past))

def cannedBlocks : List Compressor.StoredBlock :=
  [10, 20, 30, 40].map fun slot => Compressor.sampleBlock slot (Fin.ofNat 256 slot) none []

def cannedBytes : List BlockBody := cannedBlocks.map Compressor.StoredBlock.bytes

def cannedPoints : List BlockRef := cannedBlocks.map fun block => ⟨block.slot, block.hash⟩

theorem havePoints_canned :
    HavePoints (Compressor.samplePallas cannedBlocks) cannedBytes cannedPoints := by
  intro i point hpoint
  rw [cannedPoints, List.getElem?_map, Option.map_eq_some_iff] at hpoint
  obtain ⟨block, hblock, rfl⟩ := hpoint
  refine ⟨block.bytes, block.toBlock, by rw [cannedBytes, List.getElem?_map, hblock]; rfl, ?_, rfl⟩
  have hdecode : ∀ block ∈ cannedBlocks,
      (Compressor.samplePallas cannedBlocks).decode block.bytes = .ok block.toBlock := by
    decide +kernel
  exact hdecode block (List.mem_of_getElem? hblock)

def forkOps : List Instruction := List.replicate 3 .forwards ++ [.backwards 2] ++ [.forwards]

theorem eachBackwards_forkOps (h : Q (List.replicate 3 .forwards) 2) : EachBackwards Q forkOps := by
  rw [forkOps, eachBackwards_concat_forwards, eachBackwards_concat_backwards]
  refine ⟨fun past n hpast => ?_, h⟩
  have hmem := hpast.subset (List.mem_append_right past (List.mem_singleton_self _))
  simp at hmem

theorem rollbacks_target_chain_once :
    parseInstructions "FFFB2F".toList = .ok forkOps ∧
      EachBackwards (TargetsBelowTip (Compressor.samplePallas cannedBlocks) cannedBytes) forkOps :=
  ⟨by decide +kernel, (rollbacks_target_chain_iff havePoints_canned (by decide +kernel)
    (by decide +kernel : parseInstructions "FFFB2F".toList = .ok forkOps)
    (eachBackwards_forkOps (by decide)) (by decide +kernel)).mpr (eachBackwards_forkOps (by decide))⟩

/-- `B1` names a block that was rolled back before. -/
theorem rollback_to_abandoned_block :
    ∃ state chain point,
      parseInstructions "FFFB2FB1".toList = .ok (forkOps ++ [.backwards 1]) ∧
      EachBackwards (fun past n => n < appliedBlocks past) (forkOps ++ [.backwards 1]) ∧
      HavePoints (Compressor.samplePallas cannedBlocks) cannedBytes cannedPoints ∧
      cannedPoints.Nodup ∧ countForwards (forkOps ++ [.backwards 1]) ≤ cannedPoints.length ∧
      emulate (Compressor.samplePallas cannedBlocks) cannedBytes forkOps = .ok state ∧
      state.2.foldlM replay [] = some chain ∧
      state.1.execute (Compressor.samplePallas cannedBlocks) (.backwards 1) =
        .ok (state.1, .rollBack point) ∧ point ∉ chain :=
  ⟨_, _, some ⟨30, Compressor.sampleHash 30⟩, by decide +kernel,
    eachBackwards_concat_backwards.mpr ⟨eachBackwards_forkOps (by decide), by decide +kernel⟩,
    havePoints_canned, by decide +kernel, by decide +kernel, Except.eq_ok_get (by decide +kernel),
    (Option.some_get (by decide +kernel)).symm, by decide +kernel, by decide +kernel⟩

end CardanoIndexer.Polyphony
