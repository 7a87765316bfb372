import Mathlib.Data.List.TakeWhile
import CardanoIndexer.Compressor.Wal
import CardanoIndexer.Polyphony.CursorAgreement
import CardanoIndexer.Polyphony.Source

/-!
# A rollback to the origin on its way to the index

The compressor logs it, the sync service sends it, and the source worker drops it.
-/

namespace CardanoIndexer.Pipeline

open Compressor Journal Timbre
open Polyphony (BlockContext EnrichedBlockPayload StorageActionPayload ReducerOutput WorkError
  World Env Delivered StandsAt AgreeInv DeliveredBlock OneKindPerKey RespectsKinds kindIn
  deliveredActions actionsOf meaning executeOneByOne processAction reduceBlock storageOps
  agreeInv_run)

/-! ## From the log to the storage stage -/

def blockRefToPoint : Option BlockRef → Point
  | none => .origin
  | some ref => .specific (BitVec.ofNat 64 ref.slot) ref.hash

variable (P : Pallas) (genesis : List GenesisUtxo)
  (reduce : Block → BlockContext → List ReducerOutput) {sent : List StorageActionPayload}
  {written : List Log} {commands : List Command} {server' server : Server} {base : ℕ}

def reducePayload : EnrichedBlockPayload → Option StorageActionPayload
  | .rollForward point raw ctx isMutable =>
    match P.decode raw with
    | .ok block => some (reduceBlock (blockRefToPoint point) (BitVec.ofNat 64 block.number)
        (reduce block ctx) isMutable)
    | .error _ => none
  | .rollBack point => some (.rollBack (blockRefToPoint point))

def messages (log : Log) : Option (List StorageActionPayload) :=
  match processAction P true (logToResponseWithCtx log) with
  | .ok none => some []
  | .ok (some payload) => (reducePayload P reduce payload).map fun message => [message]
  | .error _ => none

def streamed : List Log → Option (List StorageActionPayload)
  | [] => some []
  | log :: rest => do
    let first ← messages P reduce log
    let others ← streamed rest
    return first ++ others

def writtenBy : Server → List Command → List Log
  | _, [] => []
  | server, command :: rest =>
    match server.step P genesis command with
    | .ok server' =>
      (server'.chainDB.db.mutableKV.entriesFrom server.chainDB.nextWalSeq).map Prod.snd ++
        writtenBy server' rest
    | .error _ => []

variable {P genesis reduce}

theorem streamed_append (first second : List Log) :
    streamed P reduce (first ++ second) =
      (streamed P reduce first).bind fun sent =>
        (streamed P reduce second).map fun more => sent ++ more := by
  induction first with
  | nil => simp [streamed]
  | cons log rest ih =>
    simp only [List.cons_append, streamed, ih]
    cases messages P reduce log with
    | none => rfl
    | some sent =>
      cases streamed P reduce rest with
      | none => rfl
      | some others =>
        cases streamed P reduce second with
        | none => rfl
        | some more => simp

theorem streamed_undone (entries : List (ℕ × BlockValue)) (last : Log) :
    streamed P reduce (entries.map ChainDB.undoLog ++ [last]) = messages P reduce last := by
  induction entries with
  | nil =>
    simp only [List.map_nil, List.nil_append, streamed]
    cases messages P reduce last <;> simp
  | cons entry rest ih =>
    simp only [List.map_cons, List.cons_append, streamed, ih]
    change (some [] : Option (List StorageActionPayload)).bind _ = _
    cases messages P reduce last <;> simp

theorem writtenBy_cons {command : Command} (hlogged : command.isLogged = true)
    (hstep : server.step P genesis command = .ok server')
    (hrecords : Records base written server.chainDB.db.mutableKV server.chainDB.nextWalSeq)
    (commands : List Command) :
    ∃ logs, Logged P server.chainDB command logs ∧
      Records base (written ++ logs) server'.chainDB.db.mutableKV server'.chainDB.nextWalSeq ∧
      writtenBy P genesis server (command :: commands) =
        logs ++ writtenBy P genesis server' commands := by
  obtain ⟨chainDB, hchainDB, rfl⟩ := Server.step_eq_ok.mp hstep
  obtain ⟨logs, beforeSlot, hlogs, hentries, hnext⟩ := log_of_step hlogged hchainDB hrecords
  refine ⟨logs, hlogs, records_of_log hrecords hentries hnext, ?_⟩
  have hpruned : (prune server.chainDB.db.mutableKV beforeSlot).entries.filter
      (fun entry => server.chainDB.nextWalSeq ≤ entry.1) = [] := by
    rw [List.filter_eq_nil_iff]
    intro entry hentry
    have hlt := hrecords.lt_next ((List.dropWhile_sublist _).subset hentry)
    simpa using hlt
  have hnumbered : (numbered server.chainDB.nextWalSeq logs).filter
      (fun entry => server.chainDB.nextWalSeq ≤ entry.1) =
        numbered server.chainDB.nextWalSeq logs := by
    rw [List.filter_eq_self]
    intro entry hentry
    simpa using (mem_numbered.mp hentry).1
  simp only [writtenBy, hstep, SortedMap.entriesFrom, hentries, List.filter_append, hpruned,
    hnumbered, List.nil_append, map_snd_numbered]

def deliversBlock : StorageActionPayload → Bool
  | .rollForward .. => true
  | .rollBack _ => false

theorem deliversBlock_of_logged {self : ChainDB} {command : Command} {logs : List Log}
    (h : Logged P self command logs) (hsent : streamed P reduce logs = some sent) :
    (sent.any deliversBlock = true ↔ ∃ bytes, command = .apply bytes true) ∧
      ∀ point outputs isMutable, .rollForward point outputs isMutable ∈ sent →
        isMutable = true := by
  cases h with
  | @apply bytes block resolver hdecode hprevious =>
    replace hsent := (streamed_undone [] _).symm.trans hsent
    unfold messages at hsent
    split at hsent
    case h_1 hprocess =>
      obtain ⟨ctx, -, hctx⟩ := Except.bind_eq_ok.mp hprocess
      cases hctx
    case h_2 payload hprocess =>
      obtain ⟨ctx, -, hctx⟩ := Except.bind_eq_ok.mp hprocess
      cases hctx
      simp only [reducePayload, hdecode, Option.map_some, Option.some.injEq] at hsent
      subst hsent
      refine ⟨⟨fun _ => ⟨bytes, rfl⟩, fun _ => rfl⟩, fun point outputs isMutable hmem => ?_⟩
      cases List.mem_singleton.mp hmem
      rfl
    case h_3 => cases hsent
  | rollback hfrom =>
    rw [streamed_undone] at hsent
    cases hsent
    simp [deliversBlock]
  | rollbackToOrigin =>
    rw [streamed_undone] at hsent
    cases hsent
    simp

theorem deliversBlock_of_run (hlogged : ∀ command ∈ commands, command.isLogged = true)
    (hrun : Run.run (Server.step P genesis) server commands = .ok server')
    (hrecords : Records base written server.chainDB.db.mutableKV server.chainDB.nextWalSeq)
    (hsent : streamed P reduce (writtenBy P genesis server commands) = some sent) :
    (sent.any deliversBlock = true ↔ ∃ bytes, .apply bytes true ∈ commands) ∧
      ∀ point outputs isMutable, .rollForward point outputs isMutable ∈ sent →
        isMutable = true := by
  induction commands generalizing server written sent with
  | nil =>
    cases hsent
    simp
  | cons command rest ih =>
    obtain ⟨mid, hstep, hrest⟩ := Except.bind_eq_ok.mp (by simpa using hrun)
    obtain ⟨logs, hlogs, hmid, hwritten⟩ :=
      writtenBy_cons (hlogged command (List.mem_cons_self ..)) hstep hrecords rest
    rw [hwritten, streamed_append, Option.bind_eq_some_iff] at hsent
    obtain ⟨first, hfirst, hmap⟩ := hsent
    obtain ⟨others, hothers, rfl⟩ := Option.map_eq_some_iff.mp hmap
    obtain ⟨hfirstBlock, hfirstMutable⟩ := deliversBlock_of_logged hlogs hfirst
    obtain ⟨hrestBlock, hrestMutable⟩ :=
      ih (fun c hc => hlogged c (List.mem_cons_of_mem _ hc)) hrest hmid hothers
    constructor
    · rw [List.any_append, Bool.or_eq_true, hfirstBlock, hrestBlock, ← exists_or]
      refine exists_congr fun bytes => ?_
      rw [List.mem_cons, eq_comm]
    · intro point outputs isMutable hmem
      rcases List.mem_append.mp hmem with hmem | hmem
      · exact hfirstMutable point outputs isMutable hmem
      · exact hrestMutable point outputs isMutable hmem

theorem exists_records (hlogged : ∀ command ∈ commands, command.isLogged = true)
    (hrun : Run.run (Server.step P genesis) server commands = .ok server')
    (hrecords : Records base written server.chainDB.db.mutableKV server.chainDB.nextWalSeq) :
    ∃ written', Records base written' server'.chainDB.db.mutableKV
      server'.chainDB.nextWalSeq := by
  induction commands generalizing server written with
  | nil =>
    cases hrun
    exact ⟨written, hrecords⟩
  | cons command rest ih =>
    obtain ⟨mid, hstep, hrest⟩ := Except.bind_eq_ok.mp (by simpa using hrun)
    obtain ⟨logs, -, hmid, -⟩ :=
      writtenBy_cons (hlogged command (List.mem_cons_self ..)) hstep hrecords rest
    exact ih (fun c hc => hlogged c (List.mem_cons_of_mem _ hc)) hrest hmid

/-! ## The delivered chain -/

section Delivered

variable {enc : KeyEncoder} {chain : Delivered} {input : Env × StorageActionPayload}
  {inputs : List (Env × StorageActionPayload)}

theorem mutableBlocks_advance_ne_nil (haccepts : chain.accepts enc input = true)
    (hne : chain.mutableBlocks ≠ [] ∨ ∃ point outputs, input.2 = .rollForward point outputs true) :
    (chain.advance enc input).mutableBlocks ≠ [] := by
  obtain ⟨env, payload⟩ := input
  cases payload with
  | rollForward point outputs isMutable =>
    cases isMutable with
    | true => simp [Delivered.advance]
    | false => simpa [Delivered.advance] using hne
  | rollBack point =>
    simp only [Delivered.accepts, Bool.and_eq_true, decide_eq_true_eq] at haccepts
    obtain ⟨block, hblock, hpoint⟩ := List.mem_map.mp haccepts.1.2
    intro hnil
    have hall := List.dropWhile_eq_nil_iff.mp hnil block hblock
    simp [hpoint] at hall

theorem mutableBlocks_foldl_ne_nil
    (haccepts : Delivered.acceptsAll enc chain inputs = true)
    (hne : chain.mutableBlocks ≠ [] ∨
      ∃ input ∈ inputs, ∃ point outputs, input.2 = .rollForward point outputs true) :
    (inputs.foldl (Delivered.advance enc) chain).mutableBlocks ≠ [] := by
  induction inputs generalizing chain with
  | nil => simpa using hne
  | cons input rest ih =>
    rw [Delivered.acceptsAll, Bool.and_eq_true] at haccepts
    rw [List.foldl_cons]
    refine ih haccepts.2 ?_
    rcases hne with hne | ⟨found, hfound, hblock⟩
    · exact Or.inl (mutableBlocks_advance_ne_nil haccepts.1 (Or.inl hne))
    · rcases List.mem_cons.mp hfound with rfl | hfound
      · exact Or.inl (mutableBlocks_advance_ne_nil haccepts.1 (Or.inr hblock))
      · exact Or.inr ⟨found, hfound, hblock⟩

theorem eq_nil_of_no_block (haccepts : Delivered.acceptsAll enc ⟨[], []⟩ inputs = true)
    (hnone : (inputs.map Prod.snd).any deliversBlock = false) : inputs = [] := by
  cases inputs with
  | nil => rfl
  | cons input rest =>
    obtain ⟨env, payload⟩ := input
    rw [Delivered.acceptsAll, Bool.and_eq_true] at haccepts
    cases payload with
    | rollForward point outputs isMutable => simp [deliversBlock] at hnone
    | rollBack point => simp [Delivered.accepts] at haccepts

theorem acceptsAll_of_append {more : List (Env × StorageActionPayload)}
    (h : Delivered.acceptsAll enc chain (inputs ++ more) = true) :
    Delivered.acceptsAll enc chain inputs = true := by
  induction inputs generalizing chain with
  | nil => rfl
  | cons input rest ih =>
    rw [List.cons_append, Delivered.acceptsAll, Bool.and_eq_true] at h
    rw [Delivered.acceptsAll, h.1, ih h.2]
    rfl

theorem safe_of_acceptsAll (h : Delivered.acceptsAll enc ⟨[], []⟩ inputs = true) :
    Polyphony.safeFrom false ∅ (actionsOf (Delivered.after enc inputs).blocks) = true := by
  induction inputs using List.reverseRecOn with
  | nil => rfl
  | append_singleton past input =>
    rw [Delivered.acceptsAll_concat, Bool.and_eq_true] at h
    rw [Delivered.after_concat]
    exact Delivered.safe_of_accepts h.2

theorem standsAt_of_agreeInv {kind : Polyphony.Key → Polyphony.Kind} {world : World}
    (h : AgreeInv kind enc chain world) (himmutable : chain.immutableBlocks = []) :
    StandsAt kind enc chain.blocks world.tikv.store := by
  obtain ⟨pending, committed, hblocks, hpending, -, -, hstands⟩ := h.split
  have hnil : pending = [] := by
    by_cases hmutable : chain.mutableBlocks = []
    · rw [Delivered.blocks, hmutable, himmutable, List.nil_append, eq_comm,
        List.append_eq_nil_iff] at hblocks
      exact hblocks.1
    · exact hpending hmutable
  rw [hblocks, hnil]
  exact hstands

theorem immutableBlocks_foldl
    (hmutable : ∀ point outputs isMutable,
      .rollForward point outputs isMutable ∈ inputs.map Prod.snd → isMutable = true) :
    (inputs.foldl (Delivered.advance enc) chain).immutableBlocks = chain.immutableBlocks := by
  induction inputs generalizing chain with
  | nil => rfl
  | cons input rest ih =>
    rw [List.foldl_cons, ih fun point outputs isMutable hmem =>
      hmutable point outputs isMutable (List.mem_cons_of_mem _ hmem)]
    obtain ⟨env, payload⟩ := input
    cases payload with
    | rollForward point outputs isMutable =>
      cases hmutable point outputs isMutable (List.mem_cons_self ..)
      rfl
    | rollBack point => rfl

end Delivered

theorem exists_action_of_standsAt {enc : KeyEncoder} {inputs : List (Env × StorageActionPayload)}
    {store : Polyphony.Store}
    (hstands : StandsAt (kindIn (deliveredActions enc inputs)) enc
      (Delivered.after enc inputs).blocks store)
    {k : Polyphony.Key} (hkey : enc.IndexKey k) (hpresent : store.get k ≠ none) :
    ∃ input ∈ inputs, ∃ action ∈ input.2.ops enc input.1.now, action.key = k := by
  by_contra hnone
  have hactions : ∀ action ∈ deliveredActions enc inputs, action.key ≠ k := by
    intro action haction heq
    obtain ⟨input, hinput, hmem⟩ := List.mem_flatMap.mp haction
    exact hnone ⟨input, hinput, action, hmem, heq⟩
  have hvalue : kindIn (deliveredActions enc inputs) k = .value := by
    by_contra hkind
    obtain ⟨action, haction, heq, -⟩ := Polyphony.exists_mem_of_kindIn_ne_value hkind
    exact hactions action haction heq
  have hops : Polyphony.opsAt k (actionsOf (Delivered.after enc inputs).blocks) = [] := by
    rw [Polyphony.opsAt, List.map_eq_nil_iff, List.filter_eq_nil_iff]
    intro action haction
    simpa using hactions action (Polyphony.mem_deliveredActions haction)
  have hreads := hstands.reads k hkey
  rw [hops, Polyphony.meaning, Polyphony.meaning, hvalue] at hreads
  exact hpresent (Polyphony.Cell.value.inj hreads)

/-- **A rollback to the origin takes nothing from the index**: all blocks it was sent have been
rolled back exactly if it was sent none. -/
theorem origin_reaches_index_iff {opened mid cleared server : Server} {before : List Command}
    {blocks : List BlockBody} {world₀ world : World}
    {old new : List (Env × StorageActionPayload)}
    (hempty : opened.chainDB.db.mutableKV = ∅)
    (hlogged : ∀ command ∈ before, command.isLogged = true)
    (hbefore : Run.run (Server.step P genesis) opened before = .ok mid)
    (horigin : mid.step P genesis (.rollbackToOrigin true) = .ok cleared)
    (hafter : Run.run (Server.step P genesis) cleared
      (blocks.map fun bytes => .apply bytes true) = .ok server)
    (hold : streamed P reduce (writtenBy P genesis opened (before ++ [.rollbackToOrigin true])) =
      some (old.map Prod.snd))
    (hnew : streamed P reduce (writtenBy P genesis cleared
      (blocks.map fun bytes => .apply bytes true)) = some (new.map Prod.snd))
    (hstore : world₀.tikv.store = ∅)
    (hbatch : world₀.worker.syncBatcher.lastPoint = none ∧
      world₀.worker.syncBatcher.isEmpty = true)
    (hbuffer : world₀.worker.rollbackBuffer.isEmpty = true)
    (haccepts : Delivered.acceptsAll world₀.worker.keyEncoder ⟨[], []⟩ (old ++ new) = true)
    (hone : OneKindPerKey (deliveredActions world₀.worker.keyEncoder (old ++ new)))
    (hrun : Run.run World.step world₀ (old ++ new) = .ok world) :
    ((Delivered.after world₀.worker.keyEncoder old).blocks = [] ↔
      ∀ bytes, .apply bytes true ∉ before) ∧
    ((∀ bytes, .apply bytes true ∉ before) →
      (∀ k, world₀.worker.keyEncoder.IndexKey k → world.tikv.store.get k ≠ none →
        ∃ input ∈ new, ∃ action ∈ input.2.ops world₀.worker.keyEncoder input.1.now,
          action.key = k) ∧
      ∃ reference,
        executeOneByOne false ∅
          (actionsOf (Delivered.after world₀.worker.keyEncoder new).blocks) = .ok reference ∧
        ∀ k, world₀.worker.keyEncoder.IndexKey k →
          meaning (kindIn (deliveredActions world₀.worker.keyEncoder new)) world.tikv.store k =
            meaning (kindIn (deliveredActions world₀.worker.keyEncoder new)) reference k) := by
  set enc := world₀.worker.keyEncoder with henc
  have hopened : Records opened.chainDB.nextWalSeq [] opened.chainDB.db.mutableKV
      opened.chainDB.nextWalSeq := hempty ▸ Records.empty _
  have hrunOrigin : Run.run (Server.step P genesis) opened (before ++ [.rollbackToOrigin true]) =
      .ok cleared := (Run.run_concat_eq_ok _).mpr ⟨mid, hbefore, horigin⟩
  have hloggedOrigin : ∀ command ∈ before ++ [.rollbackToOrigin true],
      command.isLogged = true := by
    intro command hcommand
    rcases List.mem_append.mp hcommand with hcommand | hcommand
    · exact hlogged command hcommand
    · rw [List.mem_singleton.mp hcommand]
      rfl
  obtain ⟨hblock, hmutable⟩ := deliversBlock_of_run hloggedOrigin hrunOrigin hopened hold
  have happlies : (∃ bytes, .apply bytes true ∈ before ++ [.rollbackToOrigin true]) ↔
      ∃ bytes, .apply bytes true ∈ before := by simp
  rw [happlies] at hblock
  have hacceptsOld := acceptsAll_of_append haccepts
  have hnothing : (∀ bytes, .apply bytes true ∉ before) → old = [] := by
    intro hnone
    refine eq_nil_of_no_block hacceptsOld (Bool.eq_false_iff.mpr fun hany => ?_)
    obtain ⟨bytes, hmem⟩ := hblock.mp hany
    exact hnone bytes hmem
  refine ⟨⟨fun hnil bytes hmem => ?_, fun hnone => by rw [hnothing hnone]; rfl⟩, fun hnone => ?_⟩
  · obtain ⟨message, hmessage, hdelivers⟩ := List.any_eq_true.mp (hblock.mpr ⟨bytes, hmem⟩)
    obtain ⟨input, hinput, rfl⟩ := List.mem_map.mp hmessage
    refine mutableBlocks_foldl_ne_nil hacceptsOld (Or.inr ⟨input, hinput, ?_⟩) ?_
    · cases hpayload : input.2 with
      | rollForward point outputs isMutable =>
        cases hmutable point outputs isMutable (hpayload ▸ hmessage)
        exact ⟨point, outputs, rfl⟩
      | rollBack point =>
        rw [hpayload] at hdelivers
        cases hdelivers
    · rw [Delivered.blocks, List.append_eq_nil_iff] at hnil
      exact hnil.1
  · obtain rfl := hnothing hnone
    rw [List.nil_append] at haccepts hone hrun
    have hkinds : RespectsKinds (kindIn (deliveredActions enc new)) (deliveredActions enc new) :=
      fun a ha => (Polyphony.kindIn_of_mem hone ha).symm
    have hcounters : ∀ k, kindIn (deliveredActions enc new) k ≠ .value → enc.IndexKey k := by
      intro k hk
      obtain ⟨a, ha, rfl, -⟩ := Polyphony.exists_mem_of_kindIn_ne_value hk
      exact Polyphony.indexKey_of_mem_deliveredActions ha
    obtain ⟨written, hrecords⟩ : ∃ written, Records opened.chainDB.nextWalSeq written
        cleared.chainDB.db.mutableKV cleared.chainDB.nextWalSeq :=
      exists_records hloggedOrigin hrunOrigin hopened
    have hloggedBlocks : ∀ command ∈ blocks.map fun bytes => Command.apply bytes true,
        command.isLogged = true := by
      intro command hcommand
      obtain ⟨bytes, -, rfl⟩ := List.mem_map.mp hcommand
      rfl
    have hmutableNew := (deliversBlock_of_run hloggedBlocks hafter hrecords hnew).2
    have hinv := agreeInv_run hcounters rfl hstore hbatch hbuffer haccepts hkinds hrun
    have hstands := standsAt_of_agreeInv hinv (immutableBlocks_foldl hmutableNew)
    refine ⟨fun k hkey hpresent => exists_action_of_standsAt hstands hkey hpresent, ?_⟩
    have hchain : RespectsKinds (kindIn (deliveredActions enc new))
        (actionsOf (Delivered.after enc new).blocks) :=
      fun a ha => hkinds a (Polyphony.mem_deliveredActions ha)
    obtain ⟨reference, hreference, -, -, hcells⟩ := Polyphony.exists_executeOneByOne false hchain
      (Polyphony.wellFormedStore_empty _) (safe_of_acceptsAll haccepts)
    exact ⟨reference, hreference, fun k hk => (hstands.reads k hk).trans (hcells k).2.symm⟩

def originBlocks : List StoredBlock :=
  [Compressor.sampleBlock 10 1 none [], Compressor.sampleBlock 10 2 none []]

def markReduce (block : Block) (_ : BlockContext) : List ReducerOutput :=
  [.data [⟨7, [Fin.ofNat 256 block.number], .set [1]⟩]]

def markMessage (tag : Byte) : StorageActionPayload :=
  reduceBlock (blockRefToPoint (some ⟨10, sampleHash tag⟩)) (BitVec.ofNat 64 tag.val)
    [.data [⟨7, [tag], .set [1]⟩]] true

def originServer : Server :=
  (Run.run (Server.step (samplePallas originBlocks) []) (.empty none) [.start]).toOption.get
    (by decide +kernel)

theorem origin_reaches_index_iff_first :
    ∃ opened cleared server world,
      Run.run (Server.step (samplePallas originBlocks) []) (.empty none) [.start] = .ok opened ∧
      opened.step (samplePallas originBlocks) [] (.rollbackToOrigin true) = .ok cleared ∧
      Run.run (Server.step (samplePallas originBlocks) []) cleared
        ([[2]].map fun bytes => .apply bytes true) = .ok server ∧
      Run.run World.step (Polyphony.sampleWorld none) [(.plain, markMessage 2)] = .ok world ∧
      world.tikv.store.get
        ((Polyphony.sampleWorld none).worker.keyEncoder.encodeDataKey 7 [2]) = some [1] ∧
      ∀ k, (Polyphony.sampleWorld none).worker.keyEncoder.IndexKey k →
        world.tikv.store.get k ≠ none →
        ∃ input ∈ [(Env.plain, markMessage 2)],
          ∃ action ∈ input.2.ops (Polyphony.sampleWorld none).worker.keyEncoder input.1.now,
            action.key = k := by
  have hcleared : originServer.step (samplePallas originBlocks) [] (.rollbackToOrigin true) =
      .ok _ := Except.eq_ok_get (by decide +kernel)
  exact ⟨_, _, _, _, Except.eq_ok_get (by decide +kernel), hcleared,
    Except.eq_ok_get (by decide +kernel), Except.eq_ok_get (by decide +kernel), by decide +kernel,
    ((origin_reaches_index_iff (by decide +kernel) (by simp) rfl hcleared
      (Except.eq_ok_get (by decide +kernel))
      (by decide +kernel : streamed (samplePallas originBlocks) markReduce (writtenBy
        (samplePallas originBlocks) [] _ ([] ++ [.rollbackToOrigin true])) =
          some (([] : List (Env × StorageActionPayload)).map Prod.snd))
      (by decide +kernel : streamed (samplePallas originBlocks) markReduce (writtenBy
        (samplePallas originBlocks) [] _ ([[2]].map fun bytes => .apply bytes true)) =
          some ([(Env.plain, markMessage 2)].map Prod.snd)) rfl ⟨rfl, rfl⟩
      rfl (by decide +kernel) (by decide +kernel) (Except.eq_ok_get (by decide +kernel))).2
      (by simp)).1⟩

/-- The key of a block stays although the compressor went back to the origin. -/
theorem origin_leaves_old_keys :
    ∃ opened mid cleared server world,
      Run.run (Server.step (samplePallas originBlocks) []) (.empty none) [.start] = .ok opened ∧
      Run.run (Server.step (samplePallas originBlocks) []) opened [.apply [1] true] = .ok mid ∧
      mid.step (samplePallas originBlocks) [] (.rollbackToOrigin true) = .ok cleared ∧
      Run.run (Server.step (samplePallas originBlocks) []) cleared [.apply [2] true] =
        .ok server ∧
      server.adopted.map StoredBlock.bytes = [[2]] ∧
      streamed (samplePallas originBlocks) markReduce (writtenBy (samplePallas originBlocks) []
        opened [.apply [1] true, .rollbackToOrigin true, .apply [2] true]) =
          some [markMessage 1, markMessage 2] ∧
      Run.run World.step (Polyphony.sampleWorld none)
        [(.plain, markMessage 1), (.plain, markMessage 2)] = .ok world ∧
      world.tikv.store.get
        ((Polyphony.sampleWorld none).worker.keyEncoder.encodeDataKey 7 [1]) = some [1] :=
  ⟨_, _, _, _, _, Except.eq_ok_get (by decide +kernel), Except.eq_ok_get (by decide +kernel),
    Except.eq_ok_get (by decide +kernel), Except.eq_ok_get (by decide +kernel),
    by decide +kernel, by decide +kernel, Except.eq_ok_get (by decide +kernel), by decide +kernel⟩

end CardanoIndexer.Pipeline
