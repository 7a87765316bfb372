import CardanoIndexer.Compressor.Adopted
import CardanoIndexer.Compressor.Grpc

/-!
# The log, replayed and searched

`log_of_step`: the entries of a command lead a client from the chain before it to the chain after.
-/

namespace CardanoIndexer.Compressor

open Journal

variable {P : Pallas} {genesis : List GenesisUtxo} {self' self : ChainDB} {beforeSlot seq : ℕ}

/-! ## Recording -/

theorem record_true (wal : SortedMap ℕ Log × ℕ) (log : Log) :
    record true wal log = (wal.1.put wal.2 log, wal.2 + 1) := rfl

section

variable {base next : ℕ} {written : List Log} {log : SortedMap ℕ Log}

theorem records_foldl (h : Records base written log next) (logs : List Log) :
    Records base (written ++ logs) (logs.foldl (record true) (log, next)).1
      (logs.foldl (record true) (log, next)).2 := by
  induction logs generalizing written log next with
  | nil => simpa using h
  | cons entry rest ih =>
    rw [List.foldl_cons, record_true, ← List.singleton_append, ← List.append_assoc]
    exact ih (h.put entry)

theorem entries_foldl (h : Records base written log next) (logs : List Log) :
    (logs.foldl (record true) (log, next)).1.entries = log.entries ++ numbered next logs := by
  induction logs generalizing written log next with
  | nil => simp
  | cons entry rest ih =>
    rw [List.foldl_cons, record_true, ih (h.put entry), h.entries_put, numbered_cons,
      List.append_assoc, List.singleton_append]

end

def ChainDB.pruneSlot (self : ChainDB) (slot : ℕ) : ℕ :=
  match self.immutableAfterSlots with
  | some pruneAfter => slot - pruneAfter
  | none => 0

theorem ChainDB.pruneSlot_le (self : ChainDB) (slot : ℕ) : self.pruneSlot slot ≤ slot := by
  unfold ChainDB.pruneSlot
  split <;> omega

theorem prune_zero (log : SortedMap ℕ Log) : prune log 0 = log := by
  obtain ⟨entries, hsorted⟩ := log
  rw [prune, SortedMap.dropFront, SortedMap.mk.injEq]
  cases entries with
  | nil => rfl
  | cons entry rest => exact List.dropWhile_cons_of_neg (by simp)

theorem ChainDB.pruneBehind_eq (self : ChainDB) (slot : ℕ) (log : SortedMap ℕ Log) :
    self.pruneBehind slot log = prune log (self.pruneSlot slot) := by
  unfold ChainDB.pruneBehind ChainDB.pruneSlot
  cases self.immutableAfterSlots with
  | none => exact (prune_zero log).symm
  | some pruneAfter =>
    simp only
    split
    case isTrue => rfl
    case isFalse hlt => rw [Nat.sub_eq_zero_of_le (by omega), prune_zero]

theorem log_of_apply {bytes : BlockBody}
    (hstage : ChainDB.stageApply P self bytes true = .ok self') :
    ∃ block resolver, P.decode bytes = .ok block ∧
      (∀ last, self.lastBlockHash = some last → block.previousHash = some last) ∧
      self'.nextWalSeq = self.nextWalSeq + 1 ∧
      self'.db.mutableKV = prune (self.db.mutableKV.put self.nextWalSeq
        (.apply block.slot block.hash bytes resolver)) (self.pruneSlot block.slot) := by
  obtain ⟨block, resolver, hdecode, hprevious, -, rfl⟩ := ChainDB.stageApply_eq_ok.mp hstage
  refine ⟨block, resolver.mapVal Prod.fst, hdecode, hprevious, rfl, ?_⟩
  rw [← ChainDB.pruneBehind_eq]
  rfl

theorem log_of_rollback {slot : ℕ} {hash : BlockHash}
    (hstage : ChainDB.stageRollback P self slot hash true = .ok self') :
    ∃ height bytes toRemove,
      self.db.blockBySlotKV.entriesFrom slot = (slot, height, hash, bytes) :: toRemove ∧
      (self'.db.mutableKV, self'.nextWalSeq) =
        (toRemove.reverse.map ChainDB.undoLog ++ [Log.mark slot hash bytes]).foldl (record true)
          (self.db.mutableKV, self.nextWalSeq) := by
  obtain ⟨height, bytes, toRemove, state, hfrom, hrun, rfl⟩ :=
    ChainDB.stageRollback_eq_ok.mp hstage
  refine ⟨height, bytes, toRemove, hfrom, ?_⟩
  rw [List.foldl_append, ← (ChainDB.undone_of_run hrun).wal]
  rfl

theorem log_of_rollbackToOrigin (hstage : ChainDB.stageRollbackToOrigin P self true = .ok self') :
    (self'.db.mutableKV, self'.nextWalSeq) =
      (self.db.blockBySlotKV.entries.reverse.map ChainDB.undoLog ++ [Log.origin]).foldl
        (record true) (self.db.mutableKV, self.nextWalSeq) := by
  obtain ⟨state, hrun, rfl⟩ := ChainDB.stageRollbackToOrigin_eq_ok.mp hstage
  rw [List.foldl_append, ← (ChainDB.undone_of_run hrun).wal]
  rfl

variable {log : SortedMap ℕ Log}

theorem entries_prune_put {base next : ℕ} {written : List Log} {entry : Log}
    (hrecords : Records base written log next) (hslot : beforeSlot ≤ entry.slot.getD 0) :
    (prune (log.put next entry) beforeSlot).entries =
      (prune log beforeSlot).entries ++ [(next, entry)] := by
  change (log.put next entry).entries.dropWhile _ = log.entries.dropWhile _ ++ _
  rw [hrecords.entries_put, List.dropWhile_append]
  split
  case isTrue hnil =>
    rw [List.isEmpty_iff.mp hnil, List.nil_append,
      List.dropWhile_cons_of_neg (by simpa using hslot)]
  case isFalse => rfl

/-- What a client does to its chain, newest block first, on an action of the stream;
`none` if the action does not fit the chain. -/
def clientConsume (P : Pallas) (chain : List StoredBlock) : Action → Option (List StoredBlock)
  | .apply block =>
    match P.decode block.raw, chain with
    | .ok decoded, tip :: _ =>
      if decoded.previousHash = some tip.hash then some (⟨decoded, block.raw⟩ :: chain)
      else none
    | _, _ => none
  | .undo _ => some chain
  | .reset ref =>
    if chain.any fun block => block.isAt ref.slot ref.hash then
      some (cutBack chain ref.slot ref.hash)
    else none
  | .origin => some chain

def clientReplay (P : Pallas) (chain : List StoredBlock) (actions : List Action) :
    Option (List StoredBlock) :=
  actions.foldlM (clientConsume P) chain

theorem clientReplay_append (chain : List StoredBlock) (first second : List Action) :
    clientReplay P chain (first ++ second) =
      (clientReplay P chain first).bind fun mid => clientReplay P mid second :=
  List.foldlM_append ..

theorem clientReplay_undo (chain : List StoredBlock) (entries : List (ℕ × BlockValue)) :
    clientReplay P chain ((entries.map ChainDB.undoLog).map logToResponseWithCtx) =
      some chain := by
  induction entries with
  | nil => rfl
  | cons entry rest ih => exact ih

/-! ## What a command logs -/

def Command.isLogged : Command → Bool
  | .start => false
  | .apply _ isMutable => isMutable
  | .rollback _ _ isMutable => isMutable
  | .rollbackToOrigin isMutable => isMutable

def Command.isMutableUpdate : Command → Bool
  | .apply _ isMutable => isMutable
  | .rollback _ _ isMutable => isMutable
  | _ => false

theorem Command.isLogged_of_isMutableUpdate {command : Command}
    (h : command.isMutableUpdate = true) : command.isLogged = true := by
  cases command with
  | apply bytes isMutable => exact h
  | rollback slot hash isMutable => exact h
  | start => cases h
  | rollbackToOrigin isMutable => cases h

inductive Logged (P : Pallas) (self : ChainDB) : Command → List Log → Prop where
  | apply {bytes : BlockBody} {block : Block} {resolver : SortedMap TxoRef TxoBody}
      (hdecode : P.decode bytes = .ok block)
      (hprevious : ∀ last, self.lastBlockHash = some last → block.previousHash = some last) :
      Logged P self (.apply bytes true) [.apply block.slot block.hash bytes resolver]
  | rollback {slot height : ℕ} {hash : BlockHash} {bytes : BlockBody}
      {toRemove : List (ℕ × BlockValue)}
      (hfrom : self.db.blockBySlotKV.entriesFrom slot = (slot, height, hash, bytes) :: toRemove) :
      Logged P self (.rollback slot hash true)
        (toRemove.reverse.map ChainDB.undoLog ++ [.mark slot hash bytes])
  | rollbackToOrigin :
      Logged P self (.rollbackToOrigin true)
        (self.db.blockBySlotKV.entries.reverse.map ChainDB.undoLog ++ [.origin])

theorem log_of_step {command : Command} (hlogged : command.isLogged = true)
    (hstep : self.step P genesis command = .ok self') {base : ℕ} {written : List Log}
    (hrecords : Records base written self.db.mutableKV self.nextWalSeq) :
    ∃ logs beforeSlot, Logged P self command logs ∧
      self'.db.mutableKV.entries =
        (prune self.db.mutableKV beforeSlot).entries ++ numbered self.nextWalSeq logs ∧
      self'.nextWalSeq = self.nextWalSeq + logs.length := by
  have hfold : ∀ logs : List Log, (self'.db.mutableKV, self'.nextWalSeq) =
      logs.foldl (record true) (self.db.mutableKV, self.nextWalSeq) →
      self'.db.mutableKV.entries =
        (prune self.db.mutableKV 0).entries ++ numbered self.nextWalSeq logs ∧
      self'.nextWalSeq = self.nextWalSeq + logs.length := by
    intro logs hwal
    have hnext := (records_foldl hrecords logs).next_eq
    rw [← hwal, List.length_append, ← Nat.add_assoc, ← hrecords.next_eq] at hnext
    exact ⟨by rw [prune_zero, ← entries_foldl hrecords, ← hwal], hnext⟩
  cases command with
  | apply bytes isMutable =>
    cases hlogged
    obtain ⟨block, resolver, hdecode, hprevious, hnext, hlog⟩ := log_of_apply hstep
    refine ⟨_, self.pruneSlot block.slot,
      @Logged.apply P _ bytes block resolver hdecode hprevious, ?_, hnext⟩
    have hspared : self.pruneSlot block.slot ≤
        (Log.apply block.slot block.hash bytes resolver).slot.getD 0 := ChainDB.pruneSlot_le ..
    rw [hlog, entries_prune_put hrecords hspared]
    rfl
  | rollback slot hash isMutable =>
    cases hlogged
    obtain ⟨height, bytes, toRemove, hfrom, hwal⟩ := log_of_rollback hstep
    exact ⟨_, 0, .rollback hfrom, hfold _ hwal⟩
  | rollbackToOrigin isMutable =>
    cases hlogged
    exact ⟨_, 0, .rollbackToOrigin, hfold _ (log_of_rollbackToOrigin hstep)⟩
  | start => cases hlogged

theorem records_of_log {base : ℕ} {written logs : List Log}
    (hrecords : Records base written self.db.mutableKV self.nextWalSeq)
    (hentries : self'.db.mutableKV.entries =
      (prune self.db.mutableKV beforeSlot).entries ++ numbered self.nextWalSeq logs)
    (hnext : self'.nextWalSeq = self.nextWalSeq + logs.length) :
    Records base (written ++ logs) self'.db.mutableKV self'.nextWalSeq := by
  refine ⟨by rw [hnext, hrecords.next_eq, List.length_append, Nat.add_assoc], ?_⟩
  obtain ⟨pruned, hpruned⟩ := (hrecords.dropFront fun entry =>
    decide (entry.2.slot.getD 0 < beforeSlot)).suffix
  rw [hentries, numbered_append, ← hpruned, ← hrecords.next_eq, List.append_assoc]
  exact List.suffix_append ..

theorem records_step {command : Command} (hlogged : command.isLogged = true)
    (hstep : self.step P genesis command = .ok self') {base : ℕ} {written : List Log}
    (hrecords : Records base written self.db.mutableKV self.nextWalSeq) :
    ∃ logs, Logged P self command logs ∧
      Records base (written ++ logs) self'.db.mutableKV self'.nextWalSeq := by
  obtain ⟨logs, beforeSlot, hlogs, hentries, hnext⟩ := log_of_step hlogged hstep hrecords
  exact ⟨logs, hlogs, records_of_log hrecords hentries hnext⟩

theorem names_undoLog (entries : List (ℕ × BlockValue)) :
    ∀ log ∈ entries.map ChainDB.undoLog, ∀ slot hash, log.names slot hash = false := by
  intro log hlog slot hash
  obtain ⟨entry, -, rfl⟩ := List.mem_map.mp hlog
  rfl

section

variable {server : Server} {command : Command} {logs : List Log}

theorem Logged.names_tip (h : Logged P server.chainDB command logs)
    (hmutable : command.isMutableUpdate = true) (hholds : HoldsChain P server) :
    ∃ undone last tip rest, logs = undone ++ [last] ∧
      (∀ log ∈ undone, ∀ slot hash, log.names slot hash = false) ∧
      adopt P server.adopted command = tip :: rest ∧
      ∀ slot hash, last.names slot hash = tip.isAt slot hash := by
  cases h with
  | @apply bytes block resolver hdecode hprevious =>
    refine ⟨[], _, ⟨block, bytes⟩, server.adopted, rfl, by simp, by simp [adopt, hdecode],
      fun slot hash => ?_⟩
    simp [Log.names, Log.isApply, Log.slot, Log.hash, StoredBlock.isAt]
  | rollback hfrom =>
    obtain ⟨newer, block, older, -, hentry, -, hcut⟩ := hholds.exists_split hfrom
    refine ⟨_, _, block, older, rfl, names_undoLog _, hcut, fun slot' hash' => ?_⟩
    have hslot := congrArg Prod.fst hentry
    have hhash := congrArg (fun entry => entry.2.2.1) hentry
    simp only [StoredBlock.entry, StoredBlock.value] at hslot hhash
    simp [Log.names, Log.isApply, Log.isMark, Log.slot, Log.hash, StoredBlock.isAt, hslot, hhash]
  | rollbackToOrigin => cases hmutable

theorem Logged.replay (h : Logged P server.chainDB command logs)
    (hmutable : command.isMutableUpdate = true) (hholds : HoldsChain P server) (hne : server.adopted ≠ []) :
    clientReplay P server.adopted (logs.map logToResponseWithCtx) =
      some (adopt P server.adopted command) := by
  cases h with
  | apply hdecode hprevious =>
    obtain ⟨tip, rest, hchain⟩ := List.exists_cons_of_ne_nil hne
    have hlink := hprevious tip.hash (by rw [hholds.last, hchain]; rfl)
    simp [clientReplay, clientConsume, logToResponseWithCtx, adopt, hdecode, hchain, hlink]
  | @rollback slot height hash bytes toRemove hfrom =>
    obtain ⟨newer, block, older, hsplit, hentry, -, -⟩ := hholds.exists_split hfrom
    have hany : (server.adopted.any fun b => b.isAt slot hash) = true := by
      have hslot := congrArg Prod.fst hentry
      have hhash := congrArg (fun entry => entry.2.2.1) hentry
      simp only [StoredBlock.entry, StoredBlock.value] at hslot hhash
      exact List.any_eq_true.mpr
        ⟨block, by rw [hsplit]; simp, by simp [StoredBlock.isAt, hslot, hhash]⟩
    rw [List.map_append, clientReplay_append, clientReplay_undo, Option.bind_some]
    simp [clientReplay, clientConsume, logToResponseWithCtx, hany, adopt]
  | rollbackToOrigin => cases hmutable

end

/-! ## Searching the log -/

theorem scanUntilOr_eq {K V : Type} {predicate bailPredicate : V → Bool}
    (hbail : ∀ v, predicate v = true → bailPredicate v = true) (entries : List (K × V)) :
    scanUntilOr predicate bailPredicate entries =
      ((entries.find? fun entry => bailPredicate entry.2).filter
        fun entry => predicate entry.2).map Prod.fst := by
  induction entries with
  | nil => rfl
  | cons entry rest ih =>
    obtain ⟨k, v⟩ := entry
    rw [scanUntilOr, List.find?_cons]
    by_cases hpredicate : predicate v = true
    · simp [hpredicate, hbail v hpredicate]
    · cases hstop : bailPredicate v with
      | true => simp [hpredicate]
      | false => simp [hpredicate, ih]

theorem Log.slot_of_names {log : Log} {slot : ℕ} {hash : BlockHash}
    (h : log.names slot hash = true) : log.slot = some slot := by
  simp only [Log.names, Bool.and_eq_true, decide_eq_true_eq] at h
  exact h.1.2

def firstAt (entries : List (ℕ × Log)) (slot : ℕ) : Option (ℕ × Log) :=
  entries.find? fun entry => slot ≤ entry.2.slot.getD 0

theorem findWalSeq_eq (log : SortedMap ℕ Log) (slot : ℕ) (hash : BlockHash) :
    findWalSeq log slot hash =
      ((firstAt log.entries slot).filter fun entry => entry.2.names slot hash).map Prod.fst := by
  refine scanUntilOr_eq (fun log hnames => ?_) log.entries
  simp [Log.slot_of_names hnames]

theorem mem_of_findWalSeq {slot : ℕ} {hash : BlockHash} (h : findWalSeq log slot hash = some seq) :
    ∃ entry, (seq, entry) ∈ log.entries ∧ entry.names slot hash = true := by
  rw [findWalSeq_eq, Option.map_eq_some_iff] at h
  obtain ⟨⟨found, entry⟩, hfound, rfl⟩ := h
  obtain ⟨hfirst, hnames⟩ := Option.filter_eq_some_iff.mp hfound
  exact ⟨entry, List.mem_of_find?_eq_some hfirst, hnames⟩

/-! ## Replaying the log -/

section

variable {server server' : Server} {commands : List Command} {base : ℕ} {written : List Log}

theorem records_run (hholds : HoldsChain P server)
    (hmutable : ∀ command ∈ commands, command.isMutableUpdate = true)
    (hordered : Run.meets (Server.step P genesis) (Server.inSlotOrder P) server commands = true)
    (hrun : Run.run (Server.step P genesis) server commands = .ok server')
    (hrecords : Records base written server.chainDB.db.mutableKV server.chainDB.nextWalSeq) :
    HoldsChain P server' ∧ ∃ logs,
      Records base (written ++ logs) server'.chainDB.db.mutableKV server'.chainDB.nextWalSeq ∧
      (server.adopted ≠ [] →
        clientReplay P server.adopted (logs.map logToResponseWithCtx) = some server'.adopted) := by
  induction commands generalizing server written with
  | nil =>
    cases hrun
    exact ⟨hholds, [], by simpa using hrecords, fun _ => rfl⟩
  | cons command rest ih =>
    obtain ⟨mid, hstep, hrest⟩ := Except.bind_eq_ok.mp (by simpa using hrun)
    simp only [Run.meets, hstep, Bool.and_eq_true] at hordered
    obtain ⟨chainDB, hchainDB, rfl⟩ := Server.step_eq_ok.mp hstep
    have hupdate := hmutable command (List.mem_cons_self ..)
    obtain ⟨logs, hlogged, hlogs⟩ :=
      records_step (Command.isLogged_of_isMutableUpdate hupdate) hchainDB hrecords
    obtain ⟨_, _, tip, older, -, -, htip, -⟩ := hlogged.names_tip hupdate hholds
    obtain ⟨hholds', more, hmore, hreplay⟩ := ih (hholds.step hordered.1 hstep)
      (fun c hc => hmutable c (List.mem_cons_of_mem _ hc)) hordered.2 hrest hlogs
    refine ⟨hholds', logs ++ more, by rwa [← List.append_assoc], fun hne => ?_⟩
    rw [List.map_append, clientReplay_append, hlogged.replay hupdate hholds hne,
      Option.bind_some]
    exact hreplay (by simp [htip])

end

def WrittenAt (P : Pallas) (genesis : List GenesisUtxo) (opened : Server)
    (commands : List Command) (seq : ℕ) (server : Server) : Prop :=
  ∃ before command after mid, commands = before ++ command :: after ∧
    Run.run (Server.step P genesis) opened before = .ok mid ∧
    mid.step P genesis command = .ok server ∧
    mid.chainDB.nextWalSeq ≤ seq ∧ seq < server.chainDB.nextWalSeq

theorem exists_writtenAt {opened server : Server} {commands : List Command}
    (hrun : Run.run (Server.step P genesis) opened commands = .ok server)
    (hle : opened.chainDB.nextWalSeq ≤ seq) (hlt : seq < server.chainDB.nextWalSeq) :
    ∃ state, WrittenAt P genesis opened commands seq state := by
  induction commands generalizing opened with
  | nil =>
    cases hrun
    exact absurd hlt (not_lt.mpr hle)
  | cons command rest ih =>
    obtain ⟨mid, hstep, hrest⟩ := Except.bind_eq_ok.mp (by simpa using hrun)
    by_cases hmid : seq < mid.chainDB.nextWalSeq
    · exact ⟨mid, [], command, rest, opened, rfl, rfl, hstep, hle, hmid⟩
    · obtain ⟨state, before, found, after, last, hsplit, hbefore, hfound, hrange⟩ :=
        ih hrest (not_lt.mp hmid)
      refine ⟨state, command :: before, found, after, last, by rw [hsplit]; rfl, ?_, hfound,
        hrange⟩
      simp [hstep, hbefore]

def actionsAfter (log : SortedMap ℕ Log) (seq : ℕ) : List Action :=
  ((log.entriesFrom seq).tail.map Prod.snd).map logToResponseWithCtx

theorem last_of_names {chain rest : List StoredBlock} {tip : StoredBlock} {written undone : List Log}
    {last entry : Log} {more : List Log} {n slot : ℕ} {hash : BlockHash}
    (hundone : ∀ log ∈ undone, ∀ slot hash, log.names slot hash = false)
    (htip : chain = tip :: rest) (hlast : ∀ slot hash, last.names slot hash = tip.isAt slot hash)
    (hget : (written ++ (undone ++ [last]) ++ more)[n]? = some entry)
    (hnames : entry.names slot hash = true) (hle : written.length ≤ n)
    (hlt : n < (written ++ (undone ++ [last])).length) :
    n + 1 = (written ++ (undone ++ [last])).length ∧ cutBack chain slot hash = chain := by
  rw [List.getElem?_append_left hlt, List.getElem?_append_right hle] at hget
  simp only [List.length_append, List.length_singleton] at hlt ⊢
  by_cases hfront : n - written.length < undone.length
  · -- an undo entry names nothing
    rw [List.getElem?_append_left hfront] at hget
    have hfalse := hundone entry (List.mem_of_getElem? hget) slot hash
    exact absurd hnames (by simp [hfalse])
  · have hn : n - written.length = undone.length := by omega
    rw [hn, List.getElem?_append_right (le_refl _), Nat.sub_self] at hget
    cases hget
    refine ⟨by omega, ?_⟩
    have hat : tip.isAt slot hash = true := by rw [← hlast, hnames]
    rw [htip, cutBack, List.dropWhile_cons_of_neg (by simp [hat])]

/-- A client that continues from an entry of the log ends up with the server's chain. -/
theorem replay_reaches_server {immutableAfterSlots : Option ℕ} {past commands : List Command}
    {opened server : Server} {slot seq : ℕ} {hash : BlockHash}
    (hpast : Run.run (Server.step P genesis) (.empty immutableAfterSlots) past = .ok opened)
    (hempty : opened.chainDB.db.mutableKV = ∅)
    (hmutable : ∀ command ∈ commands, command.isMutableUpdate = true)
    (hrun : Run.run (Server.step P genesis) opened commands = .ok server)
    (hordered : Run.meets (Server.step P genesis) (Server.inSlotOrder P)
      (.empty immutableAfterSlots) (past ++ commands) = true)
    (hfind : findWalSeq server.chainDB.db.mutableKV slot hash = some seq) :
    (∃ state, WrittenAt P genesis opened commands seq state) ∧
      ∀ state, WrittenAt P genesis opened commands seq state →
        clientReplay P (cutBack state.adopted slot hash)
          (actionsAfter server.chainDB.db.mutableKV seq) = some server.adopted := by
  rw [Run.meets_append hpast, Bool.and_eq_true] at hordered
  have hopened := holdsChain_run hordered.1 hpast
  have hstart : Records opened.chainDB.nextWalSeq [] opened.chainDB.db.mutableKV
      opened.chainDB.nextWalSeq := hempty ▸ Records.empty _
  obtain ⟨entry, hmem, hnames⟩ := mem_of_findWalSeq hfind
  constructor
  · obtain ⟨-, logs, hlogs, -⟩ := records_run hopened hmutable hordered.2 hrun hstart
    exact exists_writtenAt hrun (mem_numbered.mp (hlogs.suffix.subset hmem)).1
      (hlogs.lt_next hmem)
  · rintro state ⟨before, command, after, mid, rfl, hbefore, hstep, hle, hlt⟩
    have hafter : Run.run (Server.step P genesis) state after = .ok server := by
      simpa [Run.run_append, hbefore, hstep] using hrun
    rw [Run.meets_append hbefore, Bool.and_eq_true] at hordered
    obtain ⟨-, hbeforeOrdered, hrestOrdered⟩ := hordered
    simp only [Run.meets, hstep, Bool.and_eq_true] at hrestOrdered
    obtain ⟨hmid, written, hwritten, -⟩ := records_run hopened
      (fun c hc => hmutable c (List.mem_append_left _ hc)) hbeforeOrdered hbefore hstart
    obtain ⟨chainDB, hchainDB, rfl⟩ := Server.step_eq_ok.mp hstep
    change seq < chainDB.nextWalSeq at hlt
    have hupdate := hmutable command (by simp)
    obtain ⟨logs, hlogged, hlogs⟩ :=
      records_step (Command.isLogged_of_isMutableUpdate hupdate) hchainDB hwritten
    obtain ⟨undone, last, tip, rest, rfl, hundone, htip, hlast⟩ := hlogged.names_tip hupdate hmid
    obtain ⟨-, more, hmore, hreplay⟩ := records_run (hmid.step hrestOrdered.1 hstep)
      (fun c hc => hmutable c (by simp [hc])) hrestOrdered.2 hafter hlogs
    obtain ⟨hbase, hget⟩ := mem_numbered.mp (hmore.suffix.subset hmem)
    rw [List.nil_append] at hget hmore hwritten hlogs
    have hnext := hwritten.next_eq
    have hnext' := hlogs.next_eq
    -- the entry is the last one of its command, so what follows it is what is logged later
    obtain ⟨hlength, hcut⟩ := last_of_names hundone htip hlast hget hnames (by omega)
      (by omega)
    have hdrop : seq + 1 - opened.chainDB.nextWalSeq =
        (written ++ (undone ++ [last])).length := by omega
    have hactions : actionsAfter server.chainDB.db.mutableKV seq =
        more.map logToResponseWithCtx := by
      rw [actionsAfter, hmore.entriesFrom hmem, hdrop, List.drop_left, List.tail_cons,
        map_snd_numbered]
    rw [hcut, hactions]
    exact hreplay (by simp [htip])

def forkUpdates : List Command :=
  [.apply [1] true, .apply [2] true, .rollback 10 (sampleHash 1) true, .apply [3] true]

theorem replay_reaches_server_fork :
    ∃ opened server,
      Run.run (Server.step (samplePallas forkBlocks) []) (.empty none) [.start] = .ok opened ∧
      Run.run (Server.step (samplePallas forkBlocks) []) opened forkUpdates = .ok server ∧
      findWalSeq server.chainDB.db.mutableKV 20 (sampleHash 2) = some 2 ∧
      ∃ state, WrittenAt (samplePallas forkBlocks) [] opened forkUpdates 2 state ∧
        clientReplay (samplePallas forkBlocks) (cutBack state.adopted 20 (sampleHash 2))
          (actionsAfter server.chainDB.db.mutableKV 2) = some server.adopted := by
  have hpast : Run.run (Server.step (samplePallas forkBlocks) []) (.empty none) [.start] = .ok _ :=
    Except.eq_ok_get (by decide +kernel)
  obtain ⟨⟨state, hstate⟩, hreplay⟩ := replay_reaches_server hpast (by decide +kernel) (by decide)
    (Except.eq_ok_get (by decide +kernel) : Run.run _ _ forkUpdates = .ok _)
    (by decide +kernel)
    (by decide +kernel : findWalSeq _ 20 (sampleHash 2) = some 2)
  exact ⟨_, _, hpast, Except.eq_ok_get _, by decide +kernel, state, hstate, hreplay state hstate⟩

def steppingBackBlocks : List StoredBlock :=
  [sampleBlock 10 1 none [], sampleBlock 5 2 (some 1) []]

def steppingBackUpdates : List Command :=
  [.apply [1] true, .apply [2] true, .rollback 10 (sampleHash 1) true,
    .rollback 5 (sampleHash 2) true]

/-- The server can roll back to a block that the client has cut off. -/
theorem stepping_back_resets_outside_chain :
    ∃ opened state server,
      Run.run (Server.step (samplePallas steppingBackBlocks) []) (.empty none) [.start] =
        .ok opened ∧
      Run.run (Server.step (samplePallas steppingBackBlocks) []) opened steppingBackUpdates =
        .ok server ∧
      (∀ command ∈ steppingBackUpdates, command.isMutableUpdate = true) ∧
      findWalSeq server.chainDB.db.mutableKV 10 (sampleHash 1) = some 1 ∧
      WrittenAt (samplePallas steppingBackBlocks) [] opened steppingBackUpdates 1 state ∧
      clientReplay (samplePallas steppingBackBlocks) (cutBack state.adopted 10 (sampleHash 1))
        (actionsAfter server.chainDB.db.mutableKV 1) = none := by
  refine ⟨_, _, _, Except.eq_ok_get (by decide +kernel), Except.eq_ok_get (by decide +kernel),
    by decide, by decide +kernel, ⟨[], _, _, _, rfl, rfl, Except.eq_ok_get (by decide +kernel),
      by decide +kernel, by decide +kernel⟩, by decide +kernel⟩

end CardanoIndexer.Compressor
