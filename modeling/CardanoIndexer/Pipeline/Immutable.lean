import Mathlib.Data.List.ReduceOption
import CardanoIndexer.Compressor.Paging
import CardanoIndexer.Compressor.Wal
import CardanoIndexer.Polyphony.Source

/-!
# Blocks sent as immutable

A compressor and a source worker take steps in any order; `sent` is what the worker has put out.
-/

namespace CardanoIndexer.Pipeline

open Compressor
open Polyphony (EnrichedBlockPayload SourceWorker SourceWorkUnit Mode Persisted IntersectConfig
  BlockContext processAction immutableAfterSlots)

variable (P : Pallas) (genesis : List GenesisUtxo) {sent : List EnrichedBlockPayload}
  {worker' worker : SourceWorker} {payload : EnrichedBlockPayload} {isMutable : Bool}
  {persisted : Persisted} {db : Tables}

/-! ## The system -/

structure Relay where
  server : Server
  source : Option SourceWorker
  sent : List EnrichedBlockPayload

inductive RelayEvent where
  | compressor (command : Command)
  | bootstrap (persisted : Persisted)
  | trySwitch
  | nextUnit
  deriving DecidableEq

def survivesRestart (worker : SourceWorker) : Bool :=
  match worker.mode with
  | .streaming _ => false
  | _ => true

namespace Relay

def start (keepSlots maxItemsPerPage : Option ℕ) (intersect : IntersectConfig) : Relay :=
  ⟨.empty keepSlots, some (.new maxItemsPerPage intersect), []⟩

def step (relay : Relay) : RelayEvent → Except Unit Relay
  | .compressor command =>
    match relay.server.step P genesis command with
    | .ok server => .ok { relay with
        server
        source := if command = .start then relay.source.filter survivesRestart
          else relay.source }
    | .error _ => .error ()
  | .bootstrap persisted =>
    match relay.source with
    | some worker =>
      match worker.mode, worker.bootstrap relay.server.chainDB.db persisted with
      | .init, .ok (worker', sent) =>
        .ok { relay with source := some worker', sent := relay.sent ++ sent }
      | _, _ => .error ()
    | none => .error ()
  | .trySwitch =>
    match relay.source with
    | some worker =>
      match worker.trySwitch relay.server.chainDB.db.mutableKV with
      | .ok worker' => .ok { relay with source := some worker' }
      | .error _ => .error ()
    | none => .error ()
  | .nextUnit =>
    match relay.source with
    | some worker =>
      match worker.nextUnit relay.server.chainDB.db with
      | .ok (worker', none) => .ok { relay with source := some worker' }
      | .ok (worker', some unit) =>
        match unit.execute P with
        | .ok sent =>
          .ok { relay with source := some worker', sent := relay.sent ++ sent }
        | .error _ => .error ()
      | .error _ => .error ()
    | none => .error ()

end Relay

/-! ## The property -/

def pointSlot (point : Option BlockRef) : ℕ := (point.map BlockRef.slot).getD 0

def notBehind : EnrichedBlockPayload → EnrichedBlockPayload → Bool
  | .rollForward block _ _ false, .rollBack point => pointSlot block ≤ pointSlot point
  | _, _ => true

def KeepsImmutable (sent : List EnrichedBlockPayload) : Prop :=
  sent.Pairwise fun earlier later => notBehind earlier later = true

instance (sent : List EnrichedBlockPayload) : Decidable (KeepsImmutable sent) :=
  inferInstanceAs (Decidable (List.Pairwise _ sent))

def immutablePoint : EnrichedBlockPayload → Option (Option BlockRef)
  | .rollForward block _ _ false => some block
  | _ => none

/-! ## Assumption and condition -/

def tipSlot (server : Server) : ℕ := (server.adopted.head?.map fun block => block.slot).getD 0

def removedBlocks (chain : List StoredBlock) : Command → List StoredBlock
  | .rollback slot hash _ => chain.takeWhile fun block => !block.isAt slot hash
  | .rollbackToOrigin _ => chain
  | _ => []

/-- The compressor never rolls back a block that is `immutableAfterSlots` or more slots
behind its tip. -/
def Relay.rollsBackRecent (relay : Relay) : RelayEvent → Bool
  | .compressor command => (removedBlocks relay.server.adopted command).all fun block =>
    tipSlot relay.server < block.slot + immutableAfterSlots
  | _ => true

def isRollback : Command → Bool
  | .rollback .. | .rollbackToOrigin _ => true
  | _ => false

/-- Blocks come in slot order; on rollbacks, what was sent as immutable is old; and when the
worker switches to the stream, the log has no mark ahead with an earlier slot than that. -/
def Relay.sendsOld (relay : Relay) : RelayEvent → Bool
  | .compressor command =>
    relay.server.inSlotOrder P command &&
      (!isRollback command || (relay.sent.filterMap immutablePoint).all fun point =>
        pointSlot point + immutableAfterSlots ≤ tipSlot relay.server)
  | .trySwitch =>
    relay.source.all fun worker =>
      match (worker.trySwitch relay.server.chainDB.db.mutableKV).toOption.map
        SourceWorker.mode with
      | some (.streaming seq) =>
        relay.server.chainDB.db.mutableKV.entries.all fun entry =>
          !(seq < entry.1 && entry.2.isMark) ||
            (relay.sent.filterMap immutablePoint).all fun point =>
              pointSlot point ≤ entry.2.slot.getD 0
      | _ => true
  | _ => true

variable {P genesis} {event : RelayEvent}

theorem mem_foldl_record (logs : List Log) {wal : SortedMap ℕ Log × ℕ} {entry : ℕ × Log}
    (h : entry ∈ (logs.foldl (record isMutable) wal).1.entries) :
    entry ∈ wal.1.entries ∨ entry.2 ∈ logs := by
  induction logs generalizing wal with
  | nil => exact Or.inl h
  | cons log rest ih =>
    rcases ih h with hmem | hmem
    · rw [← SortedMap.get_eq_some_iff] at hmem
      cases isMutable with
      | false => exact Or.inl ((SortedMap.get_eq_some_iff _).mp hmem)
      | true =>
        rw [record_true, SortedMap.get_put] at hmem
        split at hmem
        · exact Or.inr (by simp [Option.some.inj hmem])
        · exact Or.inl ((SortedMap.get_eq_some_iff _).mp hmem)
    · exact Or.inr (List.mem_cons_of_mem _ hmem)

theorem mark_of_undone {state state' : Tables × ℕ} {entries : List (ℕ × BlockValue)}
    (h : ChainDB.Undone isMutable state entries state') {last : Log} {entry : ℕ × Log}
    (hmark : entry.2.isMark = true)
    (hentry : entry ∈ (record isMutable (state'.1.mutableKV, state'.2) last).1.entries) :
    entry ∈ state.1.mutableKV.entries ∨ entry.2 = last := by
  have hfold : record isMutable (state'.1.mutableKV, state'.2) last =
      (entries.map ChainDB.undoLog ++ [last]).foldl (record isMutable)
        (state.1.mutableKV, state.2) := by
    rw [List.foldl_append, ← h.wal]
    rfl
  rw [hfold] at hentry
  rcases mem_foldl_record _ hentry with hmem | hmem
  · exact Or.inl hmem
  · rcases List.mem_append.mp hmem with hundo | hlast
    · obtain ⟨undone, -, heq⟩ := List.mem_map.mp hundo
      rw [← heq] at hmark
      cases hmark
    · exact Or.inr (List.mem_singleton.mp hlast)

theorem mark_of_step {self self' : ChainDB} {command : Command}
    (hstep : self.step P genesis command = .ok self') {entry : ℕ × Log}
    (hmark : entry.2.isMark = true) (hentry : entry ∈ self'.db.mutableKV.entries) :
    entry ∈ self.db.mutableKV.entries ∨
      ∃ slot hash isMutable, command = .rollback slot hash isMutable ∧
        entry.2.slot = some slot := by
  cases command with
  | start =>
    obtain ⟨kvs, -, rfl⟩ := ChainDB.stageStart_eq_ok.mp hstep
    cases hentry
  | apply bytes isMutable =>
    obtain ⟨block, resolver, -, -, -, rfl⟩ := ChainDB.stageApply_eq_ok.mp hstep
    have hrecorded : entry ∈ (record isMutable (self.db.mutableKV, self.nextWalSeq)
        (.apply block.slot block.hash bytes (resolver.mapVal Prod.fst))).1.entries := by
      cases isMutable with
      | false => exact hentry
      | true =>
        change entry ∈ (self.pruneBehind block.slot _).entries at hentry
        rw [ChainDB.pruneBehind_eq] at hentry
        exact (List.dropWhile_sublist _).subset hentry
    rcases mem_foldl_record [_] hrecorded with hmem | hmem
    · exact Or.inl hmem
    · rw [List.mem_singleton.mp hmem] at hmark
      cases hmark
  | rollback slot hash isMutable =>
    obtain ⟨height, bytes, toRemove, state, -, hrun, rfl⟩ :=
      ChainDB.stageRollback_eq_ok.mp hstep
    refine (mark_of_undone (ChainDB.undone_of_run hrun) hmark hentry).imp_right fun hlast => ?_
    exact ⟨slot, hash, isMutable, rfl, by rw [hlast]; rfl⟩
  | rollbackToOrigin isMutable =>
    obtain ⟨state, hrun, rfl⟩ := ChainDB.stageRollbackToOrigin_eq_ok.mp hstep
    rcases mark_of_undone (ChainDB.undone_of_run hrun) hmark hentry with hmem | hlast
    · exact Or.inl hmem
    · rw [hlast] at hmark
      cases hmark

/-! ## What a step does -/

inductive Relay.Steps (P : Pallas) (genesis : List GenesisUtxo) (relay : Relay) :
    RelayEvent → Relay → Prop where
  | compressor {command : Command} {server : Server}
      (hstep : relay.server.step P genesis command = .ok server) :
      Steps P genesis relay (.compressor command) { relay with
        server := server
        source := if command = .start then relay.source.filter survivesRestart
          else relay.source }
  | bootstrap {persisted : Persisted} {worker worker' : SourceWorker}
      {sent : List EnrichedBlockPayload} (hworker : relay.source = some worker)
      (hmode : worker.mode = .init)
      (hbootstrap : worker.bootstrap relay.server.chainDB.db persisted = .ok (worker', sent)) :
      Steps P genesis relay (.bootstrap persisted)
        { relay with source := some worker', sent := relay.sent ++ sent }
  | trySwitch {worker worker' : SourceWorker} (hworker : relay.source = some worker)
      (hswitch : worker.trySwitch relay.server.chainDB.db.mutableKV = .ok worker') :
      Steps P genesis relay .trySwitch { relay with source := some worker' }
  | idle {worker worker' : SourceWorker} (hworker : relay.source = some worker)
      (hunit : worker.nextUnit relay.server.chainDB.db = .ok (worker', none)) :
      Steps P genesis relay .nextUnit { relay with source := some worker' }
  | work {worker worker' : SourceWorker} {unit : SourceWorkUnit}
      {sent : List EnrichedBlockPayload} (hworker : relay.source = some worker)
      (hunit : worker.nextUnit relay.server.chainDB.db = .ok (worker', some unit))
      (hexecute : unit.execute P = .ok sent) :
      Steps P genesis relay .nextUnit
        { relay with source := some worker', sent := relay.sent ++ sent }

theorem Relay.steps_of_step {relay relay' : Relay} (h : relay.step P genesis event = .ok relay') :
    Relay.Steps P genesis relay event relay' := by
  cases event with
  | compressor command =>
    simp only [Relay.step] at h
    split at h
    case h_1 server hstep =>
      cases h
      exact .compressor hstep
    case h_2 => cases h
  | bootstrap persisted =>
    simp only [Relay.step] at h
    split at h
    case h_1 worker hworker =>
      split at h
      case h_1 worker' sent hmode hbootstrap =>
        cases h
        exact .bootstrap hworker hmode hbootstrap
      case h_2 => cases h
    case h_2 => cases h
  | trySwitch =>
    simp only [Relay.step] at h
    split at h
    case h_1 worker hworker =>
      split at h
      case h_1 worker' hswitch =>
        cases h
        exact .trySwitch hworker hswitch
      case h_2 => cases h
    case h_2 => cases h
  | nextUnit =>
    simp only [Relay.step] at h
    split at h
    case h_1 worker hworker =>
      split at h
      case h_1 worker' hunit =>
        cases h
        exact .idle hworker hunit
      case h_2 worker' unit hunit =>
        split at h
        case h_1 sent hexecute =>
          cases h
          exact .work hworker hunit hexecute
        case h_2 => cases h
      case h_3 => cases h
    case h_2 => cases h

theorem bootstrap_sent (h : worker.bootstrap db persisted = .ok (worker', sent)) :
    (∃ cursor, worker'.mode = .dumping cursor) ∧ (sent = [] ∨ ∃ point, sent = [.rollBack point]) := by
  obtain ⟨found, -, hrest⟩ := Except.bind_eq_ok.mp h
  cases found with
  | some point =>
    obtain ⟨start, hstart, htip⟩ := Except.bind_eq_ok.mp hrest
    obtain ⟨tip, -, hworker⟩ := Except.bind_eq_ok.mp htip
    cases hstart
    cases hworker
    exact ⟨⟨_, rfl⟩, Or.inr ⟨_, rfl⟩⟩
  | none =>
    obtain ⟨point, -, hpoint⟩ := Except.bind_eq_ok.mp hrest
    obtain ⟨start, hstart, htip⟩ := Except.bind_eq_ok.mp hpoint
    obtain ⟨tip, -, hworker⟩ := Except.bind_eq_ok.mp htip
    cases hstart
    cases hworker
    exact ⟨⟨_, rfl⟩, Or.inl rfl⟩

theorem trySwitch_mode {log : SortedMap ℕ Log} (h : worker.trySwitch log = .ok worker') :
    worker' = worker ∨ ∃ seq, worker'.mode = .streaming seq := by
  unfold SourceWorker.trySwitch at h
  split at h
  · split at h
    · split at h
      · cases h
        exact Or.inr ⟨_, rfl⟩
      · cases h
        exact Or.inl rfl
      · cases h
    · cases h
      exact Or.inl rfl
  · cases h
    exact Or.inl rfl

inductive Fetches (db : Tables) (worker worker' : SourceWorker) : Option SourceWorkUnit → Prop where
  | entry {lastSeq : ℕ} {log : Log} (hmode : worker.mode = .streaming lastSeq)
      (hlog : db.mutableKV.get (lastSeq + 1) = some log)
      (hmode' : worker'.mode = .streaming (lastSeq + 1)) :
      Fetches db worker worker' (some ⟨[logToResponseWithCtx log], true⟩)
  | page {cursor cursor' : Option BlockRef} {maxItems : ℕ} {page : PageBlocksWithCtxResponse}
      (hpage : pageBlocksWithContext db cursor maxItems = .ok page)
      (hmode' : worker'.mode = .dumping cursor') :
      Fetches db worker worker' (some ⟨page.blocks.map .apply, false⟩)
  | waiting (hsame : worker' = worker) (hinit : worker.mode ≠ .init) :
      Fetches db worker worker' none
  | emptyPage {cursor : Option BlockRef} (hmode' : worker'.mode = .dumping cursor) :
      Fetches db worker worker' none

theorem fetches_of_nextUnit {unit : Option SourceWorkUnit}
    (h : worker.nextUnit db = .ok (worker', unit)) : Fetches db worker worker' unit := by
  unfold SourceWorker.nextUnit at h
  split at h
  case h_1 => cases h
  case h_2 lastSeq hmode =>
    split at h
    case h_1 log hlog =>
      cases h
      exact .entry hmode hlog rfl
    case h_2 =>
      cases h
      exact .waiting rfl (by rw [hmode]; intro heq; cases heq)
  case h_3 cursor hmode =>
    split at h
    case h_1 => cases h
    case h_2 page hpage =>
      cases h
      have hdumping : ∃ cursor', page.blocks.getLast?.elim worker.mode
          (fun last => Mode.dumping (some last.ref)) = .dumping cursor' := by
        cases page.blocks.getLast? with
        | none => exact ⟨cursor, hmode⟩
        | some last => exact ⟨_, rfl⟩
      obtain ⟨cursor', hcursor'⟩ := hdumping
      split
      · exact .emptyPage hcursor'
      · exact .page hpage hcursor'

theorem exists_action_of_mem_execute {unit : SourceWorkUnit} (h : unit.execute P = .ok sent)
    (hmem : payload ∈ sent) :
    ∃ action ∈ unit.actions, processAction P unit.isMutable action = .ok (some payload) := by
  simp only [SourceWorkUnit.execute, Except.bind_eq_ok, Except.pure_eq_ok, Except.ok.injEq] at h
  obtain ⟨payloads, hpayloads, rfl⟩ := h
  have hsome : some payload ∈ payloads := List.reduceOption_mem_iff.mp hmem
  exact (Except.mem_of_mapM_eq_ok hpayloads).mp hsome

theorem processAction_apply {block : BlockWithContext}
    (h : processAction P isMutable (.apply block) = .ok (some payload)) :
    ∃ ctx, payload = .rollForward (some block.ref) block.raw ctx isMutable := by
  simp only [processAction, Except.bind_eq_ok, Except.pure_eq_ok, Except.ok.injEq,
    Option.some.injEq] at h
  obtain ⟨ctx, -, rfl⟩ := h
  exact ⟨ctx, rfl⟩

/-! ## The invariant -/

def Relay.immutablePoints (relay : Relay) : List (Option BlockRef) :=
  relay.sent.filterMap immutablePoint

structure Relay.Safe (P : Pallas) (relay : Relay) : Prop where
  chain : HoldsChain P relay.server
  kept : KeepsImmutable relay.sent
  fresh : ∀ worker, relay.source = some worker → worker.mode = .init → relay.sent = []
  adopted : ∀ point ∈ relay.immutablePoints,
    ∃ block ∈ relay.server.adopted, block.slot = pointSlot point
  ahead : ∀ worker seq, relay.source = some worker → worker.mode = .streaming seq →
    ∀ entry ∈ relay.server.chainDB.db.mutableKV.entries, seq < entry.1 →
      entry.2.isMark = true →
        ∀ point ∈ relay.immutablePoints, pointSlot point ≤ entry.2.slot.getD 0

theorem KeepsImmutable.append {more : List EnrichedBlockPayload} (h : KeepsImmutable sent)
    (hmore : KeepsImmutable more) (hback : ∀ point, .rollBack point ∈ more →
      ∀ block ∈ sent.filterMap immutablePoint, pointSlot block ≤ pointSlot point) :
    KeepsImmutable (sent ++ more) := by
  refine List.pairwise_append.mpr ⟨h, hmore, fun earlier hearlier later hlater => ?_⟩
  unfold notBehind
  split
  case h_1 block raw ctx point =>
    exact decide_eq_true (hback point hlater block
      (List.mem_filterMap.mpr ⟨_, hearlier, rfl⟩))
  case h_2 => rfl

theorem Relay.Safe.start (keepSlots maxItemsPerPage : Option ℕ) (intersect : IntersectConfig) :
    Relay.Safe P (.start keepSlots maxItemsPerPage intersect) where
  chain := HoldsChain.empty P keepSlots
  kept := List.Pairwise.nil
  fresh worker _ _ := rfl
  adopted := by simp [Relay.immutablePoints, Relay.start]
  ahead := by simp [Relay.immutablePoints, Relay.start]

namespace Relay.Safe

variable {relay relay' : Relay} {server : Server}

theorem adopted_of_step (h : Relay.Safe P relay) {command : Command}
    (hrecent : relay.rollsBackRecent (.compressor command) = true)
    (hold : relay.sendsOld P (.compressor command) = true)
    (hstep : relay.server.step P genesis command = .ok server) {point : Option BlockRef}
    (hpoint : point ∈ relay.immutablePoints) :
    (∃ block ∈ server.adopted, block.slot = pointSlot point) ∧
      ∀ slot hash isMutable, command = .rollback slot hash isMutable →
        pointSlot point ≤ slot := by
  obtain ⟨block, hblock, hslot⟩ := h.adopted point hpoint
  obtain ⟨chainDB, hstage, rfl⟩ := Server.step_eq_ok.mp hstep
  -- a rollback removes only blocks nearer to the tip than those sent as immutable
  have hspared : isRollback command = true →
      block ∉ removedBlocks relay.server.adopted command := by
    intro hrollback hremoved
    simp only [Relay.rollsBackRecent, List.all_eq_true, decide_eq_true_eq] at hrecent
    simp only [Relay.sendsOld, hrollback, Bool.not_true, Bool.false_or, Bool.and_eq_true,
      List.all_eq_true, decide_eq_true_eq] at hold
    have hnear := hrecent block hremoved
    have hfar := hold.2 point hpoint
    omega
  cases command with
  | start => exact ⟨⟨block, hblock, hslot⟩, fun _ _ _ heq => by cases heq⟩
  | apply bytes isMutable =>
    obtain ⟨applied, -, hdecode, -⟩ := ChainDB.stageApply_eq_ok.mp hstage
    refine ⟨⟨block, ?_, hslot⟩, fun _ _ _ heq => by cases heq⟩
    simp only [adopt, hdecode]
    exact List.mem_cons_of_mem _ hblock
  | rollback slot hash isMutable =>
    obtain ⟨height, bytes, toRemove, state, hfrom, -, -⟩ :=
      ChainDB.stageRollback_eq_ok.mp hstage
    obtain ⟨newer, found, older, hsplit, hentry, -, hcut⟩ := h.chain.exists_split hfrom
    have hkept : block ∈ cutBack relay.server.adopted slot hash := by
      rw [← List.takeWhile_append_dropWhile (p := fun b => !b.isAt slot hash)
        (l := relay.server.adopted), List.mem_append] at hblock
      exact hblock.resolve_left (hspared rfl)
    refine ⟨⟨block, hkept, hslot⟩, fun slot' hash' isMutable' heq => ?_⟩
    cases heq
    rw [hcut] at hkept
    have hle := (hsplit ▸ h.chain.ordered : SlotOrdered _).slot_le hkept
    have hfound : found.slot = slot := congrArg Prod.fst hentry
    omega
  | rollbackToOrigin isMutable => exact absurd hblock (hspared rfl)

theorem compressor (h : Relay.Safe P relay) {command : Command}
    (hrecent : relay.rollsBackRecent (.compressor command) = true)
    (hold : relay.sendsOld P (.compressor command) = true)
    (hstep : relay.server.step P genesis command = .ok server) :
    Relay.Safe P { relay with
      server := server
      source := if command = .start then relay.source.filter survivesRestart
        else relay.source } := by
  have horder : relay.server.inSlotOrder P command = true := by
    rw [Relay.sendsOld, Bool.and_eq_true] at hold
    exact hold.1
  have hsource : ∀ worker, (if command = .start then relay.source.filter survivesRestart
      else relay.source) = some worker → relay.source = some worker := by
    intro worker hworker
    split at hworker
    · exact (Option.filter_eq_some_iff.mp hworker).1
    · exact hworker
  refine ⟨h.chain.step horder hstep, h.kept, fun worker hworker => h.fresh worker (hsource _ hworker),
    fun point hpoint => (h.adopted_of_step hrecent hold hstep hpoint).1, ?_⟩
  intro worker seq hworker hmode entry hentry hseq hmark point hpoint
  obtain ⟨chainDB, hstage, rfl⟩ := Server.step_eq_ok.mp hstep
  rcases mark_of_step hstage hmark hentry with hmem | ⟨slot, hash, isMutable, hcommand, hslot⟩
  · exact h.ahead worker seq (hsource _ hworker) hmode entry hmem hseq hmark point hpoint
  · rw [hslot]
    exact (h.adopted_of_step hrecent hold hstep hpoint).2 slot hash isMutable hcommand

theorem bootstrap (h : Relay.Safe P relay) (hworker : relay.source = some worker)
    (hmode : worker.mode = .init)
    (hbootstrap : worker.bootstrap relay.server.chainDB.db persisted = .ok (worker', sent)) :
    Relay.Safe P { relay with source := some worker', sent := relay.sent ++ sent } := by
  obtain ⟨⟨cursor, hcursor⟩, hsent⟩ := bootstrap_sent hbootstrap
  have hnone : (relay.sent ++ sent).filterMap immutablePoint = [] := by
    rw [h.fresh worker hworker hmode]
    rcases hsent with rfl | ⟨point, rfl⟩ <;> rfl
  refine ⟨h.chain, ?_, ?_, ?_, ?_⟩
  · rw [h.fresh worker hworker hmode]
    rcases hsent with rfl | ⟨point, rfl⟩
    · exact List.Pairwise.nil
    · exact List.pairwise_singleton ..
  · intro started hstarted hinit
    cases hstarted
    rw [hcursor] at hinit
    cases hinit
  · simp [Relay.immutablePoints, hnone]
  · simp [Relay.immutablePoints, hnone]

theorem trySwitch (h : Relay.Safe P relay) (hold : relay.sendsOld P .trySwitch = true)
    (hworker : relay.source = some worker)
    (hswitch : worker.trySwitch relay.server.chainDB.db.mutableKV = .ok worker') :
    Relay.Safe P { relay with source := some worker' } := by
  refine ⟨h.chain, h.kept, fun started hstarted hinit => ?_, h.adopted, ?_⟩
  · cases hstarted
    rcases trySwitch_mode hswitch with rfl | ⟨seq, hseq⟩
    · exact h.fresh _ hworker hinit
    · rw [hseq] at hinit
      cases hinit
  · intro started seq hstarted hmode entry hentry hseq hmark point hpoint
    cases hstarted
    simp only [Relay.sendsOld, hworker, Option.all_some, hswitch, Except.toOption,
      Option.map_some, hmode, List.all_eq_true, Bool.or_eq_true, Bool.not_eq_true',
      Bool.and_eq_false_iff, decide_eq_false_iff_not, decide_eq_true_eq] at hold
    rcases hold entry hentry with (hnot | hnot) | hall
    · exact absurd hseq hnot
    · rw [hmark] at hnot
      cases hnot
    · exact hall point hpoint

theorem entry (h : Relay.Safe P relay) {lastSeq : ℕ} {log : Log}
    (hworker : relay.source = some worker) (hmode : worker.mode = .streaming lastSeq)
    (hlog : relay.server.chainDB.db.mutableKV.get (lastSeq + 1) = some log)
    (hmode' : worker'.mode = .streaming (lastSeq + 1))
    (hexecute : (SourceWorkUnit.mk [logToResponseWithCtx log] true).execute P = .ok sent) :
    Relay.Safe P { relay with source := some worker', sent := relay.sent ++ sent } := by
  have hentry := (SortedMap.get_eq_some_iff _).mp hlog
  -- the stream sends mutable blocks and rollbacks to marks
  have hsent : ∀ payload ∈ sent, immutablePoint payload = none ∧
      ∀ point, payload = .rollBack point →
        log.isMark = true ∧ pointSlot point = log.slot.getD 0 := by
    intro payload hpayload
    obtain ⟨action, haction, hprocess⟩ := exists_action_of_mem_execute hexecute hpayload
    rw [List.mem_singleton.mp haction] at hprocess
    cases log with
    | apply slot hash body resolver =>
      obtain ⟨ctx, rfl⟩ := processAction_apply hprocess
      exact ⟨rfl, fun point heq => by cases heq⟩
    | mark slot hash body =>
      cases hprocess
      refine ⟨rfl, fun point heq => ?_⟩
      cases heq
      exact ⟨rfl, rfl⟩
    | undo slot hash body => cases hprocess
    | origin => cases hprocess
  have hpoints : (relay.sent ++ sent).filterMap immutablePoint =
      relay.sent.filterMap immutablePoint := by
    rw [List.filterMap_append, List.filterMap_eq_nil_iff.mpr fun payload hpayload =>
      (hsent payload hpayload).1, List.append_nil]
  refine ⟨h.chain, h.kept.append ?_ ?_, ?_, ?_, ?_⟩
  · refine List.pairwise_of_forall_mem_list fun earlier hearlier later _ => ?_
    have hnone := (hsent earlier hearlier).1
    unfold notBehind
    split
    · cases hnone
    · rfl
  · intro point hpoint block hblock
    obtain ⟨hmark, hslot⟩ := (hsent _ hpoint).2 point rfl
    rw [hslot]
    exact h.ahead worker lastSeq hworker hmode _ hentry (Nat.lt_succ_self _) hmark block hblock
  · intro started hstarted hinit
    cases hstarted
    rw [hmode'] at hinit
    cases hinit
  · simpa only [Relay.immutablePoints, hpoints] using h.adopted
  · intro started seq hstarted hstreaming entry hmem hseq hmark point hpoint
    cases hstarted
    rw [hmode', Mode.streaming.injEq] at hstreaming
    rw [Relay.immutablePoints, hpoints] at hpoint
    exact h.ahead worker lastSeq hworker hmode entry hmem (by omega) hmark point hpoint

theorem page (h : Relay.Safe P relay) {cursor cursor' : Option BlockRef} {maxItems : ℕ}
    {page : PageBlocksWithCtxResponse}
    (hpage : pageBlocksWithContext relay.server.chainDB.db cursor maxItems = .ok page)
    (hmode' : worker'.mode = .dumping cursor')
    (hexecute : (SourceWorkUnit.mk (page.blocks.map .apply) false).execute P = .ok sent) :
    Relay.Safe P { relay with source := some worker', sent := relay.sent ++ sent } := by
  -- a page sends immutable blocks of the chain only
  have hsent : ∀ payload ∈ sent, ∃ block ∈ relay.server.adopted, ∃ raw ctx,
      payload = .rollForward (some ⟨block.slot, block.hash⟩) raw ctx false := by
    intro payload hpayload
    obtain ⟨action, haction, hprocess⟩ := exists_action_of_mem_execute hexecute hpayload
    obtain ⟨served, hserved, rfl⟩ := List.mem_map.mp haction
    obtain ⟨ctx, rfl⟩ := processAction_apply hprocess
    obtain ⟨hitems, behind, hbehind⟩ := exists_intersectBlocks hpage
    rw [pageBlocksWithContext_eq h.chain hitems hbehind] at hpage
    cases hpage
    obtain ⟨entry, hentry, rfl⟩ := List.mem_map.mp hserved
    obtain ⟨block, -, hblock, rfl, -⟩ := h.chain.exists_block_of_entry
      ((intersect_of_holdsChain h.chain hbehind).2.subset (List.mem_of_mem_take hentry))
    exact ⟨block, (mem_of_blockIn hblock).1, _, ctx, rfl⟩
  refine ⟨h.chain, h.kept.append ?_ ?_, ?_, ?_, ?_⟩
  · refine List.pairwise_of_forall_mem_list fun earlier _ later hlater => ?_
    obtain ⟨block, -, raw, ctx, rfl⟩ := hsent later hlater
    cases earlier with
    | rollForward point raw' ctx' isMutable => cases isMutable <;> rfl
    | rollBack point => rfl
  · intro point hpoint
    obtain ⟨block, -, raw, ctx, heq⟩ := hsent _ hpoint
    cases heq
  · intro started hstarted hinit
    cases hstarted
    rw [hmode'] at hinit
    cases hinit
  · intro point hpoint
    rw [Relay.immutablePoints, List.filterMap_append, List.mem_append] at hpoint
    rcases hpoint with hpoint | hpoint
    · exact h.adopted point hpoint
    · obtain ⟨payload, hpayload, hsome⟩ := List.mem_filterMap.mp hpoint
      obtain ⟨block, hblock, raw, ctx, rfl⟩ := hsent payload hpayload
      cases hsome
      exact ⟨block, hblock, rfl⟩
  · intro started seq hstarted hstreaming
    cases hstarted
    rw [hmode'] at hstreaming
    cases hstreaming

theorem idle (h : Relay.Safe P relay) (hworker : relay.source = some worker)
    (hunit : worker.nextUnit relay.server.chainDB.db = .ok (worker', none)) :
    Relay.Safe P { relay with source := some worker' } := by
  cases fetches_of_nextUnit hunit with
  | waiting hsame hinit =>
    subst hsame
    have hsame : { relay with source := some worker' } = relay := by rw [← hworker]
    rw [hsame]
    exact h
  | emptyPage hmode' =>
    refine ⟨h.chain, h.kept, fun started hstarted hinit => ?_, h.adopted,
      fun started seq hstarted hstreaming => ?_⟩
    · cases hstarted
      rw [hmode'] at hinit
      cases hinit
    · cases hstarted
      rw [hmode'] at hstreaming
      cases hstreaming

theorem step (h : Relay.Safe P relay) (hrecent : relay.rollsBackRecent event = true)
    (hold : relay.sendsOld P event = true) (hstep : relay.step P genesis event = .ok relay') :
    Relay.Safe P relay' := by
  cases Relay.steps_of_step hstep with
  | compressor hserver => exact h.compressor hrecent hold hserver
  | bootstrap hworker hmode hbootstrap => exact h.bootstrap hworker hmode hbootstrap
  | trySwitch hworker hswitch => exact h.trySwitch hold hworker hswitch
  | idle hworker hunit => exact h.idle hworker hunit
  | work hworker hunit hexecute =>
    cases fetches_of_nextUnit hunit with
    | entry hmode hlog hmode' => exact h.entry hworker hmode hlog hmode' hexecute
    | page hpage hmode' => exact h.page hpage hmode' hexecute

end Relay.Safe

/-- **Blocks sent as immutable are not rolled back as long as they are old.** -/
theorem immutable_blocks_are_kept {keepSlots maxItemsPerPage : Option ℕ}
    {intersect : IntersectConfig} {events : List RelayEvent} {relay : Relay}
    (hrecent : Run.meets (Relay.step P genesis) Relay.rollsBackRecent
      (.start keepSlots maxItemsPerPage intersect) events = true)
    (hold : Run.meets (Relay.step P genesis) (Relay.sendsOld P)
      (.start keepSlots maxItemsPerPage intersect) events = true)
    (hrun : Run.run (Relay.step P genesis) (.start keepSlots maxItemsPerPage intersect) events =
      .ok relay) :
    KeepsImmutable relay.sent := by
  have hboth : Run.meets (Relay.step P genesis)
      (fun relay event => relay.rollsBackRecent event && relay.sendsOld P event)
      (.start keepSlots maxItemsPerPage intersect) events = true := by
    rw [Run.meets_and, hrecent, hold]
    rfl
  refine (Run.invariant_of_meets (I := fun _ => Relay.Safe P) (.start ..) ?_ hboth hrun).kept
  intro _ mid event next _ hsafe hevent hstep
  rw [Bool.and_eq_true] at hevent
  exact hsafe.step hevent.1 hevent.2 hstep

def distantBlocks : List StoredBlock :=
  [sampleBlock 10 1 none [], sampleBlock 200000 2 (some 1) [], sampleBlock 200010 3 (some 2) []]

def distantEvents : List RelayEvent :=
  [.compressor .start, .compressor (.apply [1] true), .bootstrap ⟨none, none⟩, .nextUnit,
    .trySwitch, .compressor (.apply [2] true), .nextUnit, .compressor (.apply [3] true),
    .nextUnit, .compressor (.rollback 200000 (sampleHash 2) true), .nextUnit, .nextUnit]

theorem immutable_blocks_are_kept_distant :
    ∃ relay,
      Run.run (Relay.step (samplePallas distantBlocks) []) (.start none none .origin)
        distantEvents = .ok relay ∧
      relay.sent.getLast? = some (.rollBack (some ⟨200000, sampleHash 2⟩)) ∧
      KeepsImmutable relay.sent :=
  ⟨_, Except.eq_ok_get (by decide +kernel), by decide +kernel,
    immutable_blocks_are_kept (by decide +kernel) (by decide +kernel) (Except.eq_ok_get _)⟩

def tipEvents : List RelayEvent :=
  [.compressor .start, .compressor (.apply [1] true), .compressor (.apply [2] true),
    .bootstrap ⟨none, none⟩, .nextUnit, .trySwitch,
    .compressor (.rollback 10 (sampleHash 1) true), .nextUnit, .nextUnit]

/-- A worker that starts near the tip sends the tip as immutable, and then rolls it back. -/
theorem tip_is_sent_as_immutable :
    ∃ relay,
      Run.run (Relay.step (samplePallas forkBlocks) []) (.start none none .origin) tipEvents =
        .ok relay ∧
      Run.meets (Relay.step (samplePallas forkBlocks) []) Relay.rollsBackRecent
        (.start none none .origin) tipEvents = true ∧
      relay.sent = [.rollForward (some ⟨10, sampleHash 1⟩) [1] .new false,
        .rollForward (some ⟨20, sampleHash 2⟩) [2] .new false,
        .rollBack (some ⟨10, sampleHash 1⟩)] ∧
      ¬ KeepsImmutable relay.sent :=
  ⟨_, Except.eq_ok_get (by decide +kernel), by decide +kernel, by decide +kernel,
    by decide +kernel⟩

end CardanoIndexer.Pipeline
