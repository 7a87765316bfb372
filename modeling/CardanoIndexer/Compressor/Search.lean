import CardanoIndexer.Compressor.Wal
import Mathlib.Data.List.TakeWhile

/-!
# What a search of the log can miss

`find_wal_seq` stops at the first entry whose slot is not before the one it looks for, but slots
go down at every fork switch.
-/

namespace CardanoIndexer.Compressor

open Journal

variable {P : Pallas} {genesis : List GenesisUtxo} {log : SortedMap ℕ Log} {beforeSlot : ℕ}

/-! ## The entry that a search looks at -/

def StoredBlock.isNamedBy (block : StoredBlock) (entry : ℕ × Log) : Bool :=
  entry.2.names block.slot block.hash

theorem StoredBlock.slot_of_isNamedBy {block : StoredBlock} {entry : ℕ × Log}
    (h : block.isNamedBy entry = true) : entry.2.slot.getD 0 = block.slot := by
  rw [Log.slot_of_names h, Option.getD_some]

theorem firstAt_append (front back : List (ℕ × Log)) (slot : ℕ) :
    firstAt (front ++ back) slot = (firstAt front slot).or (firstAt back slot) :=
  List.find?_append

theorem firstAt_prune {slot : ℕ} (h : beforeSlot ≤ slot) :
    firstAt (prune log beforeSlot).entries slot = firstAt log.entries slot := by
  have hsplit := List.takeWhile_append_dropWhile (p := fun entry : ℕ × Log =>
    decide (entry.2.slot.getD 0 < beforeSlot)) (l := log.entries)
  have hnone : firstAt (log.entries.takeWhile fun entry => entry.2.slot.getD 0 < beforeSlot)
      slot = none := by
    rw [firstAt, List.find?_eq_none]
    intro entry hentry
    have hlt := List.mem_takeWhile_imp hentry
    simp only [decide_eq_true_eq] at hlt ⊢
    omega
  rw [← hsplit, firstAt_append, hnone, Option.none_or]
  rfl

theorem firstAt_prune_of_lt (log : SortedMap ℕ Log) {slot : ℕ} (h : slot < beforeSlot) :
    firstAt (prune log beforeSlot).entries slot = (prune log beforeSlot).entries.head? ∧
      ∀ first ∈ (prune log beforeSlot).entries.head?, beforeSlot ≤ first.2.slot.getD 0 := by
  cases hentries : (prune log beforeSlot).entries with
  | nil => simp [firstAt]
  | cons first rest =>
    have hhead := List.head?_dropWhile_not
      (fun entry : ℕ × Log => decide (entry.2.slot.getD 0 < beforeSlot)) log.entries
    rw [show log.entries.dropWhile _ = first :: rest from hentries] at hhead
    have hle : beforeSlot ≤ first.2.slot.getD 0 := by simpa using hhead
    refine ⟨List.find?_cons_of_pos (by simpa using (h.trans_le hle).le), ?_⟩
    simpa using hle

/-! ## Keeping the chain in reach -/

def Searchable (server : Server) : Prop :=
  ∀ block ∈ server.adopted,
    (∃ entry ∈ server.chainDB.db.mutableKV.entries, block.isNamedBy entry = true) →
      (findWalSeq server.chainDB.db.mutableKV block.slot block.hash).isSome = true

theorem isSome_findWalSeq {block : StoredBlock} :
    (findWalSeq log block.slot block.hash).isSome = true ↔
      ∃ entry, firstAt log.entries block.slot = some entry ∧ block.isNamedBy entry = true := by
  rw [findWalSeq_eq, Option.isSome_map, Option.isSome_iff_exists]
  simp only [Option.filter_eq_some_iff, StoredBlock.isNamedBy]

def Server.keepsSearchable (P : Pallas) (server : Server) : Command → Bool
  | .apply bytes _ =>
    match P.decode bytes with
    | .error _ => true
    | .ok block =>
      let kept := (prune server.chainDB.db.mutableKV
        (server.chainDB.pruneSlot block.slot)).entries
      ((firstAt kept block.slot).all fun entry => entry.2.names block.slot block.hash) &&
        server.adopted.all fun older => kept.all fun entry =>
          decide (older.isNamedBy entry = true → server.chainDB.pruneSlot block.slot ≤ older.slot)
  | .rollback slot hash _ =>
    !(server.adopted.any fun block => block.isAt slot hash) ||
      match firstAt server.chainDB.db.mutableKV.entries slot with
      | some entry => entry.2.names slot hash
      | none => (server.chainDB.db.blockBySlotKV.entriesFrom (slot + 1)).isEmpty
  | _ => true

section

variable {server server' : Server} {base : ℕ} {written : List Log} {hash : BlockHash}

theorem keepsSearchable_apply {bytes : BlockBody} {block : Block}
    (hdecode : P.decode bytes = .ok block) :
    server.keepsSearchable P (.apply bytes true) = true ↔
      (∀ first, firstAt (prune server.chainDB.db.mutableKV
          (server.chainDB.pruneSlot block.slot)).entries block.slot = some first →
        first.2.names block.slot block.hash = true) ∧
      ∀ older ∈ server.adopted, ∀ entry ∈ (prune server.chainDB.db.mutableKV
          (server.chainDB.pruneSlot block.slot)).entries,
        older.isNamedBy entry = true → server.chainDB.pruneSlot block.slot ≤ older.slot := by
  simp only [Server.keepsSearchable, hdecode, Bool.and_eq_true, Option.all_eq_true,
    List.all_eq_true, decide_eq_true_eq]

theorem searchable_prune_iff (h : Searchable server) {older : StoredBlock}
    (holder : older ∈ server.adopted) (beforeSlot : ℕ) (last : ℕ × Log) :
    ((∃ entry ∈ (prune server.chainDB.db.mutableKV beforeSlot).entries,
        older.isNamedBy entry = true) →
      ∃ entry, firstAt ((prune server.chainDB.db.mutableKV beforeSlot).entries ++ [last])
        older.slot = some entry ∧ older.isNamedBy entry = true) ↔
      ∀ entry ∈ (prune server.chainDB.db.mutableKV beforeSlot).entries,
        older.isNamedBy entry = true → beforeSlot ≤ older.slot := by
  constructor
  · intro hfound entry hentry hnamed
    by_contra hlt
    -- the first entry the prune leaves is behind the block's slot and stops the search
    obtain ⟨hfirst, hbound⟩ :=
      firstAt_prune_of_lt server.chainDB.db.mutableKV (not_le.mp hlt)
    obtain ⟨found, hlook, hfoundNamed⟩ := hfound ⟨entry, hentry, hnamed⟩
    obtain ⟨first, hhead⟩ : ∃ first,
        (prune server.chainDB.db.mutableKV beforeSlot).entries.head? = some first := by
      rw [← Option.isSome_iff_exists, List.isSome_head?]
      exact List.ne_nil_of_mem hentry
    rw [firstAt_append, hfirst, hhead, Option.some_or, Option.some.injEq] at hlook
    have hslot := StoredBlock.slot_of_isNamedBy hfoundNamed
    have hle := hbound first hhead
    rw [hlook] at hle
    omega
  · rintro hbound ⟨entry, hentry, hnamed⟩
    have hle := hbound entry hentry hnamed
    have hmem : entry ∈ server.chainDB.db.mutableKV.entries :=
      (List.dropWhile_sublist _).subset hentry
    obtain ⟨found, hlook, hfoundNamed⟩ :=
      isSome_findWalSeq.mp (h older holder ⟨entry, hmem, hnamed⟩)
    refine ⟨found, ?_, hfoundNamed⟩
    rw [firstAt_append, firstAt_prune hle, hlook, Option.some_or]

theorem searchable_apply_iff (h : Searchable server) {bytes : BlockBody}
    (hstep : server.step P genesis (.apply bytes true) = .ok server')
    (hrecords : Records base written server.chainDB.db.mutableKV server.chainDB.nextWalSeq) :
    Searchable server' ↔ server.keepsSearchable P (.apply bytes true) = true := by
  obtain ⟨chainDB, hstage, rfl⟩ := Server.step_eq_ok.mp hstep
  obtain ⟨block, resolver, hdecode, -, -, hlog⟩ := log_of_apply hstage
  generalize hnew : ((server.chainDB.nextWalSeq, .apply block.slot block.hash bytes resolver) :
    ℕ × Log) = new at *
  have hnewSlot : new.2.slot = some block.slot := by rw [← hnew]; rfl
  have hnamed : ∀ older : StoredBlock, older.isNamedBy new = true ↔
      older.slot = block.slot ∧ older.hash = block.hash := by
    intro older
    rw [← hnew]
    simp only [StoredBlock.isNamedBy, Log.names, Log.isApply, Log.slot, Log.hash, Bool.true_or,
      Bool.true_and, Bool.and_eq_true, decide_eq_true_eq, Option.some.injEq]
    exact and_congr eq_comm eq_comm
  have hentries : chainDB.db.mutableKV.entries =
      (prune server.chainDB.db.mutableKV (server.chainDB.pruneSlot block.slot)).entries ++ [new] := by
    rw [hlog, entries_prune_put hrecords (by simpa [Log.slot] using ChainDB.pruneSlot_le ..), hnew]
  have hadopt : adopt P server.adopted (.apply bytes true) =
      ⟨block, bytes⟩ :: server.adopted := by simp [adopt, hdecode]
  -- the new block is found exactly if what the prune leaves does not stop the search
  have hblock : (∃ entry, firstAt chainDB.db.mutableKV.entries block.slot = some entry ∧
      entry.2.names block.slot block.hash = true) ↔
      ∀ first, firstAt (prune server.chainDB.db.mutableKV
          (server.chainDB.pruneSlot block.slot)).entries block.slot = some first →
        first.2.names block.slot block.hash = true := by
    have hlast : firstAt [new] block.slot = some new :=
      List.find?_cons_of_pos (by simp [hnewSlot])
    rw [hentries, firstAt_append, hlast]
    cases firstAt (prune server.chainDB.db.mutableKV
        (server.chainDB.pruneSlot block.slot)).entries block.slot with
    | none => simpa [StoredBlock.isNamedBy] using (hnamed ⟨block, bytes⟩).mpr ⟨rfl, rfl⟩
    | some first => simp
  rw [keepsSearchable_apply hdecode, ← hblock]
  constructor
  · intro hsearch
    refine ⟨?_, fun older holder => (searchable_prune_iff h holder _ new).mp ?_⟩
    · refine isSome_findWalSeq.mp (hsearch ⟨block, bytes⟩ (by rw [hadopt]; simp) ?_)
      exact ⟨new, by rw [hentries]; simp, (hnamed ⟨block, bytes⟩).mpr ⟨rfl, rfl⟩⟩
    · rintro ⟨entry, hentry, hentryNamed⟩
      rw [← hentries]
      exact isSome_findWalSeq.mp (hsearch older (by rw [hadopt]; simp [holder])
        ⟨entry, by rw [hentries]; simp [hentry], hentryNamed⟩)
  · rintro ⟨hfirst, hbound⟩ older holder ⟨entry, hentry, hentryNamed⟩
    rw [isSome_findWalSeq]
    rw [hadopt, List.mem_cons] at holder
    rw [hentries, List.mem_append, List.mem_singleton] at hentry
    rcases holder with rfl | holder
    · exact hfirst
    · rcases hentry with hentry | rfl
      · rw [hentries]
        exact (searchable_prune_iff h holder _ new).mpr (hbound older holder)
          ⟨entry, hentry, hentryNamed⟩
      · -- the new block once more
        obtain ⟨hslot, hhash⟩ := (hnamed older).mp hentryNamed
        simpa only [StoredBlock.isNamedBy, hslot, hhash] using hfirst

theorem firstAt_undone {slot height seq : ℕ} {bytes : BlockBody} {toRemove : List (ℕ × BlockValue)}
    (hfrom : server.chainDB.db.blockBySlotKV.entriesFrom slot =
      (slot, height, hash, bytes) :: toRemove) :
    (∃ entry, firstAt (numbered seq
        (toRemove.reverse.map ChainDB.undoLog ++ [.mark slot hash bytes])) slot = some entry ∧
      entry.2.names slot hash = true) ↔
      (server.chainDB.db.blockBySlotKV.entriesFrom (slot + 1)).isEmpty = true := by
  obtain ⟨hbehind, hlater⟩ := SortedMap.entriesFrom_succ hfrom
  rw [hbehind, List.isEmpty_iff, ← List.reverse_eq_nil_iff]
  cases hremoved : toRemove.reverse with
  | nil => simp [firstAt, Log.names, Log.isApply, Log.isMark, Log.slot, Log.hash]
  | cons entry rest =>
    have hlt : slot < entry.1 := hlater entry (List.mem_reverse.mp (by simp [hremoved]))
    have hfirst : firstAt (numbered seq
        ((entry :: rest).map ChainDB.undoLog ++ [.mark slot hash bytes])) slot =
        some (seq, ChainDB.undoLog entry) :=
      List.find?_cons_of_pos (decide_eq_true hlt.le)
    simp only [hfirst, Option.some.injEq, exists_eq_left', reduceCtorEq, iff_false]
    exact Bool.eq_false_iff.mp rfl

theorem searchable_rollback_iff (h : Searchable server) {slot : ℕ}
    (hstep : server.step P genesis (.rollback slot hash true) = .ok server')
    (hrecords : Records base written server.chainDB.db.mutableKV server.chainDB.nextWalSeq) :
    Searchable server' ↔ server.keepsSearchable P (.rollback slot hash true) = true := by
  obtain ⟨chainDB, hstage, rfl⟩ := Server.step_eq_ok.mp hstep
  obtain ⟨height, bytes, toRemove, hfrom, hwal⟩ := log_of_rollback hstage
  generalize hlogs : toRemove.reverse.map ChainDB.undoLog ++ [Log.mark slot hash bytes] = logs at hwal
  have hentries : chainDB.db.mutableKV.entries = server.chainDB.db.mutableKV.entries ++
      numbered server.chainDB.nextWalSeq logs := by
    rw [← entries_foldl hrecords, ← hwal]
  -- the point itself is found exactly if neither the log nor what is undone stops the search
  have hpoint : (∃ entry, firstAt chainDB.db.mutableKV.entries slot = some entry ∧
      entry.2.names slot hash = true) ↔
      (match firstAt server.chainDB.db.mutableKV.entries slot with
        | some entry => entry.2.names slot hash
        | none => (server.chainDB.db.blockBySlotKV.entriesFrom (slot + 1)).isEmpty) = true := by
    rw [hentries, firstAt_append]
    cases firstAt server.chainDB.db.mutableKV.entries slot with
    | none =>
      rw [Option.none_or, ← hlogs]
      exact firstAt_undone hfrom
    | some first => simp
  have hkeeps : server.keepsSearchable P (.rollback slot hash true) = true ↔
      ((server.adopted.any fun block => block.isAt slot hash) = true →
        ∃ entry, firstAt chainDB.db.mutableKV.entries slot = some entry ∧
          entry.2.names slot hash = true) := by
    rw [hpoint, Server.keepsSearchable, Bool.or_eq_true, Bool.not_eq_true', ← Bool.not_eq_true,
      imp_iff_not_or]
  rw [hkeeps]
  constructor
  · intro hsearch hany
    obtain ⟨tip, htip, hat⟩ : ∃ tip ∈ cutBack server.adopted slot hash,
        tip.isAt slot hash = true := by
      obtain ⟨block, hblock, hat⟩ := List.any_eq_true.mp hany
      have hmem := List.takeWhile_append_dropWhile (p := fun b : StoredBlock => !b.isAt slot hash)
        (l := server.adopted) ▸ hblock
      rcases List.mem_append.mp hmem with hfront | hback
      · exact absurd (List.mem_takeWhile_imp hfront) (by simp [hat])
      · exact ⟨block, hback, hat⟩
    simp only [StoredBlock.isAt, Bool.and_eq_true, decide_eq_true_eq] at hat
    have hfound := isSome_findWalSeq.mp (hsearch tip htip
      ⟨(server.chainDB.nextWalSeq + toRemove.length, .mark slot hash bytes), ?_, ?_⟩)
    · simpa only [StoredBlock.isNamedBy, hat.1, hat.2] using hfound
    · rw [hentries, ← hlogs, numbered_append]
      simp
    · simp [StoredBlock.isNamedBy, Log.names, Log.isApply, Log.isMark, Log.slot, Log.hash, hat]
  · rintro hfirst older holder ⟨entry, hentry, hnamed⟩
    rw [isSome_findWalSeq]
    have holder' : older ∈ server.adopted := (cutBack_suffix ..).subset holder
    rw [hentries, List.mem_append] at hentry
    rcases hentry with hentry | hentry
    · obtain ⟨found, hlook, hfound⟩ := isSome_findWalSeq.mp (h older holder' ⟨entry, hentry, hnamed⟩)
      exact ⟨found, by rw [hentries, firstAt_append, hlook, Option.some_or], hfound⟩
    · -- of the new entries only the mark names a block
      have hlog : entry.2 ∈ logs := map_snd_numbered server.chainDB.nextWalSeq logs ▸
        List.mem_map_of_mem hentry
      rw [← hlogs, List.mem_append, List.mem_singleton] at hlog
      rcases hlog with hundo | hmark
      · exact absurd hnamed (by simp [StoredBlock.isNamedBy, names_undoLog _ _ hundo])
      · have hat : slot = older.slot ∧ hash = older.hash := by
          simpa [StoredBlock.isNamedBy, hmark, Log.names, Log.isApply, Log.isMark, Log.slot,
            Log.hash] using hnamed
        simp only [StoredBlock.isNamedBy, ← hat.1, ← hat.2]
        refine hfirst (List.any_eq_true.mpr ⟨older, holder', ?_⟩)
        simp [StoredBlock.isAt, hat]

end

/-- Commands keep every logged block of the chain in reach of a search exactly if each meets the
condition. -/
theorem searchable_iff_meets {commands : List Command} {opened server : Server}
    (hempty : opened.chainDB.db.mutableKV = ∅)
    (hmutable : ∀ command ∈ commands, command.isMutableUpdate = true)
    (hrun : Run.run (Server.step P genesis) opened commands = .ok server) :
    (∀ before mid, before <+: commands →
      Run.run (Server.step P genesis) opened before = .ok mid → Searchable mid) ↔
      Run.meets (Server.step P genesis) (Server.keepsSearchable P) opened commands = true := by
  refine Run.forall_reached_iff_meets
    (I := fun mid => ∃ base written,
      Records base written mid.chainDB.db.mutableKV mid.chainDB.nextWalSeq) ?_ ?_ ?_ ?_ hrun
  · rintro mid command next hcommand ⟨base, written, hrecords⟩ hstep
    obtain ⟨chainDB, hchainDB, rfl⟩ := Server.step_eq_ok.mp hstep
    obtain ⟨logs, -, hlogs⟩ := records_step
      (Command.isLogged_of_isMutableUpdate (hmutable command hcommand)) hchainDB hrecords
    exact ⟨base, _, hlogs⟩
  · rintro mid command next hcommand ⟨base, written, hrecords⟩ hsearch hstep
    have hupdate := hmutable command hcommand
    cases command with
    | apply bytes isMutable =>
      cases hupdate
      exact searchable_apply_iff hsearch hstep hrecords
    | rollback slot hash isMutable =>
      cases hupdate
      exact searchable_rollback_iff hsearch hstep hrecords
    | start => cases hupdate
    | rollbackToOrigin isMutable => cases hupdate
  · exact ⟨opened.chainDB.nextWalSeq, [], hempty ▸ Records.empty _⟩
  · rintro block - ⟨entry, hentry, -⟩
    rw [hempty] at hentry
    cases hentry

theorem searchable_iff_meets_fork :
    ∃ opened server,
      Run.run (Server.step (samplePallas forkBlocks) []) (.empty none) [.start] = .ok opened ∧
      Run.run (Server.step (samplePallas forkBlocks) []) opened forkUpdates = .ok server ∧
      server.adopted.map (fun block => block.slot) = [25, 10] ∧ Searchable server :=
  ⟨_, _, Except.eq_ok_get (by decide +kernel), Except.eq_ok_get (by decide +kernel),
    by decide +kernel,
    (searchable_iff_meets (by decide +kernel) (by decide) (Except.eq_ok_get (by decide +kernel))).mpr
      (by decide +kernel) forkUpdates _ (List.prefix_refl _) (Except.eq_ok_get _)⟩

def earlierForkBlocks : List StoredBlock :=
  [sampleBlock 10 1 none [], sampleBlock 20 2 (some 1) [], sampleBlock 30 3 (some 2) [],
    sampleBlock 15 4 (some 1) []]

/-- The tip is logged, but the search for it stops at an orphaned block. -/
theorem earlier_fork_is_not_found :
    ∃ server,
      Run.run (Server.step (samplePallas earlierForkBlocks) []) (.empty none)
        [.start, .apply [1] true, .apply [2] true, .apply [3] true,
          .rollback 10 (sampleHash 1) true, .apply [4] true] = .ok server ∧
      (∃ tip ∈ server.adopted, tip.slot = 15 ∧ tip.hash = sampleHash 4 ∧
        ∃ entry ∈ server.chainDB.db.mutableKV.entries, tip.isNamedBy entry = true) ∧
      findWalSeq server.chainDB.db.mutableKV 15 (sampleHash 4) = none :=
  ⟨_, Except.eq_ok_get (by decide +kernel), by decide +kernel, by decide +kernel⟩

end CardanoIndexer.Compressor
