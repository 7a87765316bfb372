import CardanoIndexer.Compressor.Wal

/-!
# The update stream and its writer
-/

namespace CardanoIndexer.Compressor

open Journal

/-! ## The model -/

inductive StreamTask where
  | opening
  | reading (iterator : List (ℕ × Log))
  | waiting (notified : Bool)
  | closed
  deriving DecidableEq

def StreamTask.notifyWaiters : StreamTask → StreamTask
  | .waiting _ => .waiting true
  | task => task

structure Feed where
  chainDB : ChainDB
  notifyDue : Bool
  lastSeq : ℕ
  task : StreamTask
  yielded : List (ℕ × Log)
  journal : List (ℕ × Log)
  deriving DecidableEq

inductive FeedEvent where
  | commit (command : Command)
  | notify
  | iterate
  | next
  | register
  deriving DecidableEq

namespace Feed

def start (chainDB : ChainDB) (notifyDue : Bool) (seq : ℕ) : Feed :=
  ⟨chainDB, notifyDue, seq, .opening, [], chainDB.db.mutableKV.entries⟩

def iterator (feed : Feed) : List (ℕ × Log) :=
  (feed.chainDB.db.mutableKV.entriesFrom feed.lastSeq).drop 1

def step (P : Pallas) (genesis : List GenesisUtxo) (feed : Feed) : FeedEvent → Except Unit Feed
  | .commit command =>
    match feed.notifyDue, feed.chainDB.step P genesis command with
    | false, .ok chainDB => .ok { feed with
        chainDB
        notifyDue := true
        journal := feed.journal ++ chainDB.db.mutableKV.entriesFrom feed.chainDB.nextWalSeq }
    | _, _ => .error ()
  | .notify =>
    if feed.notifyDue then
      .ok { feed with notifyDue := false, task := feed.task.notifyWaiters }
    else .error ()
  | .iterate =>
    match feed.task with
    | .opening | .waiting true => .ok { feed with task := .reading feed.iterator }
    | _ => .error ()
  | .next =>
    match feed.task with
    | .reading ((seq, log) :: rest) =>
      if seq = feed.lastSeq + 1 then
        .ok { feed with
          lastSeq := seq, task := .reading rest, yielded := feed.yielded ++ [(seq, log)] }
      else .ok { feed with task := .closed }
    | _ => .error ()
  | .register =>
    match feed.task with
    | .reading [] => .ok { feed with task := .waiting false }
    | _ => .error ()

end Feed

variable {P : Pallas} {genesis : List GenesisUtxo} {event : FeedEvent} {feed feed' : Feed}
  {written : List Log} {chainDB : ChainDB} {base seq : ℕ}

inductive Feed.Steps (P : Pallas) (genesis : List GenesisUtxo) (feed : Feed) :
    FeedEvent → Feed → Prop where
  | commit {command : Command} {chainDB : ChainDB} (hdue : feed.notifyDue = false)
      (hstep : feed.chainDB.step P genesis command = .ok chainDB) :
      Steps P genesis feed (.commit command) { feed with
        chainDB := chainDB
        notifyDue := true
        journal := feed.journal ++ chainDB.db.mutableKV.entriesFrom feed.chainDB.nextWalSeq }
  | notify (hdue : feed.notifyDue = true) :
      Steps P genesis feed .notify
        { feed with notifyDue := false, task := feed.task.notifyWaiters }
  | iterate (htask : feed.task = .opening ∨ feed.task = .waiting true) :
      Steps P genesis feed .iterate { feed with task := .reading feed.iterator }
  | yield {log : Log} {rest : List (ℕ × Log)}
      (htask : feed.task = .reading ((feed.lastSeq + 1, log) :: rest)) :
      Steps P genesis feed .next { feed with
        lastSeq := feed.lastSeq + 1
        task := .reading rest
        yielded := feed.yielded ++ [(feed.lastSeq + 1, log)] }
  | close {entry : ℕ × Log} {rest : List (ℕ × Log)} (htask : feed.task = .reading (entry :: rest))
      (hgap : entry.1 ≠ feed.lastSeq + 1) :
      Steps P genesis feed .next { feed with task := .closed }
  | register (htask : feed.task = .reading []) :
      Steps P genesis feed .register { feed with task := .waiting false }

theorem Feed.steps_of_step (h : feed.step P genesis event = .ok feed') :
    Feed.Steps P genesis feed event feed' := by
  cases event with
  | commit command =>
    simp only [Feed.step] at h
    split at h
    case h_1 hdue hstep =>
      cases h
      exact .commit hdue hstep
    case h_2 => cases h
  | notify =>
    simp only [Feed.step] at h
    split at h
    case isTrue hdue =>
      cases h
      exact .notify hdue
    case isFalse => cases h
  | iterate =>
    simp only [Feed.step] at h
    split at h
    case h_1 htask =>
      cases h
      exact .iterate (.inl htask)
    case h_2 htask =>
      cases h
      exact .iterate (.inr htask)
    case h_3 => cases h
  | next =>
    simp only [Feed.step] at h
    split at h
    case h_1 seq log rest htask =>
      split at h
      case isTrue hseq =>
        subst hseq
        cases h
        exact .yield htask
      case isFalse hgap =>
        cases h
        exact .close htask hgap
    case h_2 => cases h
  | register =>
    simp only [Feed.step] at h
    split at h
    case h_1 htask =>
      cases h
      exact .register htask
    case h_2 => cases h

/-! ## Waiting -/

def Feed.LostWakeup (feed : Feed) : Prop :=
  feed.task = .waiting false ∧ feed.notifyDue = false ∧
    ∃ entry ∈ feed.chainDB.db.mutableKV.entries, feed.lastSeq < entry.1

instance (feed : Feed) : Decidable feed.LostWakeup := inferInstanceAs (Decidable (_ ∧ _ ∧ _))

def Feed.hears (feed : Feed) : FeedEvent → Bool
  | .notify =>
    match feed.task with
    | .reading iterator => feed.chainDB.db.mutableKV.entries.all fun entry =>
      decide (feed.lastSeq < entry.1 → entry ∈ iterator)
    | _ => true
  | .iterate => (feed.chainDB.db.mutableKV.get feed.lastSeq).isSome
  | _ => true

structure Feed.UpToDate (feed : Feed) : Prop where
  reading : feed.notifyDue = false → ∀ iterator, feed.task = .reading iterator →
    ∀ entry ∈ feed.chainDB.db.mutableKV.entries, feed.lastSeq < entry.1 → entry ∈ iterator
  waiting : feed.notifyDue = false → feed.task = .waiting false →
    ∀ entry ∈ feed.chainDB.db.mutableKV.entries, entry.1 ≤ feed.lastSeq

theorem Feed.mem_iterator (hlast : (feed.chainDB.db.mutableKV.get feed.lastSeq).isSome = true)
    {entry : ℕ × Log} (hentry : entry ∈ feed.chainDB.db.mutableKV.entries)
    (hlt : feed.lastSeq < entry.1) : entry ∈ feed.iterator := by
  obtain ⟨log, hget⟩ := Option.isSome_iff_exists.mp hlast
  obtain ⟨rest, hrest⟩ := SortedMap.entriesFrom_of_get hget
  have hmem : entry ∈ (feed.lastSeq, log) :: rest :=
    hrest ▸ SortedMap.mem_entriesFrom.mpr ⟨hentry, hlt.le⟩
  rw [Feed.iterator, hrest]
  rcases List.mem_cons.mp hmem with rfl | hbehind
  · exact absurd hlt (lt_irrefl _)
  · exact hbehind

theorem Feed.UpToDate.step (h : feed.UpToDate) (hhears : feed.hears event = true)
    (hstep : feed.step P genesis event = .ok feed') : feed'.UpToDate := by
  cases Feed.steps_of_step hstep with
  | commit hdue hcommit =>
    constructor <;> intro hnotDue <;> cases hnotDue
  | notify hdue =>
    constructor
    · -- the notification meets a reader, which has everything it announces
      intro _ iterator htask entry hentry hlt
      have hreading : feed.task = .reading iterator := by
        cases htask' : feed.task <;> simp_all [StreamTask.notifyWaiters]
      simp only [Feed.hears, hreading, List.all_eq_true, decide_eq_true_eq] at hhears
      exact hhears entry hentry hlt
    · intro _ htask
      cases htask' : feed.task <;> simp_all [StreamTask.notifyWaiters]
  | iterate htask =>
    constructor
    · intro _ iterator hreading entry hentry hlt
      cases hreading
      exact Feed.mem_iterator hhears hentry hlt
    · intro _ hwaiting
      cases hwaiting
  | @yield log rest htask =>
    constructor
    · intro hdue iterator hreading entry hentry hlt
      cases hreading
      have hmem := h.reading hdue _ htask entry hentry (Nat.lt_of_succ_lt hlt)
      rcases List.mem_cons.mp hmem with rfl | hrest
      · exact absurd hlt (lt_irrefl _)
      · exact hrest
    · intro _ hwaiting
      cases hwaiting
  | close htask hgap =>
    constructor <;> intro _ <;> intros <;> contradiction
  | register htask =>
    constructor
    · intro _ iterator hreading
      cases hreading
    · intro hdue _ entry hentry
      by_contra hlt
      have hmem := h.reading hdue _ htask entry hentry (not_le.mp hlt)
      cases hmem

/-- A stream that is never notified while it reads an older iterator loses no wakeup. -/
theorem no_lostWakeup_of_hears {chainDB : ChainDB} {notifyDue : Bool} {seq : ℕ}
    {events : List FeedEvent} {feed : Feed}
    (hhears : Run.meets (Feed.step P genesis) Feed.hears (.start chainDB notifyDue seq) events =
      true)
    (hrun : Run.run (Feed.step P genesis) (.start chainDB notifyDue seq) events = .ok feed) :
    ¬ feed.LostWakeup := by
  have hinv : feed.UpToDate := by
    refine Run.invariant_of_meets (I := fun _ => Feed.UpToDate) ⟨?_, ?_⟩
      (fun _ _ _ _ _ h hhears hstep => h.step hhears hstep) hhears hrun
    · intro _ iterator hreading
      cases hreading
    · intro _ hwaiting
      cases hwaiting
  rintro ⟨htask, hdue, entry, hentry, hlt⟩
  exact absurd (hinv.waiting hdue htask entry hentry) (not_le.mpr hlt)

def sampleFeed (immutableAfterSlots : Option ℕ) (blocks : List StoredBlock) : Except Error ChainDB :=
  Run.run (ChainDB.step (samplePallas blocks) []) (Server.empty immutableAfterSlots).chainDB
    [.apply [1] true]

theorem no_lostWakeup_of_hears_waiting :
    ∃ chainDB feed, sampleFeed none forkBlocks = .ok chainDB ∧
      Run.run (Feed.step (samplePallas forkBlocks) []) (.start chainDB false 1)
        [.iterate, .register, .commit (.apply [2] true), .notify, .iterate, .next, .register] =
        .ok feed ∧
      feed.task = .waiting false ∧ feed.lastSeq = 2 ∧ ¬ feed.LostWakeup :=
  ⟨_, _, Except.eq_ok_get (by decide +kernel), Except.eq_ok_get (by decide +kernel),
    by decide +kernel, by decide +kernel,
    no_lostWakeup_of_hears (by decide +kernel) (Except.eq_ok_get _)⟩

/-- A block announced between the iterator and the wait is announced to nobody. -/
theorem wakeup_lost_between_iterator_and_waiter :
    ∃ chainDB feed, sampleFeed none forkBlocks = .ok chainDB ∧
      findWalSeq chainDB.db.mutableKV 10 (sampleHash 1) = some 1 ∧
      Run.run (Feed.step (samplePallas forkBlocks) []) (.start chainDB false 1)
        [.iterate, .commit (.apply [2] true), .notify, .register] = .ok feed ∧
      feed.LostWakeup :=
  ⟨_, _, Except.eq_ok_get (by decide +kernel), by decide +kernel,
    Except.eq_ok_get (by decide +kernel), by decide +kernel⟩

/-! ## What is yielded -/

def FeedEvent.isLogged : FeedEvent → Bool
  | .commit command => command.isLogged
  | _ => true

structure Feed.Faithful (seq : ℕ) (feed : Feed) : Prop where
  records : ∃ base written, base ≤ seq ∧ feed.journal = numbered base written ∧
    Records base written feed.chainDB.db.mutableKV feed.chainDB.nextWalSeq
  last : feed.lastSeq = seq + feed.yielded.length
  last_lt : feed.lastSeq < feed.chainDB.nextWalSeq
  yielded : feed.yielded <+: feed.journal.filter fun entry => seq + 1 ≤ entry.1
  iterator : ∀ iterator, feed.task = .reading iterator → ∀ entry ∈ iterator, entry ∈ feed.journal

theorem Feed.iterator_subset (feed : Feed) :
    feed.iterator ⊆ feed.chainDB.db.mutableKV.entries := fun _ hentry =>
  (SortedMap.mem_entriesFrom.mp (List.mem_of_mem_drop hentry)).1

theorem entriesFrom_of_step {self self' : ChainDB} {command : Command}
    (hlogged : command.isLogged = true) (hstep : self.step P genesis command = .ok self')
    (hrecords : Records base written self.db.mutableKV self.nextWalSeq) :
    ∃ logs, self'.db.mutableKV.entriesFrom self.nextWalSeq = numbered self.nextWalSeq logs ∧
      Records base (written ++ logs) self'.db.mutableKV self'.nextWalSeq ∧
      self.nextWalSeq ≤ self'.nextWalSeq ∧
      ∀ entry ∈ self'.db.mutableKV.entries,
        entry ∈ self.db.mutableKV.entries ∨ self.nextWalSeq ≤ entry.1 := by
  obtain ⟨logs, beforeSlot, -, hentries, hnext⟩ := log_of_step hlogged hstep hrecords
  have hkept : ∀ entry ∈ (prune self.db.mutableKV beforeSlot).entries,
      entry ∈ self.db.mutableKV.entries := fun entry hentry =>
    (List.dropWhile_sublist _).subset hentry
  have hnew : ∀ entry ∈ numbered self.nextWalSeq logs, self.nextWalSeq ≤ entry.1 :=
    fun entry hentry => (mem_numbered.mp hentry).1
  refine ⟨logs, ?_, records_of_log hrecords hentries hnext, by omega, fun entry hentry => ?_⟩
  · have hfront : (prune self.db.mutableKV beforeSlot).entries.filter
        (fun entry => self.nextWalSeq ≤ entry.1) = [] := by
      rw [List.filter_eq_nil_iff]
      intro entry hentry
      simpa using hrecords.lt_next (hkept entry hentry)
    have hback : (numbered self.nextWalSeq logs).filter
        (fun entry => self.nextWalSeq ≤ entry.1) = numbered self.nextWalSeq logs := by
      rw [List.filter_eq_self]
      intro entry hentry
      exact decide_eq_true (hnew entry hentry)
    rw [SortedMap.entriesFrom, hentries, List.filter_append, hfront, hback, List.nil_append]
  · rw [hentries, List.mem_append] at hentry
    exact hentry.imp (hkept entry) (hnew entry)

theorem Feed.Faithful.step (h : feed.Faithful seq) (hlogged : event.isLogged = true)
    (hstep : feed.step P genesis event = .ok feed') : feed'.Faithful seq := by
  obtain ⟨base, written, hbase, hjournal, hrecords⟩ := h.records
  cases Feed.steps_of_step hstep with
  | commit hdue hcommit =>
    obtain ⟨logs, hnew, hrecords', hnext, -⟩ := entriesFrom_of_step hlogged hcommit hrecords
    refine ⟨⟨base, written ++ logs, hbase, ?_, hrecords'⟩, h.last, h.last_lt.trans_le hnext,
      ?_, fun iterator htask entry hentry => ?_⟩
    · change feed.journal ++ _ = _
      rw [hnew, hjournal, numbered_append, ← hrecords.next_eq]
    · change _ <+: (feed.journal ++ _).filter _
      rw [List.filter_append]
      exact h.yielded.trans (List.prefix_append ..)
    · exact List.mem_append_left _ (h.iterator iterator htask entry hentry)
  | notify hdue =>
    refine ⟨h.records, h.last, h.last_lt, h.yielded, fun iterator htask => ?_⟩
    refine h.iterator iterator ?_
    cases htask' : feed.task <;> simp_all [StreamTask.notifyWaiters]
  | iterate htask =>
    refine ⟨h.records, h.last, h.last_lt, h.yielded, fun iterator hreading entry hentry => ?_⟩
    cases hreading
    change entry ∈ feed.journal
    rw [hjournal]
    exact hrecords.suffix.subset (feed.iterator_subset hentry)
  | @yield log rest htask =>
    have hmem : (feed.lastSeq + 1, log) ∈ feed.journal :=
      h.iterator _ htask _ (List.mem_cons_self ..)
    have hnumber : feed.lastSeq + 1 = seq + 1 + feed.yielded.length := by
      have hlast := h.last
      omega
    refine ⟨h.records, ?_, ?_, ?_, fun iterator hreading entry hentry => ?_⟩
    · simp [h.last, Nat.add_assoc]
    · exact hrecords.lt_next_of_mem (hjournal ▸ hmem)
    · -- the entry with the next number is the one behind those yielded
      have hyielded := h.yielded
      have hbehind : (feed.lastSeq + 1, log) ∈
          feed.journal.filter fun entry => seq + 1 ≤ entry.1 :=
        List.mem_filter.mpr ⟨hmem, decide_eq_true (by omega)⟩
      rw [hjournal, filter_numbered (Nat.le_succ_of_le hbase)] at hyielded hbehind
      change feed.yielded ++ [(feed.lastSeq + 1, log)] <+: feed.journal.filter _
      rw [hjournal, filter_numbered (Nat.le_succ_of_le hbase), hnumber]
      rw [hnumber] at hbehind
      exact concat_isPrefix_numbered hyielded hbehind
    · cases hreading
      exact h.iterator _ htask entry (List.mem_cons_of_mem _ hentry)
  | close htask hgap =>
    refine ⟨h.records, h.last, h.last_lt, h.yielded, fun iterator hreading => ?_⟩
    cases hreading
  | register htask =>
    refine ⟨h.records, h.last, h.last_lt, h.yielded, fun iterator hreading => ?_⟩
    cases hreading

structure Feed.CutOff (last : ℕ) (yielded : List (ℕ × Log)) (feed : Feed) : Prop where
  records : ∃ base written,
    Records base written feed.chainDB.db.mutableKV feed.chainDB.nextWalSeq
  last_eq : feed.lastSeq = last
  last_lt : last < feed.chainDB.nextWalSeq
  yielded_eq : feed.yielded = yielded
  gone : ∀ entry ∈ feed.chainDB.db.mutableKV.entries, last < entry.1
  iterator : ∀ iterator, feed.task = .reading iterator → ∀ entry ∈ iterator, last + 1 < entry.1

theorem Feed.lt_of_mem_iterator
    (hgone : ∀ entry ∈ feed.chainDB.db.mutableKV.entries, feed.lastSeq < entry.1) {entry : ℕ × Log}
    (hentry : entry ∈ feed.iterator) : feed.lastSeq + 1 < entry.1 := by
  have hsorted : (feed.chainDB.db.mutableKV.entriesFrom feed.lastSeq).Pairwise
      fun a b => a.1 < b.1 := (SortedMap.sorted _).filter _
  rw [Feed.iterator] at hentry
  cases hfrom : feed.chainDB.db.mutableKV.entriesFrom feed.lastSeq with
  | nil => simp [hfrom] at hentry
  | cons first rest =>
    have hfirst := hgone first (SortedMap.mem_entriesFrom.mp
      (hfrom ▸ List.mem_cons_self .. : first ∈ _)).1
    rw [hfrom, List.pairwise_cons] at hsorted
    rw [hfrom] at hentry
    have hlt := hsorted.1 entry hentry
    omega

theorem Feed.CutOff.step {last : ℕ} {yielded : List (ℕ × Log)} (h : feed.CutOff last yielded)
    (hlogged : event.isLogged = true) (hstep : feed.step P genesis event = .ok feed') :
    feed'.CutOff last yielded := by
  cases Feed.steps_of_step hstep with
  | commit hdue hcommit =>
    obtain ⟨base, written, hrecords⟩ := h.records
    obtain ⟨logs, -, hrecords', hnext, hold⟩ := entriesFrom_of_step hlogged hcommit hrecords
    refine ⟨⟨base, _, hrecords'⟩, h.last_eq, h.last_lt.trans_le hnext, h.yielded_eq,
      fun entry hentry => ?_, h.iterator⟩
    rcases hold entry hentry with hkept | hnew
    · exact h.gone entry hkept
    · exact h.last_lt.trans_le hnew
  | notify hdue =>
    refine ⟨h.records, h.last_eq, h.last_lt, h.yielded_eq, h.gone, fun iterator htask => ?_⟩
    refine h.iterator iterator ?_
    cases htask' : feed.task <;> simp_all [StreamTask.notifyWaiters]
  | iterate htask =>
    refine ⟨h.records, h.last_eq, h.last_lt, h.yielded_eq, h.gone,
      fun iterator hreading entry hentry => ?_⟩
    cases hreading
    have hgone := h.gone
    rw [← h.last_eq] at hgone ⊢
    exact Feed.lt_of_mem_iterator hgone hentry
  | @yield log rest htask =>
    -- there is no entry with the next number to be yielded
    have hlt := h.iterator _ htask _ (List.mem_cons_self ..)
    rw [h.last_eq] at hlt
    exact absurd hlt (lt_irrefl _)
  | close htask hgap =>
    refine ⟨h.records, h.last_eq, h.last_lt, h.yielded_eq, h.gone, fun iterator hreading => ?_⟩
    cases hreading
  | register htask =>
    refine ⟨h.records, h.last_eq, h.last_lt, h.yielded_eq, h.gone, fun iterator hreading => ?_⟩
    cases hreading

theorem exists_records_of_run {opened : ChainDB} {commands : List Command}
    (hempty : opened.db.mutableKV = ∅) (hlogged : ∀ command ∈ commands, command.isLogged = true)
    (hrun : Run.run (ChainDB.step P genesis) opened commands = .ok chainDB) :
    ∃ base written, Records base written chainDB.db.mutableKV chainDB.nextWalSeq := by
  refine Run.invariant (I := fun past mid => (∀ command ∈ past, command.isLogged = true) →
    ∃ base written, Records base written mid.db.mutableKV mid.nextWalSeq)
    (fun _ => ⟨opened.nextWalSeq, [], hempty ▸ Records.empty _⟩) ?_ hrun hlogged
  intro past mid command next _ hmid hstep hall
  obtain ⟨base, written, hrecords⟩ := hmid fun c hc => hall c (List.mem_append_left _ hc)
  obtain ⟨logs, -, hlogs⟩ := records_step (hall command (by simp)) hstep hrecords
  exact ⟨base, _, hlogs⟩

theorem Feed.Faithful.start {notifyDue : Bool} {entry : Log}
    (hrecords : Records base written chainDB.db.mutableKV chainDB.nextWalSeq)
    (hentry : (seq, entry) ∈ chainDB.db.mutableKV.entries) :
    (Feed.start chainDB notifyDue seq).Faithful seq := by
  -- what is in the log is what was written from the first entry that is still there on
  obtain ⟨pruned, hpruned⟩ := hrecords.suffix
  have hlength : pruned.length ≤ written.length := by
    have hlengths := congrArg List.length hpruned
    simp only [List.length_append, length_numbered] at hlengths
    omega
  have hsplit : numbered base written = numbered base (written.take pruned.length) ++
      numbered (base + pruned.length) (written.drop pruned.length) := by
    conv_lhs => rw [← List.take_append_drop pruned.length written]
    rw [numbered_append, List.length_take_of_le hlength]
  have hentries : chainDB.db.mutableKV.entries =
      numbered (base + pruned.length) (written.drop pruned.length) :=
    (List.append_inj (hpruned.trans hsplit) (by
      rw [length_numbered, List.length_take_of_le hlength])).2
  have hnext : chainDB.nextWalSeq =
      base + pruned.length + (written.drop pruned.length).length := by
    rw [hrecords.next_eq, List.length_drop]
    omega
  refine ⟨⟨base + pruned.length, written.drop pruned.length, ?_, hentries, hnext, ?_⟩, rfl,
    hrecords.lt_next hentry, List.nil_prefix, fun iterator hreading => ?_⟩
  · exact (mem_numbered.mp (hentries ▸ hentry)).1
  · change chainDB.db.mutableKV.entries <:+ _
    rw [hentries]
  · cases hreading

def sparseBlocks : List StoredBlock :=
  [sampleBlock 0 1 none [], sampleBlock 20 2 (some 1) [], sampleBlock 40 3 (some 2) [],
    sampleBlock 60 4 (some 3) []]

end CardanoIndexer.Compressor
