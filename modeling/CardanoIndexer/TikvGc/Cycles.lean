import CardanoIndexer.TikvGc.Safepoint

/-!
# Cycle after cycle

`Running` is what holds between two cycles.
-/

namespace CardanoIndexer.TikvGc

open Sorting Timbre

structure Collector where
  redis : Redis
  clock : ℤ
  safepoint : Option Timestamp

inductive Event where
  | publish (now : ℤ) (key : RedisKey) (entry : RedisEntry) (place : ℕ)
  | cycle (now : ℤ) (order : List RedisKey)

def insertEntry (entries : List RedisEntry) (entry : RedisEntry) (place : ℕ) : List RedisEntry :=
  entries.take place ++ entry :: entries.drop place

variable {e : RedisEntry} {place : ℕ}

theorem mem_insertEntry {entries : List RedisEntry} {entry : RedisEntry} :
    e ∈ insertEntry entries entry place ↔ e = entry ∨ e ∈ entries := by
  rw [insertEntry, List.mem_append, List.mem_cons, ← or_assoc, or_comm (a := e ∈ _), or_assoc,
    ← List.mem_append, List.take_append_drop]

namespace Collector

def step (options : Options) (self : Collector) : Event → Except Panic Collector
  | .publish now key entry place =>
    .ok { self with
      redis := fun k => if k = key then insertEntry (self.redis k) entry place else self.redis k
      clock := now }
  | .cycle now order => do
    let (safepoint, redis) ← getNewSafepoint options self.redis order now
    return ⟨redis, now, safepoint⟩

def allows (keys : List RedisKey) (self : Collector) : Event → Bool
  | .publish now key entry _ =>
    self.clock ≤ now && decide (key ∈ keys) && decide (entry.commitTs.physical ≤ now) &&
      (self.redis key).all fun e => e.network = entry.network && decide (e.commitTs < entry.commitTs)
  | .cycle now order => self.clock ≤ now && decide (order.Perm keys)

structure Fed (keys : List RedisKey) (state : Collector) : Prop where
  ne_nil : ∀ key ∈ keys, state.redis key ≠ []
  network : ∀ key ∈ keys, ∀ e ∈ state.redis key, ∀ e' ∈ state.redis key, e.network = e'.network
  past : ∀ key ∈ keys, ∀ e ∈ state.redis key, e.commitTs.physical ≤ state.clock

def KeepsEntries (self : Collector) (order : List RedisKey) (after : Collector) : Prop :=
  (∀ key ∈ order, ∃ tip, instanceChaintip key (self.redis key) = .ok tip ∧
    tip ∈ after.redis key) ∧
  ∀ group ∈ networkMap (fetchEntryMap self.redis order), ∃ block,
    safepointBlock (fetchEntryMap self.redis order) group.1 group.2 = .ok block ∧
      ∀ key ∈ group.2, holdsBlock (after.redis key) block = true

end Collector

/-! ## The entry map of a cycle -/

section EntryMap

variable {redis : Redis} {order : List RedisKey}

theorem mem_fetchEntryMap {item : RedisKey × List RedisEntry} :
    item ∈ (fetchEntryMap redis order).toList ↔
      item.1 ∈ order ∧ redis item.1 ≠ [] ∧ item.2 = redis item.1 := by
  obtain ⟨key, entries⟩ := item
  simp only [fetchEntryMap, List.mem_map, List.mem_filter, List.mem_dedup, Prod.mk.injEq]
  constructor
  · rintro ⟨_, ⟨hkey, hne⟩, rfl, rfl⟩
    exact ⟨hkey, by simpa using hne, rfl⟩
  · rintro ⟨hkey, hne, rfl⟩
    exact ⟨key, ⟨hkey, by simpa using hne⟩, rfl, rfl⟩

theorem mem_fetchEntryMap_of {key : RedisKey} (hkey : key ∈ order) (hne : redis key ≠ []) :
    (key, redis key) ∈ (fetchEntryMap redis order).toList :=
  mem_fetchEntryMap.mpr ⟨hkey, hne, rfl⟩

theorem lookup_of_mem {items : List (RedisKey × List RedisEntry)}
    (hnodup : (items.map Prod.fst).Nodup) {key : RedisKey} {entries : List RedisEntry}
    (h : (key, entries) ∈ items) : items.lookup key = some entries := by
  induction items with
  | nil => cases h
  | cons item rest ih =>
    obtain ⟨hnew, hnodup⟩ := List.nodup_cons.mp hnodup
    rcases List.mem_cons.mp h with rfl | h
    · simp
    · have hne : key ≠ item.1 := by
        rintro rfl
        exact hnew (List.mem_map.mpr ⟨_, h, rfl⟩)
      rw [List.lookup_cons, beq_false_of_ne hne]
      exact ih hnodup h

theorem entriesOf_fetchEntryMap {key : RedisKey} (hkey : key ∈ order) :
    (fetchEntryMap redis order).entriesOf key = redis key := by
  by_cases hne : redis key = []
  · have hnone : (fetchEntryMap redis order).toList.lookup key = none := by
      rw [List.lookup_eq_none_iff]
      intro item hitem
      obtain ⟨-, hentries, -⟩ := mem_fetchEntryMap.mp hitem
      have hother : key ≠ item.1 := by
        rintro rfl
        exact hentries hne
      simpa using hother
    rw [EntryMap.entriesOf, hnone, hne]
    rfl
  · rw [EntryMap.entriesOf, lookup_of_mem (fetchEntryMap redis order).nodup
      (mem_fetchEntryMap_of hkey hne)]
    rfl

theorem mem_instancesOf_fetchEntryMap {key : RedisKey} {network : String} :
    key ∈ (fetchEntryMap redis order).instancesOf network ↔
      key ∈ order ∧ (redis key).head?.map RedisEntry.network = some network := by
  simp only [EntryMap.instancesOf, List.mem_map, List.mem_filter, mem_fetchEntryMap,
    decide_eq_true_eq]
  constructor
  · rintro ⟨item, ⟨⟨hkey, -, hitem⟩, hnetwork⟩, rfl⟩
    exact ⟨hkey, hitem ▸ hnetwork⟩
  · rintro ⟨hkey, hnetwork⟩
    refine ⟨(key, redis key), ⟨⟨hkey, fun hnil => ?_, rfl⟩, hnetwork⟩, rfl⟩
    rw [hnil] at hnetwork
    cases hnetwork

end EntryMap

theorem getNewSafepoint_eq_ok {options : Options} {redis redis' : Redis} {order : List RedisKey}
    {now : ℤ} {result : Option Timestamp} {key : RedisKey} (hkey : key ∈ order)
    (hne : redis key ≠ [])
    (h : getNewSafepoint options redis order now = .ok (result, redis')) :
    ∃ safepoint, result = some safepoint ∧
      chooseSafepoint options (fetchEntryMap redis order) now = .ok safepoint ∧
      0 ≤ safepoint.physical ∧ ∀ k ∈ order, redis' k = prune safepoint (redis k) := by
  have hitem := mem_fetchEntryMap_of hkey hne
  unfold getNewSafepoint at h
  rw [if_neg (List.ne_nil_of_mem hitem)] at h
  obtain ⟨safepoint, hchosen, h⟩ := Except.bind_eq_ok.mp h
  obtain ⟨version, hversion, h⟩ := Except.bind_eq_ok.mp h
  cases h
  refine ⟨safepoint, rfl, hchosen, Timestamp.version_eq_ok hversion, fun k hk => ?_⟩
  unfold pruneAll
  split
  case isTrue => rfl
  case isFalse hmem =>
    have hnil : redis k = [] := by
      by_contra hne
      exact hmem (List.mem_map.mpr ⟨_, mem_fetchEntryMap_of hk hne, rfl⟩)
    rw [hnil]
    rfl

variable {safepoint : Timestamp}

theorem mem_prune {entries : List RedisEntry} :
    e ∈ prune safepoint entries ↔ e ∈ entries ∧ safepoint.physical ≤ e.commitTs.physical := by
  simp only [prune, List.mem_filter, decide_eq_true_eq]
  constructor
  · rintro ⟨he, hlt⟩
    exact ⟨he, by omega⟩
  · rintro ⟨he, hle⟩
    exact ⟨he, by omega⟩

theorem mem_blockOptions {entries : List RedisEntry} :
    e ∈ blockOptions entries ↔ e ∈ entries ∧ e.wasMempool = false := by
  simp [blockOptions]

/-! ## Between two cycles -/

structure Running (options : Options) (keys : List RedisKey) (networkOf : RedisKey → String)
    (state : Collector) (safepoint : Timestamp) : Prop where
  safepoint_eq : state.safepoint = some safepoint
  nonneg : 0 ≤ safepoint.physical
  zone : safepoint.physical ≤ saturatingSub state.clock options.safeZoneMillis
  blocks : ∀ key ∈ keys, blockOptions (state.redis key) ≠ []
  network : ∀ key ∈ keys, ∀ e ∈ state.redis key, e.network = networkOf key
  past : ∀ key ∈ keys, ∀ e ∈ state.redis key, e.commitTs.physical ≤ state.clock
  above : ∀ key ∈ keys, ∀ e ∈ state.redis key, safepoint.physical ≤ e.commitTs.physical
  common : ∀ network, ∃ block, ∀ key ∈ keys, networkOf key = network →
    holdsBlock (state.redis key) block = true

theorem saturatingSub_mono {a a' : ℤ} (h : a ≤ a') (b : ℤ) :
    saturatingSub a b ≤ saturatingSub a' b := by
  unfold saturatingSub
  exact max_le_max le_rfl (min_le_min le_rfl (by omega))

section Cycle

variable {options : Options} {keys : List RedisKey} {networkOf : RedisKey → String}
  {self after : Collector} {now : ℤ} {order : List RedisKey}

theorem head_network (hne : ∀ key ∈ keys, self.redis key ≠ [])
    (hnetwork : ∀ key ∈ keys, ∀ e ∈ self.redis key, e.network = networkOf key) {key : RedisKey}
    (hkey : key ∈ keys) :
    (self.redis key).head?.map RedisEntry.network = some (networkOf key) := by
  cases hentries : self.redis key with
  | nil => exact absurd hentries (hne key hkey)
  | cons e rest =>
    have he := hnetwork key hkey e (hentries ▸ List.mem_cons_self ..)
    simp [he]

theorem cycle_keeps (hperm : order.Perm keys) (hne : ∀ key ∈ keys, self.redis key ≠ [])
    (hkeys : keys ≠ []) (hstep : self.step options (.cycle now order) = .ok after) :
    ∃ safepoint, after.safepoint = some safepoint ∧ after.clock = now ∧
      0 ≤ safepoint.physical ∧
      chooseSafepoint options (fetchEntryMap self.redis order) now = .ok safepoint ∧
      (∀ key ∈ keys, after.redis key = prune safepoint (self.redis key)) ∧
      self.KeepsEntries order after := by
  obtain ⟨first, hfirst⟩ := List.exists_mem_of_ne_nil _ hkeys
  obtain ⟨⟨result, redis'⟩, hnew, hafter⟩ := Except.bind_eq_ok.mp hstep
  cases hafter
  obtain ⟨safepoint, rfl, hchosen, hnonneg, hpruned⟩ :=
    getNewSafepoint_eq_ok (hperm.mem_iff.mpr hfirst) (hne first hfirst) hnew
  have hcovered := chooseSafepoint_le_iff hchosen
  refine ⟨safepoint, rfl, rfl, hnonneg, hchosen,
    fun key hkey => hpruned key (hperm.mem_iff.mpr hkey), fun key hkey => ?_, ?_⟩
  · have hitem := mem_fetchEntryMap_of hkey (hne key (hperm.mem_iff.mp hkey))
    obtain ⟨chaintip, hchaintip, -⟩ := Except.bind_eq_ok.mp hchosen
    obtain ⟨chaintips, hchaintips, -⟩ := Except.bind_eq_ok.mp hchaintip
    obtain ⟨tip, htip⟩ := Except.exists_ok_of_mapM hchaintips hitem
    have hle := (hcovered tip.commitTs).mpr
      (Or.inr (Or.inl ⟨_, hitem, tip, instanceChaintip_eq_ok htip, le_rfl⟩))
    refine ⟨tip, htip, ?_⟩
    change tip ∈ redis' key
    rw [hpruned key hkey, mem_prune]
    exact ⟨(mem_blockOptions.mp (instanceChaintip_eq_ok htip).1).1, Timestamp.physical_le hle⟩
  · rintro ⟨network, instances⟩ hgroup
    obtain ⟨rfl, -⟩ := mem_networkMap.mp hgroup
    obtain ⟨chaintip, -, hrest⟩ := Except.bind_eq_ok.mp hchosen
    obtain ⟨intersection, hintersection, -⟩ := Except.bind_eq_ok.mp hrest
    obtain ⟨timestamps, htimestamps, -⟩ := Except.bind_eq_ok.mp hintersection
    obtain ⟨ts, hts⟩ := Except.exists_ok_of_mapM htimestamps hgroup
    obtain ⟨block, hblock, -⟩ := Except.bind_eq_ok.mp hts
    have hkept := safepointBlock_eq_ok.mp hblock
    refine ⟨block, hblock, fun key hkey => ?_⟩
    obtain ⟨last, hlast⟩ := exists_latestCommitTs ((isCommon_of_keptBlock hkept).holdsBlock hkey)
    have hgreatest := latestCommitTs_eq_ok.mp hlast
    have hle := (hcovered last).mpr
      (Or.inr (Or.inr ⟨network, block, hkept, key, hkey, last, hgreatest, le_rfl⟩))
    obtain ⟨e, he, hsame, rfl⟩ := hgreatest.1
    have horder := (mem_instancesOf_fetchEntryMap.mp hkey).1
    rw [entriesOf_fetchEntryMap horder, mem_blockOptions] at he
    change holdsBlock (redis' key) block = true
    rw [hpruned key horder, holdsBlock_iff]
    exact ⟨e, mem_blockOptions.mpr ⟨mem_prune.mpr ⟨he.1, Timestamp.physical_le hle⟩, he.2⟩, hsame⟩

theorem running_of_cycle (hperm : order.Perm keys) (hkeys : keys ≠ [])
    (hne : ∀ key ∈ keys, self.redis key ≠ [])
    (hnetwork : ∀ key ∈ keys, ∀ e ∈ self.redis key, e.network = networkOf key)
    (hpast : ∀ key ∈ keys, ∀ e ∈ self.redis key, e.commitTs.physical ≤ self.clock)
    (hclock : self.clock ≤ now) (hstep : self.step options (.cycle now order) = .ok after) :
    ∃ safepoint, Running options keys networkOf after safepoint := by
  obtain ⟨safepoint, hsafepoint, hnow, hnonneg, hchosen, hpruned, htips, hblocks⟩ :=
    cycle_keeps hperm hne hkeys hstep
  have hsubset : ∀ key ∈ keys, ∀ e ∈ after.redis key,
      e ∈ self.redis key ∧ safepoint.physical ≤ e.commitTs.physical := by
    intro key hkey e he
    rw [hpruned key hkey] at he
    exact mem_prune.mp he
  refine ⟨safepoint, hsafepoint, hnonneg, ?_, fun key hkey => ?_, fun key hkey e he => ?_,
    fun key hkey e he => ?_, fun key hkey e he => (hsubset key hkey e he).2, fun network => ?_⟩
  · rw [hnow]
    exact Timestamp.physical_le ((chooseSafepoint_le_iff hchosen _).mpr (Or.inl le_rfl))
  · obtain ⟨tip, htip, hmem⟩ := htips key (hperm.mem_iff.mpr hkey)
    exact List.ne_nil_of_mem (mem_blockOptions.mpr
      ⟨hmem, (mem_blockOptions.mp (instanceChaintip_eq_ok htip).1).2⟩)
  · exact hnetwork key hkey e (hsubset key hkey e he).1
  · rw [hnow]
    exact (hpast key hkey e (hsubset key hkey e he).1).trans hclock
  · by_cases hused : ∃ key ∈ keys, networkOf key = network
    · obtain ⟨key, hkey, rfl⟩ := hused
      have hinstance := mem_instancesOf_fetchEntryMap.mpr
        ⟨hperm.mem_iff.mpr hkey, head_network hne hnetwork hkey⟩
      obtain ⟨block, -, hholds⟩ := hblocks _
        (mem_networkMap.mpr ⟨rfl, List.ne_nil_of_mem hinstance⟩)
      refine ⟨block, fun other hother hsame => hholds other ?_⟩
      exact mem_instancesOf_fetchEntryMap.mpr
        ⟨hperm.mem_iff.mpr hother, hsame ▸ head_network hne hnetwork hother⟩
    · exact ⟨default, fun key hkey hsame => absurd ⟨key, hkey, hsame⟩ hused⟩

theorem Running.ne_nil (h : Running options keys networkOf self safepoint) {key : RedisKey}
    (hkey : key ∈ keys) : self.redis key ≠ [] := by
  intro hnil
  exact h.blocks key hkey (by rw [hnil]; rfl)

theorem Running.exists_cycle (h : Running options keys networkOf self safepoint)
    (hperm : order.Perm keys) (hkeys : keys ≠ []) (hclock : self.clock ≤ now) :
    ∃ after safepoint', self.step options (.cycle now order) = .ok after ∧
      after.safepoint = some safepoint' ∧ safepoint.physical ≤ safepoint'.physical := by
  set entryMap := fetchEntryMap self.redis order with hmap
  have hitems : ∀ item ∈ entryMap.toList, item.1 ∈ keys ∧ item.2 = self.redis item.1 := by
    intro item hitem
    obtain ⟨hkey, -, hentries⟩ := mem_fetchEntryMap.mp hitem
    exact ⟨hperm.mem_iff.mp hkey, hentries⟩
  have hne : entryMap.toList ≠ [] := by
    obtain ⟨key, hkey⟩ := List.exists_mem_of_ne_nil _ hkeys
    exact List.ne_nil_of_mem (mem_fetchEntryMap_of (hperm.mem_iff.mpr hkey) (h.ne_nil hkey))
  obtain ⟨safepoint', hchosen⟩ : ∃ safepoint',
      chooseSafepoint options entryMap now = .ok safepoint' := by
    refine exists_chooseSafepoint options hne (fun item hitem => ?_) (fun network hnetwork => ?_)
      fun item hitem tip htip => ?_
    · obtain ⟨hkey, hentries⟩ := hitems item hitem
      rw [hentries]
      exact h.blocks item.1 hkey
    · obtain ⟨block, hblock⟩ := h.common network
      refine ⟨block, List.all_eq_true.mpr fun key hkey => ?_⟩
      obtain ⟨horder, hhead⟩ := mem_instancesOf_fetchEntryMap.mp hkey
      have hkeys := hperm.mem_iff.mp horder
      rw [entriesOf_fetchEntryMap horder]
      refine hblock key hkeys (Option.some.inj ?_)
      rw [← hhead, head_network (fun k hk => h.ne_nil hk) h.network hkeys]
    · obtain ⟨hkey, hentries⟩ := hitems item hitem
      have hmem := (mem_blockOptions.mp htip.1).1
      rw [hentries] at hmem
      exact (h.past item.1 hkey tip hmem).trans hclock
  have hle : safepoint.physical ≤ safepoint'.physical := by
    rcases (chooseSafepoint_le_iff hchosen safepoint').mp le_rfl with
      hzone | ⟨item, hitem, tip, htip, hle⟩ |
        ⟨network, block, -, key, hkey, last, hlast, hle⟩
    · exact (h.zone.trans (saturatingSub_mono hclock _)).trans (Timestamp.physical_le hzone)
    · obtain ⟨hkey, hentries⟩ := hitems item hitem
      have hmem := (mem_blockOptions.mp htip.1).1
      rw [hentries] at hmem
      exact (h.above item.1 hkey tip hmem).trans (Timestamp.physical_le hle)
    · obtain ⟨e, he, -, rfl⟩ := hlast.1
      have horder := (mem_instancesOf_fetchEntryMap.mp hkey).1
      rw [entriesOf_fetchEntryMap horder, mem_blockOptions] at he
      exact (h.above key (hperm.mem_iff.mp horder) e he.1).trans (Timestamp.physical_le hle)
  obtain ⟨version, hversion⟩ := Timestamp.exists_version (h.nonneg.trans hle)
  have hnew : getNewSafepoint options self.redis order now =
      .ok (some safepoint', pruneAll safepoint' entryMap self.redis) := by
    unfold getNewSafepoint
    rw [if_neg hne]
    exact Except.bind_eq_ok.mpr ⟨safepoint', hchosen,
      Except.bind_eq_ok.mpr ⟨version, hversion, rfl⟩⟩
  exact ⟨⟨pruneAll safepoint' entryMap self.redis, now, some safepoint'⟩, safepoint',
    Except.bind_eq_ok.mpr ⟨_, hnew, rfl⟩, rfl, hle⟩

theorem Running.publish {key : RedisKey} {entry : RedisEntry}
    (h : Running options keys networkOf self safepoint)
    (hallows : self.allows keys (.publish now key entry place) = true)
    (hstep : self.step options (.publish now key entry place) = .ok after) :
    Running options keys networkOf after safepoint := by
  simp only [Collector.allows, Bool.and_eq_true, decide_eq_true_eq, List.all_eq_true] at hallows
  obtain ⟨⟨⟨hclock, hkey⟩, hpast⟩, hentries⟩ := hallows
  cases hstep
  obtain ⟨e₀, he₀⟩ := List.exists_mem_of_ne_nil _ (h.ne_nil hkey)
  obtain ⟨hnetwork₀, hlt₀⟩ := hentries e₀ he₀
  have hcases : ∀ k e, e ∈ (if k = key then insertEntry (self.redis k) entry place
      else self.redis k) → k = key ∧ e = entry ∨ e ∈ self.redis k := by
    intro k e he
    split at he
    case isTrue heq =>
      rcases mem_insertEntry.mp he with rfl | he
      · exact Or.inl ⟨heq, rfl⟩
      · exact Or.inr he
    case isFalse => exact Or.inr he
  have hgrows : ∀ k e, e ∈ self.redis k → e ∈ (if k = key then
      insertEntry (self.redis k) entry place else self.redis k) := by
    intro k e he
    split
    case isTrue => exact mem_insertEntry.mpr (Or.inr he)
    case isFalse => exact he
  refine ⟨h.safepoint_eq, h.nonneg, h.zone.trans (saturatingSub_mono hclock _),
    fun k hk => ?_, fun k hk e he => ?_, fun k hk e he => ?_, fun k hk e he => ?_,
    fun network => ?_⟩
  · obtain ⟨e, he⟩ := List.exists_mem_of_ne_nil _ (h.blocks k hk)
    obtain ⟨he, hblock⟩ := mem_blockOptions.mp he
    exact List.ne_nil_of_mem (mem_blockOptions.mpr ⟨hgrows k e he, hblock⟩)
  · rcases hcases k e he with ⟨rfl, rfl⟩ | he
    · rw [← hnetwork₀]
      exact h.network k hk e₀ he₀
    · exact h.network k hk e he
  · rcases hcases k e he with ⟨rfl, rfl⟩ | he
    · exact hpast
    · exact (h.past k hk e he).trans hclock
  · rcases hcases k e he with ⟨rfl, rfl⟩ | he
    · exact (h.above k hk e₀ he₀).trans (Timestamp.physical_le hlt₀.le)
    · exact h.above k hk e he
  · obtain ⟨block, hblock⟩ := h.common network
    refine ⟨block, fun k hk hsame => ?_⟩
    obtain ⟨e, he, hsame⟩ := holdsBlock_iff.mp (hblock k hk hsame)
    obtain ⟨he, hmempool⟩ := mem_blockOptions.mp he
    exact holdsBlock_iff.mpr ⟨e, mem_blockOptions.mpr ⟨hgrows k e he, hmempool⟩, hsame⟩

theorem Running.step {event : Event} (h : Running options keys networkOf self safepoint)
    (hkeys : keys ≠ []) (hallows : self.allows keys event = true) :
    ∃ after safepoint', self.step options event = .ok after ∧
      Running options keys networkOf after safepoint' := by
  cases event with
  | publish now key entry place =>
    exact ⟨_, safepoint, rfl, h.publish hallows rfl⟩
  | cycle now order =>
    rw [Collector.allows, Bool.and_eq_true, decide_eq_true_eq, decide_eq_true_eq] at hallows
    obtain ⟨after, -, hstep, -, -⟩ := h.exists_cycle hallows.2 hkeys hallows.1
    obtain ⟨safepoint', hrunning⟩ := running_of_cycle hallows.2 hkeys (fun k hk => h.ne_nil hk)
      h.network h.past hallows.1 hstep
    exact ⟨after, safepoint', hstep, hrunning⟩

theorem Running.run {events : List Event} (h : Running options keys networkOf self safepoint)
    (hkeys : keys ≠ [])
    (hmeets : Run.meets (Collector.step options) (Collector.allows keys) self events = true) :
    ∃ after safepoint', Run.run (Collector.step options) self events = .ok after ∧
      Running options keys networkOf after safepoint' := by
  induction events generalizing self safepoint with
  | nil => exact ⟨self, safepoint, rfl, h⟩
  | cons event rest ih =>
    rw [Run.meets, Bool.and_eq_true] at hmeets
    obtain ⟨mid, safepoint', hstep, hrunning⟩ := h.step hkeys hmeets.1
    rw [hstep] at hmeets
    obtain ⟨after, safepoint'', hrun, hafter⟩ := ih hrunning hmeets.2
    exact ⟨after, safepoint'', by rw [Run.run_cons, hstep]; exact hrun, hafter⟩

end Cycle

def sampleCollector : Collector where
  redis key := ((sampleMap 10 30).toList.lookup key).getD []
  clock := 3000
  safepoint := none

def sampleEvents : List Event :=
  [.publish 1100000 ⟨0, 0⟩ (sampleEntry 40 1050000) 2,
    .publish 1200000 ⟨0, 1⟩ (sampleEntry 40 1150000) 0]

end CardanoIndexer.TikvGc
