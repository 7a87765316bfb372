import CardanoIndexer.TikvGc.Model
import Mathlib.Order.Bounds.Basic

/-!
# What the safepoint keeps

The safepoint is the earliest of three times (`chooseSafepoint_le_iff`).
-/

namespace CardanoIndexer.TikvGc

open Sorting Timbre

/-! ## Chain tips -/

def IsChaintip (entries : List RedisEntry) (tip : RedisEntry) : Prop :=
  tip ∈ blockOptions entries ∧ ∀ entry ∈ blockOptions entries, entry.rank ≤ tip.rank

variable {tip : RedisEntry} {higher lower : ℕ}

theorem IsChaintip.commitTs_eq {entries : List RedisEntry} {tip' : RedisEntry}
    (h : IsChaintip entries tip) (h' : IsChaintip entries tip') : tip.commitTs = tip'.commitTs := by
  have hrank : tip.rank = tip'.rank := le_antisymm (h'.2 tip h.1) (h.2 tip' h'.1)
  exact congrArg (fun rank => (ofLex rank).2) hrank

theorem instanceChaintip_eq_ok {key : RedisKey} {entries : List RedisEntry}
    (h : instanceChaintip key entries = .ok tip) : IsChaintip entries tip := by
  unfold instanceChaintip at h
  split at h
  case h_1 chaintip hlast =>
    cases h
    exact last_spec hlast
  case h_2 => cases h

theorem exists_instanceChaintip {entries : List RedisEntry} (h : blockOptions entries ≠ [])
    (key : RedisKey) : ∃ tip, instanceChaintip key entries = .ok tip := by
  obtain ⟨tip, hlast⟩ := exists_last RedisEntry.rank h
  exact ⟨tip, by rw [instanceChaintip, hlast]⟩

variable {entryMap : EntryMap} {network : String} {ts : Timestamp} {currentTs : ℤ}

theorem getEarliestChaintipTs_eq_ok (h : getEarliestChaintipTs entryMap currentTs = .ok ts) :
    (∃ item ∈ entryMap.toList, ∃ tip, IsChaintip item.2 tip ∧ tip.commitTs = ts) ∧
      ∀ item ∈ entryMap.toList, ∀ tip, IsChaintip item.2 tip → ts ≤ tip.commitTs := by
  obtain ⟨chaintips, hchaintips, hearliest⟩ := Except.bind_eq_ok.mp h
  split at hearliest
  case h_2 => cases hearliest
  case h_1 earliest hfirst =>
    obtain ⟨hmem, hle⟩ := first_spec hfirst
    split at hearliest
    case isTrue => cases hearliest
    case isFalse =>
      cases hearliest
      constructor
      · obtain ⟨item, hitem, hok⟩ := (Except.mem_of_mapM_eq_ok hchaintips).mp hmem
        exact ⟨item, hitem, earliest, instanceChaintip_eq_ok hok, rfl⟩
      · intro item hitem tip htip
        obtain ⟨found, hfound⟩ := exists_instanceChaintip (List.ne_nil_of_mem htip.1) item.1
        have hlisted := (Except.mem_of_mapM_eq_ok hchaintips).mpr ⟨item, hitem, hfound⟩
        rw [htip.commitTs_eq (instanceChaintip_eq_ok hfound)]
        exact hle found hlisted

theorem exists_getEarliestChaintipTs (hne : entryMap.toList ≠ [])
    (hentries : ∀ item ∈ entryMap.toList, blockOptions item.2 ≠ [])
    (hpast : ∀ item ∈ entryMap.toList, ∀ tip, IsChaintip item.2 tip →
      tip.commitTs.physical ≤ currentTs) :
    ∃ ts, getEarliestChaintipTs entryMap currentTs = .ok ts := by
  obtain ⟨chaintips, hchaintips⟩ := Except.exists_mapM_eq_ok
    fun item hitem => exists_instanceChaintip (hentries item hitem) item.1
  have hnonempty : chaintips ≠ [] := by
    obtain ⟨item, hitem⟩ := List.exists_mem_of_ne_nil _ hne
    obtain ⟨tip, htip⟩ := exists_instanceChaintip (hentries item hitem) item.1
    exact List.ne_nil_of_mem ((Except.mem_of_mapM_eq_ok hchaintips).mpr ⟨item, hitem, htip⟩)
  obtain ⟨earliest, hfirst⟩ := exists_first RedisEntry.commitTs hnonempty
  obtain ⟨item, hitem, hok⟩ :=
    (Except.mem_of_mapM_eq_ok hchaintips).mp (first_spec hfirst).1
  have htip := hpast item hitem earliest (instanceChaintip_eq_ok hok)
  refine ⟨earliest.commitTs, Except.bind_eq_ok.mpr ⟨chaintips, hchaintips, ?_⟩⟩
  simp only [hfirst]
  rw [if_neg (by omega)]
  rfl

def commits (entries : List RedisEntry) (block : BlockId) : Set Timestamp :=
  {ts | ∃ entry ∈ blockOptions entries, entry.block = block ∧ entry.commitTs = ts}

theorem latestCommitTs_eq_ok {entries : List RedisEntry} {block : BlockId} :
    latestCommitTs entries block = .ok ts ↔ IsGreatest (commits entries block) ts := by
  unfold latestCommitTs
  rw [List.head?_reverse]
  cases hlast : (byKey RedisEntry.commitTs
      ((blockOptions entries).filter fun entry => entry.block = block)).getLast? with
  | none =>
    rw [List.getLast?_eq_none_iff, byKey_eq_nil, List.filter_eq_nil_iff] at hlast
    refine ⟨fun h => (by cases h), fun h => ?_⟩
    obtain ⟨entry, hentry, hblock, -⟩ := h.1
    exact absurd (by simpa using hblock) (hlast entry hentry)
  | some entry =>
    obtain ⟨hmem, hle⟩ := last_spec hlast
    obtain ⟨hentry, hblock⟩ := List.mem_filter.mp hmem
    have hgreatest : IsGreatest (commits entries block) entry.commitTs := by
      refine ⟨⟨entry, hentry, by simpa using hblock, rfl⟩, ?_⟩
      rintro _ ⟨other, hother, hsame, rfl⟩
      exact hle other (List.mem_filter.mpr ⟨hother, by simpa using hsame⟩)
    exact ⟨fun h => by cases h; exact hgreatest, fun h => congrArg Except.ok (hgreatest.unique h)⟩

theorem holdsBlock_iff {entries : List RedisEntry} {block : BlockId} :
    holdsBlock entries block = true ↔ ∃ entry ∈ blockOptions entries, entry.block = block := by
  simp [holdsBlock]

theorem exists_latestCommitTs {entries : List RedisEntry} {block : BlockId}
    (h : holdsBlock entries block = true) : ∃ ts, latestCommitTs entries block = .ok ts := by
  obtain ⟨entry, hentry, hblock⟩ := holdsBlock_iff.mp h
  obtain ⟨last, hlast⟩ := exists_last RedisEntry.commitTs (List.ne_nil_of_mem
    (List.mem_filter.mpr ⟨hentry, by simpa using hblock⟩ :
      entry ∈ (blockOptions entries).filter fun entry => entry.block = block))
  exact ⟨last.commitTs, by rw [latestCommitTs, List.head?_reverse, hlast]⟩

/-! ## Networks -/

def EntryMap.instancesOf (entryMap : EntryMap) (network : String) : List RedisKey :=
  (entryMap.toList.filter fun item =>
    item.2.head?.map RedisEntry.network = some network).map Prod.fst

theorem mem_networkMap {instances : List RedisKey} :
    (network, instances) ∈ networkMap entryMap ↔
      instances = entryMap.instancesOf network ∧ instances ≠ [] := by
  simp only [networkMap, List.mem_map, Prod.mk.injEq, Prod.exists, mem_groupBy]
  constructor
  · rintro ⟨_, members, ⟨rfl, hne⟩, rfl, rfl⟩
    exact ⟨rfl, by simpa using hne⟩
  · rintro ⟨rfl, hne⟩
    exact ⟨network, _, ⟨rfl, fun hnil => hne (by rw [EntryMap.instancesOf, hnil]; rfl)⟩, rfl, rfl⟩

def IsCommon (entryMap : EntryMap) (network : String) (block : BlockId) : Prop :=
  isIntersection entryMap (entryMap.instancesOf network) block = true

theorem IsCommon.holdsBlock {block : BlockId} (h : IsCommon entryMap network block) {key : RedisKey}
    (hkey : key ∈ entryMap.instancesOf network) :
    holdsBlock (entryMap.entriesOf key) block = true := List.all_eq_true.mp h key hkey

def IsHighestCommon (entryMap : EntryMap) (network : String) (block : BlockId) : Prop :=
  IsCommon entryMap network block ∧ ∀ other, IsCommon entryMap network other → other.1 ≤ block.1

def IsNextLowerCommon (entryMap : EntryMap) (network : String) (block : BlockId) : Prop :=
  IsCommon entryMap network block ∧
    ∃ best, IsHighestCommon entryMap network best ∧ block.1 < best.1 ∧
      ∀ other, IsCommon entryMap network other → other.1 < best.1 → other.1 ≤ block.1

def candidateBlocks (entryMap : EntryMap) (network : String) : List BlockId :=
  (candidates entryMap (entryMap.instancesOf network)).map RedisEntry.block

def bestBlock (entryMap : EntryMap) (network : String) : Option BlockId :=
  (candidateBlocks entryMap network).find?
    (isIntersection entryMap (entryMap.instancesOf network))

def previousBlock (entryMap : EntryMap) (network : String) : Option BlockId :=
  (bestBlock entryMap network).bind fun best =>
    (candidateBlocks entryMap network).find? fun block =>
      isIntersection entryMap (entryMap.instancesOf network) block && block.1 + 1 = best.1

def keptBlock (entryMap : EntryMap) (network : String) : Option BlockId :=
  (previousBlock entryMap network).or (bestBlock entryMap network)

/-! ## The loop over the candidates -/

section Loop

variable {isCommon : BlockId → Bool} {items : List RedisEntry}

theorem candidateLoop_some (best : BlockId) (hle : ∀ item ∈ items, item.height ≤ best.1)
    (hsorted : items.Pairwise fun a b => b.height ≤ a.height) :
    candidateLoop isCommon items (some best) =
      (some best, (items.map RedisEntry.block).find? fun block =>
        isCommon block && block.1 + 1 = best.1) := by
  induction items with
  | nil => rfl
  | cons item rest ih =>
    obtain ⟨hitem, hrest⟩ := List.forall_mem_cons.mp hle
    obtain ⟨hbelow, hsorted⟩ := List.pairwise_cons.mp hsorted
    simp only [candidateLoop, List.map_cons, List.find?_cons]
    by_cases hsame : item.height = best.1
    · have hskip : (isCommon item.block && decide (item.block.1 + 1 = best.1)) = false := by
        simp [RedisEntry.block, hsame]
      rw [if_pos hsame, ih hrest hsorted, hskip]
    · rw [if_neg hsame]
      by_cases hgap : best.1 = 0 ∨ item.height ≠ best.1 - 1
      · -- the heights go down, so none of the others is a slot lower either
        have hnone : ∀ other ∈ item :: rest, ¬ other.height + 1 = best.1 := by
          intro other hother
          have hother' : other.height ≤ item.height := by
            rcases List.mem_cons.mp hother with rfl | hother
            · exact le_rfl
            · exact hbelow other hother
          omega
        have hskip : (isCommon item.block && decide (item.block.1 + 1 = best.1)) = false := by
          simp [RedisEntry.block, hnone item (List.mem_cons_self ..)]
        rw [if_pos hgap, hskip, eq_comm, Prod.mk.injEq]
        refine ⟨rfl, List.find?_eq_none.mpr fun block hblock => ?_⟩
        obtain ⟨other, hother, rfl⟩ := List.mem_map.mp hblock
        simp [RedisEntry.block, hnone other (List.mem_cons_of_mem _ hother)]
      · have hlower : item.block.1 + 1 = best.1 := by
          change item.height + 1 = best.1
          omega
        rw [if_neg hgap]
        by_cases hcommon : isCommon item.block = true
        · simp [hcommon, hlower]
        · simp [hcommon, ih hrest hsorted]

theorem candidateLoop_none (hsorted : items.Pairwise fun a b => b.height ≤ a.height) :
    candidateLoop isCommon items none =
      ((items.map RedisEntry.block).find? isCommon,
        ((items.map RedisEntry.block).find? isCommon).bind fun best =>
          (items.map RedisEntry.block).find? fun block =>
            isCommon block && block.1 + 1 = best.1) := by
  induction items with
  | nil => rfl
  | cons item rest ih =>
    obtain ⟨hbelow, hsorted⟩ := List.pairwise_cons.mp hsorted
    simp only [candidateLoop, List.map_cons, List.find?_cons]
    by_cases hcommon : isCommon item.block = true
    · simp [hcommon, candidateLoop_some item.block hbelow hsorted]
    · simp [hcommon, ih hsorted]

end Loop

theorem pairwise_candidates (entryMap : EntryMap) (instances : List RedisKey) :
    (candidates entryMap instances).Pairwise fun a b => b.height ≤ a.height := by
  unfold candidates
  split
  · exact List.Pairwise.nil
  · rw [List.pairwise_reverse]
    refine (pairwise_byKey _ _).imp fun h => ?_
    rcases Prod.Lex.toLex_le_toLex.mp h with h | h
    · exact h.le
    · exact h.1.le

theorem safepointBlock_eq (entryMap : EntryMap) (network : String) :
    safepointBlock entryMap network (entryMap.instancesOf network) =
      match keptBlock entryMap network with
      | some block => .ok block
      | none => .error (.noIntersection network) := by
  rw [safepointBlock, candidateLoop_none (pairwise_candidates ..), keptBlock, previousBlock,
    bestBlock, candidateBlocks]
  cases hbest : ((candidates entryMap (entryMap.instancesOf network)).map
      RedisEntry.block).find? (isIntersection entryMap (entryMap.instancesOf network)) with
  | none => rfl
  | some best =>
    simp only [Option.bind_some]
    cases ((candidates entryMap (entryMap.instancesOf network)).map
      RedisEntry.block).find? fun block =>
        isIntersection entryMap (entryMap.instancesOf network) block &&
          decide (block.1 + 1 = best.1) with
    | none => rfl
    | some previous => rfl

theorem safepointBlock_eq_ok {block : BlockId} :
    safepointBlock entryMap network (entryMap.instancesOf network) = .ok block ↔
      keptBlock entryMap network = some block := by
  rw [safepointBlock_eq]
  cases keptBlock entryMap network <;> simp

theorem isCommon_of_keptBlock {block : BlockId} (h : keptBlock entryMap network = some block) :
    IsCommon entryMap network block := by
  rw [keptBlock, Option.or_eq_some_iff] at h
  rcases h with h | ⟨-, h⟩
  · obtain ⟨best, -, hfind⟩ := Option.bind_eq_some_iff.mp h
    have hcommon := List.find?_some hfind
    rw [Bool.and_eq_true] at hcommon
    exact hcommon.1
  · exact List.find?_some h

theorem mem_candidateBlocks {block : BlockId} (hne : entryMap.instancesOf network ≠ [])
    (h : IsCommon entryMap network block) : block ∈ candidateBlocks entryMap network := by
  cases hinstances : entryMap.instancesOf network with
  | nil => exact absurd hinstances hne
  | cons first rest =>
    obtain ⟨entry, hentry, hblock⟩ := holdsBlock_iff.mp
      (h.holdsBlock (hinstances ▸ List.mem_cons_self .. : first ∈ entryMap.instancesOf network))
    rw [candidateBlocks, hinstances, List.mem_map]
    refine ⟨entry, ?_, hblock⟩
    rw [candidates, List.mem_reverse, mem_byKey]
    exact hentry

theorem exists_keptBlock {block : BlockId} (hne : entryMap.instancesOf network ≠ [])
    (h : IsCommon entryMap network block) : ∃ kept, keptBlock entryMap network = some kept := by
  have hbest : (bestBlock entryMap network).isSome :=
    List.find?_isSome.mpr ⟨block, mem_candidateBlocks hne h, h⟩
  obtain ⟨best, hbest⟩ := Option.isSome_iff_exists.mp hbest
  rw [keptBlock, hbest]
  cases previousBlock entryMap network with
  | none => exact ⟨best, rfl⟩
  | some previous => exact ⟨previous, rfl⟩

theorem networkSafepointTs_eq_ok
    (h : networkSafepointTs entryMap network (entryMap.instancesOf network) = .ok ts) :
    ∃ block, keptBlock entryMap network = some block ∧
      (∃ key ∈ entryMap.instancesOf network,
        IsGreatest (commits (entryMap.entriesOf key) block) ts) ∧
      ∀ key ∈ entryMap.instancesOf network, ∀ last,
        IsGreatest (commits (entryMap.entriesOf key) block) last → ts ≤ last := by
  obtain ⟨block, hblock, h⟩ := Except.bind_eq_ok.mp h
  obtain ⟨timestamps, htimestamps, h⟩ := Except.bind_eq_ok.mp h
  refine ⟨block, safepointBlock_eq_ok.mp hblock, ?_⟩
  split at h
  case h_2 => cases h
  case h_1 earliest hfirst =>
    cases h
    obtain ⟨hmem, hle⟩ := first_spec hfirst
    constructor
    · obtain ⟨key, hkey, hlatest⟩ := (Except.mem_of_mapM_eq_ok htimestamps).mp hmem
      exact ⟨key, hkey, latestCommitTs_eq_ok.mp hlatest⟩
    · intro key hkey last hlast
      exact hle last ((Except.mem_of_mapM_eq_ok htimestamps).mpr
        ⟨key, hkey, latestCommitTs_eq_ok.mpr hlast⟩)

theorem exists_networkSafepointTs {block : BlockId} (hne : entryMap.instancesOf network ≠ [])
    (hcommon : IsCommon entryMap network block) :
    ∃ ts, networkSafepointTs entryMap network (entryMap.instancesOf network) = .ok ts := by
  obtain ⟨kept, hkept⟩ := exists_keptBlock hne hcommon
  have hholds := fun key (hkey : key ∈ entryMap.instancesOf network) =>
    (isCommon_of_keptBlock hkept).holdsBlock hkey
  obtain ⟨timestamps, htimestamps⟩ := Except.exists_mapM_eq_ok
    fun key hkey => exists_latestCommitTs (hholds key hkey)
  have hnonempty : timestamps ≠ [] := by
    obtain ⟨key, hkey⟩ := List.exists_mem_of_ne_nil _ hne
    obtain ⟨ts, hts⟩ := exists_latestCommitTs (hholds key hkey)
    exact List.ne_nil_of_mem ((Except.mem_of_mapM_eq_ok htimestamps).mpr ⟨key, hkey, hts⟩)
  obtain ⟨earliest, hfirst⟩ := exists_first id hnonempty
  refine ⟨earliest, Except.bind_eq_ok.mpr ⟨kept, safepointBlock_eq_ok.mpr hkept,
    Except.bind_eq_ok.mpr ⟨timestamps, htimestamps, ?_⟩⟩⟩
  rw [hfirst]
  rfl

theorem getLatestNetworkIntersectionTs_eq_ok
    (h : getLatestNetworkIntersectionTs entryMap = .ok ts) :
    (∃ network block, keptBlock entryMap network = some block ∧
      ∃ key ∈ entryMap.instancesOf network,
        IsGreatest (commits (entryMap.entriesOf key) block) ts) ∧
      ∀ network block, keptBlock entryMap network = some block →
        ∀ key ∈ entryMap.instancesOf network, ∀ last,
          IsGreatest (commits (entryMap.entriesOf key) block) last → ts ≤ last := by
  obtain ⟨timestamps, htimestamps, h⟩ := Except.bind_eq_ok.mp h
  split at h
  case h_2 => cases h
  case h_1 earliest hfirst =>
    cases h
    obtain ⟨hmem, hle⟩ := first_spec hfirst
    constructor
    · obtain ⟨⟨network, instances⟩, hgroup, hok⟩ :=
        (Except.mem_of_mapM_eq_ok htimestamps).mp hmem
      obtain ⟨rfl, -⟩ := mem_networkMap.mp hgroup
      obtain ⟨block, hkept, hkey, -⟩ := networkSafepointTs_eq_ok hok
      exact ⟨network, block, hkept, hkey⟩
    · intro network block hkept key hkey last hlast
      have hne := List.ne_nil_of_mem hkey
      obtain ⟨ts', hok⟩ := exists_networkSafepointTs hne (isCommon_of_keptBlock hkept)
      obtain ⟨block', hkept', -, hearlier⟩ := networkSafepointTs_eq_ok hok
      obtain rfl : block = block' := Option.some.inj (hkept.symm.trans hkept')
      exact (hle ts' ((Except.mem_of_mapM_eq_ok htimestamps).mpr
        ⟨_, mem_networkMap.mpr ⟨rfl, hne⟩, hok⟩)).trans (hearlier key hkey last hlast)

theorem exists_getLatestNetworkIntersectionTs (hne : entryMap.toList ≠ [])
    (hentries : ∀ item ∈ entryMap.toList, item.2 ≠ [])
    (hcommon : ∀ network, entryMap.instancesOf network ≠ [] →
      ∃ block, IsCommon entryMap network block) :
    ∃ ts, getLatestNetworkIntersectionTs entryMap = .ok ts := by
  have hgroups : ∀ group ∈ networkMap entryMap,
      ∃ ts, networkSafepointTs entryMap group.1 group.2 = .ok ts := by
    rintro ⟨network, instances⟩ hgroup
    obtain ⟨rfl, hinstances⟩ := mem_networkMap.mp hgroup
    obtain ⟨block, hblock⟩ := hcommon network hinstances
    exact exists_networkSafepointTs hinstances hblock
  obtain ⟨timestamps, htimestamps⟩ := Except.exists_mapM_eq_ok hgroups
  have hnonempty : timestamps ≠ [] := by
    obtain ⟨item, hitem⟩ := List.exists_mem_of_ne_nil _ hne
    obtain ⟨entry, rest, hitem2⟩ := List.exists_cons_of_ne_nil (hentries item hitem)
    have hinstance : item.1 ∈ entryMap.instancesOf entry.network :=
      List.mem_map_of_mem (List.mem_filter.mpr ⟨hitem, by simp [hitem2]⟩)
    have hgroup := mem_networkMap.mpr ⟨rfl, List.ne_nil_of_mem hinstance⟩
    obtain ⟨ts, hts⟩ := hgroups _ hgroup
    exact List.ne_nil_of_mem ((Except.mem_of_mapM_eq_ok htimestamps).mpr ⟨_, hgroup, hts⟩)
  obtain ⟨earliest, hfirst⟩ := exists_first id hnonempty
  refine ⟨earliest, Except.bind_eq_ok.mpr ⟨timestamps, htimestamps, ?_⟩⟩
  rw [hfirst]
  rfl

/-! ## The safepoint -/

def Covered (options : Options) (entryMap : EntryMap) (currentTs : ℤ) (ts : Timestamp) : Prop :=
  ⟨saturatingSub currentTs options.safeZoneMillis, 0⟩ ≤ ts ∨
    (∃ item ∈ entryMap.toList, ∃ tip, IsChaintip item.2 tip ∧ tip.commitTs ≤ ts) ∨
    ∃ network block, keptBlock entryMap network = some block ∧
      ∃ key ∈ entryMap.instancesOf network, ∃ last,
        IsGreatest (commits (entryMap.entriesOf key) block) last ∧ last ≤ ts

theorem chooseSafepoint_le_iff {options : Options} {safepoint : Timestamp}
    (h : chooseSafepoint options entryMap currentTs = .ok safepoint) (ts : Timestamp) :
    safepoint ≤ ts ↔ Covered options entryMap currentTs ts := by
  obtain ⟨chaintip, hchaintip, h⟩ := Except.bind_eq_ok.mp h
  obtain ⟨intersection, hintersection, h⟩ := Except.bind_eq_ok.mp h
  obtain ⟨⟨item, hitem, tip, htip, rfl⟩, hchaintips⟩ := getEarliestChaintipTs_eq_ok hchaintip
  obtain ⟨⟨network, block, hkept, key, hkey, hlast⟩, hintersections⟩ :=
    getLatestNetworkIntersectionTs_eq_ok hintersection
  split at h
  case h_2 => cases h
  case h_1 first hfirst =>
    cases h
    obtain ⟨hmem, hle⟩ := first_spec hfirst
    simp only [List.mem_cons, List.not_mem_nil, or_false, id_eq, forall_eq_or_imp,
      forall_eq] at hmem hle
    obtain ⟨hleChaintip, hleZone, hleIntersection⟩ := hle
    constructor
    · intro hts
      rcases hmem with rfl | rfl | rfl
      · exact Or.inr (Or.inl ⟨item, hitem, tip, htip, hts⟩)
      · exact Or.inl hts
      · exact Or.inr (Or.inr ⟨network, block, hkept, key, hkey, _, hlast, hts⟩)
    · rintro (hzone | ⟨item', hitem', tip', htip', hle'⟩ |
        ⟨network', block', hkept', key', hkey', last', hlast', hle'⟩)
      · exact hleZone.trans hzone
      · exact hleChaintip.trans ((hchaintips item' hitem' tip' htip').trans hle')
      · exact hleIntersection.trans
          ((hintersections network' block' hkept' key' hkey' last' hlast').trans hle')

theorem exists_chooseSafepoint (options : Options) (hne : entryMap.toList ≠ [])
    (hentries : ∀ item ∈ entryMap.toList, blockOptions item.2 ≠ [])
    (hcommon : ∀ network, entryMap.instancesOf network ≠ [] →
      ∃ block, IsCommon entryMap network block)
    (hpast : ∀ item ∈ entryMap.toList, ∀ tip, IsChaintip item.2 tip →
      tip.commitTs.physical ≤ currentTs) :
    ∃ safepoint, chooseSafepoint options entryMap currentTs = .ok safepoint := by
  obtain ⟨chaintip, hchaintip⟩ := exists_getEarliestChaintipTs hne hentries hpast
  obtain ⟨intersection, hintersection⟩ := exists_getLatestNetworkIntersectionTs hne
    (fun item hitem hnil => hentries item hitem (by rw [hnil]; rfl)) hcommon
  obtain ⟨safepoint, hfirst⟩ := exists_first (κ := Timestamp) id
    (List.cons_ne_nil chaintip
      [⟨saturatingSub currentTs options.safeZoneMillis, 0⟩, intersection])
  refine ⟨safepoint, Except.bind_eq_ok.mpr ⟨chaintip, hchaintip,
    Except.bind_eq_ok.mpr ⟨intersection, hintersection, ?_⟩⟩⟩
  rw [hfirst]
  rfl

def KeepsBlock (entryMap : EntryMap) (network : String) (block : BlockId)
    (safepoint : Timestamp) : Prop :=
  ∀ key ∈ entryMap.instancesOf network, ∀ last,
    IsGreatest (commits (entryMap.entriesOf key) block) last → safepoint ≤ last

def sampleEntry (height : ℕ) (physical : ℤ) : RedisEntry :=
  ⟨height, Vector.replicate 32 (Fin.ofNat 256 height), false, ⟨physical, 0⟩, "mainnet"⟩

def sampleMap (lower higher : ℕ) : EntryMap where
  toList := [(⟨0, 0⟩, [sampleEntry lower 1000, sampleEntry higher 2000]),
    (⟨0, 1⟩, [sampleEntry lower 1500, sampleEntry higher 2500])]
  nodup := by simp

def sampleOptions : Options := ⟨600000, by decide⟩

theorem instancesOf_sampleMap (h : (sampleMap lower higher).instancesOf network ≠ []) :
    network = "mainnet" := by
  by_contra hne
  have hnone : ¬ "mainnet" = network := fun heq => hne heq.symm
  exact h (by simp [EntryMap.instancesOf, sampleMap, sampleEntry, hnone])

theorem instancesOf_mainnet (lower higher : ℕ) :
    (sampleMap lower higher).instancesOf "mainnet" = [⟨0, 0⟩, ⟨0, 1⟩] := by
  simp [EntryMap.instancesOf, sampleMap, sampleEntry]

theorem isCommon_sampleMap {block : BlockId} :
    IsCommon (sampleMap lower higher) "mainnet" block ↔
      block = (sampleEntry lower 1000).block ∨ block = (sampleEntry higher 2000).block := by
  have hfirst : (sampleMap lower higher).entriesOf ⟨0, 0⟩ =
      [sampleEntry lower 1000, sampleEntry higher 2000] := rfl
  have hsecond : (sampleMap lower higher).entriesOf ⟨0, 1⟩ =
      [sampleEntry lower 1500, sampleEntry higher 2500] := rfl
  simp only [IsCommon, isIntersection, instancesOf_mainnet, List.all_cons, List.all_nil,
    Bool.and_true, Bool.and_eq_true, holdsBlock_iff, hfirst, hsecond]
  simp [blockOptions, sampleEntry, RedisEntry.block, @eq_comm _ block]

end CardanoIndexer.TikvGc
