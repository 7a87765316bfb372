import CardanoIndexer.Lib.Adaptive
import CardanoIndexer.Polyphony.Cursor
import CardanoIndexer.Polyphony.Rewinding

/-!
# The persisted rollback buffer

A list of `PersistedPoint`s is what the rollback keys can hold without loss.
-/

namespace CardanoIndexer.Polyphony

open Timbre

/-! ## Reading it -/

def scanPages (tooLarge : List (Key × Value) → Bool) (store : Store) (stop : Key) :
    ℕ → Key → ℕ → List (Key × Value)
  | 0, _, _ => []
  | fuel + 1, start, scanSize =>
    let page := (store.scan start stop).take scanSize
    match page.getLast? with
    | none => []
    | some (lastKey, _) =>
      if tooLarge page then scanPages tooLarge store stop fuel start (scanSize / 2)
      else page ++ scanPages tooLarge store stop fuel (lastKey ++ [0]) scanSize

structure Regrouping where
  currentPoint : Point
  currentPointSlot : U64
  actions : List StorageAction
  persistentBuf : List (PointWithResult (List StorageAction))

namespace Regrouping

def next (s : Regrouping) (point : Point) : Regrouping where
  currentPoint := point
  currentPointSlot := point.slotOrDefault
  actions := []
  persistentBuf :=
    if s.currentPointSlot ≠ 0 then s.persistentBuf ++ [⟨s.currentPoint, s.actions⟩]
    else s.persistentBuf

def turn (s : Regrouping) (point : Point) : Regrouping :=
  if point.slotOrDefault ≠ s.currentPointSlot then s.next point else s

def collect (s : Regrouping) (actions : List StorageAction) : Regrouping :=
  { s with actions := s.actions ++ actions }

def push (s : Regrouping) (kv : Key × Value) : Except WorkError Regrouping :=
  match decodeRollbackMetadataKey kv.1 with
  | none => .error .panic
  | some (.enrich point _ _ _) => .ok (s.turn point)
  | some (.storage point _ key) =>
    .ok ((s.turn point).collect [⟨key, if kv.2.isEmpty then .delete else .set kv.2⟩])

def finish (s : Regrouping) : List (PointWithResult (List StorageAction)) :=
  if s.currentPoint ≠ .origin then s.persistentBuf ++ [⟨s.currentPoint, s.actions⟩]
  else s.persistentBuf

end Regrouping

def rollbackEntries (enc : KeyEncoder) (store : Store) : List (Key × Value) :=
  store.scan (enc.encodeRollbackMetadataRange none none).start
    (enc.encodeRollbackMetadataRange none none).stop

def fetchPersistentBuffer (enc : KeyEncoder) (tooLarge : List (Key × Value) → Bool)
    (store : Store) : Except WorkError (Option (List (PointWithResult (List StorageAction)))) := do
  let range := enc.encodeRollbackMetadataRange none none
  let kvs := scanPages tooLarge store range.stop (store.entries.length + 2001) range.start 2000
  let s ← kvs.foldlM Regrouping.push ⟨.origin, 0, [], []⟩
  return if s.finish.isEmpty then none else some s.finish

def World.restart (world : World) (tooLarge : List (Key × Value) → Bool) :
    Except WorkError World := do
  let buf ← fetchPersistentBuffer world.worker.keyEncoder tooLarge world.tikv.store
  let last ← lastPoint world.worker.keyEncoder world.tikv.store
  return { world with
    worker := Worker.spawn world.worker.config world.worker.instanceNames last buf }

theorem scanPages_eq {tooLarge : List (Key × Value) → Bool} {store : Store} {start stop : Key}
    {scanSize fuel : ℕ} (hfits : ∀ e ∈ store.scan start stop, tooLarge [e] = false)
    (hsize : 0 < scanSize) (hfuel : (store.scan start stop).length + scanSize < fuel) :
    scanPages tooLarge store stop fuel start scanSize = store.scan start stop := by
  induction fuel generalizing start scanSize with
  | zero => omega
  | succ fuel ih =>
    simp only [scanPages]
    cases hlast : ((store.scan start stop).take scanSize).getLast? with
    | none =>
      have hnil : (store.scan start stop).take scanSize = [] := by simpa using hlast
      rcases List.take_eq_nil_iff.mp hnil with hzero | hscan
      · omega
      · exact hscan.symm
    | some last =>
      obtain ⟨lastKey, v⟩ := last
      obtain ⟨first, hpage⟩ := List.getLast?_eq_some_iff.mp hlast
      have hsplit : store.scan start stop =
          first ++ (lastKey, v) :: (store.scan start stop).drop scanSize := by
        conv_lhs => rw [← List.take_append_drop scanSize (store.scan start stop), hpage]
        simp
      simp only
      split
      · -- a page of one entry would have fitted
        rename_i htoo
        have htwo : 2 ≤ scanSize := by
          by_contra hlt
          have hone : scanSize = 1 := by omega
          have hlength := congrArg List.length hpage
          rw [hone] at hlength htoo hpage
          have hfirst : first = [] := by
            have : ((store.scan start stop).take 1).length ≤ 1 := List.length_take_le ..
            exact List.eq_nil_of_length_eq_zero (by
              rw [List.length_append, List.length_singleton] at hlength
              omega)
          rw [hpage, hfirst, List.nil_append, hfits _ (by rw [hsplit]; simp)] at htoo
          cases htoo
        exact ih hfits (by omega) (by omega)
      · have hnext := SortedMap.scan_next (fun k => Bytes.append_zero_le_iff) hsplit
        have hlength := congrArg List.length hsplit
        rw [List.length_append, List.length_cons] at hlength
        rw [ih ?_ hsize ?_, hnext, List.take_append_drop]
        · intro e he
          rw [hnext] at he
          exact hfits e (List.mem_of_mem_drop he)
        · rw [hnext]
          omega

/-! ## Pages with errors -/

structure BufferScan where
  start : Key
  kvs : List (Key × Value)

inductive FetchError where
  | storage
  deriving DecidableEq

open Adaptive

def bufferLoop (store : Store) (stop : Key) : Loop BufferScan (Key × Value) FetchError where
  fetch s scanSize := (store.scan s.start stop).take scanSize
  onPage _ page s :=
    let kvs := s.kvs ++ page
    match page.getLast? with
    | none => .stop { s with kvs }
    | some (lastKey, _) => .go ⟨lastKey ++ [0], kvs⟩

def bufferAnswers (responses : Responses (Key × Value)) : Answers (Key × Value) FetchError :=
  responses.answers (fun _ => Response.read .storage) fun _ _ => Response.eq_of_read_tooLarge

def scanBuffer (enc : KeyEncoder) (store : Store) (responses : Responses (Key × Value)) :
    Option (Except FetchError BufferScan) :=
  let range := enc.encodeRollbackMetadataRange none none
  (bufferLoop store range.stop).run (bufferAnswers responses) (store.entries.length + 2001) 0 2000
    ⟨range.start, []⟩

def ScansBuffer (enc : KeyEncoder) (store : Store) (responses : Responses (Key × Value)) :
    Option (Except FetchError BufferScan) → Prop
  | some (.ok s) => s.kvs = rollbackEntries enc store
  | some (.error _) => ∃ n size page, responses.respond n size page = .error
  | none => False

theorem scanBuffer_spec (enc : KeyEncoder) (store : Store) {responses : Responses (Key × Value)}
    (hone : responses.OneFits) :
    ScansBuffer enc store responses (scanBuffer enc store responses) := by
  have hlength : (rollbackEntries enc store).length ≤ store.entries.length :=
    List.length_filter_le ..
  have hends : (bufferAnswers responses).Ends (fun s => s.kvs = rollbackEntries enc store)
      (scanBuffer enc store responses) := by
    refine Loop.run_rule
      (fun s : BufferScan => store.scan s.start (enc.encodeRollbackMetadataRange none none).stop)
      (fun s => s.kvs ++ store.scan s.start (enc.encodeRollbackMetadataRange none none).stop =
        rollbackEntries enc store) (fun s size _ => rfl) ?_
      (hone.answers fun _ _ => Response.eq_of_read_tooLarge) 0
      (fun n size page _ => Response.read_ne_retry _ _) (List.nil_append _) (by omega) ?_
    · intro s size hsize hall
      simp only [bufferLoop]
      cases hlast : ((store.scan s.start
          (enc.encodeRollbackMetadataRange none none).stop).take size).getLast? with
      | none =>
        rw [eq_nil_of_getLast?_take hsize hlast] at hall ⊢
        rw [List.take_nil]
        exact hall
      | some last =>
        obtain ⟨first, hsplit⟩ := exists_split_of_getLast?_take hlast
        have hnext := SortedMap.scan_next (fun k => Bytes.append_zero_le_iff) hsplit
        refine ⟨?_, ?_, hnext⟩
        · simp only [hnext]
          rw [List.append_assoc, List.take_append_drop, hall]
        · intro hnil
          simp [hnil] at hlast
    · simp only [rollbackEntries] at hlength
      simp only
      omega
  match hresult : scanBuffer enc store responses with
  | some (.ok s) =>
    rw [hresult] at hends
    exact hends
  | some (.error error) =>
    rw [hresult] at hends
    obtain ⟨n, size, page, hanswer⟩ := hends
    exact ⟨n, size, page, (Response.eq_of_read_failed hanswer).1⟩
  | none =>
    rw [hresult] at hends
    exact hends

/-! ## What the keys can hold -/

@[ext] structure PersistedPoint where
  slot : U64
  hash : Hash
  actions : List StorageAction
  slot_ne : slot ≠ 0
  actions_ne : actions ≠ []
  fits : actions.length ≤ 2 ^ 64
  restores : Restores actions
  values : ∀ a ∈ actions, a.op ≠ .set []

def rollbackRows (enc : KeyEncoder) (slot : U64) (hash : Hash) :
    ℕ → List StorageAction → List (Key × Value)
  | _, [] => []
  | idx, action :: rest =>
    (enc.encodeStorageRollbackMetadataKey slot hash (BitVec.ofNat 64 idx) action.key,
      action.op.restored.getD []) :: rollbackRows enc slot hash (idx + 1) rest

def PersistedPoint.block (p : PersistedPoint) : PointWithResult (List StorageAction) :=
  ⟨.specific p.slot p.hash, p.actions⟩

def PersistedPoint.rows (enc : KeyEncoder) (p : PersistedPoint) : List (Key × Value) :=
  rollbackRows enc p.slot p.hash 0 p.actions

def persistedRows (enc : KeyEncoder) (points : List PersistedPoint) : List (Key × Value) :=
  points.reverse.flatMap (PersistedPoint.rows enc)

def SlotsDecrease (points : List PersistedPoint) : Prop :=
  points.Pairwise fun newer older => older.slot.toNat < newer.slot.toNat

section Rows

variable {enc : KeyEncoder} {slot : U64} {hash : Hash} {idx : ℕ} {actions : List StorageAction}
  {e : Key × Value}

theorem storageRbWrites_eq_rows (hrestores : Restores actions) (hidx : idx ≤ 2 ^ 64)
    {entries : Writes} (h : storageRbWrites enc slot hash idx actions = .ok entries) :
    entries = (rollbackRows enc slot hash idx actions).map (fun e => (e.1, some e.2)) ∧
      idx + actions.length ≤ 2 ^ 64 := by
  induction actions generalizing idx entries with
  | nil =>
    cases h
    exact ⟨rfl, hidx⟩
  | cons action rest ih =>
    obtain ⟨operationIdx, hoperation, h⟩ := Except.bind_eq_ok.mp h
    obtain ⟨value, hvalue, h⟩ := Except.bind_eq_ok.mp h
    obtain ⟨entries', hentries', h⟩ := Except.bind_eq_ok.mp h
    cases h
    unfold operationIndex at hoperation
    split at hoperation
    case isFalse => cases hoperation
    case isTrue hlt =>
      cases hoperation
      have hrestored : value = action.op.restored.getD [] := by
        rw [hrestores action (List.mem_cons_self ..)] at hvalue
        cases hop : action.op.restored <;> rw [hop] at hvalue <;> cases hvalue <;> rfl
      obtain ⟨hrest, hlength⟩ := ih (fun a ha => hrestores a (List.mem_cons_of_mem _ ha)) hlt
        hentries'
      rw [List.length_cons]
      exact ⟨by rw [hrest, hrestored]; rfl, by omega⟩

theorem mem_rollbackRows (h : e ∈ rollbackRows enc slot hash idx actions) :
    ∃ i key, idx ≤ i ∧ i < idx + actions.length ∧
      e.1 = enc.encodeStorageRollbackMetadataKey slot hash (BitVec.ofNat 64 i) key := by
  induction actions generalizing idx with
  | nil => cases h
  | cons action rest ih =>
    rw [List.length_cons]
    rcases List.mem_cons.mp h with rfl | h
    · exact ⟨idx, action.key, le_rfl, by omega, rfl⟩
    · obtain ⟨i, key, hlow, hhigh, hkey⟩ := ih h
      exact ⟨i, key, by omega, by omega, hkey⟩

theorem rollbackRows_sorted (hfits : idx + actions.length ≤ 2 ^ 64) :
    (rollbackRows enc slot hash idx actions).Pairwise fun a b => a.1 < b.1 := by
  induction actions generalizing idx with
  | nil => exact List.Pairwise.nil
  | cons action rest ih =>
    rw [List.length_cons] at hfits
    refine List.Pairwise.cons (fun e he => ?_) (ih (by omega))
    obtain ⟨i, key, hlow, hhigh, hkey⟩ := mem_rollbackRows he
    rw [hkey]
    refine KeyEncoder.metadataKey_lt_of_idx_lt ?_
    rw [BitVec.toNat_ofNat, BitVec.toNat_ofNat, Nat.mod_eq_of_lt (by omega),
      Nat.mod_eq_of_lt (by omega)]
    omega

theorem mem_persistedRows {points : List PersistedPoint} (h : e ∈ persistedRows enc points) :
    ∃ p ∈ points, ∃ i key,
      e.1 = enc.encodeStorageRollbackMetadataKey p.slot p.hash i key := by
  obtain ⟨p, hp, he⟩ := List.mem_flatMap.mp h
  obtain ⟨i, key, -, -, hkey⟩ := mem_rollbackRows he
  exact ⟨p, List.mem_reverse.mp hp, _, key, hkey⟩

theorem persistedRows_cons (p : PersistedPoint) (points : List PersistedPoint) :
    persistedRows enc (p :: points) = persistedRows enc points ++ p.rows enc := by
  simp [persistedRows]

theorem persistedRows_sorted {points : List PersistedPoint} (hslots : SlotsDecrease points) :
    (persistedRows enc points).Pairwise fun a b => a.1 < b.1 := by
  induction points with
  | nil => exact List.Pairwise.nil
  | cons p rest ih =>
    obtain ⟨hnewest, hrest⟩ := List.pairwise_cons.mp hslots
    rw [persistedRows_cons, List.pairwise_append]
    refine ⟨ih hrest, rollbackRows_sorted (by rw [Nat.zero_add]; exact p.fits),
      fun a ha b hb => ?_⟩
    obtain ⟨q, hq, i, key, hkey⟩ := mem_persistedRows ha
    obtain ⟨j, key', -, -, hkey'⟩ := mem_rollbackRows hb
    rw [hkey, hkey']
    exact KeyEncoder.metadataKey_lt_of_slot_lt (hnewest q hq)

end Rows

/-! ## Storing and deleting -/

variable {p : PersistedPoint}

section Plane

variable {enc : KeyEncoder} {store store' : Store} {points : List PersistedPoint}
  {keep : PersistedPoint → Bool}

theorem rollbackEntries_congr
    (h : ∀ k, enc.rollbackPrefix <+: k → store.get k = store'.get k) :
    rollbackEntries enc store = rollbackEntries enc store' :=
  SortedMap.scan_congr fun k hlow hhigh =>
    h k (KeyEncoder.rollbackPrefix_isPrefix_of_mem_range hlow hhigh)

theorem rollbackEntries_put (hrows : rollbackEntries enc store = persistedRows enc points)
    (hslots : SlotsDecrease (p :: points)) :
    rollbackEntries enc (store.applyWrites ((p.rows enc).map fun e => (e.1, some e.2))) =
      persistedRows enc (p :: points) := by
  have hsorted : (persistedRows enc (p :: points)).Pairwise fun a b => a.1 < b.1 :=
    persistedRows_sorted hslots
  rw [persistedRows_cons, ← hrows] at hsorted ⊢
  refine SortedMap.scan_applyWrites_append hsorted fun e he => ?_
  obtain ⟨i, key, -, -, hkey⟩ := mem_rollbackRows he
  rw [hkey]
  exact ⟨KeyEncoder.start_none_le_metadataKey .., KeyEncoder.metadataKey_lt_stop_none ..⟩

theorem filter_persistedRows {f : Key × Value → Bool}
    (h : ∀ p ∈ points, ∀ e ∈ p.rows enc, f e = keep p) :
    (persistedRows enc points).filter f = persistedRows enc (points.filter keep) := by
  induction points with
  | nil => rfl
  | cons p rest ih =>
    have hp := h p (List.mem_cons_self ..)
    rw [persistedRows_cons, List.filter_append, ih fun q hq => h q (List.mem_cons_of_mem _ hq)]
    cases hkeep : keep p with
    | true =>
      rw [List.filter_cons_of_pos hkeep, persistedRows_cons,
        List.filter_eq_self.mpr fun e he => (hp e he).trans hkeep]
    | false =>
      have hnone : (p.rows enc).filter f = [] :=
        List.filter_eq_nil_iff.mpr fun e he => by simp [hp e he, hkeep]
      rw [List.filter_cons_of_neg (by simp [hkeep]), hnone, List.append_nil]

theorem rollbackEntries_rangeDeletes (hrows : rollbackEntries enc store = persistedRows enc points)
    {lower upper : Option U64} (hkeep : ∀ p i key, keep p = true ↔
      ¬ ((enc.encodeRollbackMetadataRange lower upper).start ≤
          enc.encodeStorageRollbackMetadataKey p.slot p.hash i key ∧
        enc.encodeStorageRollbackMetadataKey p.slot p.hash i key <
          (enc.encodeRollbackMetadataRange lower upper).stop)) :
    rollbackEntries enc (store.applyWrites (rangeDeletes enc store lower upper)) =
      persistedRows enc (points.filter keep) := by
  rw [rollbackEntries, rangeDeletes, SortedMap.scan_applyWrites_deletes]
  change (rollbackEntries enc store).filter _ = _
  rw [hrows]
  refine filter_persistedRows fun p _ e he => ?_
  obtain ⟨i, key, -, -, hkey⟩ := mem_rollbackRows he
  rw [Bool.eq_iff_iff, hkeep p _ key, ← hkey, not_and_or]
  simp only [Bool.not_eq_true', Bool.and_eq_false_iff, decide_eq_false_iff_not]

theorem rollbackEntries_gcWrites (hrows : rollbackEntries enc store = persistedRows enc points)
    (bSlot : U64) :
    rollbackEntries enc (store.applyWrites (gcWrites enc store bSlot)) =
      persistedRows enc (points.filter fun p => bSlot.toNat ≤ p.slot.toNat + retainedSlots) := by
  unfold gcWrites
  split
  case isTrue hretained =>
    refine rollbackEntries_rangeDeletes hrows fun p i key => ?_
    rw [and_iff_right (KeyEncoder.start_none_le_metadataKey ..), KeyEncoder.metadataKey_lt_stop_iff,
      toNat_sub_retainedSlots hretained, decide_eq_true_eq]
    omega
  case isFalse hretained =>
    rw [SortedMap.applyWrites_nil, hrows, List.filter_eq_self.mpr]
    intro p _
    rw [decide_eq_true_eq]
    omega

theorem rollbackEntries_trimWrites (hrows : rollbackEntries enc store = persistedRows enc points)
    {point : Point} (hslot : NextSlotFits point.slotOrDefault) :
    rollbackEntries enc (store.applyWrites (trimWrites enc point store)) =
      persistedRows enc (points.filter fun p => p.slot.toNat ≤ point.slotOrDefault.toNat) := by
  have hnext : (point.slotOrDefault + 1).toNat = point.slotOrDefault.toNat + 1 := by
    rw [BitVec.toNat_add]
    exact Nat.mod_eq_of_lt hslot
  refine rollbackEntries_rangeDeletes hrows fun p i key => ?_
  rw [and_iff_left (KeyEncoder.metadataKey_lt_stop_none ..), KeyEncoder.start_le_metadataKey_iff,
    hnext, decide_eq_true_eq]
  omega

end Plane

/-! ## Reading back what was stored -/

namespace Regrouping

variable {enc : KeyEncoder} {s : Regrouping} {slot : U64} {hash : Hash}

theorem push_row {idx : U64} {action : StorageAction}
    (hrestores : action.op = StorageOp.restore action.op.restored) (hvalue : action.op ≠ .set []) :
    s.push (enc.encodeStorageRollbackMetadataKey slot hash idx action.key,
        action.op.restored.getD []) =
      .ok ((s.turn (.specific slot hash)).collect [action]) := by
  have hop : (if (action.op.restored.getD []).isEmpty then StorageOp.delete
      else .set (action.op.restored.getD [])) = action.op := by
    cases hrestored : action.op.restored with
    | none =>
      rw [hrestores, hrestored]
      rfl
    | some v =>
      have hne : v.isEmpty = false := by
        cases v with
        | nil => exact absurd (by rw [hrestores, hrestored]; rfl) hvalue
        | cons b rest => rfl
      rw [Option.getD_some, hne, hrestores, hrestored]
      rfl
  simp only [push, KeyEncoder.decodeRollbackMetadataKey_metadataKey, hop]

theorem turn_of_slot_eq (h : slot = s.currentPointSlot) : s.turn (.specific slot hash) = s :=
  if_neg (not_not_intro h)

theorem collect_collect (s : Regrouping) (first second : List StorageAction) :
    (s.collect first).collect second = s.collect (first ++ second) := by
  simp [collect]

theorem foldlM_push_rollbackRows {idx : ℕ} {actions : List StorageAction}
    (hslot : slot = s.currentPointSlot) (hrestores : Restores actions)
    (hvalues : ∀ a ∈ actions, a.op ≠ .set []) :
    (rollbackRows enc slot hash idx actions).foldlM push s = .ok (s.collect actions) := by
  induction actions generalizing s idx with
  | nil =>
    rw [collect, List.append_nil]
    rfl
  | cons action rest ih =>
    rw [rollbackRows, List.foldlM_cons, push_row (hrestores action (List.mem_cons_self ..))
      (hvalues action (List.mem_cons_self ..)), turn_of_slot_eq hslot, Except.ok_bind]
    have hrest : (rollbackRows enc slot hash (idx + 1) rest).foldlM push (s.collect [action]) =
        .ok ((s.collect [action]).collect rest) :=
      ih hslot (fun a ha => hrestores a (List.mem_cons_of_mem _ ha))
        fun a ha => hvalues a (List.mem_cons_of_mem _ ha)
    rw [hrest, collect_collect, List.singleton_append]

theorem foldlM_push_rows (hslot : p.slot ≠ s.currentPointSlot) :
    (p.rows enc).foldlM push s = .ok ((s.next (.specific p.slot p.hash)).collect p.actions) := by
  obtain ⟨action, rest, hactions⟩ := List.exists_cons_of_ne_nil p.actions_ne
  have hrestores := p.restores
  have hvalues := p.values
  rw [hactions] at hrestores hvalues
  have hturn : s.turn (.specific p.slot p.hash) = s.next (.specific p.slot p.hash) :=
    if_pos hslot
  have hrest : (rollbackRows enc p.slot p.hash 1 rest).foldlM push
      ((s.next (.specific p.slot p.hash)).collect [action]) =
        .ok (((s.next (.specific p.slot p.hash)).collect [action]).collect rest) :=
    foldlM_push_rollbackRows rfl (fun a ha => hrestores a (List.mem_cons_of_mem _ ha))
      fun a ha => hvalues a (List.mem_cons_of_mem _ ha)
  rw [PersistedPoint.rows, hactions, rollbackRows, List.foldlM_cons,
    push_row (hrestores action (List.mem_cons_self ..)) (hvalues action (List.mem_cons_self ..)),
    hturn, Except.ok_bind, hrest, collect_collect, List.singleton_append]

def Consistent (s : Regrouping) : Prop := s.currentPoint = .origin ↔ s.currentPointSlot = 0

theorem finish_next (hs : s.Consistent) (p : PersistedPoint) :
    ((s.next (.specific p.slot p.hash)).collect p.actions).finish = s.finish ++ [p.block] := by
  have hclosed : (s.next (.specific p.slot p.hash)).persistentBuf = s.finish := by
    rw [next, finish]
    by_cases hzero : s.currentPointSlot = 0
    · rw [if_neg (not_not_intro hzero), if_neg (not_not_intro (hs.mpr hzero))]
    · rw [if_pos hzero, if_pos (mt hs.mp hzero)]
  rw [← hclosed]
  rfl

theorem exists_foldlM_push {points : List PersistedPoint} (hs : s.Consistent)
    (hslots : (points.map PersistedPoint.slot).Pairwise fun a b => a.toNat < b.toNat)
    (hbehind : ∀ p ∈ points, s.currentPointSlot.toNat < p.slot.toNat) :
    ∃ s', (points.flatMap (PersistedPoint.rows enc)).foldlM push s = .ok s' ∧
      s'.finish = s.finish ++ points.map PersistedPoint.block := by
  induction points generalizing s with
  | nil => exact ⟨s, rfl, by simp⟩
  | cons p rest ih =>
    rw [List.map_cons, List.pairwise_cons] at hslots
    have hne : p.slot ≠ s.currentPointSlot := fun heq =>
      (hbehind p (List.mem_cons_self ..)).ne (by rw [heq])
    have hconsistent : ((s.next (.specific p.slot p.hash)).collect p.actions).Consistent :=
      ⟨fun horigin => Point.noConfusion horigin, fun hzero => absurd hzero p.slot_ne⟩
    obtain ⟨s', hs', hfinish⟩ := ih hconsistent hslots.2
      fun q hq => hslots.1 q.slot (List.mem_map_of_mem hq)
    refine ⟨s', ?_, ?_⟩
    · rw [List.flatMap_cons, List.foldlM_append, foldlM_push_rows hne]
      exact hs'
    · rw [hfinish, finish_next hs, List.map_cons, List.append_assoc, List.singleton_append]

end Regrouping

section Fetch

variable {enc : KeyEncoder} {tooLarge : List (Key × Value) → Bool} {store : Store}
  {points : List PersistedPoint}

theorem fetchPersistentBuffer_of_rows (hrows : rollbackEntries enc store = persistedRows enc points)
    (hslots : SlotsDecrease points)
    (hfits : ∀ e ∈ rollbackEntries enc store, tooLarge [e] = false) :
    fetchPersistentBuffer enc tooLarge store =
      .ok (if points.isEmpty then none else some (points.reverse.map PersistedPoint.block)) := by
  have hlength : (rollbackEntries enc store).length ≤ store.entries.length :=
    List.length_filter_le ..
  have hpages : scanPages tooLarge store (enc.encodeRollbackMetadataRange none none).stop
      (store.entries.length + 2001) (enc.encodeRollbackMetadataRange none none).start 2000 =
        rollbackEntries enc store :=
    scanPages_eq hfits (by norm_num) (Nat.add_lt_add_of_le_of_lt hlength (by norm_num))
  have hincrease : (points.reverse.map PersistedPoint.slot).Pairwise
      fun a b => a.toNat < b.toNat := by
    rw [List.pairwise_map, List.pairwise_reverse]
    exact hslots
  obtain ⟨s, hs, hfinish⟩ : ∃ s, (persistedRows enc points).foldlM Regrouping.push
      ⟨.origin, 0, [], []⟩ = .ok s ∧ s.finish = [] ++ points.reverse.map PersistedPoint.block :=
    Regrouping.exists_foldlM_push ⟨fun _ => rfl, fun _ => rfl⟩ hincrease fun p _ =>
      Nat.pos_of_ne_zero fun hzero => p.slot_ne (BitVec.eq_of_toNat_eq hzero)
  rw [List.nil_append] at hfinish
  simp only [fetchPersistentBuffer, hpages, hrows, hs, Except.ok_bind, hfinish]
  cases points with
  | nil => rfl
  | cons p rest => simp

end Fetch

theorem spawn_blocks (config : Config) (instanceNames : List String) (intersect : Option Point)
    (points : List PersistedPoint) :
    (Worker.spawn config instanceNames intersect (if points.isEmpty then none
      else some (points.reverse.map PersistedPoint.block))).rollbackBuffer.blocks =
      (points.map PersistedPoint.block).take maxBufferLen := by
  have hfold : ∀ (entries : List (PointWithResult (List StorageAction)))
      (buffer : RollbackBuffer (List StorageAction)),
      (entries.foldl (fun buffer entry => buffer.addBlock entry.point entry.result)
        buffer).blocks = (entries.reverse ++ buffer.blocks).take maxBufferLen := by
    intro entries
    induction entries with
    | nil =>
      intro buffer
      exact (List.take_of_length_le buffer.bounded).symm
    | cons entry rest ih =>
      intro buffer
      rw [List.foldl_cons, ih, RollbackBuffer.addBlock, List.reverse_cons, List.append_assoc,
        List.singleton_append, List.take_append, List.take_append, List.take_take,
        min_eq_left (Nat.sub_le _ _)]
  cases points with
  | nil => rfl
  | cons p rest =>
    simp only [Worker.spawn, List.isEmpty_cons, Bool.false_eq_true, if_false, Option.getD_some]
    rw [hfold]
    simp [RollbackBuffer.new]

end CardanoIndexer.Polyphony
