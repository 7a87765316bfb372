import CardanoIndexer.Lib.Adaptive
import CardanoIndexer.Mapi.Request

/-!
# Scans of the API

`scan_extended` and `batch_scan_entire_range` are adaptive loops over a key range.
-/

namespace CardanoIndexer.Mapi

open Timbre Adaptive

abbrev Entry := Bytes × Bytes

structure Attempts where
  responses : Responses Entry
  elapsed : ℕ → ℕ

def scanned (store : Store) : OrderParam → KeyRange → List Entry
  | .asc, range => store.scan range.start range.stop
  | .desc, range => (store.scan range.start range.stop).reverse

def rangeBehind : OrderParam → KeyRange → Bytes → KeyRange
  | .asc, range, lastKey => ⟨lastKey ++ [0], range.stop⟩
  | .desc, range, lastKey => ⟨range.start, lastKey⟩

structure ScanState where
  rangeRemaining : KeyRange
  kvs : List Entry

def scanResult (returned : ScanState → List Entry) :
    Option (Except Failure ScanState) → Except Failure (List Entry)
  | some result => result.map returned
  | none => .error .panic

def readInTime (timeout : Option ℕ) (elapsed : ℕ → ℕ) (n : ℕ) (response : Response) :
    Answer Failure :=
  if timeout.any (· < elapsed n) then .failed .timeout
  else response.read .internalServerError

theorem readInTime_tooLarge {timeout : Option ℕ} {elapsed : ℕ → ℕ} (n : ℕ) (response : Response)
    (h : readInTime timeout elapsed n response = .tooLarge) : response = .tooLarge := by
  unfold readInTime at h
  split at h
  · cases h
  · exact Response.eq_of_read_tooLarge h

def Attempts.answers (attempts : Attempts) (timeout : Option ℕ) : Answers Entry Failure :=
  attempts.responses.answers (readInTime timeout attempts.elapsed) readInTime_tooLarge

def batchScanLoop (store : Store) : Loop ScanState Entry Failure where
  fetch s scanSize := (scanned store .asc s.rangeRemaining).take scanSize
  onPage scanSize page s :=
    let kvs := s.kvs ++ page
    if page.length < scanSize then .stop { s with kvs }
    else match page.getLast? with
      | some (lastKey, _) => .go ⟨rangeBehind .asc s.rangeRemaining lastKey, kvs⟩
      -- `last().unwrap()`
      | none => .fail .panic

def batchScanEntireRange (store : Store) (range : KeyRange) (attempts : Attempts) :
    Except Failure (List Entry) :=
  scanResult ScanState.kvs ((batchScanLoop store).run (attempts.answers none)
    (store.entries.length + 1001) 0 1000 ⟨range, []⟩)

/-! ## `scan_extended` -/

def filtered (f : Option (Entry → Bool)) (kvs : List Entry) : List Entry :=
  match f with
  | some filter => kvs.filter filter
  | none => kvs

def truncated (maxCount : Option ℕ) (kvs : List Entry) : List Entry :=
  match maxCount with
  | some max => kvs.take max
  | none => kvs

def scanExtendedLoop (store : Store) (order : OrderParam) (f : Option (Entry → Bool))
    (maxCount : Option ℕ) : Loop ScanState Entry Failure where
  fetch s scanSize := (scanned store order s.rangeRemaining).take scanSize
  onPage scanSize page s :=
    match page.getLast? with
    | none => .stop s
    | some (lastKey, _) =>
      let s' : ScanState :=
        ⟨rangeBehind order s.rangeRemaining lastKey, s.kvs ++ filtered f page⟩
      if maxCount.any (· ≤ s'.kvs.length) then .stop s'
      else if page.length < scanSize then .stop s'
      else .go s'

def scanExtendedSize (f : Option (Entry → Bool)) : Option ℕ → ℕ
  | some n => if f.isNone ∧ n < 1000 then n else 1000
  | none => 1000

def scanExtended (store : Store) (range : KeyRange) (order : OrderParam)
    (f : Option (Entry → Bool)) (maxCount timeout : Option ℕ) (attempts : Attempts) :
    Except Failure (List Entry) :=
  scanResult (fun s => truncated maxCount s.kvs)
    ((scanExtendedLoop store order f maxCount).run (attempts.answers timeout)
      (store.entries.length + 1001) 0 (scanExtendedSize f maxCount) ⟨range, []⟩)

section Ranges

variable {store : Store} {order : OrderParam} {range : KeyRange}

theorem mem_scanned {e : Entry} :
    e ∈ scanned store order range ↔
      store.get e.1 = some e.2 ∧ range.start ≤ e.1 ∧ e.1 < range.stop := by
  cases order with
  | asc => exact SortedMap.mem_scan
  | desc => exact List.mem_reverse.trans SortedMap.mem_scan

theorem length_scanned_le (store : Store) (order : OrderParam) (range : KeyRange) :
    (scanned store order range).length ≤ store.entries.length := by
  cases order with
  | asc => exact List.length_filter_le ..
  | desc => exact (List.length_reverse).trans_le (List.length_filter_le ..)

theorem scanned_rangeBehind {lastKey v : Bytes} {first rest : List Entry}
    (h : scanned store order range = first ++ (lastKey, v) :: rest) :
    scanned store order (rangeBehind order range lastKey) = rest := by
  cases order with
  | asc => exact SortedMap.scan_next (fun _ => Bytes.append_zero_le_iff) h
  | desc =>
    have hscan : store.scan range.start range.stop =
        rest.reverse ++ (lastKey, v) :: first.reverse := by
      have hreverse := congrArg List.reverse h
      simpa [scanned] using hreverse
    have hbefore : store.scan range.start lastKey = rest.reverse := SortedMap.scan_before hscan
    simp [scanned, rangeBehind, hbefore]

end Ranges

section Loops

variable {store : Store} {order : OrderParam} {range : KeyRange} {f : Option (Entry → Bool)}
  {maxCount timeout : Option ℕ} {attempts : Attempts} {s : ScanState} {all : List Entry}
  {error : Failure}

theorem Attempts.answer_ne_retry (n size : ℕ) (page : List Entry) :
    (attempts.answers timeout).answer n size page ≠ .retry := by
  simp only [Attempts.answers, Responses.answers, readInTime]
  split
  · simp
  · exact Response.read_ne_retry _ _

theorem scanExtendedSize_le (f : Option (Entry → Bool)) (maxCount : Option ℕ) :
    scanExtendedSize f maxCount ≤ 1000 := by
  unfold scanExtendedSize
  split
  · split <;> omega
  · exact le_refl _

/-! ## What the loops return -/

def Attempts.FailsWith (attempts : Attempts) (timeout : Option ℕ) : Failure → Prop
  | .internalServerError => ∃ n size page, attempts.responses.respond n size page = .error
  | .timeout => ∃ n, timeout.any (· < attempts.elapsed n) = true
  | _ => False

theorem Attempts.FailsWith.ne_panic (h : attempts.FailsWith timeout error) : error ≠ .panic := by
  rintro rfl
  exact h

theorem failsWith_of_reports (h : (attempts.answers timeout).Reports error) :
    attempts.FailsWith timeout error := by
  obtain ⟨n, size, page, hanswer⟩ := h
  simp only [Attempts.answers, Responses.answers, readInTime] at hanswer
  split at hanswer
  case isTrue hlate =>
    cases hanswer
    exact ⟨n, hlate⟩
  case isFalse =>
    obtain ⟨hresponse, rfl⟩ := Response.eq_of_read_failed hanswer
    exact ⟨n, size, page, hresponse⟩

@[simp] theorem filtered_nil (f : Option (Entry → Bool)) : filtered f [] = [] := by
  cases f <;> rfl

theorem filtered_append (f : Option (Entry → Bool)) (kvs kvs' : List Entry) :
    filtered f (kvs ++ kvs') = filtered f kvs ++ filtered f kvs' := by
  cases f with
  | none => rfl
  | some filter => exact List.filter_append ..

theorem truncated_append {kvs : List Entry} (h : maxCount.any (· ≤ kvs.length) = true)
    (kvs' : List Entry) : truncated maxCount (kvs ++ kvs') = truncated maxCount kvs := by
  cases maxCount with
  | none => cases h
  | some max => exact List.take_append_of_le_length (by simpa using h)

theorem meets_scanExtendedLoop {size : ℕ} (hsize : 0 < size)
    (hall : s.kvs ++ filtered f (scanned store order s.rangeRemaining) = all) :
    ((scanExtendedLoop store order f maxCount).onPage size
      ((scanned store order s.rangeRemaining).take size) s).Meets
        (fun s => scanned store order s.rangeRemaining)
        (fun s => s.kvs ++ filtered f (scanned store order s.rangeRemaining) = all)
        (fun s => truncated maxCount s.kvs = truncated maxCount all) size s := by
  simp only [scanExtendedLoop]
  cases hlast : ((scanned store order s.rangeRemaining).take size).getLast? with
  | none =>
    have hnil := eq_nil_of_getLast?_take hsize hlast
    have hkvs : s.kvs = all := by simpa [hnil] using hall
    simp only [Verdict.Meets, hkvs]
  | some last =>
    obtain ⟨lastKey, v⟩ := last
    obtain ⟨first, hsplit⟩ := exists_split_of_getLast?_take hlast
    have hrest := scanned_rangeBehind hsplit
    have hnext : s.kvs ++ filtered f ((scanned store order s.rangeRemaining).take size) ++
        filtered f ((scanned store order s.rangeRemaining).drop size) = all := by
      rw [List.append_assoc, ← filtered_append, List.take_append_drop, hall]
    simp only
    split
    case isTrue hmax => exact (truncated_append hmax _).symm.trans (by rw [hnext])
    case isFalse =>
      split
      case isTrue hshort =>
        rw [drop_eq_nil_of_length_take_lt hshort, filtered_nil, List.append_nil] at hnext
        simp only [Verdict.Meets, hnext]
      case isFalse =>
        have hne : scanned store order s.rangeRemaining ≠ [] := by
          rw [hsplit]
          simp
        refine ⟨?_, hne, hrest⟩
        simp only [hrest, hnext]

theorem meets_batchScanLoop {size : ℕ} (hsize : 0 < size)
    (hall : s.kvs ++ scanned store .asc s.rangeRemaining = all) :
    ((batchScanLoop store).onPage size ((scanned store .asc s.rangeRemaining).take size) s).Meets
      (fun s => scanned store .asc s.rangeRemaining)
      (fun s => s.kvs ++ scanned store .asc s.rangeRemaining = all) (fun s => s.kvs = all) size
      s := by
  have hnext : s.kvs ++ (scanned store .asc s.rangeRemaining).take size ++
      (scanned store .asc s.rangeRemaining).drop size = all := by
    rw [List.append_assoc, List.take_append_drop, hall]
  simp only [batchScanLoop]
  split
  case isTrue hshort =>
    rwa [drop_eq_nil_of_length_take_lt hshort, List.append_nil] at hnext
  case isFalse hfull =>
    cases hlast : ((scanned store .asc s.rangeRemaining).take size).getLast? with
    | none =>
      -- a full page has a last entry
      have hnil := eq_nil_of_getLast?_take hsize hlast
      simp [hnil, hsize] at hfull
    | some last =>
      obtain ⟨lastKey, v⟩ := last
      obtain ⟨first, hsplit⟩ := exists_split_of_getLast?_take hlast
      have hrest := scanned_rangeBehind hsplit
      have hne : scanned store .asc s.rangeRemaining ≠ [] := by
        rw [hsplit]
        simp
      refine ⟨?_, hne, hrest⟩
      simp only [hrest, hnext]

def Attempts.Gives {α : Type} (attempts : Attempts) (timeout : Option ℕ) (value : α) :
    Except Failure α → Prop
  | .ok found => found = value
  | .error error => attempts.FailsWith timeout error

theorem Attempts.gives_of_ends {Q : ScanState → Prop} {returned : ScanState → List Entry}
    {value : List Entry} (hQ : ∀ s, Q s → returned s = value)
    {result : Option (Except Failure ScanState)} (h : (attempts.answers timeout).Ends Q result) :
    attempts.Gives timeout value (scanResult returned result) := by
  match result with
  | some (.ok s) => exact hQ s h
  | some (.error error) => exact failsWith_of_reports h
  | none => exact h.elim

theorem batchScanEntireRange_spec (hone : attempts.responses.OneFits) :
    attempts.Gives none (scanned store .asc range)
      (batchScanEntireRange store range attempts) := by
  have hlength := length_scanned_le store .asc range
  refine Attempts.gives_of_ends (fun s hkvs => hkvs) ?_
  refine Loop.run_rule (fun s : ScanState => scanned store .asc s.rangeRemaining)
    (fun s => s.kvs ++ scanned store .asc s.rangeRemaining = scanned store .asc range)
    (fun s size _ => rfl) (fun s size hsize hall => meets_batchScanLoop hsize hall)
    (hone.answers readInTime_tooLarge) 0 (fun n size page _ => Attempts.answer_ne_retry n size page)
    (List.nil_append _) (by omega) ?_
  simp only
  omega

theorem maxCount_eq_zero_of_size (h : scanExtendedSize f maxCount = 0) : maxCount = some 0 := by
  unfold scanExtendedSize at h
  split at h
  · split at h
    · rw [h]
    · omega
  · omega

theorem ends_of_size_zero {fuel : ℕ} :
    (attempts.answers timeout).Ends (fun _ => True)
      ((scanExtendedLoop store order f maxCount).run (attempts.answers timeout) (fuel + 1) 0 0
        s) := by
  unfold Loop.run
  cases hanswer : (attempts.answers timeout).answer 0 0
      ((scanExtendedLoop store order f maxCount).fetch s 0) with
  | tooLarge => exact absurd hanswer ((attempts.answers timeout).nothing_fits _ _)
  | retry => exact absurd hanswer (Attempts.answer_ne_retry _ _ _)
  | failed error => exact ⟨_, _, _, hanswer⟩
  | page => trivial

theorem scanExtended_spec (hone : attempts.responses.OneFits) :
    attempts.Gives timeout (truncated maxCount (filtered f (scanned store order range)))
      (scanExtended store range order f maxCount timeout attempts) := by
  have hlength := length_scanned_le store order range
  have hle := scanExtendedSize_le f maxCount
  rcases Nat.eq_zero_or_pos (scanExtendedSize f maxCount) with hzero | hsize
  · -- nothing is wanted, and nothing is returned whatever the loop has collected
    obtain rfl := maxCount_eq_zero_of_size hzero
    have hnone : ∀ s : ScanState, True →
        truncated (some 0) s.kvs = truncated (some 0) (filtered f (scanned store order range)) :=
      fun s _ => rfl
    refine Attempts.gives_of_ends hnone ?_
    rw [hzero]
    exact ends_of_size_zero
  · refine Attempts.gives_of_ends (fun s hkvs => hkvs) ?_
    refine Loop.run_rule (fun s : ScanState => scanned store order s.rangeRemaining)
      (fun s => s.kvs ++ filtered f (scanned store order s.rangeRemaining) =
        filtered f (scanned store order range))
      (fun s size _ => rfl) (fun s size hsize hall => meets_scanExtendedLoop hsize hall)
      (hone.answers readInTime_tooLarge) 0
      (fun n size page _ => Attempts.answer_ne_retry n size page) (List.nil_append _) hsize ?_
    simp only
    omega

end Loops

end CardanoIndexer.Mapi
