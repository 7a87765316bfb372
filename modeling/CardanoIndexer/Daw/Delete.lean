import CardanoIndexer.Lib.Adaptive
import CardanoIndexer.Lib.SortedMap
import CardanoIndexer.Timbre.Namespace

/-!
# Deleting a range of keys

A scan that is too large is made again at half the size, one that fails otherwise as it was.
-/

namespace CardanoIndexer.Daw

open Timbre Adaptive

abbrev Store := SortedMap Bytes Bytes

inductive DeleteError where
  | begin
  | delete
  | commit
  | panic
  deriving DecidableEq

inductive Attempt where
  | scan (response : Response)
  | txn (error : DeleteError)

structure Attempts where
  respond : ℕ → ℕ → List Bytes → Attempt
  nothing_fits : ∀ n page, respond n 0 page ≠ .scan .tooLarge

def readAttempt : Attempt → Answer DeleteError
  | .scan .page => .page
  | .scan .tooLarge => .tooLarge
  | .scan .error => .retry
  | .txn error => .failed error

theorem eq_of_readAttempt_tooLarge {attempt : Attempt} (h : readAttempt attempt = .tooLarge) :
    attempt = .scan .tooLarge := by
  match attempt with
  | .scan .tooLarge => rfl
  | .scan .page => cases h
  | .scan .error => cases h
  | .txn _ => cases h

theorem eq_of_readAttempt_retry {attempt : Attempt} (h : readAttempt attempt = .retry) :
    attempt = .scan .error := by
  match attempt with
  | .scan .error => rfl
  | .scan .page => cases h
  | .scan .tooLarge => cases h
  | .txn _ => cases h

theorem eq_of_readAttempt_failed {attempt : Attempt} {error : DeleteError}
    (h : readAttempt attempt = .failed error) : attempt = .txn error := by
  match attempt with
  | .txn _ =>
    cases h
    rfl
  | .scan .page => cases h
  | .scan .tooLarge => cases h
  | .scan .error => cases h

def Attempts.answers (attempts : Attempts) : Answers Bytes DeleteError where
  answer n size page := readAttempt (attempts.respond n size page)
  nothing_fits n page h := attempts.nothing_fits n page (eq_of_readAttempt_tooLarge h)

def keysIn (store : Store) (range : KeyRange) : List Bytes :=
  (store.entries.map Prod.fst).filter fun key => range.Contains key

/-- The variables of the loop.  Of the keys it has seen the source keeps the first, the last
and their number, `total_removed`. -/
structure DeleteState where
  store : Store
  rangeRemaining : KeyRange
  seen : List Bytes

def deleteLoop (force : Bool) : Loop DeleteState Bytes DeleteError where
  fetch s scanSize := (keysIn s.store s.rangeRemaining).take scanSize
  onPage _ keys s :=
    match keys.getLast? with
    -- "deletion complete"
    | none => .stop s
    | some lastKey =>
      if s.seen.length + keys.length < 2 ^ 31 then .go {
        store := if force then s.store.restrict fun key => key ∉ keys else s.store
        rangeRemaining := ⟨lastKey ++ [0], s.rangeRemaining.stop⟩
        seen := s.seen ++ keys }
      else .fail .panic

def handleDeleteCmd (store : Store) (range : KeyRange) (force : Bool) (scanSize : ℕ)
    (attempts : Attempts) (fuel : ℕ) : Option (Except DeleteError DeleteState) :=
  (deleteLoop force).run attempts.answers fuel 0 scanSize ⟨store, range, []⟩

/-! ## Keys of a range -/

variable {lastKey : Bytes}

section Keys

variable {store : Store} {range : KeyRange}

theorem keysIn_sorted (store : Store) (range : KeyRange) :
    (keysIn store range).Pairwise (· < ·) :=
  (List.pairwise_map.mpr store.sorted).filter _

theorem mem_keysIn {key : Bytes} :
    key ∈ keysIn store range ↔ (store.get key).isSome ∧ range.Contains key := by
  rw [keysIn, List.mem_filter, store.get_isSome_iff, decide_eq_true_eq]

theorem keysIn_restrict (store : Store) (range : KeyRange) (p : Bytes → Bool) :
    keysIn (store.restrict p) range = (keysIn store range).filter p := by
  simp only [keysIn, SortedMap.restrict, List.filter_filter, List.filter_map]
  refine congrArg (List.map Prod.fst) (List.filter_congr fun e _ => ?_)
  exact Bool.and_comm ..

theorem keysIn_behind {first rest : List Bytes}
    (h : keysIn store range = first ++ lastKey :: rest) :
    keysIn store ⟨lastKey ++ [0], range.stop⟩ = rest := by
  have hsorted := keysIn_sorted store range
  have hmem : lastKey ∈ keysIn store range := by
    rw [h]
    exact List.mem_append_right _ List.mem_cons_self
  have hlast := (mem_keysIn.mp hmem).2
  have hfilter : keysIn store ⟨lastKey ++ [0], range.stop⟩ =
      (keysIn store range).filter (lastKey < ·) := by
    rw [keysIn, keysIn, List.filter_filter]
    refine List.filter_congr fun key _ => ?_
    rw [← Bool.decide_and, decide_eq_decide, KeyRange.Contains, KeyRange.Contains,
      Bytes.append_zero_le_iff]
    exact ⟨fun hkey => ⟨hkey.1, hlast.1.trans hkey.1.le, hkey.2⟩, fun hkey => ⟨hkey.1, hkey.2.2⟩⟩
  rw [h, List.pairwise_append, List.pairwise_cons] at hsorted
  obtain ⟨-, ⟨hrest, -⟩, hfirst⟩ := hsorted
  have hnone : first.filter (lastKey < ·) = [] := by
    rw [List.filter_eq_nil_iff]
    intro key hkey
    simpa using (hfirst key hkey lastKey List.mem_cons_self).le
  have hall : rest.filter (lastKey < ·) = rest := by
    rw [List.filter_eq_self]
    intro key hkey
    simpa using hrest key hkey
  rw [hfilter, h, List.filter_append, hnone, List.filter_cons_of_neg (by simp), hall,
    List.nil_append]

end Keys

/-! ## The loop -/

section Loop

variable {store : Store} {range : KeyRange} {force : Bool} {attempts : Attempts} {s : DeleteState}

def leftOver (force : Bool) (store : Store) (seen : List Bytes) : Store :=
  if force then store.restrict fun key => key ∉ seen else store

structure Handles (force : Bool) (store : Store) (range : KeyRange) (s : DeleteState) : Prop where
  keys : s.seen ++ keysIn s.store s.rangeRemaining = keysIn store range
  store : s.store = leftOver force store s.seen

theorem leftOver_append (seen keys : List Bytes) :
    (if force then (leftOver force store seen).restrict fun key => key ∉ keys
      else leftOver force store seen) = leftOver force store (seen ++ keys) := by
  cases force with
  | false => rfl
  | true =>
    apply SortedMap.ext_get
    intro key
    by_cases hseen : key ∈ seen <;> by_cases hkey : key ∈ keys <;>
      simp [leftOver, hseen, hkey]

theorem keysIn_behind_page (force : Bool) {size : ℕ}
    (hlast : ((keysIn s.store s.rangeRemaining).take size).getLast? = some lastKey) :
    keysIn (if force then s.store.restrict fun key =>
        key ∉ (keysIn s.store s.rangeRemaining).take size else s.store)
      ⟨lastKey ++ [0], s.rangeRemaining.stop⟩ = (keysIn s.store s.rangeRemaining).drop size := by
  obtain ⟨first, hsplit⟩ := exists_split_of_getLast?_take hlast
  have hbehind := keysIn_behind hsplit
  cases force with
  | false => exact hbehind
  | true =>
    rw [if_pos rfl, keysIn_restrict, hbehind, List.filter_eq_self]
    intro key hkey
    have hnodup : (keysIn s.store s.rangeRemaining).Nodup :=
      (keysIn_sorted ..).imp fun hlt => hlt.ne
    rw [← List.take_append_drop size (keysIn s.store s.rangeRemaining),
      List.nodup_append] at hnodup
    simpa using fun hpage => hnodup.2.2 key hpage key hkey rfl

theorem meets_deleteLoop (hfew : (keysIn store range).length < 2 ^ 31) {size : ℕ} (hsize : 0 < size)
    (h : Handles force store range s) :
    ((deleteLoop force).onPage size ((keysIn s.store s.rangeRemaining).take size) s).Meets
      (fun s => keysIn s.store s.rangeRemaining) (Handles force store range)
      (fun s => s.seen = keysIn store range ∧
        s.store = leftOver force store (keysIn store range)) size s := by
  simp only [deleteLoop]
  cases hlast : ((keysIn s.store s.rangeRemaining).take size).getLast? with
  | none =>
    have hkeys := h.keys
    rw [eq_nil_of_getLast?_take hsize hlast, List.append_nil] at hkeys
    exact ⟨hkeys, hkeys ▸ h.store⟩
  | some lastKey =>
    have hbehind := keysIn_behind_page force hlast
    have hlength := congrArg List.length h.keys
    rw [List.length_append] at hlength
    have hcount : s.seen.length + ((keysIn s.store s.rangeRemaining).take size).length <
        2 ^ 31 := by
      rw [List.length_take]
      omega
    have hne : keysIn s.store s.rangeRemaining ≠ [] := by
      intro hnil
      simp [hnil] at hlast
    simp only [if_pos hcount]
    refine ⟨⟨?_, ?_⟩, hne, hbehind⟩
    · simp only [hbehind]
      rw [List.append_assoc, List.take_append_drop, h.keys]
    · simp only [h.store, leftOver_append]

structure Attempts.Settles (attempts : Attempts) (last : ℕ) : Prop where
  one_fits : ∀ n page, attempts.respond n 1 page ≠ .scan .tooLarge
  no_error : ∀ n size page, last ≤ n → attempts.respond n size page ≠ .scan .error

def Completes (attempts : Attempts) (force : Bool) (store : Store) (range : KeyRange) :
    Option (Except DeleteError DeleteState) → Prop
  | some (.ok s) => s.seen = keysIn store range ∧
      s.store = leftOver force store (keysIn store range)
  | some (.error error) => ∃ n size page, attempts.respond n size page = .txn error
  | none => False

theorem handleDeleteCmd_spec {last : ℕ} (hsettles : attempts.Settles last)
    (hfew : (keysIn store range).length < 2 ^ 31) {scanSize : ℕ} (hsize : 0 < scanSize)
    {fuel : ℕ} (hfuel : last + (keysIn store range).length + scanSize < fuel) :
    Completes attempts force store range
      (handleDeleteCmd store range force scanSize attempts fuel) := by
  have hends : attempts.answers.Ends
      (fun s => s.seen = keysIn store range ∧
        s.store = leftOver force store (keysIn store range))
      (handleDeleteCmd store range force scanSize attempts fuel) := by
    refine Loop.run_rule (fun s : DeleteState => keysIn s.store s.rangeRemaining)
      (Handles force store range) (fun s size _ => rfl)
      (fun s size hsize h => meets_deleteLoop hfew hsize h) ?_ last ?_ ?_ hsize ?_
    · intro n page htoo
      exact hsettles.one_fits n page (eq_of_readAttempt_tooLarge htoo)
    · intro n size page hle hretry
      exact hsettles.no_error n size page hle (eq_of_readAttempt_retry hretry)
    · refine ⟨List.nil_append _, ?_⟩
      cases force with
      | false => rfl
      | true =>
        apply SortedMap.ext_get
        intro key
        simp [leftOver]
    · simpa using hfuel
  match hresult : handleDeleteCmd store range force scanSize attempts fuel with
  | some (.ok s) =>
    rw [hresult] at hends
    exact hends
  | some (.error error) =>
    rw [hresult] at hends
    obtain ⟨n, size, page, hanswer⟩ := hends
    exact ⟨n, size, page, eq_of_readAttempt_failed hanswer⟩
  | none =>
    rw [hresult] at hends
    exact hends

end Loop

end CardanoIndexer.Daw
