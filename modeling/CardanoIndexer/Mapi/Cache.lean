import CardanoIndexer.Lib.Run

/-!
# The cache of slow results

Callers that find no value queue for a lock, look again, and refresh if there is still nothing.
-/

namespace CardanoIndexer.Mapi

open Run

/-! ## The model -/

structure CacheEntry (α : Type) where
  value : α
  expiresAt : ℕ
  deriving DecidableEq

def unexpired {α : Type} (now : ℕ) : Option (CacheEntry α) → Option α
  | some entry => if entry.expiresAt > now then some entry.value else none
  | none => none

inductive Phase (τ ε : Type) where
  | readValue
  | readError
  | lock
  | readValueAgain
  | readErrorAgain
  | callRefresh
  | refreshing
  | storeValue (value : τ)
  | clearError (value : τ)
  | stampError (error : ε)
  | storeError (entry : CacheEntry ε)
  | returned (result : Except ε τ)
  | cancelled
  deriving DecidableEq

structure TtlCache (κ τ ε : Type) where
  now : ℕ
  state : Option (CacheEntry τ)
  lastError : Option (CacheEntry ε)
  refreshLock : Option κ
  phase : κ → Phase τ ε

inductive CacheEvent (κ τ ε : Type) where
  | tick (elapsed : ℕ)
  | step (caller : κ)
  | finish (caller : κ) (outcome : Except ε τ)
  | cancel (caller : κ)

inductive NotNow where
  | waiting
  | over
  deriving DecidableEq

namespace TtlCache

variable {κ τ ε : Type} [DecidableEq κ]

def new : TtlCache κ τ ε := ⟨0, none, none, none, fun _ => .readValue⟩

def goto (self : TtlCache κ τ ε) (caller : κ) (phase : Phase τ ε) : TtlCache κ τ ε :=
  { self with phase := Function.update self.phase caller phase }

def leave (self : TtlCache κ τ ε) (caller : κ) (phase : Phase τ ε) : TtlCache κ τ ε :=
  { self.goto caller phase with refreshLock := none }

variable (ttl failureTtl : ℕ)

def advance (self : TtlCache κ τ ε) (caller : κ) : Except NotNow (TtlCache κ τ ε) :=
  match self.phase caller with
  | .readValue => match unexpired self.now self.state with
      | some value => .ok (self.goto caller (.returned (.ok value)))
      | none => .ok (self.goto caller .readError)
  | .readError => match unexpired self.now self.lastError with
      | some error => .ok (self.goto caller (.returned (.error error)))
      | none => .ok (self.goto caller .lock)
  | .lock => match self.refreshLock with
      | none => .ok { self.goto caller .readValueAgain with refreshLock := some caller }
      | some _ => .error .waiting
  | .readValueAgain => match unexpired self.now self.state with
      | some value => .ok (self.leave caller (.returned (.ok value)))
      | none => .ok (self.goto caller .readErrorAgain)
  | .readErrorAgain => match unexpired self.now self.lastError with
      | some error => .ok (self.leave caller (.returned (.error error)))
      | none => .ok (self.goto caller .callRefresh)
  | .callRefresh => .ok (self.goto caller .refreshing)
  | .refreshing => .error .waiting
  | .storeValue value =>
    .ok { self.goto caller (.clearError value) with state := some ⟨value, self.now + ttl⟩ }
  | .clearError value =>
    .ok { self.leave caller (.returned (.ok value)) with lastError := none }
  | .stampError error => .ok (self.goto caller (.storeError ⟨error, self.now + failureTtl⟩))
  | .storeError entry =>
    .ok { self.leave caller (.returned (.error entry.value)) with lastError := some entry }
  | .returned _ => .error .over
  | .cancelled => .error .over

def afterRefresh : Except ε τ → Phase τ ε
  | .ok value => .storeValue value
  | .error error => .stampError error

def step (self : TtlCache κ τ ε) : CacheEvent κ τ ε → Except NotNow (TtlCache κ τ ε)
  | .tick elapsed => .ok { self with now := self.now + elapsed }
  | .step caller => self.advance ttl failureTtl caller
  | .finish caller outcome => match self.phase caller with
      | .refreshing => .ok (self.goto caller (afterRefresh outcome))
      | _ => .error .waiting
  | .cancel caller => match self.phase caller with
      | .returned _ => .error .over
      | .cancelled => .error .over
      | _ => if self.refreshLock = some caller then .ok (self.leave caller .cancelled)
          else .ok (self.goto caller .cancelled)

end TtlCache

/-! ## What has happened -/

section History

variable {κ τ ε : Type}

def latestOutcome : List (CacheEvent κ τ ε) → Option (Except ε τ)
  | [] => none
  | .finish _ outcome :: later => some ((latestOutcome later).getD outcome)
  | .tick _ :: later | .step _ :: later | .cancel _ :: later => latestOutcome later

theorem latestOutcome_append (first second : List (CacheEvent κ τ ε)) :
    latestOutcome (first ++ second) = (latestOutcome second).or (latestOutcome first) := by
  induction first with
  | nil => simp [latestOutcome]
  | cons event rest ih =>
    cases event with
    | finish caller outcome =>
      simp only [List.cons_append, latestOutcome, ih]
      cases latestOutcome second <;> simp
    | tick elapsed | step caller | cancel caller => exact ih

def IsOutcome (past : List (CacheEvent κ τ ε)) (caller : κ) (outcome : Except ε τ) : Prop :=
  .finish caller outcome ∈ past ∧ latestOutcome past = some outcome

theorem IsOutcome.mono {past : List (CacheEvent κ τ ε)} {event : CacheEvent κ τ ε} {caller : κ}
    {outcome : Except ε τ} (h : IsOutcome past caller outcome)
    (hevent : latestOutcome [event] = none) : IsOutcome (past ++ [event]) caller outcome := by
  refine ⟨List.mem_append_left _ h.1, ?_⟩
  rw [latestOutcome_append, hevent, Option.none_or]
  exact h.2

variable [DecidableEq κ] (ttl failureTtl : ℕ)

def WroteValue (past : List (CacheEvent κ τ ε)) (entry : CacheEntry τ) : Prop :=
  ∃ before caller self, before ++ [.step caller] <+: past ∧
    run (TtlCache.step ttl failureTtl) TtlCache.new before = .ok self ∧
    self.phase caller = .storeValue entry.value ∧ entry.expiresAt = self.now + ttl

def StampedError (past : List (CacheEvent κ τ ε)) (entry : CacheEntry ε) : Prop :=
  ∃ before caller self, before ++ [.step caller] <+: past ∧
    run (TtlCache.step ttl failureTtl) TtlCache.new before = .ok self ∧
    self.phase caller = .stampError entry.value ∧ entry.expiresAt = self.now + failureTtl

def IsServed (past : List (CacheEvent κ τ ε)) (self : TtlCache κ τ ε) (result : Except ε τ) :
    Prop :=
  latestOutcome past = some result ∧
    match result with
    | .ok value => ∃ entry, self.state = some entry ∧ entry.value = value ∧
        WroteValue ttl failureTtl past entry ∧ self.now < entry.expiresAt
    | .error error => ∃ entry, self.lastError = some entry ∧ entry.value = error ∧
        StampedError ttl failureTtl past entry ∧ self.now < entry.expiresAt

variable {ttl failureTtl} {past : List (CacheEvent κ τ ε)}

theorem WroteValue.mono {entry : CacheEntry τ} (h : WroteValue ttl failureTtl past entry)
    (event : CacheEvent κ τ ε) : WroteValue ttl failureTtl (past ++ [event]) entry := by
  obtain ⟨before, caller, self, hbefore, hself⟩ := h
  exact ⟨before, caller, self, hbefore.trans (List.prefix_append _ _), hself⟩

theorem StampedError.mono {entry : CacheEntry ε} (h : StampedError ttl failureTtl past entry)
    (event : CacheEvent κ τ ε) : StampedError ttl failureTtl (past ++ [event]) entry := by
  obtain ⟨before, caller, self, hbefore, hself⟩ := h
  exact ⟨before, caller, self, hbefore.trans (List.prefix_append _ _), hself⟩

end History

/-! ## The invariant -/

section Invariant

variable {κ τ ε : Type} [DecidableEq κ] (ttl failureTtl : ℕ) {α : Type} {now : ℕ}

def Phase.isLocked : Phase τ ε → Bool
  | .readValueAgain | .readErrorAgain | .callRefresh | .refreshing | .storeValue _ | .clearError _
  | .stampError _ | .storeError _ => true
  | .readValue | .readError | .lock | .returned _ | .cancelled => false

def Expired {α : Type} (now : ℕ) (entry : Option (CacheEntry α)) : Prop :=
  unexpired now entry = none

def Knows (past : List (CacheEvent κ τ ε)) (self : TtlCache κ τ ε) (caller : κ) :
    Phase τ ε → Prop
  | .readErrorAgain => Expired self.now self.state
  | .callRefresh | .refreshing => Expired self.now self.state ∧ Expired self.now self.lastError
  | .storeValue value => (Expired self.now self.state ∧ Expired self.now self.lastError) ∧
      IsOutcome past caller (.ok value)
  | .clearError value => Expired self.now self.lastError ∧ IsOutcome past caller (.ok value)
  | .stampError error => (Expired self.now self.state ∧ Expired self.now self.lastError) ∧
      IsOutcome past caller (.error error)
  | .storeError entry => (Expired self.now self.state ∧ Expired self.now self.lastError) ∧
      IsOutcome past caller (.error entry.value) ∧ StampedError ttl failureTtl past entry
  | .readValue | .readError | .lock | .readValueAgain | .returned _ | .cancelled => True

structure Inv (past : List (CacheEvent κ τ ε)) (cache : TtlCache κ τ ε) : Prop where
  locked : ∀ caller, (cache.phase caller).isLocked = true → cache.refreshLock = some caller
  knows : ∀ caller, Knows ttl failureTtl past cache caller (cache.phase caller)
  state : ∀ entry, cache.state = some entry → WroteValue ttl failureTtl past entry ∧
    (cache.now < entry.expiresAt → latestOutcome past = some (.ok entry.value))
  lastError : ∀ entry, cache.lastError = some entry → StampedError ttl failureTtl past entry ∧
    (cache.now < entry.expiresAt → latestOutcome past = some (.error entry.value))

variable {ttl failureTtl} {past : List (CacheEvent κ τ ε)} {self next : TtlCache κ τ ε}
  {event : CacheEvent κ τ ε} {caller : κ} {phase : Phase τ ε}

theorem unexpired_eq_some_iff {entry : Option (CacheEntry α)} {value : α} :
    unexpired now entry = some value ↔
      ∃ e, entry = some e ∧ now < e.expiresAt ∧ e.value = value := by
  cases entry with
  | none => simp [unexpired]
  | some e => simp [unexpired]

theorem expired_iff {entry : Option (CacheEntry α)} :
    Expired now entry ↔ ∀ e, entry = some e → e.expiresAt ≤ now := by
  cases entry with
  | none => simp [Expired, unexpired]
  | some e => simp [Expired, unexpired]

theorem Expired.later {entry : Option (CacheEntry α)} (h : Expired now entry) (elapsed : ℕ) :
    Expired (now + elapsed) entry := by
  rw [expired_iff] at h ⊢
  intro e he
  have := h e he
  omega

theorem knows_of_not_locked (h : phase.isLocked = false) :
    Knows ttl failureTtl past self caller phase := by
  cases phase with
  | readValue | readError | lock | returned _ | cancelled => trivial
  | readValueAgain | readErrorAgain | callRefresh | refreshing | storeValue _ | clearError _
  | stampError _ | storeError _ => cases h

theorem Knows.mono (h : Knows ttl failureTtl past self caller phase) (elapsed : ℕ)
    (hnow : next.now = self.now + elapsed) (hstate : next.state = self.state)
    (herror : next.lastError = self.lastError) (hevent : latestOutcome [event] = none) :
    Knows ttl failureTtl (past ++ [event]) next caller phase := by
  have hvalue : Expired self.now self.state → Expired next.now next.state := fun h => by
    rw [hnow, hstate]
    exact h.later elapsed
  have hlast : Expired self.now self.lastError → Expired next.now next.lastError := fun h => by
    rw [hnow, herror]
    exact h.later elapsed
  cases phase with
  | readErrorAgain => exact hvalue h
  | callRefresh | refreshing => exact ⟨hvalue h.1, hlast h.2⟩
  | storeValue value => exact ⟨⟨hvalue h.1.1, hlast h.1.2⟩, h.2.mono hevent⟩
  | clearError value => exact ⟨hlast h.1, h.2.mono hevent⟩
  | stampError error => exact ⟨⟨hvalue h.1.1, hlast h.1.2⟩, h.2.mono hevent⟩
  | storeError entry =>
    exact ⟨⟨hvalue h.1.1, hlast h.1.2⟩, h.2.1.mono hevent, h.2.2.mono event⟩
  | readValue | readError | lock | readValueAgain | returned _ | cancelled => trivial

theorem Inv.entries (h : Inv ttl failureTtl past self) (elapsed : ℕ)
    (hnow : next.now = self.now + elapsed) (hevent : latestOutcome [event] = none) :
    (∀ entry, self.state = some entry → WroteValue ttl failureTtl (past ++ [event]) entry ∧
      (next.now < entry.expiresAt →
        latestOutcome (past ++ [event]) = some (.ok entry.value))) ∧
    ∀ entry, self.lastError = some entry →
      StampedError ttl failureTtl (past ++ [event]) entry ∧
        (next.now < entry.expiresAt →
          latestOutcome (past ++ [event]) = some (.error entry.value)) := by
  rw [latestOutcome_append, hevent, Option.none_or]
  constructor
  · intro entry hentry
    obtain ⟨hwrote, hlatest⟩ := h.state entry hentry
    exact ⟨hwrote.mono event, fun hlt => hlatest (by omega)⟩
  · intro entry hentry
    obtain ⟨hstamped, hlatest⟩ := h.lastError entry hentry
    exact ⟨hstamped.mono event, fun hlt => hlatest (by omega)⟩

theorem Inv.move (h : Inv ttl failureTtl past self)
    (hnow : next.now = self.now) (hstate : next.state = self.state)
    (herror : next.lastError = self.lastError)
    (hphase : next.phase = Function.update self.phase caller phase)
    (hevent : latestOutcome [event] = none)
    (hlock : phase.isLocked = true → next.refreshLock = some caller)
    (hothers : ∀ other, other ≠ caller → self.refreshLock = some other →
      next.refreshLock = some other)
    (hknows : Knows ttl failureTtl (past ++ [event]) next caller phase) :
    Inv ttl failureTtl (past ++ [event]) next := by
  obtain ⟨hstates, herrors⟩ := h.entries 0 hnow hevent
  refine ⟨fun other hother => ?_, fun other => ?_, by rwa [hstate], by rwa [herror]⟩
  · rw [hphase] at hother
    rcases eq_or_ne other caller with rfl | hne
    · exact hlock (by rwa [Function.update_self] at hother)
    · rw [Function.update_of_ne hne] at hother
      exact hothers other hne (h.locked other hother)
  · rw [hphase]
    rcases eq_or_ne other caller with rfl | hne
    · rwa [Function.update_self]
    · rw [Function.update_of_ne hne]
      exact (h.knows other).mono 0 hnow hstate herror hevent

theorem Inv.write (h : Inv ttl failureTtl past self) (hheld : (self.phase caller).isLocked = true)
    (hphase : next.phase = Function.update self.phase caller phase)
    (hlock : phase.isLocked = true → next.refreshLock = some caller)
    (hknows : Knows ttl failureTtl (past ++ [event]) next caller phase)
    (hstate : ∀ entry, next.state = some entry →
      WroteValue ttl failureTtl (past ++ [event]) entry ∧
        (next.now < entry.expiresAt → latestOutcome (past ++ [event]) = some (.ok entry.value)))
    (herror : ∀ entry, next.lastError = some entry →
      StampedError ttl failureTtl (past ++ [event]) entry ∧
        (next.now < entry.expiresAt →
          latestOutcome (past ++ [event]) = some (.error entry.value))) :
    Inv ttl failureTtl (past ++ [event]) next := by
  have hothers : ∀ other, other ≠ caller → (self.phase other).isLocked = false := by
    intro other hne
    by_contra hlocked
    rw [Bool.not_eq_false] at hlocked
    exact hne (Option.some.inj ((h.locked other hlocked).symm.trans (h.locked caller hheld)))
  refine ⟨fun other hother => ?_, fun other => ?_, hstate, herror⟩
  · rw [hphase] at hother
    rcases eq_or_ne other caller with rfl | hne
    · exact hlock (by rwa [Function.update_self] at hother)
    · rw [Function.update_of_ne hne, hothers other hne] at hother
      cases hother
  · rw [hphase]
    rcases eq_or_ne other caller with rfl | hne
    · rwa [Function.update_self]
    · rw [Function.update_of_ne hne]
      exact knows_of_not_locked (hothers other hne)

/-! ### One step -/

theorem Inv.advance (hrun : run (TtlCache.step ttl failureTtl) TtlCache.new past = .ok self)
    (h : Inv ttl failureTtl past self) (hstep : self.advance ttl failureTtl caller = .ok next) :
    Inv ttl failureTtl (past ++ [.step caller]) next := by
  have hknows := h.knows caller
  have hlocked := h.locked caller
  -- the only holder of the lock is this caller
  have halone : (self.phase caller).isLocked = true → ∀ other, other ≠ caller →
      self.refreshLock = some other → (none : Option κ) = some other := by
    intro hheld other hne hother
    exact absurd (Option.some.inj (hother.symm.trans (hlocked hheld))) hne
  unfold TtlCache.advance at hstep
  cases hphase : self.phase caller with
  | readValue =>
    simp only [hphase] at hstep
    split at hstep
    · cases hstep
      exact h.move rfl rfl rfl rfl rfl (fun h => by cases h) (fun _ _ h => h) trivial
    · cases hstep
      exact h.move rfl rfl rfl rfl rfl (fun h => by cases h) (fun _ _ h => h) trivial
  | readError =>
    simp only [hphase] at hstep
    split at hstep
    · cases hstep
      exact h.move rfl rfl rfl rfl rfl (fun h => by cases h) (fun _ _ h => h) trivial
    · cases hstep
      exact h.move rfl rfl rfl rfl rfl (fun h => by cases h) (fun _ _ h => h) trivial
  | lock =>
    simp only [hphase] at hstep
    split at hstep
    case h_1 hfree =>
      cases hstep
      refine h.move rfl rfl rfl rfl rfl (fun _ => rfl) (fun other _ hother => ?_) trivial
      rw [hfree] at hother
      cases hother
    case h_2 => cases hstep
  | readValueAgain =>
    rw [hphase] at hlocked halone
    simp only [hphase] at hstep
    split at hstep
    · cases hstep
      exact h.move rfl rfl rfl rfl rfl (fun h => by cases h) (halone rfl) trivial
    case h_2 hnone =>
      cases hstep
      exact h.move rfl rfl rfl rfl rfl (fun _ => hlocked rfl) (fun _ _ h => h) hnone
  | readErrorAgain =>
    rw [hphase] at hlocked halone hknows
    simp only [hphase] at hstep
    split at hstep
    · cases hstep
      exact h.move rfl rfl rfl rfl rfl (fun h => by cases h) (halone rfl) trivial
    case h_2 hnone =>
      cases hstep
      exact h.move rfl rfl rfl rfl rfl (fun _ => hlocked rfl) (fun _ _ h => h) ⟨hknows, hnone⟩
  | callRefresh =>
    rw [hphase] at hlocked hknows
    simp only [hphase] at hstep
    cases hstep
    exact h.move rfl rfl rfl rfl rfl (fun _ => hlocked rfl) (fun _ _ h => h) hknows
  | storeValue value =>
    rw [hphase] at hlocked hknows
    simp only [hphase] at hstep
    cases hstep
    have hlatest : IsOutcome (past ++ [.step caller]) caller (.ok value) := hknows.2.mono rfl
    refine h.write (by rw [hphase]; rfl) rfl (fun _ => hlocked rfl) ⟨hknows.1.2, hlatest⟩ ?_
      (h.entries 0 rfl rfl).2
    intro entry hentry
    cases hentry
    exact ⟨⟨past, caller, self, List.prefix_refl _, hrun, hphase, rfl⟩, fun _ => hlatest.2⟩
  | clearError value =>
    simp only [hphase] at hstep
    cases hstep
    refine h.write (by rw [hphase]; rfl) rfl (fun h => by cases h) trivial
      (h.entries 0 rfl rfl).1 ?_
    intro entry hentry
    cases hentry
  | stampError error =>
    rw [hphase] at hlocked hknows
    simp only [hphase] at hstep
    cases hstep
    refine h.move rfl rfl rfl rfl rfl (fun _ => hlocked rfl) (fun _ _ h => h) ⟨hknows.1, ?_, ?_⟩
    · exact hknows.2.mono rfl
    · exact ⟨past, caller, self, List.prefix_refl _, hrun, hphase, rfl⟩
  | storeError entry =>
    rw [hphase] at hknows
    simp only [hphase] at hstep
    cases hstep
    refine h.write (by rw [hphase]; rfl) rfl (fun h => by cases h) trivial
      (h.entries 0 rfl rfl).1 ?_
    intro entry' hentry
    cases hentry
    have hlatest : IsOutcome (past ++ [.step caller]) caller (.error entry.value) :=
      hknows.2.1.mono rfl
    exact ⟨hknows.2.2.mono _, fun _ => hlatest.2⟩
  | refreshing | returned _ | cancelled =>
    simp only [hphase] at hstep
    cases hstep

theorem Inv.finish {outcome : Except ε τ} (h : Inv ttl failureTtl past self)
    (hphase : self.phase caller = .refreshing) :
    Inv ttl failureTtl (past ++ [.finish caller outcome])
      (self.goto caller (TtlCache.afterRefresh outcome)) := by
  have hlocked := h.locked caller
  have hknows := h.knows caller
  rw [hphase] at hlocked hknows
  obtain ⟨hstate, herror⟩ := hknows
  have hlatest : latestOutcome (past ++ [.finish caller outcome]) = some outcome := by
    rw [latestOutcome_append]
    rfl
  refine h.write (by rw [hphase]; rfl) rfl (fun _ => hlocked rfl) ?_ ?_ ?_
  · have houtcome : IsOutcome (past ++ [.finish caller outcome]) caller outcome :=
      ⟨by simp, hlatest⟩
    cases outcome with
    | ok value => exact ⟨⟨hstate, herror⟩, houtcome⟩
    | error error => exact ⟨⟨hstate, herror⟩, houtcome⟩
  · intro entry hentry
    refine ⟨(h.state entry hentry).1.mono _, fun hlt => absurd hlt ?_⟩
    exact not_lt.mpr (expired_iff.mp hstate entry hentry)
  · intro entry hentry
    refine ⟨(h.lastError entry hentry).1.mono _, fun hlt => absurd hlt ?_⟩
    exact not_lt.mpr (expired_iff.mp herror entry hentry)

theorem Inv.cancel (h : Inv ttl failureTtl past self)
    (hnext : (if self.refreshLock = some caller then
      (.ok (self.leave caller .cancelled) : Except NotNow (TtlCache κ τ ε))
      else .ok (self.goto caller .cancelled)) = .ok next) :
    Inv ttl failureTtl (past ++ [.cancel caller]) next := by
  split at hnext
  case isTrue hheld =>
    cases hnext
    refine h.move rfl rfl rfl rfl rfl (fun h => by cases h) (fun other hne hother => ?_) trivial
    exact absurd (Option.some.inj (hother.symm.trans hheld)) hne
  case isFalse =>
    cases hnext
    exact h.move rfl rfl rfl rfl rfl (fun h => by cases h) (fun _ _ h => h) trivial

theorem Inv.step (hrun : run (TtlCache.step ttl failureTtl) TtlCache.new past = .ok self)
    (h : Inv ttl failureTtl past self) (hstep : self.step ttl failureTtl event = .ok next) :
    Inv ttl failureTtl (past ++ [event]) next := by
  cases event with
  | tick elapsed =>
    cases hstep
    have hevent : latestOutcome [(.tick elapsed : CacheEvent κ τ ε)] = none := rfl
    have hnow : ({ self with now := self.now + elapsed } : TtlCache κ τ ε).now =
        self.now + elapsed := rfl
    obtain ⟨hstates, herrors⟩ := h.entries elapsed hnow hevent
    exact ⟨h.locked, fun other => (h.knows other).mono elapsed rfl rfl rfl hevent, hstates,
      herrors⟩
  | step caller => exact h.advance hrun hstep
  | finish caller outcome =>
    rw [TtlCache.step] at hstep
    split at hstep
    case h_1 hphase =>
      cases hstep
      exact h.finish hphase
    case h_2 => cases hstep
  | cancel caller =>
    rw [TtlCache.step] at hstep
    split at hstep
    case h_1 => cases hstep
    case h_2 => cases hstep
    case h_3 => exact h.cancel hstep

theorem inv_new : Inv ttl failureTtl [] (TtlCache.new : TtlCache κ τ ε) where
  locked caller h := by cases h
  knows caller := trivial
  state entry h := by cases h
  lastError entry h := by cases h

theorem inv_of_run (hrun : run (TtlCache.step ttl failureTtl) TtlCache.new past = .ok self) :
    Inv ttl failureTtl past self :=
  invariant inv_new (fun _ _ _ _ hmid hinv hstep => hinv.step hmid hstep) hrun

end Invariant

/-! ## What callers see -/

section Callers

variable {κ τ ε : Type} [DecidableEq κ] {ttl failureTtl : ℕ} {past : List (CacheEvent κ τ ε)}
  {self next : TtlCache κ τ ε} {event : CacheEvent κ τ ε} {caller : κ}

theorem exists_caller_of_step (hstep : self.step ttl failureTtl event = .ok next)
    (hmoved : next.phase caller ≠ self.phase caller) :
    (event = .step caller ∧ self.advance ttl failureTtl caller = .ok next) ∨
      (∃ outcome, next.phase caller = TtlCache.afterRefresh outcome) ∨
      next.phase caller = .cancelled := by
  -- where only the phase of `mover` is changed, it is the caller that moves
  have hmover : ∀ mover phase, next.phase = Function.update self.phase mover phase →
      mover = caller ∧ next.phase caller = phase := by
    intro mover phase hphase
    rw [hphase] at hmoved ⊢
    rcases eq_or_ne caller mover with rfl | hne
    · exact ⟨rfl, Function.update_self ..⟩
    · rw [Function.update_of_ne hne] at hmoved
      exact absurd rfl hmoved
  cases event with
  | tick elapsed =>
    cases hstep
    exact absurd rfl hmoved
  | step mover =>
    obtain ⟨phase, hphase⟩ : ∃ phase, next.phase = Function.update self.phase mover phase := by
      unfold TtlCache.step TtlCache.advance at hstep
      grind [TtlCache.goto, TtlCache.leave]
    obtain ⟨rfl, -⟩ := hmover mover phase hphase
    exact Or.inl ⟨rfl, hstep⟩
  | finish mover outcome =>
    rw [TtlCache.step] at hstep
    split at hstep
    · cases hstep
      exact Or.inr (Or.inl ⟨outcome, (hmover mover _ rfl).2⟩)
    · cases hstep
  | cancel mover =>
    rw [TtlCache.step] at hstep
    split at hstep
    · cases hstep
    · cases hstep
    · split at hstep
      · cases hstep
        exact Or.inr (Or.inr (hmover mover _ rfl).2)
      · cases hstep
        exact Or.inr (Or.inr (hmover mover _ rfl).2)

theorem afterRefresh_ne_refreshing (outcome : Except ε τ) :
    TtlCache.afterRefresh outcome ≠ .refreshing := by
  cases outcome <;> intro h <;> cases h

theorem afterRefresh_ne_returned (outcome result : Except ε τ) :
    TtlCache.afterRefresh outcome ≠ .returned result := by
  cases outcome <;> intro h <;> cases h

theorem phase_of_refreshing (hadvance : self.advance ttl failureTtl caller = .ok next)
    (hafter : next.phase caller = .refreshing) : self.phase caller = .callRefresh := by
  have hset : ∀ phase, next.phase = Function.update self.phase caller phase →
      phase = .refreshing := by
    intro phase hphase
    rwa [hphase, Function.update_self] at hafter
  unfold TtlCache.advance at hadvance
  cases hphase : self.phase caller with
  | callRefresh => rfl
  | readValue | readError | lock | readValueAgain | readErrorAgain =>
    simp only [hphase] at hadvance
    split at hadvance <;> cases hadvance <;> cases hset _ rfl
  | storeValue _ | clearError _ | stampError _ | storeError _ =>
    simp only [hphase] at hadvance
    cases hadvance
    cases hset _ rfl
  | refreshing | returned _ | cancelled =>
    simp only [hphase] at hadvance
    cases hadvance

theorem expired_of_refreshing (h : Inv ttl failureTtl past self)
    (hstep : self.step ttl failureTtl event = .ok next) (hbefore : self.phase caller ≠ .refreshing)
    (hafter : next.phase caller = .refreshing) :
    Expired self.now self.state ∧ Expired self.now self.lastError := by
  have hmoved : next.phase caller ≠ self.phase caller := by
    rw [hafter]
    exact hbefore.symm
  obtain ⟨-, hadvance⟩ | ⟨outcome, hphase⟩ | hphase := exists_caller_of_step hstep hmoved
  · have hknows := h.knows caller
    rw [phase_of_refreshing hadvance hafter] at hknows
    exact hknows
  · exact absurd (hphase.symm.trans hafter) (afterRefresh_ne_refreshing outcome)
  · cases hphase.symm.trans hafter

theorem isServed_of_state (h : Inv ttl failureTtl past self) {value : τ}
    (hvalue : unexpired self.now self.state = some value) :
    IsServed ttl failureTtl past self (.ok value) := by
  obtain ⟨entry, hentry, hlt, rfl⟩ := unexpired_eq_some_iff.mp hvalue
  obtain ⟨hwrote, hlatest⟩ := h.state entry hentry
  exact ⟨hlatest hlt, entry, hentry, rfl, hwrote, hlt⟩

theorem isServed_of_lastError (h : Inv ttl failureTtl past self) {error : ε}
    (herror : unexpired self.now self.lastError = some error) :
    IsServed ttl failureTtl past self (.error error) := by
  obtain ⟨entry, hentry, hlt, rfl⟩ := unexpired_eq_some_iff.mp herror
  obtain ⟨hstamped, hlatest⟩ := h.lastError entry hentry
  exact ⟨hlatest hlt, entry, hentry, rfl, hstamped, hlt⟩

theorem finished_or_isServed (h : Inv ttl failureTtl past self)
    (hadvance : self.advance ttl failureTtl caller = .ok next) {result : Except ε τ}
    (hafter : next.phase caller = .returned result) :
    .finish caller result ∈ past ∨ IsServed ttl failureTtl past self result := by
  have hknows := h.knows caller
  -- the phase that the step has set
  have hset : ∀ phase, next.phase = Function.update self.phase caller phase →
      phase = .returned result := by
    intro phase hphase
    rwa [hphase, Function.update_self] at hafter
  unfold TtlCache.advance at hadvance
  cases hphase : self.phase caller with
  | readValue | readValueAgain =>
    simp only [hphase] at hadvance
    split at hadvance
    case h_1 value hvalue =>
      cases hadvance
      cases hset _ rfl
      exact Or.inr (isServed_of_state h hvalue)
    case h_2 =>
      cases hadvance
      cases hset _ rfl
  | readError | readErrorAgain =>
    simp only [hphase] at hadvance
    split at hadvance
    case h_1 error herror =>
      cases hadvance
      cases hset _ rfl
      exact Or.inr (isServed_of_lastError h herror)
    case h_2 =>
      cases hadvance
      cases hset _ rfl
  | lock =>
    simp only [hphase] at hadvance
    split at hadvance
    · cases hadvance
      cases hset _ rfl
    · cases hadvance
  | clearError value =>
    rw [hphase] at hknows
    simp only [hphase] at hadvance
    cases hadvance
    cases hset _ rfl
    exact Or.inl hknows.2.1
  | storeError entry =>
    rw [hphase] at hknows
    simp only [hphase] at hadvance
    cases hadvance
    cases hset _ rfl
    exact Or.inl hknows.2.1.1
  | callRefresh | storeValue _ | stampError _ =>
    simp only [hphase] at hadvance
    cases hadvance
    cases hset _ rfl
  | refreshing | returned _ | cancelled =>
    simp only [hphase] at hadvance
    cases hadvance

end Callers

/-- **The cache is single-flight and never stale.** -/
theorem cache_single_flight {κ τ ε : Type} [DecidableEq κ] (ttl failureTtl : ℕ)
    {past : List (CacheEvent κ τ ε)} {self : TtlCache κ τ ε}
    (hrun : run (TtlCache.step ttl failureTtl) TtlCache.new past = .ok self) :
    (∀ i j, self.phase i = .refreshing → self.phase j = .refreshing → i = j) ∧
    ∀ event next, self.step ttl failureTtl event = .ok next → ∀ caller,
      (self.phase caller ≠ .refreshing → next.phase caller = .refreshing →
        Expired self.now self.state ∧ Expired self.now self.lastError) ∧
      ∀ result, self.phase caller ≠ .returned result → next.phase caller = .returned result →
        .finish caller result ∈ past ∨ IsServed ttl failureTtl past self result := by
  have hinv := inv_of_run hrun
  constructor
  · intro i j hi hj
    have hlocki := hinv.locked i (by rw [hi]; rfl)
    have hlockj := hinv.locked j (by rw [hj]; rfl)
    exact Option.some.inj (hlocki.symm.trans hlockj)
  · intro event next hstep caller
    refine ⟨expired_of_refreshing hinv hstep, fun result hbefore hafter => ?_⟩
    have hmoved : next.phase caller ≠ self.phase caller := by
      rw [hafter]
      exact hbefore.symm
    obtain ⟨-, hadvance⟩ | ⟨outcome, hphase⟩ | hphase := exists_caller_of_step hstep hmoved
    · exact finished_or_isServed hinv hadvance hafter
    · exact absurd (hphase.symm.trans hafter) (afterRefresh_ne_returned outcome result)
    · cases hphase.symm.trans hafter

def sampleCalls : List (CacheEvent ℕ ℕ String) :=
  List.replicate 6 (.step 0) ++ [.finish 0 (.ok 7), .step 0, .step 0, .tick 3]

theorem cache_single_flight_hit :
    ∃ self next : TtlCache ℕ ℕ String,
      run (TtlCache.step 5 2) TtlCache.new sampleCalls = .ok self ∧
      self.step 5 2 (.step 1) = .ok next ∧ next.phase 1 = .returned (.ok 7) ∧
      IsServed 5 2 sampleCalls self (.ok 7) := by
  refine ⟨_, _, Except.eq_ok_get (by decide +kernel), Except.eq_ok_get (by decide +kernel),
    by decide +kernel, ?_⟩
  have hself : run (TtlCache.step 5 2) TtlCache.new sampleCalls = .ok _ :=
    Except.eq_ok_get (by decide +kernel)
  obtain hown | hserved := ((cache_single_flight 5 2 hself).2 (.step 1) _
    (Except.eq_ok_get (by decide +kernel)) 1).2 (.ok 7) (by decide +kernel) (by decide +kernel)
  · simp [sampleCalls] at hown
  · exact hserved

end CardanoIndexer.Mapi
