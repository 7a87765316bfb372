import CardanoIndexer.Daw.Delete
import CardanoIndexer.Lib.Effect

/-!
# The commands of daw

Every call to Redis and TiKV may fail, and a write that fails may have taken effect.  What all the
effects a command may perform keep (`Cli.Performs`), the command keeps.
-/

namespace CardanoIndexer.Daw.Commands

open Timbre Effect

abbrev Text := List Char

/-! ## The world -/

/-- The database of timestamps: the members of `tikv-timestamps-keys` and the entry of each
key. -/
structure Redis where
  timestampsKeys : List Text
  entries : Text → Option (List Text)

@[ext] structure World where
  tikv : Store
  redis : Redis

def World.del (key : Text) (w : World) : World :=
  { w with redis.entries := fun other => if other = key then none else w.redis.entries other }

def World.zrem (key : Text) (w : World) : World :=
  { w with redis.timestampsKeys := w.redis.timestampsKeys.filter (· ≠ key) }

def World.unsafeDestroyRange (range : KeyRange) (w : World) : World :=
  { w with tikv := w.tikv.restrict fun key => ¬ range.Contains key }

def World.commit (writes : List (Bytes × Option Bytes)) (w : World) : World :=
  { w with tikv := w.tikv.applyWrites writes }

inductive CallResult where
  | ok
  | failed (applied : Bool)

structure Outside where
  call : ℕ → CallResult
  attempts : Attempts
  fuel : ℕ

inductive CommandError where
  | hex
  | file
  | tikv
  | panic
  | scan (error : DeleteError)
  | unfinished
  deriving DecidableEq

structure Session where
  world : World
  calls : ℕ

abbrev Command (α : Type) := EStateM CommandError Session α

def orThrow {α : Type} (error : CommandError) : Option α → Command α
  | some a => pure a
  | none => throw error

/-! ## Arguments -/

structure DataplaneArgs where
  dataplane : Byte
  force : Bool
  scanSize : ℕ
  destroyMode : Bool

structure InstanceArgs where
  dataplane : Byte
  instanceId : Byte
  force : Bool
  scanSize : ℕ
  tsRedisOnly : Bool
  destroyMode : Bool

structure RangeArgs where
  startKey : Text
  endKey : Text
  force : Bool
  scanSize : ℕ
  destroyMode : Bool

structure ListArgs where
  file : Option (List Text)
  force : Bool

inductive DeleteArgs where
  | dataplane (args : DataplaneArgs)
  | inst (args : InstanceArgs)
  | range (args : RangeArgs)
  | list (args : ListArgs)

inductive WriteArgs where
  | list (args : ListArgs)

inductive Cli where
  | delete (cmd : DeleteArgs)
  | write (cmd : WriteArgs)

def parseU8 (text : Text) : Option Byte :=
  let digits := if text.head? = some '+' then text.tail else text
  if digits ≠ [] ∧ digits.all Char.isDigit ∧ Nat.ofDigitChars 10 digits 0 < 256 then
    some (Fin.ofNat 256 (Nat.ofDigitChars 10 digits 0))
  else none

/-- Dataplane and instance of a key of Redis, `<label>:<dataplane>:<instance>`. -/
def instanceOfKey (key : Text) : Option (Byte × Byte) := do
  let keyParts := key.splitOn ':'
  let keyDataplane ← keyParts[1]?.bind parseU8
  let keyInstance ← keyParts[2]?.bind parseU8
  return (keyDataplane, keyInstance)

/-! ## Commands -/

section

variable (outside : Outside)

def perform (error : CommandError) (effect : World → World) : Command Unit := fun s =>
  match outside.call s.calls with
  | .ok => .ok () ⟨effect s.world, s.calls + 1⟩
  | .failed applied =>
    .error error ⟨if applied then effect s.world else s.world, s.calls + 1⟩

def ask (error : CommandError) : Command Unit := perform outside error id

def timestampsKeys : Command (List Text) := do
  ask outside .panic
  ask outside .panic
  return (← get).world.redis.timestampsKeys

def deleteTimestamps (force : Bool) (isMeant : Byte × Byte → Bool) (keys : List Text) :
    Command Unit :=
  keys.forM fun key => do
    let ids ← orThrow .panic (instanceOfKey key)
    if isMeant ids ∧ force then do
      perform outside .panic (World.del key)
      perform outside .panic (World.zrem key)
    else pure ()

def scanRange (range : KeyRange) (force : Bool) (scanSize : ℕ) : Command Unit := fun s =>
  match handleDeleteCmd s.world.tikv range force scanSize outside.attempts outside.fuel with
  | some (.ok state) => .ok () { s with world.tikv := state.store }
  | some (.error error) => .error (.scan error) { s with world.tikv :=
      ((deleteLoop force).last outside.attempts.answers outside.fuel 0 scanSize
        ⟨s.world.tikv, range, []⟩).store }
  | none => .error .unfinished { s with world.tikv :=
      ((deleteLoop force).last outside.attempts.answers outside.fuel 0 scanSize
        ⟨s.world.tikv, range, []⟩).store }

def deleteRange (range : KeyRange) (force : Bool) (scanSize : ℕ) (destroy : Bool) :
    Command Unit := do
  ask outside .panic
  if destroy then perform outside .tikv (World.unsafeDestroyRange range)
  else scanRange outside range force scanSize

def deleteInfo (force : Bool) (dataplane instanceId : Byte) : Command Unit := do
  ask outside .tikv
  if force then ask outside .tikv else pure ()
  perform outside .tikv
    (World.commit (if force then [([73, 96, dataplane, instanceId], none)] else []))

def handleDeleteListCmd (args : ListArgs) : Command Unit := do
  let lines ← orThrow .file args.file
  let keys ← orThrow .panic (lines.mapM Bytes.unhex)
  ask outside .tikv
  ask outside .tikv
  let writes ← keys.foldlM (fun writes key => do
    if key = [] then return writes
    ask outside .tikv
    let found := ((← get).world.tikv.applyWrites writes).get key
    if found.isSome ∧ args.force then do
      ask outside .tikv
      return writes ++ [(key, none)]
    else return writes) []
  perform outside .tikv (World.commit writes)

def handleDeleteCmd : DeleteArgs → Command Unit
  | .dataplane args => do
    let keys ← timestampsKeys outside
    deleteTimestamps outside args.force (fun ids => ids.1 = args.dataplane) keys
    deleteRange outside (dataplaneKeyRange args.dataplane) args.force args.scanSize
      args.destroyMode
  | .inst args => do
    let keys ← timestampsKeys outside
    deleteTimestamps outside args.force
      (fun ids => ids.1 = args.dataplane ∧ ids.2 = args.instanceId) keys
    if args.tsRedisOnly then return ()
    deleteRange outside (⟨args.dataplane, args.instanceId⟩ : KeyEncoder).instanceKeyRange
      args.force args.scanSize args.destroyMode
    deleteInfo outside args.force args.dataplane args.instanceId
  | .range args => do
    let startKey ← orThrow .hex (Bytes.unhex args.startKey)
    let endKey ← orThrow .hex (Bytes.unhex args.endKey)
    let _ ← timestampsKeys outside
    deleteRange outside ⟨startKey, endKey⟩ args.force args.scanSize args.destroyMode
  | .list args => handleDeleteListCmd outside args

def handleWriteListCmd (args : ListArgs) : Command Unit := do
  let texts ← orThrow .file args.file
  let lines ← orThrow .panic (texts.mapM fun text => (text.splitOn ':').mapM Bytes.unhex)
  ask outside .tikv
  ask outside .tikv
  let writes ← lines.foldlM (fun writes line => do
    match line with
    | [] => return writes
    -- there is no `line[1]`
    | [_] => throw .panic
    | key :: value :: _ => do
      ask outside .tikv
      if args.force then do
        ask outside .tikv
        return writes ++ [(key, some value)]
      else return writes) []
  perform outside .tikv (World.commit writes)

def handleWriteCmd : WriteArgs → Command Unit
  | .list args => handleWriteListCmd outside args

def main : Cli → Command Unit
  | .delete cmd => handleDeleteCmd outside cmd
  | .write cmd => handleWriteCmd outside cmd

end

def DeleteArgs.force : DeleteArgs → Bool
  | .dataplane args => args.force
  | .inst args => args.force
  | .range args => args.force
  | .list args => args.force

def Cli.force : Cli → Bool
  | .delete cmd => cmd.force
  | .write (.list args) => args.force

def DeleteArgs.destroyedRange : DeleteArgs → Option KeyRange
  | .dataplane args => if args.destroyMode then some (dataplaneKeyRange args.dataplane) else none
  | .inst args =>
    if args.destroyMode ∧ ¬ args.tsRedisOnly then
      some (⟨args.dataplane, args.instanceId⟩ : KeyEncoder).instanceKeyRange
    else none
  | .range args => do
    let startKey ← Bytes.unhex args.startKey
    let endKey ← Bytes.unhex args.endKey
    if args.destroyMode then some ⟨startKey, endKey⟩ else none
  | .list _ => none

def Cli.destroyedRange : Cli → Option KeyRange
  | .delete cmd => cmd.destroyedRange
  | .write _ => none

/-! ## What a command may do -/

def DeleteArgs.Reaches : DeleteArgs → Bytes → Prop
  | .dataplane args, key => [args.dataplane] <+: key
  | .inst args, key => args.tsRedisOnly = false ∧
      ([args.dataplane, args.instanceId] <+: key ∨
        key = [73, 96, args.dataplane, args.instanceId])
  | .range args, key => ∃ startKey endKey, Bytes.unhex args.startKey = some startKey ∧
      Bytes.unhex args.endKey = some endKey ∧ (⟨startKey, endKey⟩ : KeyRange).Contains key
  | .list args, key => ∃ lines ∈ args.file, ∃ line ∈ lines, Bytes.unhex line = some key

def Cli.Reaches : Cli → Bytes → Prop
  | .delete cmd, key => cmd.Reaches key
  | .write (.list args), key => ∃ lines ∈ args.file, ∃ line ∈ lines, ∃ rest,
      (line.splitOn ':').mapM Bytes.unhex = some (key :: rest)

def Cli.isMeant : Cli → Byte × Byte → Bool
  | .delete (.dataplane args), ids => ids.1 = args.dataplane
  | .delete (.inst args), ids => ids.1 = args.dataplane ∧ ids.2 = args.instanceId
  | _, _ => false

/-- What a command may do to the world, in any of its calls. -/
inductive Cli.Performs (cmd : Cli) : (World → World) → Prop where
  | del {key : Text} : cmd.force = true → (instanceOfKey key).any cmd.isMeant = true →
      cmd.Performs (World.del key)
  | zrem {key : Text} : cmd.force = true → (instanceOfKey key).any cmd.isMeant = true →
      cmd.Performs (World.zrem key)
  | destroy {range : KeyRange} : cmd.destroyedRange = some range →
      cmd.Performs (World.unsafeDestroyRange range)
  | commit {writes : List (Bytes × Option Bytes)} : cmd.force = true →
      (∀ write ∈ writes, cmd.Reaches write.1) → cmd.Performs (World.commit writes)

section

variable {outside : Outside} {γ : Type} {view : World → γ} {args : ListArgs} {α β : Type}
  {range : KeyRange} {force destroy : Bool}

theorem keeps_perform (error : CommandError) {effect : World → World}
    (h : ∀ w, view (effect w) = view w) :
    Keeps (fun s : Session => view s.world) (perform outside error effect) := by
  intro s
  unfold after perform
  cases outside.call s.calls with
  | ok => exact h s.world
  | failed applied =>
    cases applied with
    | true => exact h s.world
    | false => rfl

theorem keeps_ask (error : CommandError) :
    Keeps (fun s : Session => view s.world) (ask outside error) :=
  keeps_perform error fun _ => rfl

theorem keeps_orThrow (error : CommandError) (value : Option α) :
    Keeps (fun s : Session => view s.world) (orThrow error value) := by
  cases value with
  | none => exact keeps_throw error
  | some a => exact keeps_pure a

theorem returns_orThrow (error : CommandError) (value : Option α) :
    Returns (fun a => value = some a) (orThrow error value) := by
  cases value with
  | none => exact returns_throw _ error
  | some a => exact returns_pure rfl

theorem keeps_timestampsKeys : Keeps (fun s : Session => view s.world) (timestampsKeys outside) :=
  (keeps_ask _).bind fun _ => (keeps_ask _).bind fun _ => keeps_get.bind fun _ => keeps_pure _

theorem keeps_deleteTimestamps {isMeant : Byte × Byte → Bool} (keys : List Text)
    (h : force = true → ∀ key, (instanceOfKey key).any isMeant = true →
      (∀ w, view (w.del key) = view w) ∧ ∀ w, view (w.zrem key) = view w) :
    Keeps (fun s : Session => view s.world) (deleteTimestamps outside force isMeant keys) := by
  refine Keeps.forM fun key _ => ?_
  refine (keeps_orThrow _ _).bind_of_returns (returns_orThrow _ _) fun ids hids => ?_
  split
  · next hmeant =>
    obtain ⟨hdel, hzrem⟩ := h hmeant.2 key (by rw [hids]; exact hmeant.1)
    exact (keeps_perform _ hdel).bind fun _ => keeps_perform _ hzrem
  · exact keeps_pure _

/-- What remains of the range lies in the range that the scans began with. -/
theorem view_last_deleteLoop (attempts : Attempts) (fuel attempt scanSize : ℕ) (w : World)
    (h : force = true → ∀ keys : List Bytes, (∀ key ∈ keys, range.Contains key) →
      ∀ w, view (w.commit (keys.map fun key => (key, none))) = view w) :
    view { w with tikv := ((deleteLoop force).last attempts.answers fuel attempt scanSize
      ⟨w.tikv, range, []⟩).store } = view w := by
  refine (Adaptive.Loop.last_rule (fun s : DeleteState =>
    (∀ key, s.rangeRemaining.Contains key → range.Contains key) ∧
      view { w with tikv := s.store } = view w) ?_ ⟨fun _ hkey => hkey, rfl⟩).2
  rintro s s' size ⟨hremaining, hview⟩ hverdict
  simp only [deleteLoop] at hverdict
  split at hverdict
  · rcases hverdict with hstop | hgo
    · cases hstop
      exact ⟨hremaining, hview⟩
    · cases hgo
  · next lastKey hlast =>
    split at hverdict
    · rcases hverdict with hstop | hgo
      · cases hstop
      · cases hgo
        have hpage : ∀ key ∈ (keysIn s.store s.rangeRemaining).take size,
            s.rangeRemaining.Contains key :=
          fun key hmem => (mem_keysIn.mp (List.mem_of_mem_take hmem)).2
        have hfirst := (hpage lastKey (List.mem_of_getLast? hlast)).1
        refine ⟨fun key hkey => hremaining key ⟨?_, hkey.2⟩, ?_⟩
        · exact hfirst.trans (Bytes.append_zero_le_iff.mp hkey.1).le
        · cases force with
          | false => exact hview
          | true =>
            have hcommit := h rfl _ (fun key hmem => hremaining key (hpage key hmem))
              { w with tikv := s.store }
            rw [World.commit, SortedMap.applyWrites_deletes] at hcommit
            simpa using hcommit.trans hview
    · rcases hverdict with hstop | hgo
      · cases hstop
      · cases hgo

theorem keeps_deleteRange (scanSize : ℕ)
    (hscan : force = true → ∀ keys : List Bytes, (∀ key ∈ keys, range.Contains key) →
      ∀ w, view (w.commit (keys.map fun key => (key, none))) = view w)
    (hdestroy : destroy = true → ∀ w, view (w.unsafeDestroyRange range) = view w) :
    Keeps (fun s : Session => view s.world)
      (deleteRange outside range force scanSize destroy) := by
  refine (keeps_ask _).bind fun _ => ?_
  cases destroy with
  | true => exact keeps_perform _ (hdestroy rfl)
  | false =>
    intro s
    have hlast := view_last_deleteLoop outside.attempts outside.fuel 0 scanSize s.world hscan
    rw [if_neg (by decide)]
    unfold after scanRange
    cases hresult : Daw.handleDeleteCmd s.world.tikv range force scanSize outside.attempts
      outside.fuel with
    | none => exact hlast
    | some ended =>
      cases ended with
      | error error => exact hlast
      | ok state =>
        rw [Adaptive.Loop.last_of_run hresult] at hlast
        exact hlast

theorem keeps_deleteInfo {dataplane instanceId : Byte}
    (h : force = true → ∀ w, view (w.commit [([73, 96, dataplane, instanceId], none)]) = view w) :
    Keeps (fun s : Session => view s.world)
      (deleteInfo outside force dataplane instanceId) := by
  refine (keeps_ask _).bind fun _ => ?_
  cases force with
  | false =>
    rw [if_neg (by decide)]
    exact (keeps_pure ()).bind fun _ => keeps_perform _ fun _ => rfl
  | true =>
    rw [if_pos rfl]
    exact (keeps_ask _).bind fun _ => keeps_perform _ (h rfl)

theorem exists_of_mem_mapM {f : α → Option β} {xs : List α} {ys : List β} {y : β}
    (h : xs.mapM f = some ys) (hy : y ∈ ys) : ∃ x ∈ xs, f x = some y := by
  induction xs generalizing ys with
  | nil =>
    cases h
    cases hy
  | cons x rest ih =>
    simp only [List.mapM_cons, Option.bind_eq_bind, Option.bind_eq_some_iff] at h
    obtain ⟨z, hz, zs, hzs, heq⟩ := h
    cases heq
    rcases List.mem_cons.mp hy with rfl | hrest
    · exact ⟨x, List.mem_cons_self, hz⟩
    · obtain ⟨x', hmem, hx'⟩ := ih hzs hrest
      exact ⟨x', List.mem_cons_of_mem _ hmem, hx'⟩

def WritesOf (cmd : Cli) (writes : List (Bytes × Option Bytes)) : Prop :=
  writes = [] ∨ cmd.force = true ∧ ∀ write ∈ writes, cmd.Reaches write.1

theorem WritesOf.append {cmd : Cli} {writes : List (Bytes × Option Bytes)} {key : Bytes}
    (h : WritesOf cmd writes) (hforce : cmd.force = true) (hkey : cmd.Reaches key)
    (value : Option Bytes) : WritesOf cmd (writes ++ [(key, value)]) := by
  refine Or.inr ⟨hforce, List.forall_mem_append.mpr ⟨?_, List.forall_mem_singleton.mpr hkey⟩⟩
  rcases h with rfl | h
  · simp
  · exact h.2

theorem keeps_commit {cmd : Cli} (h : ∀ effect, cmd.Performs effect → ∀ w, view (effect w) = view w)
    (writes : List (Bytes × Option Bytes)) (hwrites : WritesOf cmd writes) :
    Keeps (fun s : Session => view s.world)
      (perform outside .tikv (World.commit writes)) := by
  rcases hwrites with rfl | ⟨hforce, hwrites⟩
  · exact keeps_perform _ fun _ => rfl
  · exact keeps_perform _ (h _ (.commit hforce hwrites))

theorem keeps_handleDeleteListCmd (h : ∀ effect, (Cli.delete (.list args)).Performs effect →
      ∀ w, view (effect w) = view w) :
    Keeps (fun s : Session => view s.world) (handleDeleteListCmd outside args) := by
  refine (keeps_orThrow _ _).bind_of_returns (returns_orThrow _ _) fun lines hlines => ?_
  refine (keeps_orThrow _ _).bind_of_returns (returns_orThrow _ _) fun keys hkeys => ?_
  refine (keeps_ask _).bind fun _ => (keeps_ask _).bind fun _ => ?_
  refine Keeps.bind_of_returns (P := WritesOf (.delete (.list args))) ?_ ?_ (keeps_commit h)
  · refine Keeps.foldlM fun writes key => ?_
    split
    · exact keeps_pure _
    · refine (keeps_ask _).bind fun _ => keeps_get.bind fun s => ?_
      dsimp only
      split
      · exact (keeps_ask _).bind fun _ => keeps_pure _
      · exact keeps_pure _
  · refine Returns.foldlM (.inl rfl) fun writes key hkey hwrites => ?_
    split
    · exact returns_pure hwrites
    · refine Returns.bind fun _ => Returns.bind fun s => ?_
      dsimp only
      split
      · next hfound =>
        refine Returns.bind fun _ => returns_pure (hwrites.append hfound.2 ?_ _)
        exact ⟨lines, hlines, exists_of_mem_mapM hkeys hkey⟩
      · exact returns_pure hwrites

theorem keeps_handleWriteListCmd (h : ∀ effect, (Cli.write (.list args)).Performs effect →
      ∀ w, view (effect w) = view w) :
    Keeps (fun s : Session => view s.world) (handleWriteListCmd outside args) := by
  refine (keeps_orThrow _ _).bind_of_returns (returns_orThrow _ _) fun texts htexts => ?_
  refine (keeps_orThrow _ _).bind_of_returns (returns_orThrow _ _) fun lines hlines => ?_
  refine (keeps_ask _).bind fun _ => (keeps_ask _).bind fun _ => ?_
  refine Keeps.bind_of_returns (P := WritesOf (.write (.list args))) ?_ ?_ (keeps_commit h)
  · refine Keeps.foldlM fun writes line => ?_
    split
    · exact keeps_pure _
    · exact keeps_throw _
    · refine (keeps_ask _).bind fun _ => ?_
      split
      · exact (keeps_ask _).bind fun _ => keeps_pure _
      · exact keeps_pure _
  · refine Returns.foldlM (.inl rfl) fun writes line hline hwrites => ?_
    split
    · exact returns_pure hwrites
    · exact returns_throw _ _
    · refine Returns.bind fun _ => ?_
      split
      · next hforce =>
        obtain ⟨text, htext, hsplit⟩ := exists_of_mem_mapM hlines hline
        refine Returns.bind fun _ => returns_pure (hwrites.append hforce ?_ _)
        exact ⟨texts, htexts, text, htext, _, hsplit⟩
      · exact returns_pure hwrites

/-- Whatever all possible effects of a command keep, the command keeps. -/
theorem keeps_main_of_performs (view : World → γ) (outside : Outside) {cmd : Cli}
    (h : ∀ effect, cmd.Performs effect → ∀ w, view (effect w) = view w) :
    Keeps (fun s : Session => view s.world) (main outside cmd) := by
  have htimestamps : cmd.force = true → ∀ key, (instanceOfKey key).any cmd.isMeant = true →
      (∀ w, view (w.del key) = view w) ∧ ∀ w, view (w.zrem key) = view w :=
    fun hforce key hkey => ⟨h _ (.del hforce hkey), h _ (.zrem hforce hkey)⟩
  have hscan : ∀ {range : KeyRange}, (∀ key, range.Contains key → cmd.Reaches key) →
      cmd.force = true → ∀ keys : List Bytes, (∀ key ∈ keys, range.Contains key) →
        ∀ w, view (w.commit (keys.map fun key => (key, none))) = view w := by
    intro range hrange hforce keys hkeys
    refine h _ (.commit hforce ?_)
    simpa using fun key hkey => hrange key (hkeys key hkey)
  match cmd with
  | .delete (.dataplane args) =>
    refine keeps_timestampsKeys.bind fun keys => ?_
    refine (keeps_deleteTimestamps keys htimestamps).bind fun _ => keeps_deleteRange _ (hscan ?_) ?_
    · exact fun key hkey => contains_prefixKeyRange.mp hkey
    · exact fun hdestroy => h _ (.destroy (if_pos hdestroy))
  | .delete (.inst args) =>
    obtain ⟨dataplane, instanceId, force, scanSize, tsRedisOnly, destroyMode⟩ := args
    refine keeps_timestampsKeys.bind fun keys => ?_
    refine (keeps_deleteTimestamps keys htimestamps).bind fun _ => ?_
    cases tsRedisOnly with
    | true => exact keeps_pure _
    | false =>
      refine Keeps.bind (keeps_deleteRange _ (hscan ?_) ?_) fun _ => keeps_deleteInfo ?_
      · exact fun key hkey => ⟨rfl, .inl (contains_prefixKeyRange.mp hkey)⟩
      · exact fun hdestroy => h _ (.destroy (if_pos ⟨hdestroy, Bool.false_ne_true⟩))
      · refine fun hforce => h _ (.commit hforce (List.forall_mem_singleton.mpr ?_))
        exact ⟨rfl, .inr rfl⟩
  | .delete (.range args) =>
    refine (keeps_orThrow _ _).bind_of_returns (returns_orThrow _ _) fun first hfirst => ?_
    refine (keeps_orThrow _ _).bind_of_returns (returns_orThrow _ _) fun last hlast => ?_
    refine keeps_timestampsKeys.bind fun _ => keeps_deleteRange _ (hscan ?_) fun hdestroy => ?_
    · exact fun key hkey => ⟨first, last, hfirst, hlast, hkey⟩
    · refine h _ (.destroy ?_)
      simp [Cli.destroyedRange, DeleteArgs.destroyedRange, hfirst, hlast, hdestroy]
  | .delete (.list args) => exact keeps_handleDeleteListCmd h
  | .write (.list args) => exact keeps_handleWriteListCmd h

/-! ## Dry runs -/

def World.outsideOf (destroyed : Set Bytes) (w : World) :
    Redis × ({key : Bytes // key ∉ destroyed} → Option Bytes) :=
  (w.redis, fun key => w.tikv.get key)

theorem keeps_main (outside : Outside) (destroyed : Set Bytes) {cmd : Cli}
    (hforce : cmd.force = false)
    (h : ∀ range ∈ cmd.destroyedRange, ∀ key, range.Contains key → key ∈ destroyed) :
    Keeps (fun s : Session => s.world.outsideOf destroyed) (main outside cmd) := by
  refine keeps_main_of_performs (World.outsideOf destroyed) outside fun effect heffect w => ?_
  cases heffect with
  | del htrue => cases hforce.symm.trans htrue
  | zrem htrue => cases hforce.symm.trans htrue
  | commit htrue => cases hforce.symm.trans htrue
  | @destroy range hrange =>
    refine Prod.ext rfl (funext fun key => ?_)
    have hkey : ¬ range.Contains key.1 := fun hcontains => key.2 (h range hrange _ hcontains)
    simp [World.outsideOf, World.unsafeDestroyRange, hkey]

end

/-- One key of the instance `1`, `2`, whose timestamps are in Redis. -/
def sampleSession : Session :=
  ⟨⟨(∅ : Store).put [1, 2, 68] [7], ⟨["cursor:1:2".toList], fun _ => none⟩⟩, 0⟩

def calmOutside : Outside :=
  ⟨fun _ => .ok, ⟨fun _ _ _ => .scan .page, fun _ _ h => by cases h⟩, 5⟩

section

variable {cmd : Cli} {effect : World → World} {key : Text}

theorem reaches_of_destroyedRange {range : KeyRange} (h : cmd.destroyedRange = some range)
    {key : Bytes} (hkey : range.Contains key) : cmd.Reaches key := by
  match cmd with
  | .delete (.dataplane args) =>
    obtain ⟨-, hrange⟩ := (Option.ite_none_right_eq_some ..).mp h
    cases hrange
    exact contains_prefixKeyRange.mp hkey
  | .delete (.inst args) =>
    obtain ⟨⟨-, hredis⟩, hrange⟩ := (Option.ite_none_right_eq_some ..).mp h
    cases hrange
    exact ⟨by simpa using hredis, .inl (contains_prefixKeyRange.mp hkey)⟩
  | .delete (.range args) =>
    obtain ⟨first, hfirst, h⟩ := Option.bind_eq_some_iff.mp h
    obtain ⟨last, hlast, h⟩ := Option.bind_eq_some_iff.mp h
    obtain ⟨-, hrange⟩ := (Option.ite_none_right_eq_some ..).mp h
    cases hrange
    exact ⟨first, last, hfirst, hlast, hkey⟩

theorem Cli.Performs.get_eq (h : cmd.Performs effect) (w : World) {key : Bytes}
    (hkey : ¬ cmd.Reaches key) : (effect w).tikv.get key = w.tikv.get key := by
  cases h with
  | del => rfl
  | zrem => rfl
  | @destroy range hrange =>
    have hnot : ¬ range.Contains key :=
      fun hcontains => hkey (reaches_of_destroyedRange hrange hcontains)
    simp [World.unsafeDestroyRange, hnot]
  | @commit writes _ hwrites =>
    refine SortedMap.get_applyWrites_of_not_mem fun hmem => ?_
    obtain ⟨write, hwrite, rfl⟩ := List.mem_map.mp hmem
    exact hkey (hwrites write hwrite)

theorem Cli.Performs.entries_eq (h : cmd.Performs effect) (w : World)
    (hkey : (instanceOfKey key).any cmd.isMeant = false) :
    (effect w).redis.entries key = w.redis.entries key := by
  cases h with
  | zrem => rfl
  | destroy => rfl
  | commit => rfl
  | del _ hmeant =>
    refine if_neg ?_
    rintro rfl
    cases hkey.symm.trans hmeant

theorem Cli.Performs.timestampsKeys_eq (h : cmd.Performs effect) (w : World) :
    ((effect w).redis.timestampsKeys.filter fun key => !(instanceOfKey key).any cmd.isMeant) =
      w.redis.timestampsKeys.filter fun key => !(instanceOfKey key).any cmd.isMeant := by
  cases h with
  | del => rfl
  | destroy => rfl
  | commit => rfl
  | @zrem removed _ hmeant =>
    simp only [World.zrem, List.filter_filter]
    refine List.filter_congr fun key _ => ?_
    by_cases heq : key = removed
    · simp [heq, hmeant]
    · simp [heq]

end

end CardanoIndexer.Daw.Commands
