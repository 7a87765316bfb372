import CardanoIndexer.Compressor.Utxo

/-!
# Reconnecting to the node

The pull worker keeps the points of the node's last responses and offers them as intersects.
-/

namespace CardanoIndexer.Compressor

abbrev Breadcrumb := ℕ × BlockHash

/-! ## The workers -/

def hardcodedBreadcrumbs : ℕ := 20

inductive Intersection where
  | tip
  | origin
  | breadcrumbs (points : List Breadcrumb)
  deriving DecidableEq

namespace Intersection

def addBreadcrumb (point : Breadcrumb) : Intersection → Intersection
  | .tip | .origin => .breadcrumbs [point]
  | .breadcrumbs points =>
    let points := point :: points
    .breadcrumbs (if hardcodedBreadcrumbs < points.length then points.dropLast else points)

def fromIter (points : List Breadcrumb) : Intersection :=
  if points.isEmpty then .origin else .breadcrumbs points

def points : Intersection → List Breadcrumb
  | .tip | .origin => []
  | .breadcrumbs points => points

end Intersection

def crawl (maxItems : ℕ) : ℕ → ℕ → List (ℕ × BlockValue) → List Breadcrumb
  | fuel + 1, found, entry :: rest =>
    (entry.1, entry.2.2.1) ::
      if maxItems ≤ found + 1 then []
      else crawl maxItems fuel (found + 1) (rest.drop (2 ^ (found + 1) - 1))
  | _, _, _ => []

/-- `ChainDB::intersect_options`, from the last block backwards.  Every turn of the loop
takes an entry, so there are no more turns than entries. -/
def ChainDB.intersectOptions (self : ChainDB) (maxItems : ℕ) : List Breadcrumb :=
  crawl maxItems self.db.blockBySlotKV.entries.length 0 self.db.blockBySlotKV.entries.reverse

inductive NextResponse where
  | rollForward (cbor : BlockBody) (tip : ℕ)
  | rollBackward (slot : ℕ) (hash : BlockHash) (tip : ℕ)
  | rollBackwardOrigin (tip : ℕ)
  | await
  deriving DecidableEq

structure Syncer where
  server : Server
  intersection : Intersection
  isMutable : Bool
  seen : List StoredBlock

namespace Syncer

def start (server : Server) : Syncer where
  server := server
  intersection := .fromIter (server.chainDB.intersectOptions 5)
  isMutable := false
  seen := server.adopted

def mutableAfter (self : Syncer) (slot tip : ℕ) : Bool :=
  self.isMutable || self.server.chainDB.immutableAfterSlots.any fun immAfterSlots =>
    tip < slot + immAfterSlots

def command (P : Pallas) (self : Syncer) : NextResponse → Option Command
  | .rollForward cbor tip =>
    match P.decode cbor with
    | .ok block => some (.apply cbor (self.mutableAfter block.slot tip))
    | .error _ => none
  | .rollBackward slot hash tip => some (.rollback slot hash (self.mutableAfter slot tip))
  | .rollBackwardOrigin tip => some (.rollbackToOrigin (self.mutableAfter 0 tip))
  | .await => none

def breadcrumb (P : Pallas) : NextResponse → Option Breadcrumb
  | .rollForward cbor _ => (P.decode cbor).toOption.map fun block => (block.slot, block.hash)
  | .rollBackward slot hash _ => some (slot, hash)
  | .rollBackwardOrigin _ => none
  | .await => none

def step (P : Pallas) (genesis : List GenesisUtxo) (self : Syncer) (response : NextResponse) :
    Except Error Syncer :=
  match self.command P response with
  | none => .ok self
  | some command => do
    let server ← self.server.step P genesis command
    return {
      server
      intersection := (breadcrumb P response).elim self.intersection fun point =>
        self.intersection.addBreadcrumb point
      isMutable :=
        match command with
        | .apply _ isMutable | .rollback _ _ isMutable | .rollbackToOrigin isMutable => isMutable
        | .start => self.isMutable
      seen := server.adopted ++ self.seen }

def obeys (P : Pallas) (rule : Server → Command → Bool) (self : Syncer)
    (response : NextResponse) : Bool :=
  (self.command P response).all (rule self.server)

end Syncer

def findIntersect (nodeChain points : List Breadcrumb) : Option Breadcrumb :=
  points.find? fun point => point ∈ nodeChain

/-! ## Chains of the node -/

def StoredBlock.point (block : StoredBlock) : Breadcrumb := (block.slot, block.hash)

def hasParents (nodeChain : List Breadcrumb) (seen : List StoredBlock) : Bool :=
  seen.all fun child => seen.all fun parent =>
    decide (child.previousHash = some parent.hash → child.point ∈ nodeChain →
      parent.point ∈ nodeChain)

variable {seen : List StoredBlock} {server : Server} {maxItems : ℕ}

theorem hasParents_iff {nodeChain : List Breadcrumb} :
    hasParents nodeChain seen = true ↔ ∀ child ∈ seen, ∀ parent ∈ seen,
      child.previousHash = some parent.hash → child.point ∈ nodeChain →
        parent.point ∈ nodeChain := by
  simp only [hasParents, List.all_eq_true, decide_eq_true_eq]

theorem hasParents_of_subset {nodeChain : List Breadcrumb} {seen' : List StoredBlock}
    (hsubset : seen ⊆ seen') (h : hasParents nodeChain seen' = true) :
    hasParents nodeChain seen = true := by
  rw [hasParents_iff] at h ⊢
  exact fun child hchild parent hparent => h child (hsubset hchild) parent (hsubset hparent)

variable {newer older : List StoredBlock}

theorem mem_nodeChain_of_newer {nodeChain : List Breadcrumb} {block descendant : StoredBlock}
    (hlinked : (newer ++ block :: older).IsChain fun child parent =>
      child.previousHash = some parent.hash)
    (hparents : hasParents nodeChain (newer ++ block :: older) = true) (hmem : descendant ∈ newer)
    (hon : descendant.point ∈ nodeChain) : block.point ∈ nodeChain := by
  induction newer generalizing descendant with
  | nil => cases hmem
  | cons head rest ih =>
    have hrest := hasParents_of_subset (List.subset_cons_self ..) hparents
    rcases List.mem_cons.mp hmem with rfl | hbehind
    · -- one step to the parent, which is in the rest or the block itself
      cases rest with
      | nil =>
        exact hasParents_iff.mp hparents descendant (by simp) block (by simp)
          (List.isChain_cons_cons.mp hlinked).1 hon
      | cons parent rest =>
        have hparent := hasParents_iff.mp hparents descendant (by simp) parent (by simp)
          (List.isChain_cons_cons.mp hlinked).1 hon
        exact ih (List.isChain_cons_cons.mp hlinked).2 hrest (List.mem_cons_self ..) hparent
    · exact ih (List.IsChain.tail hlinked) hrest hbehind hon

theorem mem_crawl {fuel found : ℕ} {entries : List (ℕ × BlockValue)} {point : Breadcrumb}
    (h : point ∈ crawl maxItems fuel found entries) :
    ∃ entry ∈ entries, (entry.1, entry.2.2.1) = point := by
  induction fuel generalizing found entries with
  | zero => simp [crawl] at h
  | succ fuel ih =>
    cases entries with
    | nil => simp [crawl] at h
    | cons entry rest =>
      rw [crawl, List.mem_cons] at h
      rcases h with rfl | hmore
      · exact ⟨entry, List.mem_cons_self .., rfl⟩
      · split at hmore
        case isTrue => cases hmore
        case isFalse =>
          obtain ⟨entry', hentry', heq⟩ := ih hmore
          exact ⟨entry', List.mem_cons_of_mem _ (List.mem_of_mem_drop hentry'), heq⟩

theorem HoldsChain.mem_of_intersectOptions {P : Pallas} (h : HoldsChain P server)
    {point : Breadcrumb} (hpoint : point ∈ server.chainDB.intersectOptions maxItems) :
    ∃ block ∈ server.adopted, block.point = point := by
  obtain ⟨entry, hentry, rfl⟩ := mem_crawl hpoint
  have hget := h.blocks entry.1
  rw [(SortedMap.get_eq_some_iff _).mpr (List.mem_reverse.mp hentry), eq_comm,
    Option.map_eq_some_iff] at hget
  obtain ⟨block, hblock, hvalue⟩ := hget
  obtain ⟨hmem, hslot⟩ := mem_of_blockIn hblock
  refine ⟨block, hmem, Prod.ext hslot ?_⟩
  rw [← hvalue]
  rfl

theorem Intersection.points_addBreadcrumb (point : Breadcrumb) (intersection : Intersection) :
    (intersection.addBreadcrumb point).points <+: point :: intersection.points := by
  cases intersection with
  | tip => exact List.prefix_refl _
  | origin => exact List.prefix_refl _
  | breadcrumbs points =>
    simp only [Intersection.addBreadcrumb, Intersection.points]
    split
    · exact List.dropLast_prefix _
    · exact List.prefix_refl _

theorem findIntersect_addBreadcrumb {nodeChain : List Breadcrumb} {point found : Breadcrumb}
    {intersection : Intersection}
    (h : findIntersect nodeChain (intersection.addBreadcrumb point).points = some found) :
    found = point ∨ point ∉ nodeChain ∧
      findIntersect nodeChain intersection.points = some found := by
  obtain ⟨dropped, hdropped⟩ := Intersection.points_addBreadcrumb point intersection
  have hall : findIntersect nodeChain (point :: intersection.points) = some found := by
    rw [← hdropped, findIntersect, List.find?_append]
    rw [findIntersect] at h
    rw [h, Option.some_or]
  by_cases hpoint : point ∈ nodeChain
  · rw [findIntersect, List.find?_cons_of_pos (by simpa using hpoint)] at hall
    exact .inl (Option.some.inj hall).symm
  · rw [findIntersect, List.find?_cons_of_neg (by simpa using hpoint)] at hall
    exact .inr ⟨hpoint, hall⟩

/-! ## Runs -/

section

variable {P : Pallas} {genesis : List GenesisUtxo} {nodeChain : List Breadcrumb}
  {response : NextResponse} {self' self : Syncer}

def NextResponse.isSpecific : NextResponse → Bool
  | .rollBackwardOrigin _ => false
  | _ => true

theorem Syncer.step_eq_ok (h : self.step P genesis response = .ok self') :
    self' = self ∨ ∃ command server, self.command P response = some command ∧
      self.server.step P genesis command = .ok server ∧ self'.server = server ∧
      self'.seen = server.adopted ++ self.seen ∧
      self'.intersection = (Syncer.breadcrumb P response).elim self.intersection
        fun point => self.intersection.addBreadcrumb point := by
  unfold Syncer.step at h
  split at h
  case h_1 =>
    cases h
    exact .inl rfl
  case h_2 command hcommand =>
    obtain ⟨server, hserver, hself⟩ := Except.bind_eq_ok.mp h
    cases hself
    exact .inr ⟨command, server, hcommand, hserver, rfl, rfl, rfl⟩

structure Syncer.Resumable (P : Pallas) (nodeChain : List Breadcrumb) (syncer : Syncer) :
    Prop where
  holds : HoldsChain P syncer.server
  seen : syncer.server.adopted ⊆ syncer.seen
  first : hasParents nodeChain syncer.seen = true → ∀ point,
    findIntersect nodeChain syncer.intersection.points = some point →
      ∃ block ∈ syncer.server.adopted, block.point = point

theorem Syncer.resumable_start {opened : Server} (h : HoldsChain P opened) :
    (Syncer.start opened).Resumable P nodeChain := by
  refine ⟨h, List.Subset.refl _, fun _ point hpoint => ?_⟩
  have hmem : point ∈ (Intersection.fromIter (opened.chainDB.intersectOptions 5)).points :=
    List.mem_of_find?_eq_some hpoint
  unfold Intersection.fromIter at hmem
  split at hmem
  case isTrue => cases hmem
  case isFalse => exact h.mem_of_intersectOptions hmem

theorem exists_mem_cutBack {adopted : List StoredBlock} {block : StoredBlock}
    (hlinked : adopted.IsChain fun child parent => child.previousHash = some parent.hash)
    (hparents : hasParents nodeChain adopted = true) (hsplit : adopted = newer ++ block :: older)
    (hoff : block.point ∉ nodeChain) {found : StoredBlock} (hfound : found ∈ adopted)
    (hon : found.point ∈ nodeChain) : found ∈ block :: older := by
  subst hsplit
  rcases List.mem_append.mp hfound with hnewer | hkept
  · exact absurd (mem_nodeChain_of_newer hlinked hparents hnewer hon) hoff
  · exact hkept

theorem Syncer.Resumable.step (h : self.Resumable P nodeChain)
    (hspecific : response.isSpecific = true)
    (hordered : self.obeys P (Server.inSlotOrder P) response = true)
    (hstep : self.step P genesis response = .ok self') : self'.Resumable P nodeChain := by
  rcases Syncer.step_eq_ok hstep with rfl | ⟨command, server, hcommand, hserver, rfl, hseen,
    hintersection⟩
  · exact h
  rw [Syncer.obeys, hcommand, Option.all_some] at hordered
  have hholds := h.holds.step hordered hserver
  refine ⟨hholds, hseen ▸ List.subset_append_left .., fun hparents point hpoint => ?_⟩
  rw [hseen] at hparents
  have hfirst := h.first (hasParents_of_subset (List.subset_append_right ..) hparents)
  rw [hintersection] at hpoint
  obtain ⟨chainDB, hstage, hself⟩ := Server.step_eq_ok.mp hserver
  cases response with
  | rollForward cbor tip =>
    simp only [Syncer.command] at hcommand
    split at hcommand
    case h_2 => cases hcommand
    case h_1 block hdecode =>
      cases hcommand
      have hadopted : self'.server.adopted = ⟨block, cbor⟩ :: self.server.adopted := by
        simp [hself, adopt, hdecode]
      simp only [Syncer.breadcrumb, hdecode, Except.toOption, Option.map_some,
        Option.elim_some] at hpoint
      rcases findIntersect_addBreadcrumb hpoint with rfl | ⟨-, hold⟩
      · exact ⟨⟨block, cbor⟩, by simp [hadopted], rfl⟩
      · obtain ⟨found, hfound, heq⟩ := hfirst point hold
        exact ⟨found, by simp [hadopted, hfound], heq⟩
  | rollBackward slot hash tip =>
    cases hcommand
    obtain ⟨height, bytes, toRemove, -, hfrom, -, -⟩ := ChainDB.stageRollback_eq_ok.mp hstage
    obtain ⟨newer, block, older, hsplit, hentry, -, hcut⟩ := h.holds.exists_split hfrom
    have hadopted : self'.server.adopted = block :: older := by rw [hself]; exact hcut
    have hslot : block.slot = slot := congrArg Prod.fst hentry
    have hhash : block.hash = hash := congrArg (fun entry => entry.2.2.1) hentry
    have hblock : block.point = (slot, hash) := by rw [StoredBlock.point, hslot, hhash]
    simp only [Syncer.breadcrumb, Option.elim_some] at hpoint
    rcases findIntersect_addBreadcrumb hpoint with rfl | ⟨hoff, hold⟩
    · exact ⟨block, by simp [hadopted], hblock⟩
    · obtain ⟨found, hfound, rfl⟩ := hfirst point hold
      have hon : found.point ∈ nodeChain := by simpa using List.find?_some hold
      have hparents' := hasParents_of_subset
        (List.Subset.trans h.seen (List.subset_append_right self'.server.adopted _)) hparents
      refine ⟨found, ?_, rfl⟩
      rw [hadopted]
      exact exists_mem_cutBack h.holds.linked hparents' hsplit (hblock ▸ hoff) hfound hon
  | rollBackwardOrigin tip => cases hspecific
  | await => cases hcommand

def lastOfSlot (chain : List StoredBlock) (point : Breadcrumb) : Prop :=
  (blockIn chain point.1).map (fun block => block.hash) = some point.2

theorem HoldsChain.accepts_iff (h : HoldsChain P server) {block : StoredBlock}
    (hmem : block ∈ server.adopted) (isMutable : Bool) :
    (∀ found, ChainDB.stageRollback P server.chainDB block.slot block.hash isMutable ≠
      .error (.invalidRollbackPoint found)) ↔ lastOfSlot server.adopted block.point := by
  obtain ⟨last, hlast⟩ : ∃ last, blockIn server.adopted block.slot = some last := by
    rw [← Option.isSome_iff_exists, blockIn, List.find?_isSome]
    exact ⟨block, hmem, by simp⟩
  have hget : server.chainDB.db.blockBySlotKV.get block.slot = some last.value := by
    rw [h.blocks, hlast, Option.map_some]
  obtain ⟨toRemove, hfrom⟩ := SortedMap.entriesFrom_of_get hget
  rw [ChainDB.stageRollback_ne_invalidRollbackPoint hfrom, lastOfSlot, StoredBlock.point, hlast]
  simp

/-- The first breadcrumb on the node's chain is of the compressor's chain; the rollback to it is
accepted if and only if no later block is in its slot. -/
theorem reconnect_resumes {immutableAfterSlots : Option ℕ} {past : List Command}
    {opened : Server} {responses : List NextResponse} {self : Syncer} {point : Breadcrumb}
    (hpast : Run.run (Server.step P genesis) (.empty immutableAfterSlots) past = .ok opened)
    (hpastOrdered : Run.meets (Server.step P genesis) (Server.inSlotOrder P)
      (.empty immutableAfterSlots) past = true)
    (hspecific : ∀ response ∈ responses, response.isSpecific = true)
    (hrun : Run.run (Syncer.step P genesis) (.start opened) responses = .ok self)
    (hordered : Run.meets (Syncer.step P genesis) (Syncer.obeys P (Server.inSlotOrder P))
      (.start opened) responses = true)
    (hparents : hasParents nodeChain self.seen = true)
    (hfirst : findIntersect nodeChain self.intersection.points = some point) :
    (∃ block ∈ self.server.adopted, block.point = point) ∧ ∀ isMutable,
      ((∀ found, ChainDB.stageRollback P self.server.chainDB point.1 point.2 isMutable ≠
        .error (.invalidRollbackPoint found)) ↔ lastOfSlot self.server.adopted point) ∧
      (HoldsOutputs P (genesisTxos P genesis) self.server →
        lastOfSlot self.server.adopted point →
          ∃ chainDB, ChainDB.stageRollback P self.server.chainDB point.1 point.2 isMutable =
            .ok chainDB) := by
  have hresumable : self.Resumable P nodeChain := by
    refine Run.invariant_of_meets
      (I := fun seen mid => (∀ response ∈ seen, response.isSpecific = true) →
        mid.Resumable P nodeChain)
      (fun _ => Syncer.resumable_start (holdsChain_run hpastOrdered hpast)) ?_ hordered hrun
      hspecific
    intro seen mid response next _ hmid hobeys hstep hall
    exact (hmid fun r hr => hall r (List.mem_append_left _ hr)).step (hall response (by simp))
      hobeys hstep
  obtain ⟨block, hblock, rfl⟩ := hresumable.first hparents point hfirst
  refine ⟨⟨block, hblock, rfl⟩, fun isMutable =>
    ⟨hresumable.holds.accepts_iff hblock isMutable, fun houtputs hlast => ?_⟩⟩
  obtain ⟨last, hlastIn, hhash⟩ := Option.map_eq_some_iff.mp hlast
  have hslot : last.slot = block.slot := (mem_of_blockIn hlastIn).2
  obtain ⟨chainDB, hstage, -⟩ :=
    houtputs.exists_rollback (hslot.symm ▸ hlastIn : blockIn _ last.slot = some last) isMutable
  rw [hslot, hhash] at hstage
  exact ⟨chainDB, hstage⟩

end

def forkResponses : List NextResponse :=
  [.rollForward [1] 30, .rollForward [2] 30, .rollBackward 10 (sampleHash 1) 30,
    .rollForward [3] 30]

theorem reconnect_resumes_fork :
    ∃ opened self,
      Run.run (Server.step (samplePallas forkBlocks) []) (.empty none) [.start] = .ok opened ∧
      Run.run (Syncer.step (samplePallas forkBlocks) []) (.start opened) forkResponses = .ok self ∧
      findIntersect [(20, sampleHash 2), (10, sampleHash 1)] self.intersection.points =
        some (10, sampleHash 1) ∧
      ∃ block ∈ self.server.adopted, block.point = (10, sampleHash 1) :=
  ⟨_, _, Except.eq_ok_get (by decide +kernel), Except.eq_ok_get (by decide +kernel),
    by decide +kernel,
    (reconnect_resumes (Except.eq_ok_get _) (by decide +kernel) (by decide) (Except.eq_ok_get _)
      (by decide +kernel)
      (by decide +kernel : hasParents [(20, sampleHash 2), (10, sampleHash 1)] _ = true)
      (by decide +kernel)).1⟩

/-- The node goes back to the boundary block, but the rollback is rejected. -/
theorem boundary_block_is_not_resumable :
    ∃ self,
      Run.run (Syncer.step (samplePallas boundaryBlocks) []) (.start (.empty none))
        [.rollForward [1] 9, .rollForward [2] 9] = .ok self ∧
      hasParents [(5, sampleHash 3), (0, sampleHash 1)] self.seen = true ∧
      findIntersect [(5, sampleHash 3), (0, sampleHash 1)] self.intersection.points =
        some (0, sampleHash 1) ∧
      (ChainDB.rollback (samplePallas boundaryBlocks) self.server.chainDB false 0 (sampleHash 1)
        false).2 = .error (.invalidRollbackPoint (some (0, sampleHash 2))) :=
  ⟨_, Except.eq_ok_get (by decide +kernel), by decide +kernel, by decide +kernel,
    by decide +kernel⟩

end CardanoIndexer.Compressor
