import CardanoIndexer.Polyphony.Model

/-!
# The in-memory rollback buffer

The bound `maxBufferLen` is part of the structure.
-/

namespace CardanoIndexer.Polyphony

def maxBufferLen : ℕ := 32

structure PointWithResult (T : Type*) where
  point : Point
  result : T
  deriving DecidableEq

@[ext] structure RollbackBuffer (T : Type*) where
  blocks : List (PointWithResult T)
  bounded : blocks.length ≤ maxBufferLen

namespace RollbackBuffer

variable {T : Type*} {buffer : RollbackBuffer T} {block : PointWithResult T}
  {before since rest : List (PointWithResult T)}

def new : RollbackBuffer T := ⟨[], Nat.zero_le _⟩

def position (buffer : RollbackBuffer T) (point : Point) : Option ℕ :=
  buffer.blocks.findIdx? fun block => block.point = point

def isEmpty (buffer : RollbackBuffer T) : Bool := buffer.blocks.isEmpty

def points (buffer : RollbackBuffer T) : List Point := buffer.blocks.map PointWithResult.point

def addBlock (buffer : RollbackBuffer T) (point : Point) (result : T) : RollbackBuffer T :=
  ⟨(⟨point, result⟩ :: buffer.blocks).take maxBufferLen, List.length_take_le ..⟩

def rollbackToPoint (buffer : RollbackBuffer T) (point : Point) :
    Except Point (List (PointWithResult T) × RollbackBuffer T) :=
  match buffer.position point with
  | some p => .ok (buffer.blocks.take p, ⟨buffer.blocks.drop p,
      (List.drop_sublist p _).length_le.trans buffer.bounded⟩)
  | none => .error point

def pointsSince (buffer : RollbackBuffer T) (point : Point) :
    Except Point (List (PointWithResult T)) :=
  match buffer.position point with
  | some p => .ok (buffer.blocks.take p)
  | none => .error point

/-! ## Positions -/

theorem position_eq_none_iff (buffer : RollbackBuffer T) (point : Point) :
    buffer.position point = none ↔ point ∉ buffer.points := by
  simp only [position, List.findIdx?_eq_none_iff, decide_eq_false_iff_not, points, List.mem_map,
    not_exists, not_and]

theorem position_eq_some {point : Point} {p : ℕ} (h : buffer.position point = some p) :
    point ∉ (buffer.blocks.take p).map PointWithResult.point ∧
      ∃ block rest, buffer.blocks.drop p = block :: rest ∧ block.point = point := by
  rw [position, List.findIdx?_eq_some_iff_getElem] at h
  obtain ⟨hp, hfound, hbefore⟩ := h
  constructor
  · intro hmem
    obtain ⟨block, hblock, hpoint⟩ := List.mem_map.mp hmem
    obtain ⟨j, hj, rfl⟩ := List.mem_take_iff_getElem.mp hblock
    have hlt : j < p := by omega
    exact hbefore j hlt (by simpa using hpoint)
  · exact ⟨buffer.blocks[p], buffer.blocks.drop (p + 1), List.drop_eq_getElem_cons hp,
      by simpa using hfound⟩

theorem exists_position_of_mem {point : Point} (hmem : point ∈ buffer.points) :
    ∃ p, buffer.position point = some p := by
  cases h : buffer.position point with
  | some p => exact ⟨p, rfl⟩
  | none => exact absurd hmem ((buffer.position_eq_none_iff point).mp h)

theorem rollbackToPoint_eq_ok {buffer' : RollbackBuffer T} {point : Point}
    (h : buffer.rollbackToPoint point = .ok (since, buffer')) :
    buffer.blocks = since ++ buffer'.blocks ∧
      point ∉ since.map PointWithResult.point ∧
      ∃ block rest, buffer'.blocks = block :: rest ∧ block.point = point := by
  unfold rollbackToPoint at h
  cases hp : buffer.position point with
  | none => rw [hp] at h; cases h
  | some p =>
    rw [hp] at h
    cases h
    obtain ⟨hbefore, hat⟩ := position_eq_some hp
    exact ⟨(List.take_append_drop p _).symm, hbefore, hat⟩

theorem exists_rollbackToPoint {point : Point} (hmem : point ∈ buffer.points) :
    ∃ since buffer', buffer.rollbackToPoint point = .ok (since, buffer') := by
  obtain ⟨p, hp⟩ := exists_position_of_mem hmem
  exact ⟨_, _, by rw [rollbackToPoint, hp]⟩

theorem pointsSince_of_not_mem {point : Point} (hmem : point ∉ buffer.points) :
    buffer.pointsSince point = .error point := by
  rw [pointsSince, (position_eq_none_iff ..).mpr hmem]

theorem mem_of_pointsSince {point : Point} (h : buffer.pointsSince point = .ok since)
    (hblock : block ∈ since) : block ∈ buffer.blocks := by
  unfold pointsSince at h
  split at h
  case h_1 p hp => cases h; exact List.mem_of_mem_take hblock
  case h_2 => cases h

theorem position_of_split (hsplit : buffer.blocks = before ++ block :: rest)
    (hbefore : block.point ∉ before.map PointWithResult.point) :
    buffer.position block.point = some before.length := by
  rw [position, List.findIdx?_eq_some_iff_getElem]
  refine ⟨by simp [hsplit], by simp [hsplit], fun j hj => ?_⟩
  simp only [hsplit, List.getElem_append_left hj, decide_eq_true_eq]
  exact fun heq => hbefore (List.mem_map.mpr ⟨_, List.getElem_mem hj, heq⟩)

theorem rollbackToPoint_of_split (hsplit : buffer.blocks = before ++ block :: rest)
    (hbefore : block.point ∉ before.map PointWithResult.point) :
    ∃ buffer', buffer.rollbackToPoint block.point = .ok (before, buffer') ∧
      buffer'.blocks = block :: rest := by
  have htake : buffer.blocks.take before.length = before := by simp [hsplit]
  have hdrop : buffer.blocks.drop before.length = block :: rest := by simp [hsplit]
  refine ⟨⟨block :: rest, ?_⟩, ?_, rfl⟩
  · rw [← hdrop]
    exact (List.drop_sublist ..).length_le.trans buffer.bounded
  · simp only [rollbackToPoint, position_of_split hsplit hbefore, htake, hdrop]

end RollbackBuffer

end CardanoIndexer.Polyphony
