import CardanoIndexer.Polyphony.Executors

/-!
# What storage actions mean

The cell of a key is its stored value or its amount, where an absent counter counts as zero.
-/

namespace CardanoIndexer.Polyphony

inductive Kind where
  | value
  | u64
  | u128
  deriving DecidableEq

def Kind.width : Kind → ℕ
  | .value => 0
  | .u64 => 8
  | .u128 => 16

def StorageOp.kind : StorageOp → Kind
  | .set _ | .delete | .insert _ => .value
  | .incrementU64 _ | .decrementU64 _ => .u64
  | .incrementU128 _ | .decrementU128NoDelete _ => .u128

inductive Cell where
  | value (stored : Option Value)
  | amount (n : ℕ)
  deriving DecidableEq

def amountOf : Option Value → ℕ
  | none => 0
  | some bytes => Bytes.ofBE bytes

def Cell.ofStored (kind : Kind) (stored : Option Value) : Cell :=
  match kind with
  | .value => .value stored
  | .u64 | .u128 => .amount (amountOf stored)

def WellFormed (kind : Kind) (stored : Option Value) : Prop :=
  ∀ bytes, stored = some bytes → kind ≠ .value → bytes.length = kind.width

def Cell.Fits : Kind → Cell → Prop
  | .value, .value _ => True
  | .u64, .amount n => n < 2 ^ 64
  | .u128, .amount n => n < 2 ^ 128
  | _, _ => False

variable {op : StorageOp} {w : Option (Option Value)} {cell : Cell}

namespace StorageOp

def apply : StorageOp → Cell → Cell
  | .set v, .value _ => .value (some v)
  | .delete, .value _ => .value none
  | .insert v, .value stored => .value (some (stored.getD v))
  | .incrementU64 d, .amount n => .amount (n + d.toNat)
  | .decrementU64 d, .amount n => .amount (n - d.toNat)
  | .incrementU128 d, .amount n => .amount (n + d.toNat)
  | .decrementU128NoDelete d, .amount n => .amount (n - d.toNat)
  | _, cell => cell

def NoOverflow : StorageOp → Cell → Prop
  | .incrementU64 d, .amount n => n + d.toNat < 2 ^ 64
  | .incrementU128 d, .amount n => n + d.toNat < 2 ^ 128
  | _, _ => True

def Safe : StorageOp → Cell → Prop
  | .incrementU64 d, .amount n => n + d.toNat < 2 ^ 64
  | .decrementU64 d, .amount n => d.toNat ≤ n
  | .incrementU128 d, .amount n => n + d.toNat < 2 ^ 128
  | .decrementU128NoDelete d, .amount n => d.toNat ≤ n
  | _, _ => True

instance decidableNoOverflow :
    (op : StorageOp) → (cell : Cell) → Decidable (op.NoOverflow cell)
  | .incrementU64 d, .amount n => inferInstanceAs (Decidable (n + d.toNat < 2 ^ 64))
  | .incrementU128 d, .amount n => inferInstanceAs (Decidable (n + d.toNat < 2 ^ 128))
  | .set _, .amount _ | .delete, .amount _ | .insert _, .amount _ | .decrementU64 _, .amount _
  | .decrementU128NoDelete _, .amount _ | .set _, .value _ | .delete, .value _
  | .insert _, .value _ | .incrementU64 _, .value _ | .decrementU64 _, .value _
  | .incrementU128 _, .value _ | .decrementU128NoDelete _, .value _ => isTrue trivial

instance decidableSafe : (op : StorageOp) → (cell : Cell) → Decidable (op.Safe cell)
  | .incrementU64 d, .amount n => inferInstanceAs (Decidable (n + d.toNat < 2 ^ 64))
  | .decrementU64 d, .amount n => inferInstanceAs (Decidable (d.toNat ≤ n))
  | .incrementU128 d, .amount n => inferInstanceAs (Decidable (n + d.toNat < 2 ^ 128))
  | .decrementU128NoDelete d, .amount n => inferInstanceAs (Decidable (d.toNat ≤ n))
  | .set _, .amount _ | .delete, .amount _ | .insert _, .amount _ | .set _, .value _
  | .delete, .value _ | .insert _, .value _ | .incrementU64 _, .value _
  | .decrementU64 _, .value _ | .incrementU128 _, .value _
  | .decrementU128NoDelete _, .value _ => isTrue trivial

theorem Safe.noOverflow (h : op.Safe cell) : op.NoOverflow cell := by
  cases op <;> cases cell <;> first | exact h | trivial

end StorageOp

theorem Cell.fits_ofStored {kind : Kind} {stored : Option Value} (h : WellFormed kind stored) :
    (Cell.ofStored kind stored).Fits kind := by
  cases stored with
  | none => cases kind <;> simp [ofStored, Fits, amountOf]
  | some bytes =>
    have hlt := Bytes.ofBE_lt bytes
    cases kind with
    | value => trivial
    | u64 =>
      rw [h bytes rfl (by decide)] at hlt
      simpa [ofStored, Fits, amountOf, Kind.width] using hlt
    | u128 =>
      rw [h bytes rfl (by decide)] at hlt
      simpa [ofStored, Fits, amountOf, Kind.width] using hlt

theorem addOrPanic_of_lt {w : ℕ} {a b : BitVec w} (h : a.toNat + b.toNat < 2 ^ w) :
    addOrPanic a b = .ok (a + b) := if_pos h

theorem exists_merge {op₁ op₂ : StorageOp} (hkind : op₁.kind = op₂.kind)
    (hfits : cell.Fits op₁.kind) (hsafe₁ : op₁.Safe cell) (hsafe₂ : op₂.Safe (op₁.apply cell)) :
    ∃ merged, op₁.merge op₂ = .ok merged ∧ merged.kind = op₁.kind ∧ merged.Safe cell ∧
      merged.apply cell = op₂.apply (op₁.apply cell) := by
  cases cell with
  | value stored =>
    cases op₁ <;> simp only [StorageOp.kind, Cell.Fits] at hfits <;>
      cases op₂ <;> simp_all [StorageOp.kind, StorageOp.merge, StorageOp.apply,
        StorageOp.Safe]
  | amount n =>
    cases op₁ <;> simp only [StorageOp.kind, Cell.Fits] at hfits <;>
      cases op₂ <;> simp only [StorageOp.kind, reduceCtorEq] at hkind <;>
      simp only [StorageOp.Safe, StorageOp.apply] at hsafe₁ hsafe₂
    -- same direction: the deltas add up
    case incrementU64.incrementU64 pd nd | incrementU128.incrementU128 pd nd
        | decrementU64.decrementU64 pd nd
        | decrementU128NoDelete.decrementU128NoDelete pd nd =>
      have hadd := addOrPanic_of_lt (a := pd) (b := nd) (by omega)
      have hnat := BitVec.toNat_add_of_lt (x := pd) (y := nd) (by omega)
      simp only [StorageOp.merge, hadd, Except.ok_bind, Except.pure_eq_ok, Except.ok.injEq,
        exists_eq_left', StorageOp.Safe, StorageOp.apply, hnat, Cell.amount.injEq]
      exact ⟨rfl, by omega, by omega⟩
    -- opposite directions: the larger delta wins
    case incrementU64.decrementU64 pd nd | incrementU128.decrementU128NoDelete pd nd
        | decrementU64.incrementU64 pd nd | decrementU128NoDelete.incrementU128 pd nd =>
      by_cases hle : nd ≤ pd
      · have hnat := BitVec.toNat_sub_of_le hle
        have hleNat := BitVec.le_def.mp hle
        simp only [StorageOp.merge, ge_iff_le, if_pos hle, Except.pure_eq_ok, Except.ok.injEq,
          exists_eq_left', StorageOp.Safe, StorageOp.apply, hnat, Cell.amount.injEq]
        exact ⟨rfl, by omega, by omega⟩
      · have hlt := BitVec.not_le.mp hle
        have hnat := BitVec.toNat_sub_of_le (BitVec.le_of_lt hlt)
        have hltNat := BitVec.lt_def.mp hlt
        simp only [StorageOp.merge, ge_iff_le, if_neg hle, Except.pure_eq_ok, Except.ok.injEq,
          exists_eq_left', StorageOp.Safe, StorageOp.apply, hnat, Cell.amount.injEq]
        exact ⟨rfl, by omega, by omega⟩

/-! ## Executing -/

theorem readAmount_of_length {n : ℕ} {bytes : Value} (h : bytes.length = n) :
    readAmount n bytes = .ok (Bytes.ofBE bytes) := by
  rw [readAmount, if_pos h.ge, List.take_of_length_le h.le]

theorem WellFormed.none (kind : Kind) : WellFormed kind none := fun _ h => nomatch h

theorem WellFormed.of_value (stored : Option Value) : WellFormed .value stored :=
  fun _ _ h => absurd rfl h

theorem wellFormed_toBE (kind : Kind) (n : ℕ) :
    WellFormed kind (some (Bytes.toBE kind.width n)) := by
  rintro bytes heq -
  cases heq
  exact Bytes.length_toBE ..

variable {prev : Option Value}

theorem exists_incrementedValue (kind : Kind) (hkind : kind ≠ .value) {d : ℕ}
    (hwf : WellFormed kind prev) (hlt : amountOf prev + d < 256 ^ kind.width) :
    ∃ v, incrementedValue kind.width d prev = .ok v ∧ WellFormed kind (some v) ∧
      amountOf (some v) = amountOf prev + d := by
  refine ⟨Bytes.toBE kind.width (amountOf prev + d), ?_, wellFormed_toBE kind _,
    Bytes.ofBE_toBE_of_lt hlt⟩
  cases prev with
  | none => simp [incrementedValue, amountOf]
  | some bytes =>
    simp only [amountOf] at hlt
    simp [incrementedValue, readAmount_of_length (hwf bytes rfl hkind), amountOf, if_pos hlt]

theorem exists_decrementedU64 (d : ℕ) {bytes : Value} (hwf : WellFormed .u64 (some bytes)) :
    ∃ r, decrementedU64 d bytes = .ok r ∧ WellFormed .u64 r ∧
      amountOf r = amountOf (some bytes) - d ∧ r ≠ some (Bytes.toBE 8 0) := by
  have hlength : bytes.length = 8 := hwf bytes rfl (by decide)
  have hbound : Bytes.ofBE bytes < 256 ^ 8 := hlength ▸ Bytes.ofBE_lt bytes
  simp only [decrementedU64, readAmount_of_length hlength, Except.ok_bind, Except.pure_eq_ok]
  by_cases hle : Bytes.ofBE bytes ≤ d
  · refine ⟨none, if_pos hle, WellFormed.none _, ?_, nofun⟩
    simp only [amountOf]
    omega
  · refine ⟨_, if_neg hle, wellFormed_toBE .u64 _, Bytes.ofBE_toBE_of_lt (by omega), ?_⟩
    intro heq
    have := Bytes.toBE_injective (w := 8) (by omega) (by norm_num) (Option.some.inj heq)
    omega

theorem exists_decrementedU128NoDelete (d : ℕ) {bytes : Value}
    (hwf : WellFormed .u128 (some bytes)) :
    ∃ v, decrementedU128NoDelete d bytes = .ok v ∧ WellFormed .u128 (some v) ∧
      amountOf (some v) = amountOf (some bytes) - d := by
  have hlength : bytes.length = 16 := hwf bytes rfl (by decide)
  have hbound : Bytes.ofBE bytes < 256 ^ 16 := hlength ▸ Bytes.ofBE_lt bytes
  refine ⟨Bytes.toBE 16 (Bytes.ofBE bytes - d), ?_, wellFormed_toBE .u128 _,
    Bytes.ofBE_toBE_of_lt (by omega)⟩
  simp [decrementedU128NoDelete, readAmount_of_length hlength]

def Performs (op : StorageOp) (prev : Option Value) (w : Option (Option Value)) : Prop :=
  WellFormed op.kind (w.getD prev) ∧
    Cell.ofStored op.kind (w.getD prev) = op.apply (Cell.ofStored op.kind prev)

theorem exists_inverseWrite (hwf : WellFormed op.kind prev)
    (hno : op.NoOverflow (Cell.ofStored op.kind prev)) :
    ∃ w, op.inverseWrite prev = .ok w ∧ Performs op prev w := by
  cases op with
  | set v =>
    cases prev with
    | none => exact ⟨_, rfl, WellFormed.of_value _, rfl⟩
    | some prevValue =>
      by_cases heq : prevValue = v
      · exact ⟨none, by simp [StorageOp.inverseWrite, heq], hwf, by rw [heq]; rfl⟩
      · exact ⟨some (some v), by simp [StorageOp.inverseWrite, heq],
          WellFormed.of_value _, rfl⟩
  | delete | insert v =>
    cases prev <;> exact ⟨_, rfl, WellFormed.of_value _, rfl⟩
  | incrementU64 d =>
    obtain ⟨v, hv, hvwf, hamount⟩ := exists_incrementedValue .u64 (by decide) hwf
      (by simpa [StorageOp.NoOverflow, Cell.ofStored, StorageOp.kind, Kind.width] using hno)
    have hv : incrementedValue 8 d.toNat prev = .ok v := hv
    exact ⟨some (some v), by simp [StorageOp.inverseWrite, hv], hvwf,
      congrArg Cell.amount hamount⟩
  | incrementU128 d =>
    obtain ⟨v, hv, hvwf, hamount⟩ := exists_incrementedValue .u128 (by decide) hwf
      (by simpa [StorageOp.NoOverflow, Cell.ofStored, StorageOp.kind, Kind.width] using hno)
    have hv : incrementedValue 16 d.toNat prev = .ok v := hv
    exact ⟨some (some v), by simp [StorageOp.inverseWrite, hv], hvwf,
      congrArg Cell.amount hamount⟩
  | decrementU64 d =>
    cases prev with
    | none =>
      refine ⟨none, rfl, hwf, ?_⟩
      simp [Cell.ofStored, StorageOp.kind, StorageOp.apply, amountOf]
    | some bytes =>
      obtain ⟨r, hr, hrwf, hamount, -⟩ := exists_decrementedU64 d.toNat hwf
      exact ⟨some r, by simp [StorageOp.inverseWrite, hr], hrwf,
        congrArg Cell.amount hamount⟩
  | decrementU128NoDelete d =>
    cases prev with
    | none =>
      refine ⟨none, rfl, hwf, ?_⟩
      simp [Cell.ofStored, StorageOp.kind, StorageOp.apply, amountOf]
    | some bytes =>
      obtain ⟨v, hv, hvwf, hamount⟩ := exists_decrementedU128NoDelete d.toNat hwf
      exact ⟨some (some v), by simp [StorageOp.inverseWrite, hv], hvwf,
        congrArg Cell.amount hamount⟩

/-! ## Deltas of zero -/

def StorageOp.zeroDelta : StorageOp → Bool
  | .incrementU64 d | .decrementU64 d => d = 0
  | .incrementU128 d | .decrementU128NoDelete d => d = 0
  | .set _ | .delete | .insert _ => false

theorem plainWrite_of_zeroDelta (hzero : op.zeroDelta = true) (prev : Option Value) :
    op.plainWrite prev = .ok none := by
  cases op <;> simp_all [StorageOp.zeroDelta, StorageOp.plainWrite]

theorem exists_plainWrite_of_inverseWrite (hzero : op.zeroDelta = false)
    (hw : op.inverseWrite prev = .ok w) :
    ∃ w', op.plainWrite prev = .ok w' ∧ w'.getD prev = w.getD prev := by
  cases op with
  | set v =>
    cases prev with
    | none => cases hw; exact ⟨_, rfl, rfl⟩
    | some prevValue =>
      by_cases heq : prevValue = v
      · simp only [StorageOp.inverseWrite, heq, if_true] at hw
        cases hw
        exact ⟨_, rfl, by rw [heq]; rfl⟩
      · simp only [StorageOp.inverseWrite, heq, if_false] at hw
        cases hw
        exact ⟨_, rfl, rfl⟩
  | delete | insert v => cases prev <;> (cases hw; exact ⟨_, rfl, rfl⟩)
  | incrementU64 d | incrementU128 d | decrementU64 d | decrementU128NoDelete d =>
    have hd : ¬ d = 0 := by simpa [StorageOp.zeroDelta] using hzero
    refine ⟨w, ?_, rfl⟩
    rw [← hw]
    cases prev <;> simp only [StorageOp.plainWrite, StorageOp.inverseWrite, if_neg hd]

theorem apply_of_zeroDelta (hzero : op.zeroDelta = true) (cell : Cell) : op.apply cell = cell := by
  cases op <;> cases cell <;> simp_all [StorageOp.zeroDelta, StorageOp.apply]

theorem exists_plainWrite (hwf : WellFormed op.kind prev)
    (hno : op.NoOverflow (Cell.ofStored op.kind prev)) :
    ∃ w, op.plainWrite prev = .ok w ∧ Performs op prev w := by
  cases hzero : op.zeroDelta with
  | true =>
    exact ⟨none, plainWrite_of_zeroDelta hzero prev, hwf, (apply_of_zeroDelta hzero _).symm⟩
  | false =>
    obtain ⟨w, hw, hperf⟩ := exists_inverseWrite hwf hno
    obtain ⟨w', hw', heq⟩ := exists_plainWrite_of_inverseWrite hzero hw
    exact ⟨w', hw', by rwa [Performs, heq]⟩

def Positive (stored : Option Value) : Prop := ∀ bytes, stored = some bytes → 0 < Bytes.ofBE bytes

theorem positive_plainWrite (hkind : op.kind = .u64) (hwf : WellFormed op.kind prev)
    (hno : op.NoOverflow (Cell.ofStored op.kind prev)) (hpos : Positive prev)
    (hw : op.plainWrite prev = .ok w) : Positive (w.getD prev) := by
  cases hzero : op.zeroDelta with
  | true =>
    rw [plainWrite_of_zeroDelta hzero] at hw
    cases hw
    exact hpos
  | false =>
    cases op with
    | set v | delete | insert v | incrementU128 d | decrementU128NoDelete d => cases hkind
    | incrementU64 d =>
      have hd : ¬ d = 0 := by simpa [StorageOp.zeroDelta] using hzero
      have hpositive : 0 < d.toNat := by
        rcases Nat.eq_zero_or_pos d.toNat with h | h
        · exact absurd (BitVec.eq_of_toNat_eq (by simpa using h)) hd
        · exact h
      obtain ⟨v, hv, -, hamount⟩ := exists_incrementedValue .u64 (by decide) hwf
        (by simpa [StorageOp.NoOverflow, Cell.ofStored, StorageOp.kind, Kind.width] using hno)
      have hv : incrementedValue 8 d.toNat prev = .ok v := hv
      simp only [StorageOp.plainWrite, if_neg hd, hv, Except.ok_bind, Except.pure_eq_ok] at hw
      cases hw
      rintro bytes heq
      cases heq
      simp only [amountOf] at hamount
      omega
    | decrementU64 d =>
      have hd : ¬ d = 0 := by simpa [StorageOp.zeroDelta] using hzero
      cases prev with
      | none =>
        simp only [StorageOp.plainWrite, if_neg hd, Except.pure_eq_ok] at hw
        cases hw
        exact hpos
      | some prevValue =>
        obtain ⟨r, hr, hrwf, -, hrne⟩ := exists_decrementedU64 d.toNat hwf
        simp only [StorageOp.plainWrite, if_neg hd, hr, Except.ok_bind,
          Except.pure_eq_ok] at hw
        cases hw
        rintro bytes heq
        rcases Nat.eq_zero_or_pos (Bytes.ofBE bytes) with hz | hz
        · have hlength : bytes.length = 8 := hrwf bytes heq (by decide)
          refine absurd (heq.trans ?_) hrne
          rw [← Bytes.toBE_ofBE bytes, hz, hlength]
        · exact hz

theorem bytes_eq_of_amountOf_eq {kind : Kind} (hkind : kind ≠ .value) {bytes bytes' : Value}
    (hwf : WellFormed kind (some bytes)) (hwf' : WellFormed kind (some bytes'))
    (h : amountOf (some bytes) = amountOf (some bytes')) : bytes = bytes' := by
  rw [← Bytes.toBE_ofBE bytes, ← Bytes.toBE_ofBE bytes', hwf bytes rfl hkind,
    hwf' bytes' rfl hkind, show Bytes.ofBE bytes = Bytes.ofBE bytes' from h]

theorem eq_of_amountOf_eq {kind : Kind} (hkind : kind ≠ .value) {stored stored' : Option Value}
    (hwf : WellFormed kind stored) (hwf' : WellFormed kind stored') (hpos : Positive stored)
    (hpos' : Positive stored') (h : amountOf stored = amountOf stored') : stored = stored' := by
  cases stored with
  | none =>
    cases stored' with
    | none => rfl
    | some bytes' => exact absurd h (hpos' bytes' rfl).ne
  | some bytes =>
    cases stored' with
    | none => exact absurd h.symm (hpos bytes rfl).ne
    | some bytes' =>
      rw [bytes_eq_of_amountOf_eq hkind hwf hwf' h]

end CardanoIndexer.Polyphony
