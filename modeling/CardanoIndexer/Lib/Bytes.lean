import CardanoIndexer.Lib.SortedMap

/-!
# Byte strings, big-endian integers and key order

Keys are byte strings under the lexicographic order, which is numeric on big-endian integers of
fixed width.
-/

abbrev Byte := Fin 256

instance neZero_byte : NeZero 256 := ⟨by decide⟩

abbrev Bytes := List Byte

instance lawfulBEq_bytes : LawfulBEq Bytes := inferInstance

namespace Bytes

/-! ## Big-endian integers -/

def toBE : ℕ → ℕ → Bytes
  | 0, _ => []
  | w + 1, n => Fin.ofNat 256 (n / 256 ^ w) :: toBE w n

def ofBE (bytes : Bytes) : ℕ := bytes.foldl (fun acc (b : Byte) => acc * 256 + b.val) 0

@[simp] theorem length_toBE (w n : ℕ) : (toBE w n).length = w := by
  induction w with
  | zero => rfl
  | succ w ih => simp [toBE, ih]

private theorem foldl_toBE (w n acc : ℕ) :
    (toBE w n).foldl (fun acc (b : Byte) => acc * 256 + b.val) acc = acc * 256 ^ w + n % 256 ^ w := by
  induction w generalizing acc with
  | zero => simp [toBE, Nat.mod_one]
  | succ w ih =>
    have hsplit : n % 256 ^ (w + 1) = n / 256 ^ w % 256 * 256 ^ w + n % 256 ^ w := by
      rw [pow_succ, Nat.mod_mul, Nat.mul_comm (256 ^ w), Nat.add_comm]
    simp only [toBE, List.foldl_cons, ih, Fin.val_ofNat]
    rw [hsplit, pow_succ]
    ring

theorem ofBE_toBE (w n : ℕ) : ofBE (toBE w n) = n % 256 ^ w := by
  simp [ofBE, foldl_toBE]

variable {n w m : ℕ} {a k : Bytes}

theorem ofBE_toBE_of_lt (hn : n < 256 ^ w) : ofBE (toBE w n) = n := by
  rw [ofBE_toBE, Nat.mod_eq_of_lt hn]

theorem toBE_injective (hn : n < 256 ^ w) (hm : m < 256 ^ w) (heq : toBE w n = toBE w m) :
    n = m := by
  rw [← ofBE_toBE_of_lt hn, heq, ofBE_toBE_of_lt hm]

theorem toBE_mod (w n : ℕ) : toBE w (n % 256 ^ w) = toBE w n := by
  have hmod : ∀ v, v ≤ w → toBE v (n % 256 ^ w) = toBE v n := by
    intro v
    induction v with
    | zero => intro _; rfl
    | succ v ih =>
      intro hv
      have hpow : 256 ^ w = 256 ^ v * (256 * 256 ^ (w - v - 1)) := by
        rw [← pow_succ', ← pow_add]
        congr 1
        omega
      have hdigit : n % 256 ^ w / 256 ^ v % 256 = n / 256 ^ v % 256 := by
        rw [hpow, Nat.mod_mul_right_div_self, Nat.mod_mul_right_mod]
      simp only [toBE, ih (by omega), List.cons.injEq, and_true]
      exact Fin.ext (by simpa [Fin.val_ofNat] using hdigit)
  exact hmod w le_rfl

private theorem foldl_acc (bytes : Bytes) (acc : ℕ) :
    bytes.foldl (fun acc (b : Byte) => acc * 256 + b.val) acc = acc * 256 ^ bytes.length + ofBE bytes := by
  induction bytes generalizing acc with
  | nil => simp [ofBE]
  | cons b rest ih =>
    simp only [ofBE, List.foldl_cons, List.length_cons]
    rw [ih, ih (0 * 256 + b.val), pow_succ]
    ring

theorem ofBE_cons (b : Byte) (rest : Bytes) :
    ofBE (b :: rest) = b * 256 ^ rest.length + ofBE rest := by
  simp only [ofBE, List.foldl_cons]
  rw [foldl_acc]
  simp [ofBE]

theorem ofBE_lt (bytes : Bytes) : ofBE bytes < 256 ^ bytes.length := by
  induction bytes with
  | nil => simp [ofBE]
  | cons b rest ih =>
    have hb : (b : ℕ) + 1 ≤ 256 := b.isLt
    rw [ofBE_cons, List.length_cons, pow_succ]
    calc (b : ℕ) * 256 ^ rest.length + ofBE rest
        < (b : ℕ) * 256 ^ rest.length + 256 ^ rest.length := by omega
      _ = ((b : ℕ) + 1) * 256 ^ rest.length := by ring
      _ ≤ 256 * 256 ^ rest.length := Nat.mul_le_mul_right _ hb
      _ = 256 ^ rest.length * 256 := Nat.mul_comm _ _

theorem toBE_ofBE (bytes : Bytes) : toBE bytes.length (ofBE bytes) = bytes := by
  induction bytes with
  | nil => rfl
  | cons b rest ih =>
    have hlt := ofBE_lt rest
    have hpos : 0 < 256 ^ rest.length := Nat.pos_of_ne_zero (by positivity)
    have hhead : ofBE (b :: rest) / 256 ^ rest.length = b := by
      rw [ofBE_cons, Nat.mul_comm, Nat.mul_add_div hpos, Nat.div_eq_of_lt hlt, Nat.add_zero]
    have htail : ofBE (b :: rest) % 256 ^ rest.length = ofBE rest := by
      rw [ofBE_cons, Nat.mul_comm, Nat.mul_add_mod, Nat.mod_eq_of_lt hlt]
    rw [List.length_cons, toBE, hhead, ← toBE_mod rest.length (ofBE (b :: rest)), htail, ih]
    congr 1
    exact Fin.ext (by simp)

/-! ## Comparing keys -/

theorem nil_lt_cons (b : Byte) (bs : Bytes) : ([] : Bytes) < b :: bs := List.Lex.nil

theorem cons_lt_cons_iff {a b : Byte} {as bs : Bytes} :
    a :: as < b :: bs ↔ a < b ∨ a = b ∧ as < bs := by
  constructor
  · intro h
    rcases h with _ | h | h
    · exact Or.inl h
    · exact Or.inr ⟨rfl, h⟩
  · rintro (h | ⟨rfl, h⟩)
    · exact List.Lex.rel h
    · exact List.Lex.cons h

theorem not_lt_nil (bs : Bytes) : ¬ bs < [] := by
  intro h
  cases h

variable {x y p : Bytes}

theorem append_lt_append_iff {b : Bytes} (hlength : a.length = b.length) :
    a ++ x < b ++ y ↔ a < b ∨ a = b ∧ x < y := by
  induction a generalizing b with
  | nil =>
    have hb : b = [] := List.eq_nil_of_length_eq_zero hlength.symm
    simp [hb]
  | cons head rest ih =>
    cases b with
    | nil => simp at hlength
    | cons head' rest' =>
      have hrest : rest.length = rest'.length := by simpa using hlength
      simp only [List.cons_append, cons_lt_cons_iff, ih hrest, List.cons.injEq]
      tauto

theorem append_lt_append_left_iff : p ++ x < p ++ y ↔ x < y := by
  rw [append_lt_append_iff rfl]
  simp

theorem append_le_append_left_iff : p ++ x ≤ p ++ y ↔ x ≤ y := by
  rw [← not_lt, ← not_lt, append_lt_append_left_iff]

theorem le_append (p x : Bytes) : p ≤ p ++ x := by
  conv_lhs => rw [← List.append_nil p]
  rw [append_le_append_left_iff]
  exact not_lt.mp (not_lt_nil x)

theorem isPrefix_of_between (hlow : p ++ x ≤ k) (hhigh : k < p ++ y) : p <+: k := by
  induction p generalizing k with
  | nil => exact List.nil_prefix
  | cons b rest ih =>
    cases k with
    | nil => exact absurd hlow (not_le.mpr (nil_lt_cons _ _))
    | cons c ks =>
      simp only [List.cons_append] at hlow hhigh
      rw [← not_lt, cons_lt_cons_iff] at hlow
      rw [cons_lt_cons_iff] at hhigh
      push Not at hlow
      rcases hhigh with hlt | ⟨rfl, hks⟩
      · exact absurd hlt (not_lt.mpr hlow.1)
      · exact List.cons_prefix_cons.mpr ⟨rfl, ih (hlow.2 rfl) hks⟩

theorem append_zero_le_iff : a ++ [0] ≤ k ↔ a < k := by
  induction a generalizing k with
  | nil =>
    cases k with
    | nil => simp [← not_lt]
    | cons c ks => simp [← not_lt, cons_lt_cons_iff]
  | cons b rest ih =>
    cases k with
    | nil => simp [← not_lt]
    | cons c ks =>
      have hrest : ¬ ks < rest ++ [0] ↔ rest < ks := not_lt.trans ih
      rw [List.cons_append, ← not_lt, cons_lt_cons_iff, cons_lt_cons_iff]
      rcases lt_trichotomy b c with hlt | rfl | hgt
      · simp [hlt, hlt.not_gt, hlt.ne']
      · simp [hrest]
      · simp [hgt, hgt.not_gt, hgt.ne']

theorem toBE_lt_toBE (hnm : n < m) (hm : m < 256 ^ w) : toBE w n < toBE w m := by
  induction w generalizing n m with
  | zero => simp at hm; omega
  | succ w ih =>
    have hpos : 0 < 256 ^ w := Nat.pos_of_ne_zero (by positivity)
    have hdivm : m / 256 ^ w < 256 := by
      rw [Nat.div_lt_iff_lt_mul hpos, ← pow_succ']
      exact hm
    have hdiv : n / 256 ^ w ≤ m / 256 ^ w := Nat.div_le_div_right hnm.le
    rw [toBE, toBE, cons_lt_cons_iff]
    rcases hdiv.lt_or_eq with hlt | heq
    · left
      rw [Fin.lt_def, Fin.val_ofNat, Fin.val_ofNat, Nat.mod_eq_of_lt hdivm,
        Nat.mod_eq_of_lt (hlt.trans hdivm)]
      exact hlt
    · right
      refine ⟨by rw [heq], ?_⟩
      rw [← toBE_mod w n, ← toBE_mod w m]
      refine ih ?_ (Nat.mod_lt _ hpos)
      have hn := Nat.div_add_mod n (256 ^ w)
      have hm' := Nat.div_add_mod m (256 ^ w)
      rw [heq] at hn
      omega

theorem toBE_lt_toBE_iff (hn : n < 256 ^ w) (hm : m < 256 ^ w) : toBE w n < toBE w m ↔ n < m := by
  refine ⟨fun h => ?_, fun h => toBE_lt_toBE h hm⟩
  by_contra hge
  rcases (not_lt.mp hge).lt_or_eq with hlt | rfl
  · exact absurd h (not_lt.mpr (toBE_lt_toBE hlt hn).le)
  · exact lt_irrefl _ h

/-! ## Hexadecimal text -/

def hexByte (byte : Byte) : List Char :=
  [Nat.digitChar (byte.val / 16), Nat.digitChar (byte.val % 16)]

def hex (bytes : Bytes) : List Char := bytes.flatMap hexByte

theorem digitChar_injective (hn : n < 16) (hm : m < 16) (heq : Nat.digitChar n = Nat.digitChar m) :
    n = m := by
  have hdigits : ∀ a b : Fin 16, Nat.digitChar a.val = Nat.digitChar b.val → a = b := by decide
  exact Fin.mk.inj (hdigits ⟨n, hn⟩ ⟨m, hm⟩ heq)

theorem hexByte_injective : Function.Injective hexByte := by
  intro a b heq
  obtain ⟨hhigh, hlow⟩ := List.cons.inj heq
  have ha : a.val < 256 := a.isLt
  have hb : b.val < 256 := b.isLt
  have hdiv : a.val / 16 = b.val / 16 := digitChar_injective (by omega) (by omega) hhigh
  have hmod : a.val % 16 = b.val % 16 :=
    digitChar_injective (by omega) (by omega) (List.cons.inj hlow).1
  exact Fin.ext (by omega)

@[simp] theorem length_hex (bytes : Bytes) : (hex bytes).length = 2 * bytes.length := by
  induction bytes with
  | nil => rfl
  | cons byte rest ih =>
    rw [hex, List.flatMap_cons, List.length_append]
    change 2 + (hex rest).length = _
    rw [ih, List.length_cons]
    omega

theorem hex_injective : Function.Injective hex := by
  intro a
  induction a with
  | nil =>
    intro b heq
    have hlength := congrArg List.length heq
    rw [length_hex, length_hex] at hlength
    exact (List.eq_nil_of_length_eq_zero (by simpa using hlength.symm)).symm
  | cons byte rest ih =>
    intro b heq
    cases b with
    | nil => cases heq
    | cons byte' rest' =>
      obtain ⟨hbyte, hrest⟩ := List.append_inj
        (show hexByte byte ++ hex rest = hexByte byte' ++ hex rest' from heq) rfl
      rw [hexByte_injective hbyte, ih hrest]

def hexValue (c : Char) : Option ℕ :=
  if '0' ≤ c ∧ c ≤ '9' then some (c.toNat - '0'.toNat)
  else if 'a' ≤ c ∧ c ≤ 'f' then some (c.toNat - 'a'.toNat + 10)
  else if 'A' ≤ c ∧ c ≤ 'F' then some (c.toNat - 'A'.toNat + 10)
  else none

def unhex : List Char → Option Bytes
  | [] => some []
  | [_] => none
  | high :: low :: rest => do
    let h ← hexValue high
    let l ← hexValue low
    let bytes ← unhex rest
    return Fin.ofNat 256 (16 * h + l) :: bytes

theorem hexValue_digitChar (hn : n < 16) : hexValue (Nat.digitChar n) = some n := by
  have hdigits : ∀ a : Fin 16, hexValue (Nat.digitChar a.val) = some a.val := by decide
  exact hdigits ⟨n, hn⟩

@[simp] theorem unhex_hex (bytes : Bytes) : unhex (hex bytes) = some bytes := by
  induction bytes with
  | nil => rfl
  | cons byte rest ih =>
    have hbyte : byte.val < 256 := byte.isLt
    have hvalue : Fin.ofNat 256 (16 * (byte.val / 16) + byte.val % 16) = byte := by
      apply Fin.ext
      show (16 * (byte.val / 16) + byte.val % 16) % 256 = byte.val
      omega
    change unhex (Nat.digitChar (byte.val / 16) :: Nat.digitChar (byte.val % 16) :: hex rest) = _
    rw [unhex, hexValue_digitChar (by omega), hexValue_digitChar (by omega), ih]
    simp only [Option.bind_eq_bind, Option.bind_some, Option.pure_def, hvalue]

end Bytes
