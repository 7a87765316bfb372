import CardanoIndexer.Lib.SortedMap

/-!
# Journals with consecutive sequence numbers

`Records base written log next`: of everything `written` since number `base`, `log` holds the end.
-/

namespace Journal

variable {ε : Type*} {front : List (ℕ × ε)} {seq : ℕ} {e : ε}

def numbered (base : ℕ) (written : List ε) : List (ℕ × ε) :=
  (written.zipIdx base).map Prod.swap

@[simp] theorem numbered_nil (base : ℕ) : numbered base ([] : List ε) = [] := rfl

@[simp] theorem numbered_cons (base : ℕ) (e : ε) (written : List ε) :
    numbered base (e :: written) = (base, e) :: numbered (base + 1) written := by
  simp [numbered]

theorem numbered_append (base : ℕ) (first second : List ε) :
    numbered base (first ++ second) =
      numbered base first ++ numbered (base + first.length) second := by
  simp [numbered, List.zipIdx_append]

@[simp] theorem length_numbered (base : ℕ) (written : List ε) :
    (numbered base written).length = written.length := by
  simp [numbered]

@[simp] theorem map_snd_numbered (base : ℕ) (written : List ε) :
    (numbered base written).map Prod.snd = written := by
  induction written generalizing base with
  | nil => rfl
  | cons e rest ih => simp [ih]

theorem mem_numbered {base : ℕ} {written : List ε} :
    (seq, e) ∈ numbered base written ↔ base ≤ seq ∧ written[seq - base]? = some e := by
  induction written generalizing base with
  | nil => simp
  | cons head rest ih =>
    rw [numbered_cons, List.mem_cons, ih, Prod.mk.injEq]
    by_cases hseq : seq = base
    · subst hseq
      simp [eq_comm]
    · constructor
      · rintro (⟨rfl, -⟩ | ⟨hle, hget⟩)
        · exact absurd rfl hseq
        · obtain ⟨d, rfl⟩ := Nat.exists_eq_add_of_le hle
          have hsub : base + 1 + d - base = (base + 1 + d - (base + 1)) + 1 := by omega
          exact ⟨by omega, by rw [hsub]; simpa using hget⟩
      · rintro ⟨hle, hget⟩
        have hsub : seq - base = (seq - (base + 1)) + 1 := by omega
        rw [hsub, List.getElem?_cons_succ] at hget
        exact Or.inr ⟨by omega, hget⟩

theorem lt_of_mem_numbered {base : ℕ} {written : List ε} {entry : ℕ × ε}
    (h : entry ∈ numbered base written) : entry.1 < base + written.length := by
  obtain ⟨hle, hget⟩ := mem_numbered.mp h
  have hlt := (List.getElem?_eq_some_iff.mp hget).1
  omega

theorem pairwise_numbered (base : ℕ) (written : List ε) :
    (numbered base written).Pairwise fun a b => a.1 < b.1 := by
  induction written generalizing base with
  | nil => exact List.Pairwise.nil
  | cons e rest ih =>
    rw [numbered_cons, List.pairwise_cons]
    exact ⟨fun entry hentry => (mem_numbered.mp hentry).1, ih (base + 1)⟩

theorem filter_numbered {base start : ℕ} {written : List ε} (h : base ≤ start) :
    (numbered base written).filter (fun entry => start ≤ entry.1) =
      numbered start (written.drop (start - base)) := by
  induction written generalizing base with
  | nil => simp
  | cons e rest ih =>
    rw [numbered_cons]
    by_cases hstart : start = base
    · -- everything from the first entry on is kept
      subst hstart
      have hall : (numbered (start + 1) rest).filter (fun entry => start ≤ entry.1) =
          numbered (start + 1) rest := by
        rw [List.filter_eq_self]
        intro entry hentry
        have hfirst := (mem_numbered.mp hentry).1
        simp only [decide_eq_true_eq]
        omega
      rw [List.filter_cons_of_pos (by simp), hall, Nat.sub_self, List.drop_zero, numbered_cons]
    · have hsucc : start - base = start - (base + 1) + 1 := by omega
      rw [List.filter_cons_of_neg (by simp only [decide_eq_true_eq]; omega),
        ih (by omega), hsucc, List.drop_succ_cons]

theorem map_fst_of_isPrefix_numbered {base : ℕ} {written : List ε}
    (h : front <+: numbered base written) : front.map Prod.fst = List.range' base front.length := by
  induction written generalizing base front with
  | nil =>
    rw [List.prefix_nil.mp h]
    rfl
  | cons e rest ih =>
    cases front with
    | nil => rfl
    | cons head tail =>
      rw [numbered_cons] at h
      obtain ⟨rfl, htail⟩ := List.cons_prefix_cons.mp h
      rw [List.map_cons, ih htail, List.length_cons, List.range'_succ]

theorem concat_isPrefix_numbered {base : ℕ} {written : List ε}
    (hfront : front <+: numbered base written)
    (hmem : (base + front.length, e) ∈ numbered base written) :
    front ++ [(base + front.length, e)] <+: numbered base written := by
  have hget : (numbered base written)[front.length]? = some (base + front.length, e) := by
    have hwritten := (mem_numbered.mp hmem).2
    rw [Nat.add_sub_cancel_left] at hwritten
    simp [numbered, hwritten]
  have htake := List.prefix_iff_eq_take.mp hfront
  have hnext : (numbered base written).take (front.length + 1) =
      front ++ [(base + front.length, e)] := by
    rw [List.take_add_one, hget, ← htake]
    rfl
  rw [← hnext]
  exact List.take_prefix ..

/-- `log` holds the last of the entries `written` since number `base`, and `next` is the
number of the next one. -/
structure Records (base : ℕ) (written : List ε) (log : SortedMap ℕ ε) (next : ℕ) : Prop where
  next_eq : next = base + written.length
  suffix : log.entries <:+ numbered base written

namespace Records

variable {base next : ℕ} {written : List ε} {log : SortedMap ℕ ε}

theorem empty (base : ℕ) : Records base ([] : List ε) ∅ base :=
  ⟨by simp, List.nil_suffix⟩

theorem lt_next_of_mem (h : Records base written log next) {entry : ℕ × ε}
    (hmem : entry ∈ numbered base written) : entry.1 < next :=
  h.next_eq ▸ lt_of_mem_numbered hmem

theorem lt_next (h : Records base written log next) {entry : ℕ × ε}
    (hmem : entry ∈ log.entries) : entry.1 < next :=
  h.lt_next_of_mem (h.suffix.subset hmem)

theorem entries_put (h : Records base written log next) (e : ε) :
    (log.put next e).entries = log.entries ++ [(next, e)] :=
  SortedMap.entries_put_of_forall_lt (fun _ hmem => h.lt_next hmem) e

theorem put (h : Records base written log next) (e : ε) :
    Records base (written ++ [e]) (log.put next e) (next + 1) := by
  refine ⟨by simp [h.next_eq, Nat.add_assoc], ?_⟩
  obtain ⟨pruned, hpruned⟩ := h.suffix
  rw [h.entries_put, numbered_append, ← hpruned, ← h.next_eq, List.append_assoc]
  exact List.suffix_append ..

theorem dropFront (h : Records base written log next) (p : ℕ × ε → Bool) :
    Records base written (log.dropFront p) next :=
  ⟨h.next_eq, (List.dropWhile_suffix p).trans h.suffix⟩

theorem entriesFrom (h : Records base written log next) (hmem : (seq, e) ∈ log.entries) :
    log.entriesFrom seq = (seq, e) :: numbered (seq + 1) (written.drop (seq + 1 - base)) := by
  obtain ⟨hle, hget⟩ := mem_numbered.mp (h.suffix.subset hmem)
  obtain ⟨pruned, hpruned⟩ := h.suffix
  -- the pruned entries are smaller, so the iterator sees what it would see without pruning
  have hkeys : ∀ entry ∈ pruned, ¬ seq ≤ entry.1 := by
    intro entry hentry
    have hsorted : (pruned ++ log.entries).Pairwise fun a b => a.1 < b.1 :=
      hpruned ▸ pairwise_numbered base written
    exact not_le.mpr ((List.pairwise_append.mp hsorted).2.2 entry hentry _ hmem)
  have hwhole : log.entriesFrom seq = (numbered base written).filter fun entry => seq ≤ entry.1 := by
    rw [← hpruned, List.filter_append, List.filter_eq_nil_iff.mpr (by simpa using hkeys)]
    rfl
  obtain ⟨hlt, he⟩ := List.getElem?_eq_some_iff.mp hget
  rw [hwhole, filter_numbered hle, List.drop_eq_getElem_cons hlt, he, numbered_cons,
    Nat.sub_add_comm hle]

theorem lt_of_get_eq_none (h : Records base written log next) (hle : base ≤ seq) (hlt : seq < next)
    (hnone : log.get seq = none) : ∀ entry ∈ log.entries, seq < entry.1 := by
  obtain ⟨pruned, hpruned⟩ := h.suffix
  have hwritten : seq - base < written.length := by
    have hnext := h.next_eq
    omega
  have hmem : (seq, written.get ⟨seq - base, hwritten⟩) ∈ pruned ++ log.entries := by
    rw [hpruned]
    exact mem_numbered.mpr ⟨hle, List.getElem?_eq_getElem hwritten⟩
  have hsorted : (pruned ++ log.entries).Pairwise fun a b => a.1 < b.1 :=
    hpruned ▸ pairwise_numbered base written
  rcases List.mem_append.mp hmem with hfront | hback
  · exact (List.pairwise_append.mp hsorted).2.2 _ hfront
  · rw [← SortedMap.get_eq_some_iff, hnone] at hback
    cases hback

end Records

end Journal
