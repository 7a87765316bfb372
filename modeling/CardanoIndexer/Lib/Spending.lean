import CardanoIndexer.Lib.SortedMap

/-!
# Spending histories

A transfer makes outputs under new keys and spends outputs made before; `table` runs a history of
them.
-/

namespace Spending

variable {κ ν : Type*} {v : ν}

structure Transfer (κ ν : Type*) where
  made : List (κ × ν)
  spent : List κ

variable [LinearOrder κ] {second first : List (Transfer κ ν)}

def Transfer.writes (transfer : Transfer κ ν) : List (κ × Option ν) :=
  transfer.made.map (fun output => (output.1, some output.2)) ++
    transfer.spent.map fun key => (key, none)

def table (start : SortedMap κ ν) (history : List (Transfer κ ν)) : SortedMap κ ν :=
  start.applyWrites (history.flatMap Transfer.writes)

def outputs (start : SortedMap κ ν) (history : List (Transfer κ ν)) : List (κ × ν) :=
  start.entries ++ history.flatMap Transfer.made

def spent (history : List (Transfer κ ν)) : List κ := history.flatMap Transfer.spent

@[simp] theorem table_nil (start : SortedMap κ ν) : table start [] = start := rfl

theorem table_append (start : SortedMap κ ν) (first second : List (Transfer κ ν)) :
    table start (first ++ second) = table (table start first) second := by
  simp [table, SortedMap.applyWrites_append]

theorem table_concat (start : SortedMap κ ν) (history : List (Transfer κ ν))
    (transfer : Transfer κ ν) :
    table start (history ++ [transfer]) = (table start history).applyWrites transfer.writes := by
  simp [table, SortedMap.applyWrites_append]

theorem outputs_concat (start : SortedMap κ ν) (history : List (Transfer κ ν))
    (transfer : Transfer κ ν) :
    outputs start (history ++ [transfer]) = outputs start history ++ transfer.made := by
  simp [outputs]

theorem outputs_append (start : SortedMap κ ν) (first second : List (Transfer κ ν)) :
    outputs start (first ++ second) = outputs start first ++ second.flatMap Transfer.made := by
  simp [outputs]

omit [LinearOrder κ] in
theorem spent_append (first second : List (Transfer κ ν)) :
    spent (first ++ second) = spent first ++ spent second := by
  simp [spent]

/-! ## Validity -/

structure Follows (start : SortedMap κ ν) (history : List (Transfer κ ν))
    (transfer : Transfer κ ν) : Prop where
  fresh : ∀ output ∈ transfer.made, output.1 ∉ (outputs start history).map Prod.fst
  distinct : (transfer.made.map Prod.fst).Nodup
  known : ∀ key ∈ transfer.spent, key ∈ (outputs start history).map Prod.fst
  unspent : ∀ key ∈ transfer.spent, key ∉ spent history
  once : transfer.spent.Nodup

theorem follows_iff {start : SortedMap κ ν} {history : List (Transfer κ ν)}
    {transfer : Transfer κ ν} :
    ((∀ output ∈ transfer.made, ∀ known ∈ outputs start history, known.1 ≠ output.1) ∧
      (transfer.made.map Prod.fst).Nodup ∧
      (∀ key ∈ transfer.spent, ∃ known ∈ outputs start history, known.1 = key) ∧
      (∀ key ∈ transfer.spent, ∀ gone ∈ spent history, gone ≠ key) ∧ transfer.spent.Nodup) ↔
      Follows start history transfer := by
  have hmem : ∀ key, key ∈ (outputs start history).map Prod.fst ↔
      ∃ known ∈ outputs start history, known.1 = key := fun key => List.mem_map
  constructor
  · rintro ⟨hfresh, hdistinct, hknown, hunspent, honce⟩
    refine ⟨fun output houtput hold => ?_, hdistinct, fun key hkey => (hmem key).mpr (hknown key hkey),
      fun key hkey hgone => hunspent key hkey key hgone rfl, honce⟩
    obtain ⟨known, hold, heq⟩ := (hmem _).mp hold
    exact hfresh output houtput known hold heq
  · rintro ⟨hfresh, hdistinct, hknown, hunspent, honce⟩
    exact ⟨fun output houtput known hold heq => hfresh output houtput ((hmem _).mpr ⟨known, hold, heq⟩),
      hdistinct, fun key hkey => (hmem key).mp (hknown key hkey),
      fun key hkey gone hgone heq => hunspent key hkey (heq ▸ hgone), honce⟩

instance (start : SortedMap κ ν) (history : List (Transfer κ ν)) (transfer : Transfer κ ν) :
    Decidable (Follows start history transfer) :=
  decidable_of_iff _ follows_iff

def ValidAfter (start : SortedMap κ ν) (history : List (Transfer κ ν)) :
    List (Transfer κ ν) → Prop
  | [] => True
  | transfer :: rest =>
    Follows start history transfer ∧ ValidAfter start (history ++ [transfer]) rest

instance decidableValidAfter (start : SortedMap κ ν) :
    ∀ history transfers : List (Transfer κ ν), Decidable (ValidAfter start history transfers)
  | _, [] => inferInstanceAs (Decidable True)
  | history, transfer :: rest =>
    have := decidableValidAfter start (history ++ [transfer]) rest
    inferInstanceAs (Decidable (_ ∧ _))

def Valid (start : SortedMap κ ν) (history : List (Transfer κ ν)) : Prop :=
  ValidAfter start [] history

variable {start : SortedMap κ ν} {history : List (Transfer κ ν)}

theorem validAfter_append :
    ValidAfter start history (first ++ second) ↔
      ValidAfter start history first ∧ ValidAfter start (history ++ first) second := by
  induction first generalizing history with
  | nil => simp [ValidAfter]
  | cons transfer rest ih =>
    simp only [List.cons_append, ValidAfter, ih, and_assoc, List.append_assoc,
      List.nil_append]

theorem valid_append :
    Valid start (first ++ second) ↔ Valid start first ∧ ValidAfter start first second := by
  simp [Valid, validAfter_append]

theorem valid_concat {transfer : Transfer κ ν} :
    Valid start (history ++ [transfer]) ↔
      Valid start history ∧ Follows start history transfer := by
  simp [valid_append, ValidAfter]

theorem Valid.of_append (h : Valid start (first ++ second)) : Valid start first :=
  (valid_append.mp h).1

theorem Valid.follows {transfer : Transfer κ ν} (h : Valid start (first ++ transfer :: second)) :
    Follows start first transfer :=
  ((valid_append.mp h).2).1

/-! ## The meaning of the table -/

theorem Valid.nodup_outputs (h : Valid start history) :
    ((outputs start history).map Prod.fst).Nodup := by
  induction history using List.reverseRecOn with
  | nil =>
    rw [outputs, List.flatMap_nil, List.append_nil, List.Nodup, List.pairwise_map]
    exact start.sorted.imp fun hlt => hlt.ne
  | append_singleton history transfer ih =>
    obtain ⟨hhistory, hfollows⟩ := valid_concat.mp h
    rw [outputs_concat, List.map_append, List.nodup_append]
    refine ⟨ih hhistory, hfollows.distinct, ?_⟩
    rintro key hkey _ hmade rfl
    obtain ⟨output, houtput, rfl⟩ := List.mem_map.mp hmade
    exact hfollows.fresh output houtput hkey

theorem Valid.output_unique (h : Valid start history) {key : κ} {w : ν}
    (hv : (key, v) ∈ outputs start history) (hw : (key, w) ∈ outputs start history) : v = w :=
  congrArg Prod.snd (List.inj_on_of_nodup_map h.nodup_outputs hv hw rfl)

theorem Valid.known_of_spent (h : Valid start history) {key : κ} (hkey : key ∈ spent history) :
    key ∈ (outputs start history).map Prod.fst := by
  induction history using List.reverseRecOn with
  | nil => simp [spent] at hkey
  | append_singleton history transfer ih =>
    obtain ⟨hhistory, hfollows⟩ := valid_concat.mp h
    rw [outputs_concat, List.map_append, List.mem_append]
    rw [spent_append, List.mem_append] at hkey
    rcases hkey with hkey | hkey
    · exact Or.inl (ih hhistory hkey)
    · exact Or.inl (hfollows.known key (by simpa [spent] using hkey))

theorem lastWrite_writes {transfer : Transfer κ ν} {key : κ}
    (hdistinct : (transfer.made.map Prod.fst).Nodup) :
    SortedMap.lastWrite key transfer.writes =
      if key ∈ transfer.spent then some none
      else (SortedMap.find key transfer.made).map some := by
  have hmade : SortedMap.lastWrite key
      (transfer.made.map fun output => (output.1, some output.2)) =
      (SortedMap.find key transfer.made).map some := by
    cases hfind : SortedMap.find key transfer.made with
    | none =>
      rw [Option.map_none, SortedMap.lastWrite_eq_none_iff, List.map_map]
      intro hmem
      obtain ⟨output, houtput, rfl⟩ := List.mem_map.mp hmem
      exact absurd hfind (SortedMap.find_ne_none_of_mem houtput)
    | some v =>
      refine SortedMap.lastWrite_of_nodup (by simpa [Function.comp_def] using hdistinct) ?_
      exact List.mem_map.mpr ⟨_, SortedMap.mem_of_find hfind, rfl⟩
  have hspent := SortedMap.lastWrite_map (fun _ : κ => (none : Option ν)) transfer.spent key
  rw [Transfer.writes, SortedMap.lastWrite_append, hmade, hspent]
  split <;> simp

theorem Valid.get_table (h : Valid start history) {key : κ} :
    (table start history).get key = some v ↔
      (key, v) ∈ outputs start history ∧ key ∉ spent history := by
  induction history using List.reverseRecOn with
  | nil => simp [outputs, spent, SortedMap.get_eq_some_iff]
  | append_singleton history transfer ih =>
    obtain ⟨hhistory, hfollows⟩ := valid_concat.mp h
    have hspent : spent (history ++ [transfer]) = spent history ++ transfer.spent := by
      simp [spent]
    rw [table_concat, SortedMap.get_applyWrites, lastWrite_writes hfollows.distinct,
      outputs_concat, hspent, List.mem_append, List.mem_append, not_or]
    by_cases hkey : key ∈ transfer.spent
    · simp [hkey]
    · simp only [hkey, if_false, not_false_eq_true, and_true]
      cases hfind : SortedMap.find key transfer.made with
      | none =>
        have hnot : (key, v) ∉ transfer.made := fun hmem =>
          SortedMap.find_ne_none_of_mem hmem hfind
        simp [ih hhistory, hnot]
      | some w =>
        have hmem := SortedMap.mem_of_find hfind
        have hfresh := hfollows.fresh _ hmem
        have hold : (key, v) ∉ outputs start history := fun hin =>
          hfresh (List.mem_map.mpr ⟨_, hin, rfl⟩)
        have hunspent : key ∉ spent history := fun hin =>
          hfresh (hhistory.known_of_spent hin)
        have hvalue : (key, v) ∈ transfer.made ↔ w = v :=
          ⟨fun hin => congrArg Prod.snd
            (List.inj_on_of_nodup_map hfollows.distinct hmem hin rfl), fun heq => heq ▸ hmem⟩
        simp [hold, hunspent, hvalue]

theorem Follows.get_made {transfer : Transfer κ ν} (hvalid : Valid start history)
    (h : Follows start history transfer) {output : κ × ν} (houtput : output ∈ transfer.made) :
    (table start history).get output.1 = none := by
  cases hget : (table start history).get output.1 with
  | none => rfl
  | some v =>
    exact absurd (List.mem_map_of_mem (hvalid.get_table.mp hget).1) (h.fresh output houtput)

theorem Follows.get_spent {transfer : Transfer κ ν} (hvalid : Valid start history)
    (h : Follows start history transfer) {key : κ} (hkey : key ∈ transfer.spent) :
    ∃ v, (table start history).get key = some v := by
  obtain ⟨⟨key, v⟩, hmem, rfl⟩ := List.mem_map.mp (h.known key hkey)
  exact ⟨v, hvalid.get_table.mpr ⟨hmem, h.unspent key hkey⟩⟩

theorem Follows.sum_spent_le {transfer : Transfer κ ν} (h : Follows start history transfer)
    (f : κ × ν → ℕ) :
    (transfer.spent.map fun key =>
      ((table start history).get key).elim 0 fun v => f (key, v)).sum ≤
        (table start history).sumOf f := by
  rw [← SortedMap.sumOf_restrict_add (table start history) f h.once]
  exact Nat.le_add_left _ _

theorem Follows.sumOf_table {transfer : Transfer κ ν} (hvalid : Valid start history)
    (h : Follows start history transfer) (f : κ × ν → ℕ) :
    (table start (history ++ [transfer])).sumOf f +
        (transfer.spent.map fun key =>
          ((table start history).get key).elim 0 fun v => f (key, v)).sum =
      (table start history).sumOf f + (transfer.made.map f).sum := by
  have hold : ∀ output ∈ transfer.made, output ∉ (table start history).entries := by
    intro output houtput hmem
    have hnone := h.get_made hvalid houtput
    rw [(SortedMap.get_eq_some_iff _).mpr hmem] at hnone
    cases hnone
  have hperm : (table start (history ++ [transfer])).entries.Perm
      (((table start history).restrict fun key => key ∉ transfer.spent).entries ++
        transfer.made) := by
    refine (List.perm_ext_iff_of_nodup (SortedMap.nodup_entries _) ?_).mpr fun e => ?_
    · refine List.nodup_append.mpr ⟨SortedMap.nodup_entries _, h.distinct.of_map, ?_⟩
      rintro e he _ he' rfl
      exact hold e he' (List.mem_of_mem_filter he)
    · obtain ⟨key, v⟩ := e
      have hnew : Valid start (history ++ [transfer]) := valid_concat.mpr ⟨hvalid, h⟩
      rw [← SortedMap.get_eq_some_iff, hnew.get_table, outputs_concat, spent_append,
        List.mem_append, List.mem_append, List.mem_append, SortedMap.restrict, List.mem_filter,
        ← SortedMap.get_eq_some_iff, hvalid.get_table]
      have hfresh : (key, v) ∈ transfer.made → key ∉ spent history ∧ key ∉ transfer.spent := by
        intro hmade
        exact ⟨fun hspent => h.fresh _ hmade (hvalid.known_of_spent hspent),
          fun hspent => h.fresh _ hmade (h.known key hspent)⟩
      have hspent : key ∈ spent [transfer] ↔ key ∈ transfer.spent := by simp [spent]
      rw [hspent, decide_eq_true_eq]
      tauto
  have hsum := SortedMap.sumOf_restrict_add (table start history) f h.once
  have hnew : (table start (history ++ [transfer])).sumOf f =
      ((table start history).restrict fun key => key ∉ transfer.spent).sumOf f +
        (transfer.made.map f).sum := by
    rw [SortedMap.sumOf, (hperm.map f).sum_eq, List.map_append, List.sum_append]
    rfl
  omega

theorem Follows.undo_writes {transfer : Transfer κ ν} (hvalid : Valid start history)
    (h : Follows start history transfer) :
    (((table start history).applyWrites transfer.writes).applyWrites
      (transfer.spent.map fun key => (key, (table start history).get key))).applyWrites
        (transfer.made.map fun output => (output.1, none)) = table start history := by
  apply SortedMap.ext_get
  intro key
  have hdeletes : (transfer.made.map fun output => (output.1, (none : Option ν))) =
      (transfer.made.map Prod.fst).map fun key => (key, none) := by simp
  rw [hdeletes, SortedMap.get_applyWrites,
    SortedMap.lastWrite_map (fun _ : κ => (none : Option ν)), SortedMap.get_applyWrites,
    SortedMap.lastWrite_map (fun key => (table start history).get key),
    SortedMap.get_applyWrites, lastWrite_writes h.distinct]
  by_cases hmade : key ∈ transfer.made.map Prod.fst
  · obtain ⟨output, houtput, rfl⟩ := List.mem_map.mp hmade
    simp [hmade, h.get_made hvalid houtput]
  · have hfind : SortedMap.find key transfer.made = none := by
      refine SortedMap.find_eq_none_of_forall_ne fun output houtput heq => hmade ?_
      exact heq ▸ List.mem_map_of_mem houtput
    by_cases hspent : key ∈ transfer.spent <;> simp [hmade, hspent, hfind]

end Spending
