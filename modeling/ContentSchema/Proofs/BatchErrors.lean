import ContentSchema.Proofs.PassRuns

/-!
# Batch errors — the messages of several records in one map

The messages of the record at index `i` are collected below `i`.  An index has no dot in it, so the
maps do not meet (`nodup_inOrder`): nothing is ever dropped, and the collected map is the list of
all messages in order (`mergeAll_entries`).
-/

namespace ContentSchema

namespace ErrorMap

/-! ### Collecting -/

/-- The messages of some maps in order, those of the map at index `j` below `j`; indices start at
`i`. -/
def inOrder (i : Nat) (maps : List ErrorMap) : Entries String :=
  (maps.zipIdx i).flatMap fun m => m.1.entries.map fun e => (below (Nat.repr m.2) e.1, e.2)

/-- Merge maps from index `i` on. -/
def mergeAll (i : Nat) (errors : ErrorMap) : List ErrorMap → ErrorMap
  | [] => errors
  | m :: rest => mergeAll (i + 1) (errors.merge (Nat.repr i) m) rest

theorem inOrder_cons (i : Nat) (m : ErrorMap) (maps : List ErrorMap) :
    inOrder i (m :: maps) =
      m.entries.map (fun e => (below (Nat.repr i) e.1, e.2)) ++ inOrder (i + 1) maps := rfl

/-- The maps that are collected, each with the text of its index. -/
def indexed (i : Nat) (maps : List ErrorMap) : List (String × ErrorMap) :=
  (maps.zipIdx i).map fun m => (Nat.repr m.2, m.1)

theorem inOrder_eq (i : Nat) (maps : List ErrorMap) :
    inOrder i maps = written (merges (indexed i maps)) := by
  unfold inOrder written merges indexed
  rw [List.flatMap_map, List.flatMap_map]
  rfl

/-- The texts of indices differ, and there is no dot in them. -/
theorem nodup_inOrder (i : Nat) {maps : List ErrorMap} (h : ∀ m ∈ maps, m.Distinct) :
    (Entries.keys (inOrder i maps)).Nodup := by
  have hrepr : ∀ j, (Nat.repr j).toList = Nat.toDigits 10 j := fun j => String.toList_ofList
  have hinjective : Function.Injective Nat.repr := fun j k hjk =>
    Text.toDigits_injective (by rw [← hrepr j, hjk, hrepr])
  have hfirsts : (indexed i maps).map (·.1) =
      (List.range' i maps.length).map Nat.repr := by
    unfold indexed
    rw [List.map_map, ← List.zipIdx_map_snd i maps, List.map_map]
    rfl
  rw [inOrder_eq]
  refine nodup_merges ?_ ?_ ?_
  · rw [hfirsts]
    exact List.Nodup.map hinjective List.nodup_range'
  · intro part hpart hdot
    obtain ⟨m, -, rfl⟩ := List.mem_map.mp hpart
    rw [hrepr] at hdot
    exact absurd (Text.isDigit_toDigits hdot) (by decide)
  · intro part hpart
    obtain ⟨m, hm, rfl⟩ := List.mem_map.mp hpart
    exact h m.1 (List.fst_mem_of_mem_zipIdx hm)

theorem mergeAll_eq (i : Nat) (errors : ErrorMap) (maps : List ErrorMap) :
    mergeAll i errors maps = errors.addAll (inOrder i maps) := by
  induction maps generalizing i errors with
  | nil => rfl
  | cons m maps ih =>
    unfold mergeAll
    rw [ih, merge_eq, ← addAll_append, inOrder_cons]
    rfl

/-- There are no messages in the end exactly when no map has one. -/
theorem isEmpty_mergeAll (i : Nat) (errors : ErrorMap) (maps : List ErrorMap) :
    (mergeAll i errors maps).isEmpty = true ↔
      errors.isEmpty = true ∧ ∀ m ∈ maps, m.isEmpty = true := by
  induction maps generalizing i errors with
  | nil => simp [mergeAll]
  | cons m maps ih =>
    have hhead : (errors.merge (Nat.repr i) m).isEmpty = true ↔
        errors.isEmpty = true ∧ m.isEmpty = true := by
      rw [merge_eq, isEmpty_addAll]
      exact and_congr_right' (List.map_eq_nil_iff.trans List.isEmpty_iff.symm)
    rw [List.forall_mem_cons, ← and_assoc, ← hhead]
    exact ih (i + 1) (errors.merge (Nat.repr i) m)

/-- The collected map holds every message of every map, in order. -/
theorem mergeAll_entries (i : Nat) {maps : List ErrorMap} (h : ∀ m ∈ maps, m.Distinct) :
    (mergeAll i .empty maps).entries = inOrder i maps := by
  rw [mergeAll_eq]
  exact entries_addAll (nodup_inOrder i h)

end ErrorMap

end ContentSchema
