import ContentSchema.Entries

/-!
# Entry laws — look-ups after changes, and changes that cancel

What `update`, `put`, `insert` and a filter on keys do to look-ups and to the keys, and when two
changes of one key are one change.  No law needs the keys to be sorted: a key stands for its first
entry, which is the only one where keys do not repeat (`mem_iff_get?`).
-/

namespace ContentSchema.Entries

variable {α : Type}

theorem contains_eq (key : String) (es : Entries α) : es.contains key = (es.get? key).isSome := rfl

theorem contains_iff {key : String} {es : Entries α} :
    es.contains key = true ↔ ∃ v, es.get? key = some v := by
  rw [contains_eq, Option.isSome_iff_exists]

theorem mem_of_get? {key : String} {v : α} {es : Entries α} (h : es.get? key = some v) :
    (key, v) ∈ es := by
  induction es with
  | nil => simp at h
  | cons e rest ih =>
    obtain ⟨k, w⟩ := e
    rw [get?_cons] at h
    by_cases hk : k = key
    · rw [if_pos hk, Option.some.injEq] at h
      rw [← hk, ← h]
      exact List.mem_cons_self
    · rw [if_neg hk] at h
      exact List.mem_cons_of_mem _ (ih h)

theorem get?_isSome_of_mem {e : String × α} {es : Entries α} (h : e ∈ es) :
    (es.get? e.1).isSome = true := by
  induction es with
  | nil => cases h
  | cons f rest ih =>
    obtain ⟨k, w⟩ := f
    rw [get?_cons]
    by_cases hk : k = e.1
    · rw [if_pos hk]; rfl
    · rw [if_neg hk]
      rcases List.mem_cons.mp h with rfl | h
      · exact absurd rfl hk
      · exact ih h

theorem contains_of_mem {e : String × α} {es : Entries α} (h : e ∈ es) :
    es.contains e.1 = true := get?_isSome_of_mem h

theorem contains_iff_mem_keys {key : String} {es : Entries α} :
    es.contains key = true ↔ key ∈ es.keys := by
  constructor
  · intro h
    obtain ⟨v, hv⟩ := contains_iff.mp h
    exact List.mem_map.mpr ⟨(key, v), mem_of_get? hv, rfl⟩
  · intro h
    obtain ⟨e, he, rfl⟩ := List.mem_map.mp h
    exact contains_of_mem he

theorem get?_eq_none_iff {key : String} {es : Entries α} :
    es.get? key = none ↔ key ∉ es.keys := by
  rw [← contains_iff_mem_keys, contains_eq, Option.not_isSome_iff_eq_none]

/-- Where no two entries have one key, each is what its key leads to. -/
theorem mem_iff_get? {es : Entries α} (h : (keys es).Nodup) {key : String} {v : α} :
    (key, v) ∈ es ↔ get? key es = some v := by
  refine ⟨fun hmem => ?_, mem_of_get?⟩
  induction es with
  | nil => cases hmem
  | cons e rest ih =>
    obtain ⟨k, w⟩ := e
    obtain ⟨hk, hrest⟩ := List.nodup_cons.mp h
    rw [get?_cons]
    rcases List.mem_cons.mp hmem with heq | hmem
    · obtain ⟨rfl, rfl⟩ := Prod.mk.inj heq
      exact if_pos rfl
    · have hne : k ≠ key := by
        rintro rfl
        exact hk (List.mem_map.mpr ⟨_, hmem, rfl⟩)
      rw [if_neg hne]
      exact ih hrest hmem

theorem get?_append (key : String) (es fs : Entries α) :
    get? key (es ++ fs) = (es.get? key).or (fs.get? key) := by
  induction es with
  | nil => rfl
  | cons e es ih =>
    obtain ⟨k, v⟩ := e
    rw [List.cons_append, get?_cons, get?_cons, ih]
    split <;> rfl

/-! ### Changes in place -/

theorem get?_update_self {key : String} (f : α → α) (es : Entries α) :
    (update key f es).get? key = (es.get? key).map f := by
  induction es with
  | nil => rfl
  | cons e rest ih =>
    obtain ⟨k, v⟩ := e
    by_cases hk : k = key <;> simp [update, get?, hk, ih]

theorem get?_update_of_ne {key other : String} (h : key ≠ other) (f : α → α) (es : Entries α) :
    (update key f es).get? other = es.get? other := by
  induction es with
  | nil => rfl
  | cons e rest ih =>
    obtain ⟨k, v⟩ := e
    by_cases hk : k = key
    · subst hk; simp [update, get?, h]
    · simp [update, get?, hk, ih]

/-- Giving a key the value it has changes nothing. -/
theorem update_of_get? {key : String} {v : α} {es : Entries α} (h : es.get? key = some v) :
    update key (fun _ => v) es = es := by
  induction es with
  | nil => rfl
  | cons e rest ih =>
    obtain ⟨k, w⟩ := e
    rw [get?_cons] at h
    by_cases hk : k = key
    · rw [if_pos hk, Option.some.injEq] at h
      simp [update, hk, h]
    · rw [if_neg hk] at h
      simp [update, hk, ih h]

theorem update_update (key : String) (a b : α) (es : Entries α) :
    update key (fun _ => b) (update key (fun _ => a) es) = update key (fun _ => b) es := by
  induction es with
  | nil => rfl
  | cons e rest ih =>
    obtain ⟨k, w⟩ := e
    by_cases hk : k = key <;> simp [update, hk, ih]

theorem put_of_get? {key : String} {v w : α} {es : Entries α} (h : es.get? key = some v) :
    put key w es = update key (fun _ => w) es := by
  induction es with
  | nil => simp at h
  | cons e rest ih =>
    obtain ⟨k, u⟩ := e
    rw [get?_cons] at h
    by_cases hk : k = key
    · simp [put, update, hk]
    · rw [if_neg hk] at h
      simp [put, update, hk, ih h]

/-- Inserting at a key that is present changes its value in place. -/
theorem insert_of_get? {key : String} {v w : α} {es : Entries α} (h : es.get? key = some v) :
    insert key w es = update key (fun _ => w) es := by
  unfold insert
  rw [contains_eq, h, Option.isSome_some, if_pos rfl, put_of_get? h]

theorem update_place {key : String} {a b : α} {es : Entries α} (h : es.get? key = none) :
    update key (fun _ => b) (place key a es) = place key b es := by
  induction es with
  | nil => simp [place, update]
  | cons e rest ih =>
    obtain ⟨k, w⟩ := e
    rw [get?_cons] at h
    by_cases hk : k = key
    · simp [hk] at h
    · rw [if_neg hk] at h
      by_cases hlt : key < k <;> simp [place, update, hk, hlt, ih h]

/-- The last of two insertions at one key counts. -/
theorem insert_insert (key : String) (a b : α) (es : Entries α) :
    insert key b (insert key a es) = insert key b es := by
  rw [insert_of_get? (get?_insert_self key a es)]
  cases h : es.get? key with
  | some v => rw [insert_of_get? h, insert_of_get? h, update_update]
  | none =>
    unfold insert
    rw [contains_eq, h, Option.isSome_none, if_neg (by simp), if_neg (by simp), update_place h]

theorem mem_place {key : String} {value : α} {es : Entries α} {e : String × α}
    (h : e ∈ place key value es) : e = (key, value) ∨ e ∈ es := by
  induction es with
  | nil => exact .inl (List.mem_singleton.mp h)
  | cons f rest ih =>
    obtain ⟨k, v⟩ := f
    unfold place at h
    split at h
    · exact List.mem_cons.mp h
    · rcases List.mem_cons.mp h with rfl | h
      · exact .inr List.mem_cons_self
      · exact (ih h).imp_right (List.mem_cons_of_mem _)

theorem mem_put {key : String} {value : α} {es : Entries α} {e : String × α}
    (h : e ∈ put key value es) : e = (key, value) ∨ e ∈ es := by
  induction es with
  | nil => exact .inl (List.mem_singleton.mp h)
  | cons f rest ih =>
    obtain ⟨k, v⟩ := f
    unfold put at h
    split at h
    · exact (List.mem_cons.mp h).imp_right (List.mem_cons_of_mem _)
    · rcases List.mem_cons.mp h with rfl | h
      · exact .inr List.mem_cons_self
      · exact (ih h).imp_right (List.mem_cons_of_mem _)

theorem mem_insert {key : String} {value : α} {es : Entries α} {e : String × α}
    (h : e ∈ insert key value es) : e = (key, value) ∨ e ∈ es := by
  unfold insert at h
  split at h
  · exact mem_put h
  · exact mem_place h

theorem mem_update {key : String} {value : α} {es : Entries α} {e : String × α}
    (h : e ∈ update key (fun _ => value) es) : e = (key, value) ∨ e ∈ es := by
  induction es with
  | nil => cases h
  | cons f rest ih =>
    obtain ⟨k, v⟩ := f
    unfold update at h
    split at h
    · next hk =>
      rcases List.mem_cons.mp h with rfl | h
      · exact .inl (by rw [hk])
      · exact .inr (List.mem_cons_of_mem _ h)
    · rcases List.mem_cons.mp h with rfl | h
      · exact .inr List.mem_cons_self
      · exact (ih h).imp_right (List.mem_cons_of_mem _)

/-! ### Keys after a change -/

/-- What replaces the value of a key leaves the keys. -/
theorem keys_put {key : String} {es : Entries α} (h : es.contains key = true) (value : α) :
    (put key value es).keys = es.keys := by
  induction es with
  | nil => cases h
  | cons e rest ih =>
    obtain ⟨k, v⟩ := e
    unfold put
    split
    · next hk => rw [hk]; rfl
    · next hk =>
      have hrest : contains key rest = true := by
        rwa [contains_eq, get?_cons, if_neg hk] at h
      exact congrArg (k :: ·) (ih hrest)

theorem keys_place (key : String) (value : α) (es : Entries α) :
    (place key value es).keys.Perm (key :: es.keys) := by
  induction es with
  | nil => exact .refl _
  | cons e rest ih =>
    obtain ⟨k, v⟩ := e
    unfold place
    split
    · exact .refl _
    · exact (List.Perm.cons k ih).trans (.swap key k _)

/-- A new name is added to those there are. -/
theorem keys_insert {key : String} {es : Entries α} (h : key ∉ es.keys) (value : α) :
    (insert key value es).keys.Perm (key :: es.keys) := by
  unfold insert
  rw [if_neg fun hkey => h (contains_iff_mem_keys.mp hkey)]
  exact keys_place key value es

/-! ### Sorting -/

theorem mem_sorted {ps : List (String × α)} {e : String × α}
    (h : e ∈ sorted ps) : e ∈ ps := by
  have hfold : ∀ (ps : List (String × α)) (es : Entries α),
      e ∈ ps.foldl (fun es p => insert p.1 p.2 es) es → e ∈ es ∨ e ∈ ps := by
    intro ps
    induction ps with
    | nil => exact fun es h => .inl h
    | cons p ps ih =>
      intro es h
      rcases ih _ h with h | h
      · rcases mem_insert h with rfl | h
        · exact .inr List.mem_cons_self
        · exact .inl h
      · exact .inr (List.mem_cons_of_mem _ h)
  exact (hfold ps [] h).resolve_left (List.not_mem_nil)

theorem get?_sorted_isSome {ps : List (String × α)} {e : String × α} (h : e ∈ ps) :
    ((sorted ps).get? e.1).isSome = true := by
  have hfold : ∀ (ps : List (String × α)) (es : Entries α),
      (es.get? e.1).isSome = true ∨ e ∈ ps →
        ((ps.foldl (fun es p => insert p.1 p.2 es) es).get? e.1).isSome = true := by
    intro ps
    induction ps with
    | nil => exact fun es h => h.resolve_right (List.not_mem_nil)
    | cons p ps ih =>
      intro es h
      refine ih _ ?_
      by_cases hp : p.1 = e.1
      · rw [← hp, get?_insert_self]
        exact .inl rfl
      · rw [get?_insert_of_ne hp]
        refine h.imp_right fun h => (List.mem_cons.mp h).resolve_left fun heq => ?_
        exact hp (congrArg Prod.fst heq.symm)
  exact hfold ps [] (.inr h)

/-- A key with one value keeps it. -/
theorem get?_sorted {ps : List (String × α)} {key : String} {v : α} (h : (key, v) ∈ ps)
    (hone : ∀ w, (key, w) ∈ ps → w = v) : (sorted ps).get? key = some v := by
  obtain ⟨w, hw⟩ := Option.isSome_iff_exists.mp (get?_sorted_isSome h)
  rw [← hone w (mem_sorted (mem_of_get? hw))]
  exact hw

/-! ### A choice of keys -/

theorem get?_filter (keep : String → Bool) (key : String) (es : Entries α) :
    get? key (es.filter fun e => keep e.1) = if keep key then es.get? key else none := by
  induction es with
  | nil => simp
  | cons e rest ih =>
    obtain ⟨k, v⟩ := e
    by_cases hk : k = key
    · subst hk
      by_cases h : keep k = true
      · simp [h, get?_cons]
      · simp [h, ih]
    · by_cases h : keep k = true
      · simp [h, hk, get?_cons, ih]
      · simp [h, hk, get?_cons, ih]

/-- A change of every value by its key, or its removal. -/
theorem get?_filterMap {β : Type} (g : String → Option (α → β)) (key : String) (es : Entries α) :
    get? key (es.filterMap fun e => (g e.1).map fun f => (e.1, f e.2)) =
      (es.get? key).bind fun v => (g key).map fun f => f v := by
  induction es with
  | nil => simp
  | cons e rest ih =>
    obtain ⟨k, v⟩ := e
    rw [List.filterMap_cons]
    by_cases hk : k = key
    · subst hk
      cases hg : g k with
      | none =>
        rw [get?_cons, if_pos rfl]
        simp only [Option.map_none, ih, hg]
        cases get? k rest <;> rfl
      | some f => simp [get?_cons]
    · rw [get?_cons, if_neg hk]
      cases hg : g k with
      | none => exact ih
      | some f =>
        simp only [Option.map_some, get?_cons, if_neg hk]
        exact ih

end ContentSchema.Entries
