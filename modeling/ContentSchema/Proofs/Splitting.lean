import ContentSchema.Text.Split

/-!
# Splitting — the pieces on both sides of a cut

A text is cut at every occurrence of one character.  The pieces hold that character no more and no
other character than the text does, and what stands before one occurrence is cut independently of
what stands behind it.  No other pieces make up the text (`cuts_iff`).
-/

namespace ContentSchema.Text

variable {sep : Char}

theorem splitChars_cons_of_ne {c : Char} (hc : c ≠ sep) (cs : List Char) :
    ∃ piece pieces, splitChars sep cs = piece :: pieces ∧
      splitChars sep (c :: cs) = (c :: piece) :: pieces := by
  obtain ⟨piece, pieces, h⟩ := List.exists_cons_of_ne_nil (splitChars_ne_nil sep cs)
  exact ⟨piece, pieces, h, by rw [splitChars, if_neg hc, h]⟩

/-- The two sides of a cut are cut on their own. -/
theorem splitChars_append (sep : Char) (cs ds : List Char) :
    splitChars sep (cs ++ sep :: ds) = splitChars sep cs ++ splitChars sep ds := by
  induction cs with
  | nil => simp [splitChars]
  | cons c cs ih =>
    rw [List.cons_append]
    by_cases hc : c = sep
    · rw [splitChars, if_pos hc, splitChars, if_pos hc, ih, List.cons_append]
    · obtain ⟨piece, pieces, h, hcons⟩ := splitChars_cons_of_ne hc cs
      rw [hcons, splitChars, if_neg hc, ih, h]
      rfl

/-- A piece is made of characters of the text other than the one it is cut at. -/
theorem mem_of_mem_splitChars {cs piece : List Char} (h : piece ∈ splitChars sep cs) :
    ∀ c ∈ piece, c ∈ cs ∧ c ≠ sep := by
  induction cs generalizing piece with
  | nil =>
    rw [splitChars, List.mem_singleton] at h
    rw [h]
    exact fun c hc => absurd hc List.not_mem_nil
  | cons d cs ih =>
    have hrest : ∀ {piece}, piece ∈ splitChars sep cs → ∀ c ∈ piece, c ∈ d :: cs ∧ c ≠ sep :=
      fun hp c hc => (ih hp c hc).imp_left (List.mem_cons_of_mem d)
    by_cases hd : d = sep
    · rw [splitChars, if_pos hd] at h
      rcases List.mem_cons.mp h with rfl | h
      · exact fun c hc => absurd hc List.not_mem_nil
      · exact hrest h
    · obtain ⟨first, pieces, hsplit, hcons⟩ := splitChars_cons_of_ne hd cs
      rw [hcons] at h
      rcases List.mem_cons.mp h with rfl | h
      · refine List.forall_mem_cons.mpr ⟨⟨List.mem_cons_self, hd⟩, hrest ?_⟩
        rw [hsplit]
        exact List.mem_cons_self
      · refine hrest ?_
        rw [hsplit]
        exact List.mem_cons_of_mem first h

theorem splitChars_of_not_mem {cs : List Char} (h : sep ∉ cs) : splitChars sep cs = [cs] := by
  induction cs with
  | nil => rfl
  | cons c cs ih =>
    obtain ⟨hne, hcs⟩ := not_or.mp (mt List.mem_cons.mpr h)
    rw [splitChars, if_neg (Ne.symm hne), ih hcs]

/-- A text is one piece where the character of the cut does not occur. -/
theorem split_of_not_mem {s : String} (h : sep ∉ s.toList) : split sep s = [s] := by
  unfold split
  rw [splitChars_of_not_mem h, List.map_singleton, String.ofList_toList]

theorem split_append (sep : Char) (s t : String) :
    split sep (s ++ String.singleton sep ++ t) = split sep s ++ split sep t := by
  unfold split
  rw [String.toList_append, String.toList_append, String.toList_singleton, List.append_assoc,
    List.singleton_append, splitChars_append, List.map_append]

theorem mem_of_mem_split {s piece : String} (h : piece ∈ split sep s) :
    ∀ c ∈ piece.toList, c ∈ s.toList ∧ c ≠ sep := by
  obtain ⟨cs, hcs, rfl⟩ := List.mem_map.mp h
  rw [String.toList_ofList]
  exact mem_of_mem_splitChars hcs

/-! ### Cuts -/

/-- The pieces of a text at the occurrences of `sep`: none of them holds `sep`, and with it between
neighbours they make up the text. -/
structure Cuts (sep : Char) (s : String) (pieces : List String) : Prop where
  nonempty : pieces ≠ []
  apart : ∀ piece ∈ pieces, sep ∉ piece.toList
  joined : join (String.singleton sep) pieces = s

theorem split_ne_nil (sep : Char) (s : String) : split sep s ≠ [] := by
  unfold split
  intro h
  exact splitChars_ne_nil sep s.toList (List.map_eq_nil_iff.mp h)

/-- Pieces without the separator are what their text is split into. -/
theorem split_join {pieces : List String} (hne : pieces ≠ [])
    (h : ∀ piece ∈ pieces, sep ∉ piece.toList) :
    split sep (join (String.singleton sep) pieces) = pieces := by
  induction pieces with
  | nil => exact absurd rfl hne
  | cons piece rest ih =>
    obtain ⟨hpiece, hrest⟩ := List.forall_mem_cons.mp h
    cases rest with
    | nil => exact split_of_not_mem hpiece
    | cons next rest =>
      rw [join_cons_cons, split_append, split_of_not_mem hpiece, ih (by simp) hrest]
      rfl

/-- A text is cut in one way only. -/
theorem cuts_iff {s : String} {pieces : List String} :
    Cuts sep s pieces ↔ split sep s = pieces := by
  constructor
  · intro h
    rw [← h.joined, split_join h.nonempty h.apart]
  · rintro rfl
    exact ⟨split_ne_nil sep s, fun piece hpiece hsep => (mem_of_mem_split hpiece sep hsep).2 rfl,
      join_split sep s⟩

end ContentSchema.Text
