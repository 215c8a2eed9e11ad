/-!
# Splitting and joining

A text is cut at every occurrence of one character; joining with that character undoes the cut
(`join_split`).
-/

namespace ContentSchema.Text

/-- The pieces between the occurrences of `sep`: one more than there are occurrences. -/
def splitChars (sep : Char) : List Char → List (List Char)
  | [] => [[]]
  | c :: cs =>
    if c = sep then [] :: splitChars sep cs
    else
      match splitChars sep cs with
      | [] => [[c]]
      | piece :: pieces => (c :: piece) :: pieces

/-- The pieces of `s` between the occurrences of `sep`. -/
def split (sep : Char) (s : String) : List String :=
  (splitChars sep s.toList).map String.ofList

/-- The parts in order with `sep` between neighbours. -/
def join (sep : String) : List String → String
  | [] => ""
  | [s] => s
  | s :: rest => s ++ sep ++ join sep rest

theorem splitChars_ne_nil (sep : Char) (cs : List Char) : splitChars sep cs ≠ [] := by
  cases cs with
  | nil => simp [splitChars]
  | cons c cs =>
    simp only [splitChars]
    split
    · simp
    · split <;> simp

@[simp] theorem join_nil (sep : String) : join sep [] = "" := rfl

@[simp] theorem join_singleton (sep s : String) : join sep [s] = s := rfl

theorem join_cons_cons (sep s t : String) (rest : List String) :
    join sep (s :: t :: rest) = s ++ sep ++ join sep (t :: rest) := rfl

/-- Joining with the character of the cut gives the text back. -/
theorem join_split (sep : Char) (s : String) : join (String.singleton sep) (split sep s) = s := by
  have chars (cs : List Char) :
      join (String.singleton sep) ((splitChars sep cs).map String.ofList) = String.ofList cs := by
    induction cs with
    | nil => simp [splitChars]
    | cons c cs ih =>
      have cons : String.ofList (c :: cs) = String.singleton c ++ String.ofList cs := by
        rw [← String.toList_inj]
        simp
      obtain ⟨piece, pieces, e⟩ := List.exists_cons_of_ne_nil (splitChars_ne_nil sep cs)
      rw [cons, ← ih, splitChars, e]
      rw [← String.toList_inj]
      split
      · next h => simp [h, join_cons_cons]
      · cases pieces <;> simp [join_cons_cons]
  simpa [split] using chars s.toList

end ContentSchema.Text
