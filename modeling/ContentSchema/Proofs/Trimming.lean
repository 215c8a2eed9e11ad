import Mathlib.Data.List.DropRight
import ContentSchema.Text.Blank

/-!
# Trimming — what is left has nothing to trim

Trimming leaves a part of the text with neither end to be dropped (`Text.trimmed_trimChars`), and it
leaves such a text as it is (`Text.Trimmed.trimChars`).  So trimming twice is trimming once.
-/

namespace ContentSchema.Text

/-- Neither end of a list of characters is to be dropped. -/
structure Trimmed (p : Char → Bool) (cs : List Char) : Prop where
  head : ∀ c ∈ cs.head?, p c = false
  last : ∀ c ∈ cs.getLast?, p c = false

section

variable {p : Char → Bool} {cs ds : List Char}

theorem trimChars_eq (p : Char → Bool) (cs : List Char) :
    trimChars p cs = (cs.dropWhile p).rdropWhile p := rfl

theorem isInfix_trimChars (p : Char → Bool) (cs : List Char) : trimChars p cs <:+: cs := by
  rw [trimChars_eq]
  exact (List.rdropWhile_prefix p _).isInfix.trans (List.dropWhile_suffix p).isInfix

theorem mem_of_mem_trimChars {c : Char} (h : c ∈ trimChars p cs) : c ∈ cs :=
  (isInfix_trimChars p cs).subset h

theorem trimmed_trimChars (p : Char → Bool) (cs : List Char) : Trimmed p (trimChars p cs) := by
  have hlast : ∀ c ∈ (trimChars p cs).getLast?, p c = false := by
    intro c hc
    have hne : trimChars p cs ≠ [] := List.ne_nil_of_mem (List.mem_of_getLast? hc)
    rw [List.getLast?_eq_some_getLast hne, Option.mem_some] at hc
    rw [← hc]
    exact Bool.eq_false_iff.mpr (List.rdropWhile_last_not p _ hne)
  refine ⟨fun c hc => ?_, hlast⟩
  -- the head is that of the list without its first run
  obtain ⟨rest, hrest⟩ := List.rdropWhile_prefix p (cs.dropWhile p)
  have hhead : (cs.dropWhile p).head? = some c := by
    rw [← hrest, List.head?_append, ← trimChars_eq, hc]
    rfl
  have := List.head?_dropWhile_not p cs
  rw [hhead] at this
  simpa using this

/-- Nothing is dropped where neither end is to be. -/
theorem Trimmed.trimChars (h : Trimmed p cs) : Text.trimChars p cs = cs := by
  have hdrop : ∀ {xs : List Char}, (∀ c ∈ xs.head?, p c = false) → xs.dropWhile p = xs := by
    intro xs h
    cases xs with
    | nil => rfl
    | cons x xs => rw [List.dropWhile_cons, h x rfl, if_neg Bool.false_ne_true]
  unfold Text.trimChars
  rw [hdrop h.head, hdrop (by rw [List.head?_reverse]; exact h.last), List.reverse_reverse]

theorem trimmed_of_forall (h : ∀ c ∈ cs, p c = false) : Trimmed p cs :=
  ⟨fun c hc => h c (List.mem_of_head? hc), fun c hc => h c (List.mem_of_getLast? hc)⟩

/-- The ends of a text are those of its first and its last part. -/
theorem Trimmed.append (hcs : Trimmed p cs) (hds : Trimmed p ds) (hne : cs ≠ []) (hne' : ds ≠ [])
    (between : List Char) : Trimmed p (cs ++ between ++ ds) := by
  refine ⟨fun c hc => hcs.head c ?_, fun c hc => hds.last c ?_⟩
  · rw [List.append_assoc, List.head?_append_of_ne_nil _ hne] at hc
    exact hc
  · rw [List.getLast?_append_of_ne_nil _ hne'] at hc
    exact hc

theorem trimmed_trim (s : String) : Trimmed isBlank (trim s).toList := by
  rw [toList_trim]
  exact trimmed_trimChars isBlank s.toList

theorem trim_of_trimmed {s : String} (h : Trimmed isBlank s.toList) : trim s = s := by
  unfold trim
  rw [h.trimChars, String.ofList_toList]

theorem trim_trim (s : String) : trim (trim s) = trim s := trim_of_trimmed (trimmed_trim s)

end

theorem isBlank_of_isDigit {c : Char} (h : c.isDigit = true) : isBlank c = false := by
  have hdigit : 48 ≤ c.toNat ∧ c.toNat ≤ 57 := by
    simpa [Char.isDigit, UInt32.le_iff_toNat_le] using h
  simp only [isBlank, Bool.or_eq_false_iff, Bool.and_eq_false_iff, decide_eq_false_iff_not,
    beq_eq_false_iff_ne]
  omega

end ContentSchema.Text
