import Mathlib.Data.List.Chain
import ContentSchema.Proofs.Stages
import ContentSchema.Proofs.Trimming
import ContentSchema.Text.LetterCase

/-!
# Slug words — what `slugify` makes of a text, and what the pattern accepts

`slugify` leaves words with single dashes between them, whatever the text (`words_slugify`), and
the pattern accepts such words exactly when they are of slug characters (`patternCheck_words`).  So
what the pattern may still refuse is a character, never the arrangement (`slugify_pattern`).  Words
that lower case leaves alone are their own slug (`slugify_of_words`).
-/

namespace ContentSchema

/-! ### Letter case -/

namespace Text

variable {c : Char} {cs : List Char}

/-- A property of characters, by their code points. -/
theorem forall_codes (codes : Nat → Prop) {P : Char → Prop}
    (h : ∀ n, codes n → P (Char.ofNat n)) (hc : codes c.toNat) : P c := by
  have hP := h c.toNat hc
  rwa [Char.ofNat_toNat] at hP

/-- Not one of the two capital letters whose small form is more than a letter. -/
structure PlainCase (c : Char) : Prop where
  sigma : c.toNat ≠ 0x3A3
  dotted : c.toNat ≠ 0x130

/-- Away from the two special capitals a text is lowered letter by letter. -/
theorem lowerAfter_eq_map (h : ∀ c ∈ cs, PlainCase c) (before : List Char) :
    lowerAfter before cs = cs.map lowerChar := by
  induction cs generalizing before with
  | nil => rfl
  | cons c cs ih =>
    obtain ⟨hc, hcs⟩ := List.forall_mem_cons.mp h
    unfold lowerAfter
    rw [if_neg hc.sigma, if_neg hc.dotted, ih hcs]
    rfl

/-- A text of small letters is in lower case. -/
theorem lower_of_small {s : String} (h : ∀ c ∈ s.toList, PlainCase c ∧ lowerChar c = c) :
    lower s = s := by
  unfold lower
  rw [lowerAfter_eq_map fun c hc => (h c hc).1, List.map_congr_left fun c hc => (h c hc).2,
    List.map_id', String.ofList_toList]

theorem plainCase_ascii (h : c.toNat < 128) : PlainCase c := ⟨by omega, by omega⟩

theorem lowerChar_ascii (h : c.toNat < 128) : lowerChar c = c.toLower := if_pos h

/-- Small ASCII letters are ASCII and stay small. -/
theorem toLower_ascii (h : c.toNat < 128) :
    c.toLower.toNat < 128 ∧ c.toLower.toLower = c.toLower :=
  forall_codes (· < 128)
    (P := fun c => c.toLower.toNat < 128 ∧ c.toLower.toLower = c.toLower) (by decide) h

/-- White space has no case. -/
theorem lowerChar_blank (h : isBlank c = true) : PlainCase c ∧ lowerChar c = c := by
  simp only [isBlank, Bool.or_eq_true, Bool.and_eq_true, decide_eq_true_eq, beq_iff_eq] at h
  refine ⟨⟨by omega, by omega⟩, ?_⟩
  refine forall_codes (· ∈ [0x9, 0xA, 0xB, 0xC, 0xD, 0x20, 0x85, 0xA0, 0x1680, 0x2000,
    0x2001, 0x2002, 0x2003, 0x2004, 0x2005, 0x2006, 0x2007, 0x2008, 0x2009, 0x200A, 0x2028, 0x2029,
    0x202F, 0x205F, 0x3000]) (P := fun c => lowerChar c = c) (by decide) ?_
  simp only [List.mem_cons, List.not_mem_nil, or_false]
  omega

end Text

namespace Kinds

variable {c : Char} {cs : List Char}

/-! ### Separators -/

theorem isSeparator_iff : isSeparator c = true ↔ Text.isBlank c = true ∨ c = '_' ∨ c = '-' := by
  simp [isSeparator, or_assoc]

theorem lowerChar_separator (h : isSeparator c = true) :
    Text.PlainCase c ∧ Text.lowerChar c = c := by
  rcases isSeparator_iff.mp h with h | rfl | rfl
  · exact Text.lowerChar_blank h
  · exact ⟨⟨by decide, by decide⟩, rfl⟩
  · exact ⟨⟨by decide, by decide⟩, rfl⟩

/-- No separator but single dashes. -/
structure SingleDashes (cs : List Char) : Prop where
  mem : ∀ c ∈ cs, isSeparator c = true → c = '-'
  apart : cs.IsChain fun c d => c = '-' → d ≠ '-'

/-- A character that separates nothing stays as it is. -/
theorem dashed_cons (h : isSeparator c = false) : dashed (c :: cs) = c :: dashed cs := by
  conv => lhs; unfold dashed
  rw [if_neg (by simp [h])]

/-- A separator before other characters: one dash for the run that it begins or is part of. -/
theorem dashed_separator {d : Char} (h : isSeparator c = true) :
    dashed (c :: d :: cs) =
      if isSeparator d then dashed (d :: cs) else '-' :: dashed (d :: cs) := by
  rw [dashed, if_pos h]

theorem mem_dashed (h : c ∈ dashed cs) : c = '-' ∨ c ∈ cs ∧ isSeparator c = false := by
  fun_induction dashed cs with
  | case1 => cases h
  | case2 a ha d cs hd ih =>
    exact (ih h).imp_right fun h => ⟨List.mem_cons_of_mem a h.1, h.2⟩
  | case3 a ha d cs hd ih =>
    rcases List.mem_cons.mp h with h | h
    · exact .inl h
    · exact (ih h).imp_right fun h => ⟨List.mem_cons_of_mem a h.1, h.2⟩
  | case4 a ha => exact .inl (List.mem_singleton.mp h)
  | case5 a cs ha ih =>
    rcases List.mem_cons.mp h with rfl | h
    · exact .inr ⟨List.mem_cons_self, Bool.eq_false_iff.mpr ha⟩
    · exact (ih h).imp_right fun h => ⟨List.mem_cons_of_mem a h.1, h.2⟩

theorem singleDashes_dashed (cs : List Char) : SingleDashes (dashed cs) := by
  refine ⟨fun c hc hsep => (mem_dashed hc).resolve_right fun h => ?_, ?_⟩
  · rw [h.2] at hsep
    cases hsep
  · fun_induction dashed cs with
    | case1 => exact .nil
    | case2 a ha d cs hd ih => exact ih
    | case3 a ha d cs hd ih =>
      -- the dash stands before a character that separates nothing
      rw [dashed_cons (Bool.eq_false_iff.mpr hd)] at ih ⊢
      refine List.isChain_cons_cons.mpr ⟨fun _ hdash => ?_, ih⟩
      exact hd (isSeparator_iff.mpr (.inr (.inr hdash)))
    | case4 a ha => exact .singleton _
    | case5 a cs ha ih =>
      refine List.isChain_cons.mpr ⟨fun d _ hdash => ?_, ih⟩
      exact (ha (isSeparator_iff.mpr (.inr (.inr hdash)))).elim

theorem SingleDashes.part {ds : List Char} (h : SingleDashes cs) (hds : ds <:+: cs) :
    SingleDashes ds :=
  ⟨fun c hc => h.mem c (hds.subset hc), List.IsChain.infix h.apart hds⟩

/-- Single dashes are left alone. -/
theorem dashed_of_singleDashes (h : SingleDashes cs) : dashed cs = cs := by
  induction cs with
  | nil => rfl
  | cons c cs ih =>
    have hrest := ih (h.part (List.suffix_cons c cs).isInfix)
    by_cases hc : isSeparator c = true
    · obtain rfl := h.mem c List.mem_cons_self hc
      cases cs with
      | nil => rfl
      | cons d cs =>
        have hd : ¬ isSeparator d = true := fun hd =>
          (List.isChain_cons_cons.mp h.apart).1 rfl
            (h.mem d (List.mem_cons_of_mem _ List.mem_cons_self) hd)
        rw [dashed_separator hc, if_neg hd, hrest]
    · rw [dashed_cons (Bool.eq_false_iff.mpr hc), hrest]

/-! ### Words -/

/-- Words with single dashes between them, and no dash at either end. -/
structure Words (cs : List Char) : Prop extends SingleDashes cs where
  ends : Text.Trimmed (· = '-') cs

theorem words_slugify (s : String) : Words (slugify s).toList := by
  unfold slugify
  rw [String.toList_ofList]
  exact ⟨(singleDashes_dashed _).part (Text.isInfix_trimChars _ _), Text.trimmed_trimChars _ _⟩

namespace Words

theorem not_blank (h : Words cs) (hc : c ∈ cs) : Text.isBlank c = false := by
  refine Bool.eq_false_iff.mpr fun hblank => ?_
  rw [h.mem c hc (isSeparator_iff.mpr (.inl hblank))] at hblank
  cases hblank

theorem not_underscore (h : Words cs) (hc : c ∈ cs) : c ≠ '_' := by
  rintro rfl
  cases h.mem _ hc rfl

theorem not_adjacent (h : Words cs) : ¬ ['-', '-'] <:+: cs := by
  intro hdashes
  have hpair := List.IsChain.infix h.apart hdashes
  exact (List.isChain_cons_cons.mp hpair).1 rfl rfl

theorem head (h : Words cs) : cs.head? ≠ some '-' := by
  intro hhead
  cases h.ends.head '-' hhead

theorem last (h : Words cs) : cs.getLast? ≠ some '-' := by
  intro hlast
  cases h.ends.last '-' hlast

end Words

/-- Words that lower case leaves alone are their own slug. -/
theorem slugify_of_words {s : String} (h : Words s.toList) (hlower : Text.lower s = s) :
    slugify s = s := by
  have htrim : Text.trim s = s :=
    Text.trim_of_trimmed (Text.trimmed_of_forall fun c hc => h.not_blank hc)
  unfold slugify
  rw [htrim, hlower, dashed_of_singleDashes h.toSingleDashes, h.ends.trimChars,
    String.ofList_toList]

/-! ### Slug characters -/

theorem toNat_slugChar (h : isSlugChar c = true ∨ c = '-') :
    c.toNat = 45 ∨ (48 ≤ c.toNat ∧ c.toNat ≤ 57) ∨ (97 ≤ c.toNat ∧ c.toNat ≤ 122) := by
  rcases h with h | rfl
  · simp only [isSlugChar, Bool.or_eq_true, Bool.and_eq_true, decide_eq_true_eq] at h
    rcases h with ⟨hl, hu⟩ | ⟨hl, hu⟩
    · have hl' : 97 ≤ c.toNat := hl
      have hu' : c.toNat ≤ 122 := hu
      omega
    · have hl' : 48 ≤ c.toNat := hl
      have hu' : c.toNat ≤ 57 := hu
      omega
  · exact .inl rfl

theorem isSeparator_slugChar (h : isSlugChar c = true) : isSeparator c = false := by
  have hc := toNat_slugChar (.inl h)
  refine Bool.eq_false_iff.mpr fun hsep => ?_
  rcases isSeparator_iff.mp hsep with hblank | rfl | rfl
  · simp only [Text.isBlank, Bool.or_eq_true, Bool.and_eq_true, decide_eq_true_eq, beq_iff_eq]
      at hblank
    omega
  · cases h
  · cases h

theorem ne_dash_of_slugChar (h : isSlugChar c = true) : c ≠ '-' := by
  rintro rfl
  cases h

/-- Slug characters and dashes are small already. -/
theorem lower_slugChars {s : String} (h : ∀ c ∈ s.toList, isSlugChar c = true ∨ c = '-') :
    Text.lower s = s := by
  refine Text.lower_of_small fun c hc => ?_
  have hnat := toNat_slugChar (h c hc)
  have hcap : ¬ (c.val ≥ 'A'.val ∧ c.val ≤ 'Z'.val) := by
    rintro ⟨hl, hu⟩
    have hl' : 65 ≤ c.toNat := hl
    have hu' : c.toNat ≤ 90 := hu
    omega
  refine ⟨Text.plainCase_ascii (by omega), ?_⟩
  rw [Text.lowerChar_ascii (by omega)]
  exact dif_neg hcap

/-! ### The pattern -/

/-- Words of slug characters with single dashes between them, read from the front. -/
inductive SlugChars : List Char → Prop
  | single {c : Char} (h : isSlugChar c = true) : SlugChars [c]
  | cons {c : Char} {cs : List Char} (h : isSlugChar c = true) (hcs : SlugChars cs) :
      SlugChars (c :: cs)
  | dash {c : Char} {cs : List Char} (h : isSlugChar c = true) (hcs : SlugChars cs) :
      SlugChars (c :: '-' :: cs)

/-- The pieces between dashes, the first of which may still be growing. -/
theorem slugChars_pieces {cs piece : List Char} {pieces : List (List Char)}
    (hsplit : Text.splitChars '-' cs = piece :: pieces)
    (hpiece : piece.all isSlugChar = true)
    (hpieces : (pieces.all fun word => !word.isEmpty && word.all isSlugChar) = true) :
    (piece ≠ [] → SlugChars cs) ∧
      (piece = [] → cs = [] ∨ ∃ rest, cs = '-' :: rest ∧ SlugChars rest) := by
  induction cs generalizing piece pieces with
  | nil =>
    obtain ⟨rfl, rfl⟩ := List.cons.inj hsplit
    exact ⟨fun h => (h rfl).elim, fun _ => .inl rfl⟩
  | cons c cs ih =>
    obtain ⟨first, rest, hrest⟩ := List.exists_cons_of_ne_nil (Text.splitChars_ne_nil '-' cs)
    unfold Text.splitChars at hsplit
    split at hsplit
    · next hc =>
      obtain ⟨rfl, rfl⟩ := List.cons.inj hsplit
      rw [hrest, List.all_cons, Bool.and_eq_true, Bool.and_eq_true] at hpieces
      obtain ⟨⟨hne, hfirst⟩, htail⟩ := hpieces
      refine ⟨fun h => (h rfl).elim, fun _ => .inr ⟨cs, by rw [hc], ?_⟩⟩
      exact (ih hrest hfirst htail).1 fun hnil => by simp [hnil] at hne
    · rw [hrest] at hsplit
      obtain ⟨rfl, rfl⟩ := List.cons.inj hsplit
      rw [List.all_cons, Bool.and_eq_true] at hpiece
      obtain ⟨hc, hfirst⟩ := hpiece
      refine ⟨fun _ => ?_, fun h => absurd h (List.cons_ne_nil c first)⟩
      obtain ⟨hgrowing, hended⟩ := ih hrest hfirst hpieces
      by_cases hnil : first = []
      · rcases hended hnil with rfl | ⟨others, rfl, hothers⟩
        · exact .single hc
        · exact .dash hc hothers
      · exact .cons hc (hgrowing hnil)

theorem slugChars_of_isSlug {s : String} (h : isSlug s = true) : SlugChars s.toList := by
  unfold isSlug at h
  obtain ⟨piece, pieces, hsplit⟩ :=
    List.exists_cons_of_ne_nil (Text.splitChars_ne_nil '-' s.toList)
  rw [hsplit, List.all_cons, Bool.and_eq_true, Bool.and_eq_true] at h
  obtain ⟨⟨hne, hpiece⟩, hpieces⟩ := h
  exact (slugChars_pieces hsplit hpiece hpieces).1 fun hnil => by simp [hnil] at hne

/-- The pieces between the dashes are not empty. -/
theorem pieces_of_slugChars (h : SlugChars cs) :
    ((Text.splitChars '-' cs).all fun word => !word.isEmpty && word.all isSlugChar) = true := by
  induction h with
  | @single c hc =>
    rw [Text.splitChars, if_neg (ne_dash_of_slugChar hc)]
    simp [Text.splitChars, hc]
  | @cons c cs hc _ ih =>
    obtain ⟨piece, pieces, hsplit⟩ := List.exists_cons_of_ne_nil (Text.splitChars_ne_nil '-' cs)
    rw [Text.splitChars, if_neg (ne_dash_of_slugChar hc), hsplit]
    rw [hsplit, List.all_cons, Bool.and_eq_true, Bool.and_eq_true] at ih
    simp [hc, ih.1.2, ih.2]
  | @dash c cs hc _ ih =>
    rw [Text.splitChars, if_neg (ne_dash_of_slugChar hc), Text.splitChars, if_pos rfl]
    simp [hc, ih]

theorem isSlug_iff {s : String} : isSlug s = true ↔ SlugChars s.toList :=
  ⟨slugChars_of_isSlug, pieces_of_slugChars⟩

namespace SlugChars

theorem mem (h : SlugChars cs) : ∀ c ∈ cs, isSlugChar c = true ∨ c = '-' := by
  induction h with
  | single h => simp [h]
  | cons h _ ih => exact List.forall_mem_cons.mpr ⟨.inl h, ih⟩
  | dash h _ ih => exact List.forall_mem_cons.mpr ⟨.inl h, List.forall_mem_cons.mpr ⟨.inr rfl, ih⟩⟩

theorem ne_nil (h : SlugChars cs) : cs ≠ [] := by
  cases h <;> exact List.cons_ne_nil _ _

theorem head (h : SlugChars cs) : ∀ c ∈ cs.head?, isSlugChar c = true := by
  cases h with
  | single h | cons h _ | dash h _ =>
    rintro c ⟨⟩
    exact h

theorem last (h : SlugChars cs) : ∀ c ∈ cs.getLast?, isSlugChar c = true := by
  induction h with
  | @single c h =>
    rintro c ⟨⟩
    exact h
  | @cons c cs _ hcs ih =>
    rw [← List.singleton_append, List.getLast?_append_of_ne_nil _ hcs.ne_nil]
    exact ih
  | @dash c cs _ hcs ih =>
    rw [show c :: '-' :: cs = [c, '-'] ++ cs from rfl,
      List.getLast?_append_of_ne_nil _ hcs.ne_nil]
    exact ih

theorem words (h : SlugChars cs) : Words cs where
  mem c hc hsep := (h.mem c hc).resolve_left fun hslug => by
    rw [isSeparator_slugChar hslug] at hsep
    cases hsep
  apart := by
    induction h with
    | single h => exact .singleton _
    | @cons c cs h _ ih =>
      exact List.isChain_cons.mpr ⟨fun _ _ hdash => (ne_dash_of_slugChar h hdash).elim, ih⟩
    | @dash c cs h hcs ih =>
      refine List.isChain_cons_cons.mpr ⟨fun hdash => (ne_dash_of_slugChar h hdash).elim, ?_⟩
      exact List.isChain_cons.mpr ⟨fun d hd _ => ne_dash_of_slugChar (hcs.head d hd), ih⟩
  ends := ⟨fun c hc => decide_eq_false (ne_dash_of_slugChar (h.head c hc)),
    fun c hc => decide_eq_false (ne_dash_of_slugChar (h.last c hc))⟩

end SlugChars

/-- What is left of words from the start of one of them. -/
theorem Words.suffix (front : List Char) (h : Words (front ++ cs)) (hne : cs ≠ [])
    (hhead : cs.head? ≠ some '-') : Words cs where
  toSingleDashes := h.toSingleDashes.part (List.suffix_append front cs).isInfix
  ends := by
    refine ⟨fun c hc => decide_eq_false fun hdash => hhead (hdash ▸ hc), fun c hc => ?_⟩
    exact h.ends.last c (by rwa [List.getLast?_append_of_ne_nil _ hne])

/-- Words of slug characters are what the pattern describes. -/
theorem Words.slugChars {cs : List Char} (h : Words cs) (hne : cs ≠ [])
    (hmem : ∀ c ∈ cs, isSlugChar c = true ∨ c = '-') : SlugChars cs := by
  match cs with
  | [c] =>
    have hc : c ≠ '-' := fun hdash => h.head (by rw [hdash]; rfl)
    exact .single ((hmem c List.mem_cons_self).resolve_right hc)
  | c :: d :: rest =>
    have hc : c ≠ '-' := fun hdash => h.head (by rw [hdash]; rfl)
    have hslug := (hmem c List.mem_cons_self).resolve_right hc
    by_cases hd : d = '-'
    · -- the dash is between two words: another follows, and not with a dash
      subst hd
      have hrest : rest ≠ [] := by
        rintro rfl
        exact h.last rfl
      have hhead : rest.head? ≠ some '-' := fun hhead =>
        (List.isChain_cons.mp (List.isChain_cons_cons.mp h.apart).2).1 '-' hhead rfl rfl
      have hwords : Words rest := Words.suffix [c, '-'] h hrest hhead
      exact .dash hslug (hwords.slugChars hrest fun x hx =>
        hmem x (List.mem_cons_of_mem _ (List.mem_cons_of_mem _ hx)))
    · have hwords : Words (d :: rest) := Words.suffix [c] h (List.cons_ne_nil d rest)
        fun hhead => hd (Option.some.inj hhead)
      exact .cons hslug (hwords.slugChars (List.cons_ne_nil d rest) fun x hx =>
        hmem x (List.mem_cons_of_mem _ hx))

/-- A slug is its own slug. -/
theorem slugify_of_isSlug {s : String} (h : (s.isEmpty || isSlug s) = true) : slugify s = s := by
  rcases Bool.or_eq_true _ _ ▸ h with hempty | hslug
  · rw [String.isEmpty_iff.mp hempty]
    rfl
  · have hchars := isSlug_iff.mp hslug
    exact slugify_of_words hchars.words (lower_slugChars hchars.mem)

/-! ### The check of the pattern -/

/-- The validator of the pattern, the last of the kind. -/
def patternCheck : Validator := slug.validators.get ⟨2, Nat.lt_succ_self 2⟩

theorem patternCheck_run (context : FieldContext) (s : String) :
    patternCheck.run context (.string s) = ensure (s.isEmpty || isSlug s) slugMessage := rfl

/-- The pattern accepts words of slug characters and refuses others. -/
theorem patternCheck_words {s : String} (h : Words s.toList) (context : FieldContext) :
    patternCheck.run context (.string s) =
      ensure (s.toList.all fun c => isSlugChar c || c = '-') slugMessage := by
  rw [patternCheck_run]
  congr 1
  rw [Bool.eq_iff_iff]
  simp only [Bool.or_eq_true, List.all_eq_true, decide_eq_true_eq, isSlug_iff]
  constructor
  · rintro (hempty | hchars)
    · rw [String.isEmpty_iff.mp hempty]
      exact nofun
    · exact hchars.mem
  · intro hmem
    by_cases hs : s.toList = []
    · exact .inl (String.isEmpty_iff.mpr (String.toList_eq_nil_iff.mp hs))
    · exact .inr (h.slugChars hs hmem)

/-! ### Any text -/

/-- The characters of a slug besides the dashes are the small letters of those that separate
nothing. -/
theorem mem_slugify {s : String} (h : ∀ c ∈ s.toList, Text.PlainCase c)
    (hc : c ∈ (slugify s).toList) :
    c = '-' ∨ ∃ a ∈ s.toList, isSeparator a = false ∧ c = Text.lowerChar a := by
  have hmem : ∀ a ∈ (Text.trim s).toList, a ∈ s.toList := by
    intro a ha
    rw [Text.toList_trim] at ha
    exact Text.mem_of_mem_trimChars ha
  unfold slugify at hc
  rw [String.toList_ofList] at hc
  refine (mem_dashed (Text.mem_of_mem_trimChars hc)).imp_right fun ⟨hlow, hsep⟩ => ?_
  unfold Text.lower at hlow
  rw [String.toList_ofList, Text.lowerAfter_eq_map fun a ha => h a (hmem a ha)] at hlow
  obtain ⟨a, ha, rfl⟩ := List.mem_map.mp hlow
  refine ⟨a, hmem a ha, Bool.eq_false_iff.mpr fun hasep => ?_, rfl⟩
  rw [(lowerChar_separator hasep).2, hasep] at hsep
  cases hsep

theorem slugChar_alphanum (h : c.isAlphanum = true) :
    c.toNat < 128 ∧ isSlugChar (Text.lowerChar c) = true := by
  have hlt : c.toNat < 128 := by
    have hranges : (decide (c.val ≥ 65 ∧ c.val ≤ 90) || (c.val ≥ 97 && c.val ≤ 122) ||
        (c.val ≥ 48 && c.val ≤ 57)) = true := h
    simp only [Bool.or_eq_true, Bool.and_eq_true, decide_eq_true_eq, UInt32.le_iff_toNat_le]
      at hranges
    show c.val.toNat < 128
    rcases hranges with (⟨_, h⟩ | ⟨_, h⟩) | ⟨_, h⟩ <;> exact Nat.lt_of_le_of_lt h (by decide)
  refine ⟨hlt, ?_⟩
  rw [Text.lowerChar_ascii hlt]
  exact Text.forall_codes (· < 128)
    (P := fun c => c.isAlphanum = true → isSlugChar c.toLower = true) (by decide) hlt h

/-- Letters, digits and separators leave slug characters and dashes. -/
theorem slugChar_of_alphanum {s : String}
    (h : ∀ c ∈ s.toList, c.isAlphanum = true ∨ isSeparator c = true) :
    ∀ c ∈ (slugify s).toList, isSlugChar c = true ∨ c = '-' := by
  intro c hc
  have hplain : ∀ c ∈ s.toList, Text.PlainCase c := fun c hc => (h c hc).elim
    (fun h => Text.plainCase_ascii (slugChar_alphanum h).1) fun h => (lowerChar_separator h).1
  rcases mem_slugify hplain hc with hdash | ⟨a, ha, hsep, rfl⟩
  · exact .inr hdash
  · exact .inl (slugChar_alphanum ((h a ha).resolve_right (by simp [hsep]))).2

/-- The slug of an ASCII text is small already. -/
theorem lower_slugify_ascii {s : String} (h : ∀ c ∈ s.toList, c.toNat < 128) :
    Text.lower (slugify s) = slugify s := by
  refine Text.lower_of_small fun c hc => ?_
  rcases mem_slugify (fun a ha => Text.plainCase_ascii (h a ha)) hc with rfl | ⟨a, ha, -, rfl⟩
  · exact ⟨Text.plainCase_ascii (by decide), rfl⟩
  · obtain ⟨hlt, hsmall⟩ := Text.toLower_ascii (h a ha)
    rw [Text.lowerChar_ascii (h a ha), Text.lowerChar_ascii hlt]
    exact ⟨Text.plainCase_ascii hlt, hsmall⟩

/-- `slugify` and the pattern agree on the arrangement: the pattern refuses a slug for a character
only. -/
theorem slugify_pattern (s : String) :
    (∀ c ∈ (slugify s).toList, Text.isBlank c = false ∧ c ≠ '_') ∧
      ¬ ['-', '-'] <:+: (slugify s).toList ∧
      (slugify s).toList.head? ≠ some '-' ∧ (slugify s).toList.getLast? ≠ some '-' ∧
      (∀ context, patternCheck.run context (.string (slugify s)) = .error (.message slugMessage) ↔
        ∃ c ∈ (slugify s).toList, isSlugChar c = false ∧ c ≠ '-') ∧
      ((∀ c ∈ s.toList, c.isAlphanum = true ∨ isSeparator c = true) →
        (slugify s = "" ∨ isSlug (slugify s) = true) ∧
          ∀ context, patternCheck.run context (.string (slugify s)) = .ok ()) ∧
      ((∀ c ∈ s.toList, c.toNat < 128) → slugify (slugify s) = slugify s) := by
  have hwords := words_slugify s
  refine ⟨fun c hc => ⟨hwords.not_blank hc, hwords.not_underscore hc⟩, hwords.not_adjacent,
    hwords.head, hwords.last, fun context => ?_, fun hs => ⟨?_, fun context => ?_⟩, fun hs => ?_⟩
  · rw [patternCheck_words hwords, ensure_error]
    simp
  · by_cases hnil : (slugify s).toList = []
    · exact .inl (String.toList_eq_nil_iff.mp hnil)
    · exact .inr (isSlug_iff.mpr (hwords.slugChars hnil (slugChar_of_alphanum hs)))
  · rw [patternCheck_words hwords, ensure_ok]
    simpa using slugChar_of_alphanum hs
  · exact slugify_of_words hwords (lower_slugify_ascii hs)

theorem slugify_pattern_title :
    slugify "  Snake_Case - Title_ " = "snake-case-title" ∧
      isSlug (slugify "  Snake_Case - Title_ ") = true ∧
      slugify (slugify "  Snake_Case - Title_ ") = slugify "  Snake_Case - Title_ " := by
  have hslug : slugify "  Snake_Case - Title_ " = "snake-case-title" := by decide
  have hchars : ("  Snake_Case - Title_ ".toList.all fun c =>
      c.isAlphanum || isSeparator c) = true := by decide
  have hascii : ("  Snake_Case - Title_ ".toList.all fun c => c.toNat < 128) = true := by decide
  simp only [List.all_eq_true, Bool.or_eq_true, decide_eq_true_eq] at hchars hascii
  obtain ⟨-, -, -, -, -, haccepted, hagain⟩ := slugify_pattern "  Snake_Case - Title_ "
  refine ⟨hslug, (haccepted hchars).1.resolve_left ?_, hagain hascii⟩
  rw [hslug]
  decide

end Kinds

end ContentSchema
