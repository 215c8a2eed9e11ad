import ContentSchema.Proofs.FirstMessages
import ContentSchema.Proofs.PathLaws

/-!
# Path texts — which paths their texts give back

The text of a path has a dot between neighbouring segments, and a text is read by cutting it at its
dots and leaving out the empty pieces.  A path comes back from its text exactly when no segment is
empty or has a dot in it (`parse_text`), and what is read is always such a path.  So the texts of
these paths, which are the keys of error maps, tell them apart (`text_faithful`).
-/

namespace ContentSchema.Path

/-- A segment that can stand between the dots of a text. -/
def IsPiece (s : String) : Prop := s ≠ "" ∧ '.' ∉ s.toList

instance (s : String) : Decidable (IsPiece s) := inferInstanceAs (Decidable (_ ∧ _))

/-- A path that a dotted text names. -/
def IsDotted (p : Path) : Prop := ∀ s ∈ p.segments, IsPiece s

instance (p : Path) : Decidable p.IsDotted := inferInstanceAs (Decidable (∀ s ∈ _, _))

theorem isPiece_of_mem_pieces {s segment : String} (h : segment ∈ pieces s) : IsPiece segment := by
  obtain ⟨hsplit, hne⟩ := List.mem_filter.mp h
  exact ⟨of_decide_eq_true hne, fun hdot => (Text.mem_of_mem_split hsplit _ hdot).2 rfl⟩

theorem isDotted_parse (s : String) : (parse s).IsDotted := fun _ h => isPiece_of_mem_pieces h

/-- Segments without dots are read back from their text, the empty ones left out. -/
theorem pieces_join {segments : List String} (h : ∀ s ∈ segments, '.' ∉ s.toList) :
    pieces (Text.join "." segments) = segments.filter (· ≠ "") := by
  by_cases hnil : segments = []
  · subst hnil
    rfl
  · have hsplit : Text.split '.' (Text.join "." segments) = segments := Text.split_join hnil h
    unfold pieces
    rw [hsplit]

/-- A path that a text names is read back from its own text. -/
theorem parse_text {p : Path} (h : p.IsDotted) : parse p.text = p := by
  have hkept : p.segments.filter (· ≠ "") = p.segments :=
    List.filter_eq_self.mpr fun s hs => decide_eq_true (h s hs).1
  exact ext_iff.mpr ((pieces_join fun s hs => (h s hs).2).trans hkept)

theorem parse_text_iff {p : Path} : parse p.text = p ↔ p.IsDotted := by
  refine ⟨fun h => ?_, parse_text⟩
  rw [← h]
  exact isDotted_parse p.text

/-- Different paths that texts name have different texts. -/
theorem text_ne {p q : Path} (hp : p.IsDotted) (hq : q.IsDotted) (h : p ≠ q) :
    p.text ≠ q.text := by
  intro htext
  exact h (by rw [← parse_text hp, htext, parse_text hq])

/-- What is read from a text has the text of its pieces, the empty ones left out. -/
theorem text_parse {s : String} {ps : List String} (h : Text.Cuts '.' s ps) :
    (parse s).text = Text.join "." (ps.filter (· ≠ "")) := by
  rw [← Text.cuts_iff.mp h]
  rfl

/-- Texts are faithful to paths.  A path is read back from its text exactly when no segment is empty
or has a dot in it, so two such paths never share a key of an error map.  A text is cut at its dots
in one way; the path that is read from it has the text without the empty pieces, and that text is
read as the same path. -/
theorem text_faithful :
    (∀ p : Path, parse p.text = p ↔ p.IsDotted) ∧
    (∀ p q : Path, p.IsDotted → q.IsDotted → p ≠ q → p.text ≠ q.text ∧
      ∀ (errors : ErrorMap) message, (errors.insert p message).get? q.text = errors.get? q.text) ∧
    (∀ s : String, ∃! ps, Text.Cuts '.' s ps) ∧
    (∀ s ps, Text.Cuts '.' s ps → (parse s).text = Text.join "." (ps.filter (· ≠ ""))) ∧
    ∀ s : String, parse (parse s).text = parse s := by
  refine ⟨fun p => parse_text_iff, fun p q hp hq hne => ?_, fun s => ?_, fun s ps => text_parse,
    fun s => parse_text (isDotted_parse s)⟩
  · have htext := text_ne hp hq hne
    exact ⟨htext, fun errors message => ErrorMap.get?_add_of_ne htext errors message⟩
  · exact ⟨Text.split '.' s, Text.cuts_iff.mpr rfl, fun ps h => (Text.cuts_iff.mp h).symm⟩

/-- A message for the label of item 1 is not seen at that of item 11, and a text with six pieces is
read as the two of them that are not empty. -/
theorem text_faithful_labels :
    let p : Path := ⟨["items", "1", "label"]⟩
    let q : Path := ⟨["items", "11", "label"]⟩
    (p.IsDotted ∧ q.IsDotted ∧ p ≠ q ∧ p.text ≠ q.text ∧
      (ErrorMap.empty.insert p "is required").get? q.text = none) ∧
    (Text.Cuts '.' "..a..b." ["", "", "a", "", "b", ""] ∧ (parse "..a..b.").text = "a.b" ∧
      parse "a.b" = parse "..a..b.") := by
  intro p q
  obtain ⟨-, hapart, -, hread, hagain⟩ := text_faithful
  have hp : p.IsDotted := by decide
  have hq : q.IsDotted := by decide
  have hne : p ≠ q := by decide
  have hcuts : Text.Cuts '.' "..a..b." ["", "", "a", "", "b", ""] :=
    ⟨by decide, by decide, by decide⟩
  have htext : (parse "..a..b.").text = "a.b" := (hread _ _ hcuts).trans (by decide)
  obtain ⟨hkeys, hkept⟩ := hapart p q hp hq hne
  refine ⟨⟨hp, hq, hne, hkeys, hkept .empty "is required"⟩, hcuts, htext, ?_⟩
  rw [← htext]
  exact hagain _

end ContentSchema.Path
