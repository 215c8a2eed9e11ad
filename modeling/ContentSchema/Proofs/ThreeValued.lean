import ContentSchema.Proofs.Dependencies

/-!
# Three-valued conditions — conditions that stop early, and what they mean

Conditions are matched in order, no further than the answer needs, and a reference that is come to
and leads nowhere ends the matching.  `Logic.truth` reads the same tree in strong Kleene logic,
where a test of a missing value is unknown and no branch comes before another.  Whatever matching
answers is that truth (`Logic.matches?_kleene`), so the order of the branches decides whether there
is an answer, and never which.
-/

namespace ContentSchema

/-! ### Kleene logic -/

/-- The values of strong Kleene logic. -/
inductive Truth
  | no
  | unknown
  | yes
deriving DecidableEq, Repr

namespace Truth

def ofBool : Bool → Truth
  | true => yes
  | false => no

/-- Refuted by either side, and known otherwise only when both hold. -/
def and : Truth → Truth → Truth
  | no, _ => no
  | yes, t => t
  | unknown, no => no
  | unknown, _ => unknown

/-- Established by either side, and known otherwise only when both fail. -/
def or : Truth → Truth → Truth
  | yes, _ => yes
  | no, t => t
  | unknown, yes => yes
  | unknown, _ => unknown

def conjunction (ts : List Truth) : Truth := ts.foldr and yes

def disjunction (ts : List Truth) : Truth := ts.foldr or no

theorem ofBool_injective : ∀ {a b : Bool}, ofBool a = ofBool b → a = b := by decide

theorem no_and (t : Truth) : no.and t = no := rfl

theorem yes_or (t : Truth) : yes.or t = yes := rfl

instance : LeftCommutative and where
  left_comm a b c := by cases a <;> cases b <;> cases c <;> rfl

instance : LeftCommutative or where
  left_comm a b c := by cases a <;> cases b <;> cases c <;> rfl

theorem conjunction_cons (t : Truth) (ts : List Truth) :
    conjunction (t :: ts) = t.and (conjunction ts) := rfl

theorem disjunction_cons (t : Truth) (ts : List Truth) :
    disjunction (t :: ts) = t.or (disjunction ts) := rfl

theorem conjunction_perm {ts us : List Truth} (h : ts.Perm us) :
    conjunction ts = conjunction us := h.foldr_eq yes

theorem disjunction_perm {ts us : List Truth} (h : ts.Perm us) :
    disjunction ts = disjunction us := h.foldr_eq no

end Truth

namespace Logic

variable {record : Value} {path : Path}

/-! ### The truth of a tree -/

/-- A test holds or fails on the value that its reference leads to, and is unknown without one. -/
def testTruth (record : Value) (path : Path) (test : String × Condition) : Truth :=
  match (path.resolve test.1).lookup record with
  | none => .unknown
  | some value => .ofBool (test.2.test value)

mutual

/-- The truth of conditions for the field at `path`, whichever way their branches are ordered. -/
def truth (record : Value) (path : Path) : Logic → Truth
  | .all branches => .conjunction (truths record path branches)
  | .any branches => .disjunction (truths record path branches)
  | .conditions tests => .conjunction (tests.map (testTruth record path))

def truths (record : Value) (path : Path) : List Logic → List Truth
  | [] => []
  | l :: ls => truth record path l :: truths record path ls

end

theorem truths_eq_map (ls : List Logic) : truths record path ls = ls.map (truth record path) := by
  induction ls with
  | nil => rw [truths, List.map_nil]
  | cons l ls ih => rw [truths, ih, List.map_cons]

theorem truth_all (ls : List Logic) :
    truth record path (.all ls) = .conjunction (ls.map (truth record path)) := by
  rw [truth, truths_eq_map]

theorem truth_any (ls : List Logic) :
    truth record path (.any ls) = .disjunction (ls.map (truth record path)) := by
  rw [truth, truths_eq_map]

/-! ### Orders of branches -/

/-- Two trees that differ in the order of their branches and tests, at any depth. -/
inductive Reordered : Logic → Logic → Prop
  | refl (l : Logic) : Reordered l l
  | trans {l m n : Logic} (h : Reordered l m) (h' : Reordered m n) : Reordered l n
  | all {ls ms : List Logic} (h : ls.Perm ms) : Reordered (.all ls) (.all ms)
  | any {ls ms : List Logic} (h : ls.Perm ms) : Reordered (.any ls) (.any ms)
  | conditions {tests others : List (String × Condition)} (h : tests.Perm others) :
      Reordered (.conditions tests) (.conditions others)
  | underAll (before after : List Logic) {l m : Logic} (h : Reordered l m) :
      Reordered (.all (before ++ l :: after)) (.all (before ++ m :: after))
  | underAny (before after : List Logic) {l m : Logic} (h : Reordered l m) :
      Reordered (.any (before ++ l :: after)) (.any (before ++ m :: after))

/-- The order of branches has no part in the truth of a tree. -/
theorem Reordered.truth_eq {l m : Logic} (h : l.Reordered m) :
    l.truth record path = m.truth record path := by
  induction h with
  | refl => rfl
  | trans _ _ ih ih' => exact ih.trans ih'
  | all h =>
    rw [truth_all, truth_all]
    exact Truth.conjunction_perm (h.map _)
  | any h =>
    rw [truth_any, truth_any]
    exact Truth.disjunction_perm (h.map _)
  | conditions h =>
    rw [truth, truth]
    exact Truth.conjunction_perm (h.map _)
  | underAll before after _ ih =>
    rw [truth_all, truth_all, List.map_append, List.map_append, List.map_cons, List.map_cons, ih]
  | underAny before after _ ih =>
    rw [truth_any, truth_any, List.map_append, List.map_append, List.map_cons, List.map_cons, ih]

/-! ### Matching finds the truth -/

theorem testsHold_truth {tests : List (String × Condition)} {b : Bool}
    (h : testsHold record path tests = .ok b) :
    Truth.conjunction (tests.map (testTruth record path)) = .ofBool b := by
  induction tests with
  | nil =>
    cases h
    rfl
  | cons test rest ih =>
    obtain ⟨ref, condition⟩ := test
    unfold testsHold at h
    simp only at h
    rw [List.map_cons, Truth.conjunction_cons]
    cases hlookup : (path.resolve ref).lookup record with
    | none =>
      rw [hlookup] at h
      cases h
    | some value =>
      rw [hlookup] at h
      have htest : testTruth record path (ref, condition) = .ofBool (condition.test value) := by
        unfold testTruth
        rw [hlookup]
      rw [htest]
      cases hholds : condition.test value with
      | false =>
        simp only [hholds, Bool.false_eq_true, if_false] at h
        cases h
        exact Truth.no_and _
      | true =>
        simp only [hholds, if_true] at h
        exact ih h

mutual

/-- What matching answers is the truth of the tree: it stops at a branch only where the branch
decides, and passes over none that is unknown. -/
theorem matches?_truth : (l : Logic) → ∀ {b : Bool}, l.matches? record path = .ok b →
    l.truth record path = .ofBool b
  | .all branches, _, h => by
    rw [matches?] at h
    rw [truth]
    exact allMatch_truth branches h
  | .any branches, _, h => by
    rw [matches?] at h
    rw [truth]
    exact anyMatches_truth branches h
  | .conditions tests, _, h => by
    rw [matches?] at h
    rw [truth]
    exact testsHold_truth h

theorem allMatch_truth : (ls : List Logic) → ∀ {b : Bool}, allMatch record path ls = .ok b →
    Truth.conjunction (truths record path ls) = .ofBool b
  | [], _, h => by
    rw [allMatch] at h
    cases h
    rw [truths]
    rfl
  | l :: ls, _, h => by
    have here := fun b => matches?_truth (b := b) l
    have rest := fun b => allMatch_truth (b := b) ls
    rw [allMatch] at h
    rw [truths, Truth.conjunction_cons]
    split at h
    · cases h
    · next hl =>
      cases h
      rw [here _ hl]
      exact Truth.no_and _
    · next hl =>
      rw [here _ hl]
      exact rest _ h

theorem anyMatches_truth : (ls : List Logic) → ∀ {b : Bool}, anyMatches record path ls = .ok b →
    Truth.disjunction (truths record path ls) = .ofBool b
  | [], _, h => by
    rw [anyMatches] at h
    cases h
    rw [truths]
    rfl
  | l :: ls, _, h => by
    have here := fun b => matches?_truth (b := b) l
    have rest := fun b => anyMatches_truth (b := b) ls
    rw [anyMatches] at h
    rw [truths, Truth.disjunction_cons]
    split at h
    · cases h
    · next hl =>
      cases h
      rw [here _ hl]
      exact Truth.yes_or _
    · next hl =>
      rw [here _ hl]
      exact rest _ h

end

/-- Matching is sound for three-valued logic.  An answer is the Kleene truth of the tree, so two
orders of the branches that both have an answer have the same one; and without an answer a reference
of the tree leads nowhere, which is the one that is named. -/
theorem matches?_kleene (l : Logic) (record : Value) (path : Path) :
    (∀ b, l.matches? record path = .ok b → l.truth record path = .ofBool b) ∧
      (∀ m b b', l.Reordered m → l.matches? record path = .ok b →
        m.matches? record path = .ok b' → b = b') ∧
      ∀ e, l.matches? record path = .error e →
        ∃ ref ∈ l.references, (path.resolve ref).lookup record = none ∧
          e = .missingDependency path.text ref (path.resolve ref).text := by
  refine ⟨fun _ => l.matches?_truth, fun m b b' hm hb hb' => ?_, fun _ => l.matches?_error⟩
  apply Truth.ofBool_injective
  calc Truth.ofBool b = l.truth record path := (l.matches?_truth hb).symm
    _ = m.truth record path := hm.truth_eq
    _ = Truth.ofBool b' := m.matches?_truth hb'

/-- A draft or a post by nobody; only one of the two can be looked at. -/
def draftOrAnonymous : List Logic :=
  [.conditions [("state", .literal (.string "draft"))],
    .conditions [("../author", .literal .null)]]

/-- The draft has no author.  With its state first the logic has an answer, which is its truth;
with the author first it has none, and the reference to the author is named. -/
theorem matches?_kleene_draft :
    let record := Value.object [("state", .string "draft")]
    let path := Path.root.child "note"
    let l := Logic.any draftOrAnonymous
    let m := Logic.any draftOrAnonymous.reverse
    l.Reordered m ∧ l.matches? record path = .ok true ∧ l.truth record path = .yes ∧
      (∀ b, m.matches? record path = .ok b → b = true) ∧
      (∃ e, m.matches? record path = .error e ∧
        ∃ ref ∈ m.references, (path.resolve ref).lookup record = none ∧
          e = .missingDependency "note" ref (path.resolve ref).text) ∧
      m.truth record path = .yes := by
  intro record path l m
  have hm : l.Reordered m := .any (List.reverse_perm draftOrAnonymous).symm
  have hl : l.matches? record path = .ok true := rfl
  have he : m.matches? record path =
    .error (.missingDependency "note" "../author" "author") := rfl
  obtain ⟨htruth, hagree, -⟩ := matches?_kleene l record path
  obtain ⟨-, -, herror⟩ := matches?_kleene m record path
  refine ⟨hm, hl, htruth true hl, fun b hb => (hagree m true b hm hl hb).symm,
    ⟨_, he, herror _ he⟩, ?_⟩
  exact hm.truth_eq.symm.trans (htruth true hl)

end Logic

end ContentSchema
