import Mathlib.Data.List.Forall2
import ContentSchema.Logic
import ContentSchema.Proofs.EntryLaws

/-!
# The grammar of conditions — what is read as logic, and as which

Combinators stand alone in their object, and a map of tests has no key like theirs.  A test is a
rule when it is an object of operators, at least one, and a literal otherwise; a rule that has
`regexp` has a text there.  Reading takes exactly the values of this grammar, at any depth, and the
tree holds all that they say (`Logic.ofValue_grammar`).
-/

namespace ContentSchema

/-! ### Operators -/

namespace Entries

variable {α : Type}

/-- The entries that have a value, when no key occurs twice. -/
theorem get?_present {es : Entries (Option α)} (h : (keys es).Nodup) (key : String) :
    Entries.get? key (es.filterMap fun e => e.2.map (e.1, ·)) = (es.get? key).bind id := by
  induction es with
  | nil => rfl
  | cons e rest ih =>
    obtain ⟨k, operand⟩ := e
    obtain ⟨hk, hrest⟩ := List.nodup_cons.mp h
    rw [get?_cons, List.filterMap_cons]
    cases operand with
    | some w =>
      show Entries.get? key ((k, w) :: _) = _
      rw [get?_cons, ih hrest]
      split <;> rfl
    | none =>
      show Entries.get? key (rest.filterMap _) = _
      rw [ih hrest]
      split
      · next hkey =>
        have hnone : Entries.get? key rest = none := get?_eq_none_iff.mpr (hkey ▸ hk)
        rw [hnone]
        rfl
      · rfl

end Entries

namespace Rule

/-- Every operator beside its operand. -/
def slots (r : Rule) : Entries (Option Value) :=
  [("eq", r.eq), ("ne", r.ne), ("gt", r.gt), ("gte", r.gte), ("lt", r.lt), ("lte", r.lte),
    ("regexp", r.regexp.map .string)]

theorem keys_slots (r : Rule) : Entries.keys r.slots = Condition.operatorNames := rfl

theorem nodup_keys_slots (r : Rule) : (Entries.keys r.slots).Nodup := by
  rw [keys_slots]
  decide

theorem get?_operators (r : Rule) (name : String) :
    Entries.get? name r.operators = (Entries.get? name r.slots).bind id :=
  Entries.get?_present r.nodup_keys_slots name

/-- A rule has under each name the operand that an object has there; a name that is given twice
counts for its last operand. -/
def Has (ms : Entries Value) (r : Rule) : Prop :=
  ∀ name, Entries.get? name r.operators = Entries.get? name (Entries.ofList ms)

end Rule

namespace Condition

variable {r r' : Rule} {name : String} {operand v : Value} {ms : Entries Value} {c : Condition}

theorem setOperator_slots (hname : name ∈ operatorNames)
    (h : setOperator r name operand = .ok r') :
    r'.slots = Entries.update name (fun _ => some operand) r.slots := by
  simp only [operatorNames, List.mem_cons, List.not_mem_nil, or_false] at hname
  rcases hname with rfl | rfl | rfl | rfl | rfl | rfl | rfl
  case inr.inr.inr.inr.inr.inr =>
    cases operand with
    | string s =>
      obtain rfl := Except.ok.inj h
      rfl
    | _ => cases h
  all_goals
    obtain rfl := Except.ok.inj h
    rfl

/-- Setting an operator is seen under its name only. -/
theorem get?_setOperator (hname : name ∈ operatorNames) (h : setOperator r name operand = .ok r')
    (key : String) : Entries.get? key r'.operators =
      if name = key then some operand else Entries.get? key r.operators := by
  rw [Rule.get?_operators, Rule.get?_operators, setOperator_slots hname h]
  split
  · next hkey =>
    subst hkey
    rw [Entries.get?_update_self]
    obtain ⟨o, ho⟩ : ∃ o, Entries.get? name r.slots = some o := by
      rw [← Option.isSome_iff_exists, ← Entries.contains_eq, Entries.contains_iff_mem_keys,
        Rule.keys_slots]
      exact hname
    rw [ho]
    rfl
  · next hkey => rw [Entries.get?_update_of_ne hkey]

/-- Every operator takes any operand, but for `regexp`, which takes a text. -/
theorem exists_setOperator (r : Rule) (hname : name ∈ operatorNames) :
    (∃ r', setOperator r name operand = .ok r') ↔
      (name = "regexp" → ∃ s, operand = .string s) := by
  simp only [operatorNames, List.mem_cons, List.not_mem_nil, or_false] at hname
  rcases hname with rfl | rfl | rfl | rfl | rfl | rfl | rfl
  case inr.inr.inr.inr.inr.inr => cases operand <;> simp [setOperator]
  all_goals simp [setOperator]

/-- A rule that is made of operators has them all, over those that it had before. -/
theorem get?_setOperators (hnames : ∀ m ∈ ms, m.1 ∈ operatorNames) {es : Entries Value}
    (hes : ∀ key, Entries.get? key r.operators = es.get? key)
    (h : setOperators r ms = .ok r') (key : String) :
    Entries.get? key r'.operators =
      Entries.get? key (ms.foldl (fun es m => Entries.put m.1 m.2 es) es) := by
  induction ms generalizing r es with
  | nil =>
    obtain rfl := Except.ok.inj h
    exact hes key
  | cons m ms ih =>
    obtain ⟨name, operand⟩ := m
    obtain ⟨hname, hnames⟩ := List.forall_mem_cons.mp hnames
    unfold setOperators at h
    cases hset : setOperator r name operand with
    | error e =>
      simp only [hset] at h
      cases h
    | ok next =>
      simp only [hset] at h
      refine ih hnames (fun key => ?_) h
      rw [get?_setOperator hname hset]
      split
      · next hkey => rw [← hkey, Entries.get?_put_self]
      · next hkey => rw [Entries.get?_put_of_ne hkey, hes]

theorem exists_setOperators (r : Rule) (hnames : ∀ m ∈ ms, m.1 ∈ operatorNames) :
    (∃ r', setOperators r ms = .ok r') ↔ ∀ v, ("regexp", v) ∈ ms → ∃ s, v = .string s := by
  induction ms generalizing r with
  | nil => exact iff_of_true ⟨r, rfl⟩ nofun
  | cons m ms ih =>
    obtain ⟨name, operand⟩ := m
    obtain ⟨hname, hnames⟩ := List.forall_mem_cons.mp hnames
    have hstep : (∃ r', setOperator r name operand = .ok r') ↔
        (name = "regexp" → ∃ s, operand = .string s) := exists_setOperator r hname
    simp only [List.mem_cons, Prod.mk.injEq]
    cases hset : setOperator r name operand with
    | error e =>
      rw [hset] at hstep
      refine iff_of_false ?_ fun hall => ?_
      · rintro ⟨r', h⟩
        unfold setOperators at h
        rw [hset] at h
        cases h
      · obtain ⟨r', h⟩ := hstep.mpr fun hregexp => hall operand (.inl ⟨hregexp.symm, rfl⟩)
        cases h
    | ok next =>
      have hrest : setOperators r ((name, operand) :: ms) = setOperators next ms := by
        rw [setOperators, hset]
      rw [hrest, ih next hnames]
      constructor
      · rintro h v (⟨hregexp, rfl⟩ | hmem)
        · exact hstep.mp ⟨next, hset⟩ hregexp.symm
        · exact h v hmem
      · exact fun h v hmem => h v (.inr hmem)

/-! ### Tests -/

/-- An object of operators, at least one. -/
def IsRule (v : Value) : Prop :=
  v.isObject = true ∧ v.members ≠ [] ∧ ∀ m ∈ v.members, m.1 ∈ operatorNames

/-- A test that can be read: a pattern of a rule is a text. -/
def InGrammar (v : Value) : Prop :=
  IsRule v → ∀ pattern, ("regexp", pattern) ∈ v.members → ∃ s, pattern = .string s

/-- What a test says: a rule has the operators of its object with their operands, and any other
value is meant literally. -/
inductive Says : Value → Condition → Prop
  | literal {v : Value} (h : ¬ IsRule v) : Says v (.literal v)
  | rule {ms : Entries Value} {r : Rule} (h : IsRule (.object ms)) (has : r.Has ms) :
      Says (.object ms) (.rule r)

theorem ofValue_literal (h : ¬ IsRule v) : ofValue v = .ok (.literal v) := by
  unfold ofValue
  split
  · next m ms =>
    split
    · next hall =>
      refine absurd ⟨rfl, List.cons_ne_nil m ms, fun m hm => ?_⟩ h
      exact List.contains_iff_mem.mp (List.all_eq_true.mp hall m hm)
    · rfl
  · rfl

theorem ofValue_rule (h : IsRule (.object ms)) :
    ofValue (.object ms) = (setOperators {} ms).map .rule := by
  obtain ⟨-, hne, hnames⟩ := h
  cases ms with
  | nil => exact absurd rfl hne
  | cons m ms =>
    have hall : (m :: ms).all (operatorNames.contains ·.1) = true :=
      List.all_eq_true.mpr fun m hm => List.contains_iff_mem.mpr (hnames m hm)
    unfold ofValue
    simp only
    rw [if_pos hall]
    cases setOperators {} (m :: ms) <;> rfl

theorem IsRule.object (h : IsRule v) : ∃ ms, v = .object ms := by
  cases v with
  | object ms => exact ⟨ms, rfl⟩
  | _ => cases h.1

/-- Reading a test succeeds on the grammar. -/
theorem exists_ofValue (v : Value) : (∃ c, ofValue v = .ok c) ↔ InGrammar v := by
  by_cases hrule : IsRule v
  · obtain ⟨ms, rfl⟩ := hrule.object
    have hops := exists_setOperators {} hrule.2.2
    rw [ofValue_rule hrule]
    unfold InGrammar
    rw [forall_prop_of_true hrule]
    refine Iff.trans ?_ hops
    show (∃ c, (setOperators {} ms).map _ = _) ↔ ∃ r, setOperators {} ms = _
    cases setOperators {} ms with
    | ok r => exact iff_of_true ⟨_, rfl⟩ ⟨r, rfl⟩
    | error e => exact iff_of_false nofun nofun
  · exact iff_of_true ⟨_, ofValue_literal hrule⟩ fun h => absurd h hrule

theorem says_of_ofValue (h : ofValue v = .ok c) : Says v c := by
  by_cases hrule : IsRule v
  · obtain ⟨ms, rfl⟩ := hrule.object
    rw [ofValue_rule hrule] at h
    cases hops : setOperators {} ms with
    | error e =>
      rw [hops] at h
      cases h
    | ok r =>
      rw [hops] at h
      obtain rfl := Except.ok.inj h
      exact .rule hrule (get?_setOperators hrule.2.2 (fun _ => rfl) hops)
  · rw [ofValue_literal hrule] at h
    obtain rfl := Except.ok.inj h
    exact .literal hrule

end Condition

namespace Logic

variable {v : Value} {l : Logic} {ms : Entries Value} {tests : List (String × Condition)}

/-- A key that can only be that of a combinator. -/
def IsCombinator (key : String) : Prop := key.toList.head? = some '$'

instance (key : String) : Decidable (IsCombinator key) :=
  inferInstanceAs (Decidable (key.toList.head? = some '$'))

theorem isCombinator_every : IsCombinator "$every" := by decide

theorem isCombinator_some : IsCombinator "$some" := by decide

/-- The values that are logic. -/
inductive InGrammar : Value → Prop
  | every {items : List Value} (h : ∀ v ∈ items, InGrammar v) :
      InGrammar (.object [("$every", .list items)])
  | some {items : List Value} (h : ∀ v ∈ items, InGrammar v) :
      InGrammar (.object [("$some", .list items)])
  | tests {ms : Entries Value} (hkeys : ∀ m ∈ ms, ¬ IsCombinator m.1)
      (h : ∀ m ∈ ms, Condition.InGrammar m.2) : InGrammar (.object ms)

/-- What a value says: every branch and every test, in their order, a test under its reference. -/
inductive Says : Value → Logic → Prop
  | every {items : List Value} {ls : List Logic} (h : List.Forall₂ Says items ls) :
      Says (.object [("$every", .list items)]) (.all ls)
  | some {items : List Value} {ls : List Logic} (h : List.Forall₂ Says items ls) :
      Says (.object [("$some", .list items)]) (.any ls)
  | tests {ms : Entries Value} {tests : List (String × Condition)}
      (h : List.Forall₂ (fun m test => test.1 = m.1 ∧ Condition.Says m.2 test.2) ms tests) :
      Says (.object ms) (.conditions tests)

/-! ### Trees -/

theorem exists_readTests (ms : Entries Value) : (∃ tests, readTests ms = .ok tests) ↔
    (∀ m ∈ ms, ¬ IsCombinator m.1) ∧ ∀ m ∈ ms, Condition.InGrammar m.2 := by
  induction ms with
  | nil => exact iff_of_true ⟨[], rfl⟩ ⟨nofun, nofun⟩
  | cons m ms ih =>
    obtain ⟨reference, test⟩ := m
    rw [List.forall_mem_cons, List.forall_mem_cons, and_and_and_comm, ← ih,
      ← Condition.exists_ofValue, readTests]
    split
    · next hkey => exact iff_of_false nofun fun h => h.1.1 hkey
    · next hkey =>
      cases hc : Condition.ofValue test with
      | error e => exact iff_of_false nofun fun h => nomatch h.1.2
      | ok c =>
        cases readTests ms with
        | error e => exact iff_of_false nofun fun h => nomatch h.2
        | ok tests => exact iff_of_true ⟨_, rfl⟩ ⟨⟨hkey, _, rfl⟩, _, rfl⟩

theorem says_of_readTests (h : readTests ms = .ok tests) :
    List.Forall₂ (fun m test => test.1 = m.1 ∧ Condition.Says m.2 test.2) ms tests := by
  induction ms generalizing tests with
  | nil =>
    obtain rfl := Except.ok.inj h
    exact .nil
  | cons m ms ih =>
    obtain ⟨reference, test⟩ := m
    rw [readTests] at h
    split at h
    · cases h
    · cases hc : Condition.ofValue test with
      | error e =>
        simp only [hc] at h
        cases h
      | ok c =>
        cases hrest : readTests ms with
        | error e =>
          simp only [hc, hrest] at h
          cases h
        | ok others =>
          simp only [hc, hrest] at h
          obtain rfl := Except.ok.inj h
          exact .cons ⟨rfl, Condition.says_of_ofValue hc⟩ (ih hrest)

theorem ofValue_every (items : List Value) :
    ofValue (.object [("$every", .list items)]) = (ofValues items).map .all := by
  rw [ofValue, if_pos rfl]

theorem ofValue_some (items : List Value) :
    ofValue (.object [("$some", .list items)]) = (ofValues items).map .any := by
  rw [ofValue, if_neg (by decide), if_pos rfl]

/-- An object that is no combinator with a list of branches is a map of tests, and no logic when it
has the key of a combinator. -/
theorem ofValue_tests (hevery : ∀ items, ms ≠ [("$every", .list items)])
    (hsome : ∀ items, ms ≠ [("$some", .list items)]) :
    (∃ m ∈ ms, IsCombinator m.1) ∧ (∃ e, ofValue (.object ms) = .error e) ∨
      ofValue (.object ms) = (readTests ms).map .conditions := by
  match ms, hevery, hsome with
  | [], _, _ =>
    right
    rw [ofValue]
    nofun
  | [(key, branches)], hevery, hsome =>
    unfold ofValue
    split
    · next hkey =>
      subst hkey
      refine .inl ⟨⟨_, List.mem_cons_self, isCombinator_every⟩, ?_⟩
      cases branches with
      | list items => exact absurd rfl (hevery items)
      | _ => exact ⟨_, rfl⟩
    · split
      · next hkey =>
        subst hkey
        refine .inl ⟨⟨_, List.mem_cons_self, isCombinator_some⟩, ?_⟩
        cases branches with
        | list items => exact absurd rfl (hsome items)
        | _ => exact ⟨_, rfl⟩
      · exact .inr rfl
  | m :: n :: rest, _, _ =>
    right
    rw [ofValue]
    nofun

/-- The three forms of an object. -/
theorem object_cases (ms : Entries Value) :
    (∃ items, ms = [("$every", .list items)]) ∨ (∃ items, ms = [("$some", .list items)]) ∨
      (∀ items, ms ≠ [("$every", .list items)]) ∧ ∀ items, ms ≠ [("$some", .list items)] := by
  by_cases hevery : ∃ items, ms = [("$every", .list items)]
  · exact .inl hevery
  · by_cases hsome : ∃ items, ms = [("$some", .list items)]
    · exact .inr (.inl hsome)
    · exact .inr (.inr ⟨not_exists.mp hevery, not_exists.mp hsome⟩)

theorem InGrammar.object (h : InGrammar (.object ms)) :
    (∃ items, ms = [("$every", .list items)] ∧ ∀ v ∈ items, InGrammar v) ∨
      (∃ items, ms = [("$some", .list items)] ∧ ∀ v ∈ items, InGrammar v) ∨
        (∀ m ∈ ms, ¬ IsCombinator m.1) ∧ ∀ m ∈ ms, Condition.InGrammar m.2 := by
  cases h with
  | every h => exact .inl ⟨_, rfl, h⟩
  | some h => exact .inr (.inl ⟨_, rfl, h⟩)
  | tests hkeys h => exact .inr (.inr ⟨hkeys, h⟩)

/-- An object under one key has a list there that is told by the key. -/
theorem eq_of_combinators {key key' : String} {items items' : List Value}
    (h : [(key, Value.list items)] = [(key', .list items')]) : key = key' ∧ items = items' := by
  obtain ⟨hkey, hlist⟩ := Prod.mk.inj (List.cons.inj h).1
  exact ⟨hkey, Value.list.inj hlist⟩

theorem inGrammar_every {items : List Value} :
    InGrammar (.object [("$every", .list items)]) ↔ ∀ v ∈ items, InGrammar v := by
  refine ⟨fun h => ?_, .every⟩
  rcases h.object with ⟨_, heq, h⟩ | ⟨_, heq, -⟩ | ⟨hkeys, -⟩
  · rw [(eq_of_combinators heq).2]
    exact h
  · exact absurd (eq_of_combinators heq).1 (by decide)
  · exact absurd isCombinator_every (hkeys _ List.mem_cons_self)

theorem inGrammar_some {items : List Value} :
    InGrammar (.object [("$some", .list items)]) ↔ ∀ v ∈ items, InGrammar v := by
  refine ⟨fun h => ?_, .some⟩
  rcases h.object with ⟨_, heq, -⟩ | ⟨_, heq, h⟩ | ⟨hkeys, -⟩
  · exact absurd (eq_of_combinators heq).1 (by decide)
  · rw [(eq_of_combinators heq).2]
    exact h
  · exact absurd isCombinator_some (hkeys _ List.mem_cons_self)

theorem inGrammar_tests (hevery : ∀ items, ms ≠ [("$every", .list items)])
    (hsome : ∀ items, ms ≠ [("$some", .list items)]) : InGrammar (.object ms) ↔
      (∀ m ∈ ms, ¬ IsCombinator m.1) ∧ ∀ m ∈ ms, Condition.InGrammar m.2 := by
  refine ⟨fun h => ?_, fun h => .tests h.1 h.2⟩
  rcases h.object with ⟨items, heq, -⟩ | ⟨items, heq, -⟩ | h
  · exact absurd heq (hevery items)
  · exact absurd heq (hsome items)
  · exact h

theorem exists_map {ε α β : Type} (f : α → β) (x : Except ε α) :
    (∃ b, x.map f = .ok b) ↔ ∃ a, x = .ok a := by
  simp only [Except.map_eq_ok_iff]
  exact ⟨fun ⟨_, a, ha, _⟩ => ⟨a, ha⟩, fun ⟨a, ha⟩ => ⟨_, a, ha, rfl⟩⟩

/-- Reading a map of tests succeeds on the grammar. -/
theorem exists_ofValue_tests (hevery : ∀ items, ms ≠ [("$every", .list items)])
    (hsome : ∀ items, ms ≠ [("$some", .list items)]) :
    (∃ l, ofValue (.object ms) = .ok l) ↔ InGrammar (.object ms) := by
  rw [inGrammar_tests hevery hsome]
  rcases ofValue_tests hevery hsome with ⟨⟨m, hm, hkey⟩, e, he⟩ | htests
  · rw [he]
    exact iff_of_false nofun fun h => h.1 m hm hkey
  · rw [htests, exists_map, exists_readTests]

mutual

/-- Reading succeeds on the grammar. -/
theorem exists_ofValue : (v : Value) → ((∃ l, ofValue v = .ok l) ↔ InGrammar v)
  | .object ms => by
    rcases object_cases ms with ⟨items, rfl⟩ | ⟨items, rfl⟩ | ⟨hevery, hsome⟩
    · rw [ofValue_every, exists_map, inGrammar_every]
      exact exists_ofValues items
    · rw [ofValue_some, exists_map, inGrammar_some]
      exact exists_ofValues items
    · exact exists_ofValue_tests hevery hsome
  | .null | .bool _ | .number _ | .string _ | .list _ => by
    refine iff_of_false ?_ fun h => ?_
    · rintro ⟨l, h⟩
      cases h
    · cases h

theorem exists_ofValues : (vs : List Value) →
    ((∃ ls, ofValues vs = .ok ls) ↔ ∀ v ∈ vs, InGrammar v)
  | [] => iff_of_true ⟨[], by rw [ofValues]⟩ nofun
  | v :: vs => by
    have here := exists_ofValue v
    have rest := exists_ofValues vs
    rw [List.forall_mem_cons, ← here, ← rest, ofValues]
    cases ofValue v with
    | error e => exact iff_of_false nofun fun h => nomatch h.1
    | ok l =>
      cases ofValues vs with
      | error e => exact iff_of_false nofun fun h => nomatch h.2
      | ok ls => exact iff_of_true ⟨_, rfl⟩ ⟨⟨l, rfl⟩, ls, rfl⟩

end

mutual

/-- What is read is what the value says. -/
theorem says_of_ofValue : (v : Value) → ∀ {l : Logic}, ofValue v = .ok l → Says v l
  | .object ms, l, h => by
    rcases object_cases ms with ⟨items, rfl⟩ | ⟨items, rfl⟩ | ⟨hevery, hsome⟩
    · rw [ofValue_every] at h
      obtain ⟨ls, hls, rfl⟩ := Except.map_eq_ok_iff.mp h
      exact .every (says_of_ofValues items hls)
    · rw [ofValue_some] at h
      obtain ⟨ls, hls, rfl⟩ := Except.map_eq_ok_iff.mp h
      exact .some (says_of_ofValues items hls)
    · rcases ofValue_tests hevery hsome with ⟨-, e, he⟩ | htests
      · cases he.symm.trans h
      · rw [htests] at h
        obtain ⟨tests, htests, rfl⟩ := Except.map_eq_ok_iff.mp h
        exact .tests (says_of_readTests htests)
  | .null, _, h | .bool _, _, h | .number _, _, h | .string _, _, h | .list _, _, h => by
    cases h

theorem says_of_ofValues : (vs : List Value) → ∀ {ls : List Logic}, ofValues vs = .ok ls →
    List.Forall₂ Says vs ls
  | [], ls, h => by
    cases h
    exact .nil
  | v :: vs, ls, h => by
    have here : ∀ l, ofValue v = .ok l → Says v l := fun _ => says_of_ofValue v
    have rest : ∀ ls, ofValues vs = .ok ls → List.Forall₂ Says vs ls :=
      fun _ => says_of_ofValues vs
    rw [ofValues] at h
    cases hv : ofValue v with
    | error e =>
      simp only [hv] at h
      cases h
    | ok l =>
      cases hvs : ofValues vs with
      | error e =>
        simp only [hv, hvs] at h
        cases h
      | ok others =>
        simp only [hv, hvs] at h
        obtain rfl := Except.ok.inj h
        exact .cons (here l hv) (rest others hvs)

end

end Logic

end ContentSchema
