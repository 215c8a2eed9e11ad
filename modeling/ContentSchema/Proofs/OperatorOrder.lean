import Mathlib.Data.String.Basic
import ContentSchema.Proofs.Basins
import ContentSchema.Proofs.LogicGrammar
import ContentSchema.Proofs.References

/-!
# Operator order — what the operators of a rule say about two values

The ordering operators compare numbers, texts and truth values among themselves, a list on the left
counting by its length.  Of two values that compare, one is less or neither is, and the operators
say which; of two that do not, no operator holds.  A rule of several operators is the conjunction of
its operators (`Rule.test_iff`).  So a field inside a list can ask for the length of that list
(`Logic.operators_order`).
-/

namespace ContentSchema

/-! ### Two values -/

namespace Value

/-- What stands on the left of an ordering operator: the length in place of a list. -/
def counted : Value → Value
  | .list items => .ofInt items.length
  | v => v

/-- Two numbers, two texts or two truth values. -/
inductive Comparable : Value → Value → Prop
  | number (a b : Number) : Comparable (.number a) (.number b)
  | string (s t : String) : Comparable (.string s) (.string t)
  | bool (a b : Bool) : Comparable (.bool a) (.bool b)

/-- The order of numbers by their doubles, of texts by their characters, and of truth values. -/
inductive Less : Value → Value → Prop
  | number {a b : Number} (h : a.toBinary64.scaled < b.toBinary64.scaled) :
      Less (.number a) (.number b)
  | string {s t : String} (h : s < t) : Less (.string s) (.string t)
  | bool : Less (.bool false) (.bool true)

variable {a b : Value}

/-- A list is compared as its length. -/
theorem compare?_counted (a b : Value) : compare? a b = compare? (counted a) b := by
  cases a with
  | list items =>
    cases b with
    | number n =>
      show some _ = some ((Number.ofInt items.length).toBinary64.cmp n.toBinary64)
      rw [Number.toBinary64_ofInt]
    | _ => rfl
  | _ => rfl

theorem counted_ne_list (a : Value) (items : List Value) : counted a ≠ .list items := by
  cases a <;> exact nofun

theorem compare?_of_not_comparable (ha : ∀ items, a ≠ .list items) (h : ¬ Comparable a b) :
    compare? a b = none := by
  cases a with
  | list items => exact absurd rfl (ha items)
  | number x =>
    cases b with
    | number y => exact absurd (.number x y) h
    | _ => rfl
  | string s =>
    cases b with
    | string t => exact absurd (.string s t) h
    | _ => rfl
  | bool x =>
    cases b with
    | bool y => exact absurd (.bool x y) h
    | _ => rfl
  | _ => rfl

theorem less_number {x y : Number} :
    Less (.number x) (.number y) ↔ x.toBinary64.scaled < y.toBinary64.scaled :=
  ⟨fun | .number h => h, .number⟩

theorem less_string {s t : String} : Less (.string s) (.string t) ↔ s < t :=
  ⟨fun | .string h => h, .string⟩

theorem less_bool {x y : Bool} : Less (.bool x) (.bool y) ↔ x = false ∧ y = true :=
  ⟨fun | .bool => ⟨rfl, rfl⟩, fun ⟨hx, hy⟩ => hx ▸ hy ▸ .bool⟩

/-- Comparable values have an order, and it says which of them is less. -/
theorem exists_compare? (h : Comparable a b) :
    ∃ o, compare? a b = some o ∧ (o = .lt ↔ Less a b) ∧ (o = .gt ↔ Less b a) := by
  cases h with
  | number x y =>
    refine ⟨_, rfl, ?_, ?_⟩ <;> rw [less_number]
    · exact compare_lt_iff_lt
    · exact compare_gt_iff_gt
  | string s t =>
    refine ⟨_, rfl, ?_, ?_⟩ <;> rw [less_string]
    · split_ifs <;> simp_all
    · rcases lt_trichotomy s t with h | rfl | h
      · simp [h, h.not_gt]
      · simp
      · simp [h, h.not_gt, h.ne']
  | bool x y =>
    refine ⟨_, rfl, ?_, ?_⟩ <;> rw [less_bool] <;> cases x <;> cases y <;> decide

/-! ### One operator -/

/-- Whether a value passes the test of one operator, `{operator: operand}`. -/
def passes (v : Value) (operator : String) (operand : Value) : Bool :=
  match Condition.ofValue (.object [(operator, operand)]) with
  | .ok c => c.test v
  | .error _ => false

theorem passes_eq (v x : Value) : v.passes "eq" x = v.same x := by
  show ({ eq := some x } : Rule).test v = _
  simp [Rule.test, Rule.ordered]

theorem passes_ne (v x : Value) : v.passes "ne" x = !v.same x := by
  show ({ ne := some x } : Rule).test v = _
  simp [Rule.test, Rule.ordered]

theorem passes_gt (a b : Value) : a.passes "gt" b = (a.compare? b).any Ordering.isGT := by
  show ({ gt := some b } : Rule).test a = _
  simp [Rule.test, Rule.ordered]

theorem passes_gte (a b : Value) : a.passes "gte" b = (a.compare? b).any Ordering.isGE := by
  show ({ gte := some b } : Rule).test a = _
  simp [Rule.test, Rule.ordered]

theorem passes_lt (a b : Value) : a.passes "lt" b = (a.compare? b).any Ordering.isLT := by
  show ({ lt := some b } : Rule).test a = _
  simp [Rule.test, Rule.ordered]

theorem passes_lte (a b : Value) : a.passes "lte" b = (a.compare? b).any Ordering.isLE := by
  show ({ lte := some b } : Rule).test a = _
  simp [Rule.test, Rule.ordered]

theorem passes_regexp (v : Value) (pattern : String) :
    v.passes "regexp" (.string pattern) =
      match v with
      | .string s => Pattern.search pattern s
      | _ => false := by
  show ({ regexp := some pattern } : Rule).test v = _
  cases v <;> simp [Rule.test, Rule.ordered]

/-- Of two comparable values one is less or neither is, and the operators say which. -/
theorem passes_of_comparable (h : Comparable (counted a) b) :
    [a.passes "lt" b, a.passes "gt" b, a.passes "gte" b && a.passes "lte" b].count true = 1 ∧
      a.passes "gte" b = !a.passes "lt" b ∧ a.passes "lte" b = !a.passes "gt" b ∧
      (a.passes "lt" b = true ↔ Less (counted a) b) ∧
      (a.passes "gt" b = true ↔ Less b (counted a)) := by
  obtain ⟨o, ho, hlt, hgt⟩ := exists_compare? h
  rw [← compare?_counted] at ho
  rw [passes_lt, passes_gt, passes_gte, passes_lte, ho, ← hlt, ← hgt]
  cases o <;> decide

/-- No ordering operator holds of values that do not compare. -/
theorem passes_of_not_comparable (h : ¬ Comparable (counted a) b) :
    ∀ operator ∈ ["lt", "gt", "gte", "lte"], a.passes operator b = false := by
  have hnone : compare? a b = none := by
    rw [compare?_counted]
    exact compare?_of_not_comparable (counted_ne_list a) h
  simp [passes_lt, passes_gt, passes_gte, passes_lte, hnone]

end Value

/-! ### Several operators -/

namespace Rule

theorem ordered_eq_all (v : Value) (operand : Option Value) (accept : Ordering → Bool) :
    ordered v operand accept = operand.all fun x => (v.compare? x).any accept := by
  cases operand <;> rfl

theorem forall_mem_operators {r : Rule} {P : String × Value → Prop} :
    (∀ m ∈ r.operators, P m) ↔
      (∀ x ∈ r.eq, P ("eq", x)) ∧ (∀ x ∈ r.ne, P ("ne", x)) ∧ (∀ x ∈ r.gt, P ("gt", x)) ∧
        (∀ x ∈ r.gte, P ("gte", x)) ∧ (∀ x ∈ r.lt, P ("lt", x)) ∧ (∀ x ∈ r.lte, P ("lte", x)) ∧
        ∀ s ∈ r.regexp, P ("regexp", .string s) := by
  have hpresent : ∀ {name : String} {o : Option Value} {es : List (String × Option Value)},
      (∀ m ∈ ((name, o) :: es).filterMap fun e => e.2.map (e.1, ·), P m) ↔
        (∀ x ∈ o, P (name, x)) ∧ ∀ m ∈ es.filterMap fun e => e.2.map (e.1, ·), P m := by
    intro name o es
    cases o <;> simp
  unfold operators
  rw [hpresent, hpresent, hpresent, hpresent, hpresent, hpresent, hpresent]
  simp

/-- A rule holds when each of its operators does. -/
theorem test_iff (r : Rule) (v : Value) :
    r.test v = true ↔ ∀ m ∈ r.operators, v.passes m.1 m.2 = true := by
  rw [forall_mem_operators]
  simp only [test, ordered_eq_all, Bool.and_eq_true, Option.all_eq_true, and_assoc, Value.passes_eq,
    Value.passes_ne, Value.passes_gt, Value.passes_gte, Value.passes_lt, Value.passes_lte,
    Value.passes_regexp, Option.mem_def]
  cases v <;> rfl

end Rule

/-! ### The length of a list -/

/-- A list passes `gt` by its length. -/
theorem Value.passes_gt_list {items : List Value} (hitems : items.length < wordEnd) {n : Int}
    (hn : n.natAbs < 2 ^ 53) :
    (Value.list items).passes "gt" (.ofInt n) = decide (n < items.length) := by
  have hcompare : compare? (.list items) (.ofInt n) =
      some (compare (Binary64.ofInt items.length).scaled (Binary64.ofInt n).scaled) := by
    show some _ = _
    rw [Number.toBinary64_ofInt]
    rfl
  have hlt : (Binary64.ofInt n).scaled < (Binary64.ofInt items.length).scaled ↔ n < items.length :=
    Binary64.scaled_ofInt_lt hitems hn
  rw [passes_gt, hcompare, Option.any_some, Bool.eq_iff_iff, decide_eq_true_iff, ← hlt,
    Ordering.isGT_iff_eq_gt, compare_gt_iff_gt]

namespace Logic

/-- The ordering operators are one order.  Of two comparable values, a list counting by its length,
exactly one of less, greater and neither holds, and `gte` and `lte` are the negations of `lt` and
`gt`; of others no operator holds.  A rule of several operators is their conjunction.  And from a
field of an item, `..` and `gt` ask for more items than a number.  Lengths are machine words, which
are rounded when they are compared. -/
theorem operators_order :
    (∀ a b : Value,
      (a.counted.Comparable b →
        [a.passes "lt" b, a.passes "gt" b, a.passes "gte" b && a.passes "lte" b].count true = 1 ∧
        a.passes "gte" b = !a.passes "lt" b ∧ a.passes "lte" b = !a.passes "gt" b ∧
        (a.passes "lt" b = true ↔ a.counted.Less b) ∧
        (a.passes "gt" b = true ↔ b.Less a.counted)) ∧
      (¬ a.counted.Comparable b →
        ∀ operator ∈ ["lt", "gt", "gte", "lte"], a.passes operator b = false)) ∧
    (∀ (r : Rule) (v : Value),
      r.test v = true ↔ ∀ m ∈ r.operators, v.passes m.1 m.2 = true) ∧
    ∀ (record : Value) (p : Path) (items : List Value) (i : Nat) (field : String) (n : Int),
      p.lookup record = some (.list items) → items.length < wordEnd → n.natAbs < 2 ^ 53 →
        ∃ l, ofValue (.object [("..", .object [("gt", .ofInt n)])]) = .ok l ∧
          l.matches? record ((p.index i).child field) = .ok (decide (n < items.length)) := by
  refine ⟨fun a b => ⟨Value.passes_of_comparable, Value.passes_of_not_comparable⟩, Rule.test_iff,
    fun record p items i field n hlookup hitems hn => ?_⟩
  refine ⟨.conditions [("..", .rule { gt := some (.ofInt n) })], rfl, ?_⟩
  have htest : Condition.test (.rule { gt := some (.ofInt n) }) (.list items) =
      decide (n < items.length) := Value.passes_gt_list hitems hn
  rw [matches?, testsHold]
  simp only [Path.index, Path.resolve_points, hlookup, htest]
  split <;> simp_all [testsHold]

/-- A list of two items, beside a double of the value of their number. -/
def pairRecord : Value :=
  .object [("parent", .list [.object [("field", .number 0)], .object [("field", .null)]])]

/-- Two items are no less and no more than the double 2, and do not compare with a text.  A field of
the second finds more than one item, and not more than two. -/
theorem operators_order_pair :
    let items := [Value.object [("field", .number 0)], .object [("field", .null)]]
    let pair := Value.list items
    let two := Value.number (.real (.ofInt 2))
    let rule : Rule := { ne := some .null, gte := some two, lte := some (.number 2) }
    (pair.counted.Comparable two ∧ pair.passes "lt" two = false ∧ pair.passes "gt" two = false ∧
      pair.passes "gte" two = true ∧ pair.passes "lte" two = true) ∧
    (¬ pair.counted.Comparable (.string "2") ∧ pair.passes "gte" (.string "2") = false) ∧
    (rule.test pair = true ↔ pair.passes "ne" .null = true ∧ pair.passes "gte" two = true ∧
      pair.passes "lte" (.number 2) = true) ∧
    ((Path.parse "parent").lookup pairRecord = some pair ∧ items.length < wordEnd ∧
      (∀ n : Int, n ∈ [1, 2] → n.natAbs < 2 ^ 53) ∧
      (Path.parse "parent.1.field") = ((Path.parse "parent").index 1).child "field" ∧
      (∃ l, ofValue (.object [("..", .object [("gt", .ofInt 1)])]) = .ok l ∧
        l.matches? pairRecord (Path.parse "parent.1.field") = .ok true) ∧
      ∃ l, ofValue (.object [("..", .object [("gt", .ofInt 2)])]) = .ok l ∧
        l.matches? pairRecord (Path.parse "parent.1.field") = .ok false) := by
  intro items pair two rule
  obtain ⟨horder, htest, hlength⟩ := operators_order
  have hcomparable : pair.counted.Comparable two := .number _ _
  have hcounted : pair.counted = .number (.ofInt 2) := rfl
  have htext : ¬ pair.counted.Comparable (.string "2") := by
    rw [hcounted]
    exact nofun
  have hlookup : (Path.parse "parent").lookup pairRecord = some pair := rfl
  have hsmall : ∀ n : Int, n ∈ [1, 2] → n.natAbs < 2 ^ 53 := by decide
  have hlonger := fun n hn => hlength pairRecord (Path.parse "parent") items 1 "field" n hlookup
    (by decide) (hsmall n hn)
  obtain ⟨-, hgte, hlte, hlt, hgt⟩ := (horder pair two).1 hcomparable
  have hvalue : (Number.ofInt 2).toBinary64.scaled =
      (Number.real (.ofInt 2)).toBinary64.scaled := by
    rw [Number.toBinary64_ofInt, Number.toBinary64]
  have hnotLt : pair.passes "lt" two = false := by
    rw [← Bool.not_eq_true, hlt, hcounted, Value.less_number, hvalue]
    exact lt_irrefl _
  have hnotGt : pair.passes "gt" two = false := by
    rw [← Bool.not_eq_true, hgt, hcounted, Value.less_number, hvalue]
    exact lt_irrefl _
  refine ⟨⟨hcomparable, hnotLt, hnotGt, by rw [hgte, hnotLt]; rfl, by rw [hlte, hnotGt]; rfl⟩,
    ⟨htext, (horder pair (.string "2")).2 htext "gte" (by decide)⟩, (htest rule pair).trans ?_,
    hlookup, by decide, hsmall, by decide, hlonger 1 (by decide), hlonger 2 (by decide)⟩
  simp [rule, Rule.operators]

end Logic

end ContentSchema
