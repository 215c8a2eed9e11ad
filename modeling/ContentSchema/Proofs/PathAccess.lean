import ContentSchema.Proofs.PathLaws

/-!
# Path access — reading, changing and storing at one place

A value is read, changed and stored at a path by three recursions over its segments.  All three come
to the same place: a change is given what reading finds, and its result is stored there
(`Path.modify?_eq`); a value is stored where the container of the place is there and takes it
(`Path.set?_isSome_iff`).  An index can be spelled in several ways, so two paths are told apart by
the parts that their segments lead to (`Path.Fork`) and not by the segments.
-/

namespace ContentSchema.Path

/-! ### Forks -/

/-- Two lists of segments come to a container of a value in which they lead to different parts.
Until then they lead to the same parts, but the text of an index may differ: `0` and `00` are
one. -/
inductive Fork : Value → List String → List String → Prop
  | here {v : Value} {s t : String} (p q : List String) (h : Apart v s t) :
      Fork v (s :: p) (t :: q)
  | under {v x : Value} {s t : String} {p q : List String} (hd : descend v s = some x)
      (hst : ¬ Apart v s t) (h : Fork x p q) : Fork v (s :: p) (t :: q)

/-- Two paths fork inside a value. -/
def Forks (v : Value) (p q : Path) : Prop := Fork v p.segments q.segments

/-- Segments that are not told apart lead to the same part. -/
theorem descend_of_not_apart {v : Value} {s t : String} (h : ¬ Apart v s t) :
    descend v t = descend v s := by
  cases v with
  | object ms =>
    by_cases hst : s = t
    · rw [hst]
    · exact absurd (.keys hst) h
  | list items =>
    by_cases hst : Text.readIndex? s = Text.readIndex? t
    · unfold descend
      rw [hst]
    · exact absurd (.indices hst) h
  | _ => rfl

/-- Storing in a container tells no more segments apart. -/
theorem apart_of_apart_store? {s t u : String} {w v v' : Value} (h : store? s w v = some v')
    (htu : Apart v' t u) : Apart v t u := by
  cases v with
  | object ms =>
    rw [store?_object, Option.some.injEq] at h
    subst h
    cases htu with
    | keys htu => exact .keys htu
  | list items =>
    obtain ⟨i, -, -, rfl⟩ := store?_list_eq_some h
    cases htu with
    | indices htu => exact .indices htu
  | _ => cases h

/-- What is stored along one branch of a fork is not seen along the other. -/
theorem Fork.lookupSegments {v v' w : Value} {p q : List String} (h : Fork v p q)
    (hs : setSegments? w p v = some v') :
    Path.lookupSegments q v' = Path.lookupSegments q v := by
  induction h generalizing v' with
  | @here v s t p q h =>
    obtain ⟨x', hx'⟩ := exists_store?_of_setSegments? hs
    show (descend v' t).bind _ = (descend v t).bind _
    rw [descend_store?_of_apart hx' h]
  | @under v x s t p q hd hst h ih =>
    rw [setSegments?_of_descend hd] at hs
    obtain ⟨x', hx', hstore⟩ := Option.bind_eq_some_iff.mp hs
    have hst' : ¬ Apart v' s t := fun hap => hst (apart_of_apart_store? hstore hap)
    show (descend v' t).bind _ = (descend v t).bind _
    rw [descend_of_not_apart hst', descend_store? hstore, descend_of_not_apart hst, hd]
    exact ih hx'

/-! ### Containers -/

/-- A container takes a value under a segment: an object under every key, a list at the indices it
has. -/
def takes : Value → String → Bool
  | .object _, _ => true
  | .list items, s => (Text.readIndex? s).any (· < items.length)
  | _, _ => false

/-- The container of a path is there and takes a value; the root needs none. -/
def Housed (p : Path) (v : Value) : Prop :=
  p.isRoot = true ∨ ∃ container, p.parent.lookup v = some container ∧ takes container p.name = true

theorem takes_iff {v : Value} {s : String} : takes v s = true ↔
    (∃ ms, v = .object ms) ∨
      ∃ items i, v = .list items ∧ Text.readIndex? s = some i ∧ i < items.length := by
  cases v with
  | object ms => exact iff_of_true rfl (.inl ⟨ms, rfl⟩)
  | list items => simp [takes, Option.any_eq_true]
  | _ => simp [takes]

theorem store?_isSome (s : String) (w v : Value) : (store? s w v).isSome = takes v s := by
  cases v with
  | object ms => rfl
  | list items =>
    cases hi : Text.readIndex? s with
    | none => simp [store?, takes, hi]
    | some i =>
      rw [store?_list hi]
      by_cases hlt : i < items.length <;> simp [takes, hi, hlt]
  | _ => rfl

/-! ### Changing -/

/-- What is there is changed, and the result is stored there. -/
theorem modifySegments?_eq (f : Value → Option Value) (p : List String) (v : Value) :
    modifySegments? f p v =
      (lookupSegments p v).bind fun x => (f x).bind fun w => setSegments? w p v := by
  induction p generalizing v with
  | nil => exact (Option.bind_fun_some _).symm
  | cons s p ih =>
    show modifyStep? s (modifySegments? f p) v = ((descend v s).bind (lookupSegments p)).bind _
    rw [modifyStep?_eq]
    cases hd : descend v s with
    | none => rfl
    | some x =>
      simp only [Option.bind_some, ih, Option.bind_assoc, setSegments?_of_descend hd]

/-- Nothing is stored below a place that is not there. -/
theorem setSegments?_of_lookupSegments_none {p : List String} {v : Value}
    (h : lookupSegments p v = none) (w : Value) (s : String) :
    setSegments? w (p ++ [s]) v = none := by
  induction p generalizing v with
  | nil => cases h
  | cons t p ih =>
    rw [List.cons_append]
    cases hd : descend v t with
    | none => rw [setSegments?_of_descend_none hd, if_neg (by simp)]
    | some x =>
      have hx : lookupSegments p x = none := by
        rw [← h]
        show _ = (descend v t).bind _
        rw [hd]
        rfl
      rw [setSegments?_of_descend hd, ih hx]
      rfl

/-- Storing at a place is a change of its container. -/
theorem setSegments?_concat (w : Value) (p : List String) (s : String) (v : Value) :
    setSegments? w (p ++ [s]) v = modifySegments? (store? s w) p v := by
  rw [modifySegments?_eq]
  cases h : lookupSegments p v with
  | none => exact setSegments?_of_lookupSegments_none h w s
  | some x => exact setSegments?_append h [s] w

/-! ### Paths -/

/-- A change at a path is given what reading finds there, and its result is stored there. -/
theorem modify?_eq (p : Path) (f : Value → Option Value) (v : Value) :
    p.modify? f v = (p.lookup v).bind fun x => (f x).bind fun w => p.set? w v :=
  modifySegments?_eq f p.segments v

theorem isRoot_iff {p : Path} : p.isRoot = true ↔ p = root := by
  rw [ext_iff]
  exact List.isEmpty_iff

theorem segments_eq_concat {p : Path} (h : p ≠ root) :
    p.segments = p.parent.segments ++ [p.name] := by
  obtain ⟨segments⟩ := p
  rcases List.eq_nil_or_concat segments with rfl | ⟨front, last, rfl⟩
  · exact absurd rfl h
  · simp [parent, name]

/-- Storing below the root is a change of the container. -/
theorem set?_eq_modify? {p : Path} (h : p ≠ root) (w v : Value) :
    p.set? w v = p.parent.modify? (store? p.name w) v := by
  unfold set?
  rw [segments_eq_concat h, setSegments?_concat]
  rfl

/-- A value can be stored exactly where the container takes it. -/
theorem set?_isSome_iff (p : Path) (w v : Value) : (p.set? w v).isSome = true ↔ p.Housed v := by
  by_cases hp : p = root
  · subst hp
    exact iff_of_true rfl (.inl rfl)
  · unfold Housed
    rw [isRoot_iff, or_iff_right hp, set?_eq_modify? hp, modify?_eq]
    cases h : p.parent.lookup v with
    | none => exact iff_of_false nofun nofun
    | some container =>
      have hroom : ∀ x, (p.parent.set? x v).isSome = true := fun x =>
        Option.isSome_iff_exists.mpr (hasRoom_of_lookup h x)
      simp only [Option.bind_some, Option.some.injEq, exists_eq_left', ← store?_isSome p.name w]
      cases store? p.name w container with
      | none => rfl
      | some x => exact iff_of_true (hroom x) rfl

theorem Housed.of_setSegments? {p : Path} {w v v' : Value}
    (h : setSegments? w p.segments v = some v') : p.Housed v :=
  (set?_isSome_iff p w v).mp (Option.isSome_iff_exists.mpr ⟨v', h⟩)

/-- The laws of access at a path.  A change meets exactly what reading finds.  Storing succeeds
exactly where the container takes the value; what is stored is then read back, what lies along
another branch of a fork is read as before, and a second value stored there replaces the first.
Storing what is there changes nothing, and neither does storing that fails. -/
theorem access_laws (p : Path) (v : Value) :
    (∀ f, p.modify? f v = (p.lookup v).bind fun x => (f x).bind fun w => p.set? w v) ∧
      (∀ w, (p.set? w v).isSome = true ↔
        p = root ∨ (∃ ms, p.parent.lookup v = some (.object ms)) ∨
          ∃ items i, p.parent.lookup v = some (.list items) ∧ Text.readIndex? p.name = some i ∧
            i < items.length) ∧
      (∀ w v', p.set? w v = some v' → p.set w v = v' ∧ p.lookup v' = some w ∧
        (∀ q, Forks v p q → q.lookup v' = q.lookup v) ∧ ∀ w', p.set? w' v' = p.set? w' v) ∧
      (∀ x, p.lookup v = some x → p.set? x v = some v) ∧
      ∀ w, p.set? w v = none → p.set w v = v := by
  refine ⟨fun f => p.modify?_eq f v, fun w => ?_, fun w v' h => ?_,
    fun x => setSegments?_of_lookupSegments, fun w h => by rw [set, h]; rfl⟩
  · rw [set?_isSome_iff, Housed, isRoot_iff]
    refine or_congr_right ?_
    cases p.parent.lookup v with
    | none => simp
    | some container => simp [takes_iff]
  · exact ⟨set_eq h, lookupSegments_of_setSegments? h, fun q hq => Fork.lookupSegments hq h,
      setSegments?_setSegments? h⟩

/-- A list of two items, the second with this label. -/
def labelledItems (label : String) : Value :=
  .object [("items", .list [.object [("label", .string "a")],
    .object [("label", .string label), ("price", .number 3)]])]

/-- A label is stored under one spelling of its index.  The price beside it, under another spelling
of the same index, and the label of the other item are read as before; a third item there is not. -/
theorem access_laws_labelled :
    let v := labelledItems "b"
    let v' := labelledItems "z"
    let p := parse "items.01.label"
    let price := parse "items.+1.price"
    let other := parse "items.0.label"
    let third := parse "items.2.label"
    (p.set? (.string "z") v = some v' ∧ p.lookup v' = some (.string "z")) ∧
      (Forks v p price ∧ price.lookup v' = price.lookup v) ∧
      (Forks v p other ∧ other.lookup v' = other.lookup v) ∧
      (p.lookup v = some (.string "b") ∧ p.set? (.string "b") v = some v) ∧
      third.set? (.string "z") v = none ∧ third.set (.string "z") v = v := by
  intro v v' p price other third
  have hset : p.set? (.string "z") v = some v' := rfl
  have hnone : third.set? (.string "z") v = none := rfl
  have hlabel : p.lookup v = some (.string "b") := rfl
  have hitems : ∀ ms, ¬ Apart (.object ms) "items" "items" := fun _ h => h.ne rfl
  have hindex : ∀ items, ¬ Apart (.list items) "01" "+1" := by
    rintro items ⟨⟩
    next h => exact h rfl
  have hprice : Forks v p price :=
    .under rfl (hitems _) (.under rfl (hindex _) (.here [] [] (.keys (by decide))))
  have hother : Forks v p other :=
    .under rfl (hitems _) (.here _ _ (.indices (by decide)))
  obtain ⟨-, -, hstored, hsame, -⟩ := access_laws p v
  obtain ⟨-, -, -, -, hkept⟩ := access_laws third v
  obtain ⟨-, hread, hforks, -⟩ := hstored _ v' hset
  exact ⟨⟨hset, hread⟩, ⟨hprice, hforks price hprice⟩, ⟨hother, hforks other hother⟩,
    ⟨hlabel, hsame _ hlabel⟩, hnone, hkept _ hnone⟩

end ContentSchema.Path
