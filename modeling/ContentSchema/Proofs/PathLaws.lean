import ContentSchema.Path
import ContentSchema.Proofs.EntryLaws

/-!
# Path laws — a change at one place and what is read at another

A value is changed at a path by storing along its segments.  Two paths `Diverge` in a value when
they part at some container on the way; what is stored along one is then not seen along the other,
and room along the other stays.  Everything about whole paths follows from three facts about one
segment: storing is read back, storing again overrides, and storing what is there changes nothing.
-/

namespace ContentSchema.Path

/-! ### One segment -/

/-- Two segments lead to different parts of a container. -/
inductive Apart : Value → String → String → Prop
  | keys {ms : List (String × Value)} {s t : String} (h : s ≠ t) : Apart (.object ms) s t
  | indices {items : List Value} {s t : String} (h : Text.readIndex? s ≠ Text.readIndex? t) :
      Apart (.list items) s t

theorem Apart.symm {v : Value} {s t : String} (h : Apart v s t) : Apart v t s := by
  cases h with
  | keys h => exact .keys h.symm
  | indices h => exact .indices h.symm

theorem Apart.ne {v : Value} {s t : String} (h : Apart v s t) : s ≠ t := by
  cases h with
  | keys h => exact h
  | indices h => exact fun e => h (by rw [e])

theorem descend_object (ms : List (String × Value)) (s : String) :
    descend (.object ms) s = Entries.get? s ms := rfl

theorem descend_list {items : List Value} {s : String} {i : Nat} (h : Text.readIndex? s = some i) :
    descend (.list items) s = items[i]? := by
  unfold descend
  rw [h]
  rfl

theorem store?_object (s : String) (w : Value) (ms : List (String × Value)) :
    store? s w (.object ms) = some (.object (Entries.insert s w ms)) := rfl

theorem store?_list {s : String} {i : Nat} (h : Text.readIndex? s = some i) (w : Value)
    (items : List Value) :
    store? s w (.list items) = if i < items.length then some (.list (items.set i w)) else none := by
  unfold store?
  rw [h]
  rfl

/-- A list takes a value only at an index that it has. -/
theorem store?_list_eq_some {s : String} {w v' : Value} {items : List Value}
    (h : store? s w (.list items) = some v') :
    ∃ i, Text.readIndex? s = some i ∧ i < items.length ∧ v' = .list (items.set i w) := by
  cases hi : Text.readIndex? s with
  | none => simp [store?, hi] at h
  | some i =>
    rw [store?_list hi] at h
    split at h
    · next hlt => exact ⟨i, rfl, hlt, (Option.some.inj h).symm⟩
    · cases h

theorem descend_store? {s : String} {w v v' : Value} (h : store? s w v = some v') :
    descend v' s = some w := by
  cases v with
  | object ms =>
    rw [store?_object, Option.some.injEq] at h
    rw [← h, descend_object, Entries.get?_insert_self]
  | list items =>
    obtain ⟨i, hi, hlt, rfl⟩ := store?_list_eq_some h
    rw [descend_list hi, List.getElem?_set_self hlt]
  | _ => cases h

theorem descend_store?_of_apart {s t : String} {w v v' : Value} (h : store? s w v = some v')
    (hst : Apart v s t) : descend v' t = descend v t := by
  cases hst with
  | keys hst =>
    rw [store?_object, Option.some.injEq] at h
    rw [← h, descend_object, descend_object, Entries.get?_insert_of_ne hst]
  | indices hst =>
    obtain ⟨i, hi, -, rfl⟩ := store?_list_eq_some h
    cases hj : Text.readIndex? t with
    | none => simp [descend, hj]
    | some j =>
      have hij : i ≠ j := fun e => hst (by rw [hi, hj, e])
      rw [descend_list hj, descend_list hj, List.getElem?_set_ne hij]

/-- Storing the value that is there changes nothing. -/
theorem store?_self {s : String} {x v : Value} (h : descend v s = some x) :
    store? s x v = some v := by
  cases v with
  | object ms =>
    rw [descend_object] at h
    rw [store?_object, Entries.insert_of_get? h, Entries.update_of_get? h]
  | list items =>
    cases hi : Text.readIndex? s with
    | none => simp [descend, hi] at h
    | some i =>
      rw [descend_list hi] at h
      obtain ⟨hlt, rfl⟩ := List.getElem?_eq_some_iff.mp h
      rw [store?_list hi, if_pos hlt, List.set_getElem_self]
  | _ => cases h

/-- The last of two values stored at one place counts. -/
theorem store?_store? {s : String} {a b v v' : Value} (h : store? s a v = some v') :
    store? s b v' = store? s b v := by
  cases v with
  | object ms =>
    rw [store?_object, Option.some.injEq] at h
    rw [← h, store?_object, store?_object, Entries.insert_insert]
  | list items =>
    obtain ⟨i, hi, hlt, rfl⟩ := store?_list_eq_some h
    rw [store?_list hi, store?_list hi, List.length_set, if_pos hlt, if_pos hlt, List.set_set]
  | _ => cases h

/-- What has been stored takes no room away. -/
theorem store?_isSome_of_store? {s t : String} {a b v v' : Value} (h : store? s a v = some v')
    (ht : (store? t b v).isSome = true) : (store? t b v').isSome = true := by
  cases v with
  | object ms =>
    rw [store?_object, Option.some.injEq] at h
    rw [← h, store?_object]
    rfl
  | list items =>
    obtain ⟨i, hi, hlt, rfl⟩ := store?_list_eq_some h
    obtain ⟨u, hu⟩ := Option.isSome_iff_exists.mp ht
    obtain ⟨j, hj, hjl, -⟩ := store?_list_eq_some hu
    rw [store?_list hj, List.length_set, if_pos hjl]
    rfl
  | _ => cases h

theorem apart_of_store? {s t u : String} {w v v' : Value} (h : store? s w v = some v')
    (htu : Apart v t u) : Apart v' t u := by
  cases htu with
  | keys htu =>
    rw [store?_object, Option.some.injEq] at h
    rw [← h]
    exact .keys htu
  | indices htu =>
    obtain ⟨i, -, -, rfl⟩ := store?_list_eq_some h
    exact .indices htu

theorem store?_isSome_of_descend {s : String} {x v : Value} (h : descend v s = some x)
    (w : Value) : ∃ v', store? s w v = some v' := by
  have hs : store? s x v = some v := store?_self h
  cases v with
  | object ms => exact ⟨_, store?_object s w ms⟩
  | list items =>
    obtain ⟨i, hi, hlt, -⟩ := store?_list_eq_some hs
    exact ⟨_, by rw [store?_list hi, if_pos hlt]⟩
  | _ => cases hs

theorem modifyStep?_eq (s : String) (f : Value → Option Value) (v : Value) :
    modifyStep? s f v =
      (descend v s).bind fun x => (f x).bind fun w => store? s w v := by
  cases v with
  | object ms =>
    rw [descend_object]
    cases h : Entries.get? s ms with
    | none => simp [modifyStep?, h]
    | some x =>
      cases hf : f x with
      | none => simp [modifyStep?, h, hf]
      | some w => simp [modifyStep?, h, hf, store?_object, Entries.insert_of_get? h]
  | list items =>
    cases hi : Text.readIndex? s with
    | none => simp [modifyStep?, descend, hi]
    | some i =>
      rw [descend_list hi]
      cases h : items[i]? with
      | none => simp [modifyStep?, hi, h]
      | some x =>
        have hlt : i < items.length := (List.getElem?_eq_some_iff.mp h).1
        cases hf : f x with
        | none => simp [modifyStep?, hi, h, hf]
        | some w =>
          have hx : items[i] = x := (List.getElem?_eq_some_iff.mp h).2
          simp [modifyStep?, hi, hf, store?_list hi, hlt, hx]
  | _ => rfl

/-! ### All segments -/

theorem setSegments?_of_descend {s : String} {x v : Value} (h : descend v s = some x) (w : Value)
    (p : List String) :
    setSegments? w (s :: p) v = (setSegments? w p x).bind fun x' => store? s x' v := by
  cases p with
  | nil => rfl
  | cons t p =>
    show modifyStep? s (setSegments? w (t :: p)) v = _
    rw [modifyStep?_eq, h]
    rfl

theorem setSegments?_of_descend_none {s : String} {v : Value} (h : descend v s = none) (w : Value)
    (p : List String) :
    setSegments? w (s :: p) v = if p = [] then store? s w v else none := by
  cases p with
  | nil => rfl
  | cons t p =>
    show modifyStep? s (setSegments? w (t :: p)) v = _
    rw [modifyStep?_eq, h]
    rfl

/-- Whatever is stored further down, one value is stored at the first segment. -/
theorem exists_store?_of_setSegments? {s : String} {p : List String} {w v v' : Value}
    (h : setSegments? w (s :: p) v = some v') : ∃ x', store? s x' v = some v' := by
  cases hd : descend v s with
  | none =>
    rw [setSegments?_of_descend_none hd] at h
    split at h
    · exact ⟨w, h⟩
    · cases h
  | some x =>
    rw [setSegments?_of_descend hd] at h
    obtain ⟨x', -, h⟩ := Option.bind_eq_some_iff.mp h
    exact ⟨x', h⟩

theorem lookupSegments_append (p q : List String) (v : Value) :
    lookupSegments (p ++ q) v = (lookupSegments p v).bind (lookupSegments q) := by
  induction p generalizing v with
  | nil => rfl
  | cons s p ih =>
    show (descend v s).bind (lookupSegments (p ++ q)) = ((descend v s).bind _).bind _
    rw [Option.bind_assoc]
    congr 1
    funext x
    exact ih x

theorem lookupSegments_of_setSegments? {p : List String} {w v v' : Value}
    (h : setSegments? w p v = some v') : lookupSegments p v' = some w := by
  induction p generalizing v v' with
  | nil =>
    rw [← Option.some.inj h]
    rfl
  | cons s p ih =>
    show (descend v' s).bind (lookupSegments p) = some w
    cases hd : descend v s with
    | none =>
      rw [setSegments?_of_descend_none hd] at h
      split at h
      · next hp =>
        rw [hp, descend_store? h]
        rfl
      · cases h
    | some x =>
      rw [setSegments?_of_descend hd] at h
      obtain ⟨x', hx', h⟩ := Option.bind_eq_some_iff.mp h
      rw [descend_store? h]
      exact ih hx'

theorem setSegments?_of_lookupSegments {p : List String} {x v : Value}
    (h : lookupSegments p v = some x) : setSegments? x p v = some v := by
  induction p generalizing v with
  | nil =>
    rw [← Option.some.inj h]
    rfl
  | cons s p ih =>
    obtain ⟨y, hd, hy⟩ := Option.bind_eq_some_iff.mp h
    rw [setSegments?_of_descend hd, ih hy]
    exact store?_self hd

theorem setSegments?_setSegments? {p : List String} {a v v' : Value}
    (h : setSegments? a p v = some v') (b : Value) :
    setSegments? b p v' = setSegments? b p v := by
  induction p generalizing v v' with
  | nil => rfl
  | cons s p ih =>
    cases hd : descend v s with
    | none =>
      rw [setSegments?_of_descend_none hd] at h
      split at h
      · next hp =>
        subst hp
        exact store?_store? h
      · cases h
    | some x =>
      rw [setSegments?_of_descend hd] at h
      obtain ⟨x', hx', h⟩ := Option.bind_eq_some_iff.mp h
      rw [setSegments?_of_descend (descend_store? h), setSegments?_of_descend hd, ih hx']
      congr 1
      funext y
      exact store?_store? h

/-- Storing below a value is storing the changed value. -/
theorem setSegments?_append {p : List String} {r v : Value} (h : lookupSegments p r = some v)
    (q : List String) (w : Value) :
    setSegments? w (p ++ q) r = (setSegments? w q v).bind fun v' => setSegments? v' p r := by
  induction p generalizing r with
  | nil =>
    rw [← Option.some.inj h]
    exact (Option.bind_fun_some _).symm
  | cons s p ih =>
    obtain ⟨y, hd, hy⟩ := Option.bind_eq_some_iff.mp h
    rw [List.cons_append, setSegments?_of_descend hd, ih hy, Option.bind_assoc]
    congr 1
    funext v'
    exact (setSegments?_of_descend hd v' p).symm

/-! ### Room -/

/-- A value can be stored along the segments. -/
def Room (p : List String) (v : Value) : Prop := ∀ w, ∃ v', setSegments? w p v = some v'

theorem room_nil (v : Value) : Room [] v := fun w => ⟨w, rfl⟩

theorem room_singleton (s : String) (ms : List (String × Value)) : Room [s] (.object ms) :=
  fun w => ⟨_, store?_object s w ms⟩

theorem room_cons {s : String} {p : List String} {x v : Value} (h : descend v s = some x) :
    Room (s :: p) v ↔ Room p x := by
  constructor
  · intro hr w
    obtain ⟨v', hv'⟩ := hr w
    rw [setSegments?_of_descend h] at hv'
    obtain ⟨x', hx', -⟩ := Option.bind_eq_some_iff.mp hv'
    exact ⟨x', hx'⟩
  · intro hr w
    obtain ⟨x', hx'⟩ := hr w
    obtain ⟨v', hv'⟩ := store?_isSome_of_descend h x'
    exact ⟨v', by rw [setSegments?_of_descend h, hx']; exact hv'⟩

theorem room_append {p q : List String} {r v : Value} (h : lookupSegments p r = some v) :
    Room (p ++ q) r ↔ Room q v := by
  induction p generalizing r with
  | nil =>
    rw [← Option.some.inj h]
    rfl
  | cons s p ih =>
    obtain ⟨y, hd, hy⟩ := Option.bind_eq_some_iff.mp h
    rw [List.cons_append, room_cons hd, ih hy]

theorem room_of_lookupSegments {p : List String} {x v : Value} (h : lookupSegments p v = some x) :
    Room p v := by
  have hr : Room (p ++ []) v := (room_append h).mpr (room_nil x)
  rwa [List.append_nil] at hr

/-! ### Divergence -/

/-- Two lists of segments part at a container on their way into a value. -/
inductive Diverge : Value → List String → List String → Prop
  | here {v : Value} {s t : String} (p q : List String) (h : Apart v s t) :
      Diverge v (s :: p) (t :: q)
  | under {v x : Value} {s : String} {p q : List String} (hd : descend v s = some x)
      (h : Diverge x p q) : Diverge v (s :: p) (s :: q)

namespace Diverge

variable {v v' w : Value} {p q r : List String}

theorem symm (h : Diverge v p q) : Diverge v q p := by
  induction h with
  | here p q h => exact .here q p h.symm
  | under hd _ ih => exact .under hd ih

/-- What is stored along one list of segments is not seen along another. -/
theorem lookupSegments (h : Diverge v p q) (hs : setSegments? w p v = some v') :
    lookupSegments q v' = lookupSegments q v := by
  induction h generalizing v' with
  | @here v s t p q h =>
    obtain ⟨x', hx'⟩ := exists_store?_of_setSegments? hs
    show (descend v' t).bind _ = (descend v t).bind _
    rw [descend_store?_of_apart hx' h]
  | @under v x s p q hd h ih =>
    rw [setSegments?_of_descend hd] at hs
    obtain ⟨x', hx', hs⟩ := Option.bind_eq_some_iff.mp hs
    show (descend v' s).bind _ = (descend v s).bind _
    rw [descend_store? hs, hd]
    exact ih hx'

theorem room (h : Diverge v p q) (hq : Room q v) (hs : setSegments? w p v = some v') :
    Room q v' := by
  induction h generalizing v' with
  | @here v s t p q h =>
    obtain ⟨x', hx'⟩ := exists_store?_of_setSegments? hs
    cases hd : descend v t with
    | some y =>
      rw [room_cons hd] at hq
      rwa [room_cons ((descend_store?_of_apart hx' h).trans hd)]
    | none =>
      have hd' : descend v' t = none := (descend_store?_of_apart hx' h).trans hd
      intro w
      obtain ⟨u, hu⟩ := hq w
      rw [setSegments?_of_descend_none hd] at hu
      rw [setSegments?_of_descend_none hd']
      split at hu
      · next hp =>
        rw [if_pos hp]
        have ht : (store? t w v).isSome = true := by rw [hu]; rfl
        exact Option.isSome_iff_exists.mp (store?_isSome_of_store? hx' ht)
      · cases hu
  | @under v x s p q hd h ih =>
    rw [setSegments?_of_descend hd] at hs
    obtain ⟨x', hx', hs⟩ := Option.bind_eq_some_iff.mp hs
    rw [room_cons hd] at hq
    rw [room_cons (descend_store? hs)]
    exact ih hq hx'

/-- What is stored elsewhere leaves two lists of segments apart. -/
theorem of_setSegments? (hqr : Diverge v q r) (hpq : Diverge v p q) (hpr : Diverge v p r)
    (hs : setSegments? w p v = some v') : Diverge v' q r := by
  induction hqr generalizing v' p with
  | @here v t u q r h =>
    obtain ⟨s, p', rfl⟩ : ∃ s p', p = s :: p' := by cases hpq <;> exact ⟨_, _, rfl⟩
    obtain ⟨x', hx'⟩ := exists_store?_of_setSegments? hs
    exact .here q r (apart_of_store? hx' h)
  | @under v x t q r hd h ih =>
    cases hpq with
    | here _ _ hst =>
      obtain ⟨x', hx'⟩ := exists_store?_of_setSegments? hs
      exact .under ((descend_store?_of_apart hx' hst).trans hd) h
    | under hd' hpq =>
      cases hpr with
      | here _ _ hst => exact absurd rfl hst.ne
      | under hd'' hpr =>
        rw [hd, Option.some.injEq] at hd' hd''
        subst hd'
        subst hd''
        rw [setSegments?_of_descend hd] at hs
        obtain ⟨x', hx', hs⟩ := Option.bind_eq_some_iff.mp hs
        exact .under (descend_store? hs) (ih hpq hpr hx')

end Diverge

/-! ### Paths -/

variable {p q : Path} {v w x : Value}

theorem ext_iff {p q : Path} : p = q ↔ p.segments = q.segments := by
  cases p
  cases q
  simp

@[simp] theorem segments_append (p q : Path) : (p ++ q).segments = p.segments ++ q.segments := rfl

@[simp] theorem segments_child (p : Path) (s : String) :
    (p.child s).segments = p.segments ++ [s] := rfl

@[simp] theorem segments_root : root.segments = [] := rfl

theorem append_assoc (p q r : Path) : p ++ q ++ r = p ++ (q ++ r) :=
  ext_iff.mpr (List.append_assoc ..)

@[simp] theorem root_append (p : Path) : root ++ p = p := rfl

@[simp] theorem append_root (p : Path) : p ++ root = p := ext_iff.mpr (List.append_nil _)

@[simp] theorem lookup_root (v : Value) : root.lookup v = some v := rfl

theorem lookup_child_root (s : String) (v : Value) : (root.child s).lookup v = descend v s :=
  Option.bind_fun_some _

theorem lookup_append (p q : Path) (v : Value) :
    (p ++ q).lookup v = (p.lookup v).bind q.lookup := lookupSegments_append ..

/-- A value can be stored at the path. -/
def HasRoom (p : Path) (v : Value) : Prop := Room p.segments v

theorem set_eq {w v v' : Value} (h : setSegments? w p.segments v = some v') : p.set w v = v' := by
  unfold set set?
  rw [h]
  rfl

theorem HasRoom.set? (h : p.HasRoom v) (w : Value) :
    setSegments? w p.segments v = some (p.set w v) := by
  obtain ⟨v', hv'⟩ := h w
  rw [set_eq hv', hv']

theorem lookup_set (h : p.HasRoom v) (w : Value) : p.lookup (p.set w v) = some w :=
  lookupSegments_of_setSegments? (h.set? w)

/-- Storing the value at a path changes nothing. -/
theorem set_of_lookup (h : p.lookup v = some x) : p.set x v = v :=
  set_eq (setSegments?_of_lookupSegments h)

theorem set_set (p : Path) (a b v : Value) : p.set b (p.set a v) = p.set b v := by
  cases h : setSegments? a p.segments v with
  | none =>
    have hv : p.set a v = v := by unfold set set?; rw [h]; rfl
    rw [hv]
  | some v' =>
    rw [set_eq h]
    cases hb : setSegments? b p.segments v with
    | some u =>
      rw [set_eq hb]
      exact set_eq ((setSegments?_setSegments? h b).trans hb)
    | none =>
      obtain ⟨u, hu⟩ := room_of_lookupSegments (lookupSegments_of_setSegments? h) b
      rw [setSegments?_setSegments? h, hb] at hu
      cases hu

theorem hasRoom_of_lookup (h : p.lookup v = some x) : p.HasRoom v := room_of_lookupSegments h

theorem hasRoom_append (h : p.lookup v = some x) : (p ++ q).HasRoom v ↔ q.HasRoom x :=
  room_append h

theorem set_append (h : p.lookup v = some x) (hq : q.HasRoom x) (w : Value) :
    (p ++ q).set w v = p.set (q.set w x) v := by
  apply set_eq
  rw [segments_append, setSegments?_append h, hq.set? w]
  exact (hasRoom_of_lookup h).set? _

/-- Two paths part inside a value. -/
def Diverges (v : Value) (p q : Path) : Prop := Diverge v p.segments q.segments

theorem Diverges.symm (h : Diverges v p q) : Diverges v q p := Diverge.symm h

theorem Diverges.lookup_set (h : Diverges v p q) (hp : p.HasRoom v) (w : Value) :
    q.lookup (p.set w v) = q.lookup v := Diverge.lookupSegments h (hp.set? w)

theorem Diverges.hasRoom_set (h : Diverges v p q) (hp : p.HasRoom v) (hq : q.HasRoom v)
    (w : Value) : q.HasRoom (p.set w v) := Diverge.room h hq (hp.set? w)

theorem Diverges.set {r : Path} (hqr : Diverges v q r) (hpq : Diverges v p q)
    (hpr : Diverges v p r) (hp : p.HasRoom v) (w : Value) : Diverges (p.set w v) q r :=
  Diverge.of_setSegments? hqr hpq hpr (hp.set? w)

/-! ### Indices -/

/-- The segment of a list index. -/
def indexText (i : Nat) : String := String.ofList (Nat.toDigits 10 i)

theorem index_eq (p : Path) (i : Nat) : p.index i = p.child (indexText i) := rfl

/-- The segment of an index is read as that index. -/
theorem readIndex?_indexText (i : Nat) : Text.readIndex? (indexText i) = some i := by
  have hdigits : ∀ c ∈ Nat.toDigits 10 i, c.isDigit = true := fun c hc =>
    Nat.isDigit_of_mem_toDigits (by decide) (by decide) hc
  have hplus : ∀ ds, Nat.toDigits 10 i ≠ '+' :: ds := by
    intro ds e
    have h := hdigits '+' (by rw [e]; exact List.mem_cons_self)
    exact absurd h (by decide)
  unfold Text.readIndex?
  simp only [indexText, String.toList_ofList]
  rw [if_pos ⟨Nat.toDigits_ne_nil, List.all_eq_true.mpr hdigits⟩]
  exact congrArg some Nat.ofDigitChars_ten_toDigits

theorem descend_indexText (items : List Value) (i : Nat) :
    descend (.list items) (indexText i) = items[i]? := descend_list (readIndex?_indexText i)

theorem store?_indexText {i : Nat} {items : List Value} (h : i < items.length) (w : Value) :
    store? (indexText i) w (.list items) = some (.list (items.set i w)) := by
  rw [store?_list (readIndex?_indexText i), if_pos h]

theorem apart_indexText {i j : Nat} (h : i ≠ j) (items : List Value) :
    Apart (.list items) (indexText i) (indexText j) := by
  refine .indices fun e => h ?_
  rw [readIndex?_indexText, readIndex?_indexText] at e
  exact Option.some.inj e

/-! ### Weight -/

theorem weight_pos (v : Value) : 0 < v.weight := by
  cases v <;> simp only [Value.weight] <;> omega

theorem weight_le_weightItems {x : Value} {items : List Value} (h : x ∈ items) :
    x.weight ≤ Value.weightItems items := by
  induction items with
  | nil => cases h
  | cons y items ih =>
    simp only [Value.weightItems]
    rcases List.mem_cons.mp h with rfl | h
    · omega
    · have := ih h
      omega

theorem weight_le_weightMembers {k : String} {x : Value} {ms : List (String × Value)}
    (h : (k, x) ∈ ms) : x.weight < Value.weightMembers ms := by
  induction ms with
  | nil => cases h
  | cons e ms ih =>
    obtain ⟨l, y⟩ := e
    simp only [Value.weightMembers]
    rcases List.mem_cons.mp h with h | h
    · cases h
      omega
    · have := ih h
      omega

theorem weight_lt_of_mem_items {x : Value} {items : List Value} (h : x ∈ items) :
    x.weight < (Value.list items).weight := by
  have := weight_le_weightItems h
  simp only [Value.weight]
  omega

theorem weight_lt_of_mem_members {k : String} {x : Value} {ms : List (String × Value)}
    (h : (k, x) ∈ ms) : x.weight < (Value.object ms).weight := by
  have := weight_le_weightMembers h
  simp only [Value.weight]
  omega

/-- A part of a container weighs less than the container. -/
theorem weight_descend {s : String} {v x : Value} (h : descend v s = some x) :
    x.weight < v.weight := by
  cases v with
  | object ms => exact weight_lt_of_mem_members (Entries.mem_of_get? h)
  | list items =>
    cases hi : Text.readIndex? s with
    | none => simp [descend, hi] at h
    | some i =>
      rw [descend_list hi] at h
      exact weight_lt_of_mem_items (List.mem_of_getElem? h)
  | _ => cases h

theorem weight_lookupSegments {p : List String} {v x : Value} (h : lookupSegments p v = some x) :
    x.weight ≤ v.weight ∧ (p ≠ [] → x.weight < v.weight) := by
  induction p generalizing v with
  | nil =>
    rw [← Option.some.inj h]
    exact ⟨Nat.le_refl _, fun hp => absurd rfl hp⟩
  | cons s p ih =>
    obtain ⟨y, hd, hy⟩ := Option.bind_eq_some_iff.mp h
    have hlt := weight_descend hd
    have hle := (ih hy).1
    exact ⟨by omega, fun _ => by omega⟩

theorem weight_lookup {p : Path} {v x : Value} (h : p.lookup v = some x)
    (hp : p.segments ≠ []) : x.weight < v.weight := (weight_lookupSegments h).2 hp

end ContentSchema.Path
