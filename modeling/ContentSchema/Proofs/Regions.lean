import Mathlib.Data.Set.Basic
import ContentSchema.Proofs.MemberLaws

/-!
# Regions — values that agree off a region

A path names a place by segments, and segments that are read as one index lead to one place.  A
place is therefore given by positions: one number for each container on the way down.
`AgreesOff T v w` says that two values have the same scalars, the same keys and the same lengths at
every place outside the region `T`, in which nothing is a text that was not there before.  Storing
below one place changes a value inside a region only (`AgreesOff.set`), and such changes compose
(`AgreesOff.trans`).
-/

namespace ContentSchema

/-! ### Nodes -/

/-- What a value is apart from the values in it. -/
inductive Node
  | null
  | bool (b : Bool)
  | number (n : Number)
  | string (s : String)
  | list (length : Nat)
  | object (keys : List String)
deriving DecidableEq

/-- The position of the part that a segment leads to. -/
def Node.position? : Node → String → Option Nat
  | .list _, s => Text.readIndex? s
  | .object keys, s => keys.findIdx? (· == s)
  | _, _ => none

namespace Value

def node : Value → Node
  | .null => .null
  | .bool b => .bool b
  | .number n => .number n
  | .string s => .string s
  | .list items => .list items.length
  | .object ms => .object (Entries.keys ms)

/-- The values in a container. -/
def parts : Value → List Value
  | .list items => items
  | .object ms => ms.map (·.2)
  | _ => []

variable {v w : Value}

theorem node_list {n : Nat} (h : w.node = .list n) :
    ∃ items, w = .list items ∧ items.length = n := by
  cases w with
  | list items => exact ⟨items, rfl, Node.list.inj h⟩
  | _ => cases h

theorem node_object {keys : List String} (h : w.node = .object keys) :
    ∃ ms, w = .object ms ∧ Entries.keys ms = keys := by
  cases w with
  | object ms => exact ⟨ms, rfl, Node.object.inj h⟩
  | _ => cases h

theorem node_string {s : String} (h : w.node = .string s) : w = .string s := by
  cases w with
  | string s => rw [Node.string.inj h]
  | _ => cases h

theorem length_parts (h : w.node = v.node) : w.parts.length = v.parts.length := by
  cases v with
  | list items =>
    obtain ⟨others, rfl, hlen⟩ := node_list h
    exact hlen
  | object ms =>
    obtain ⟨ns, rfl, hkeys⟩ := node_object h
    simpa [parts, Entries.keys] using congrArg List.length hkeys
  | _ => cases w <;> first | rfl | cases h

/-- A value is its node and its parts. -/
theorem eq_of_parts (h : w.node = v.node) (hparts : w.parts = v.parts) : w = v := by
  cases v with
  | list items =>
    obtain ⟨others, rfl, -⟩ := node_list h
    exact congrArg list hparts
  | object ms =>
    obtain ⟨ns, rfl, hkeys⟩ := node_object h
    have hzip : ∀ es : List (String × Value), (Entries.keys es).zip (es.map (·.2)) = es :=
      fun es => by
        have hes := List.zip_unzip es
        rwa [List.unzip_eq_map] at hes
    have hms : ns.map (·.2) = ms.map (·.2) := hparts
    rw [← hzip ns, ← hzip ms, hkeys, hms]
  | _ => cases w <;> first | rfl | cases h <;> rfl

/-- A segment leads to the part at its position. -/
theorem descend_eq (v : Value) (s : String) :
    Path.descend v s = (v.node.position? s).bind (v.parts[·]?) := by
  cases v with
  | list items => rfl
  | object ms =>
    show Entries.get? s ms = ((Entries.keys ms).findIdx? (· == s)).bind ((ms.map (·.2))[·]?)
    induction ms with
    | nil => rfl
    | cons e ms ih =>
      have hkeys : Entries.keys (e :: ms) = e.1 :: Entries.keys ms := rfl
      rw [Entries.get?_cons, ih, hkeys, List.findIdx?_cons]
      by_cases hs : e.1 = s
      · simp [hs]
      · simp only [hs, beq_iff_eq, if_false, Option.bind_map]
        rfl
  | _ => rfl

theorem weight_lt_of_mem_parts (h : w ∈ v.parts) : w.weight < v.weight := by
  cases v with
  | list items => exact Path.weight_lt_of_mem_items h
  | object ms =>
    obtain ⟨e, he, rfl⟩ := List.mem_map.mp h
    exact Path.weight_lt_of_mem_members he
  | _ => cases h

/-- Storing in the place of a part leaves the node and all other parts. -/
theorem parts_store? {s : String} {i : Nat} {x z v' : Value} (hi : v.node.position? s = some i)
    (hx : v.parts[i]? = some x) (h : Path.store? s z v = some v') :
    v'.node = v.node ∧ v'.parts = v.parts.set i z := by
  cases v with
  | list items =>
    obtain ⟨j, hj, hlt, rfl⟩ := Path.store?_list_eq_some h
    obtain rfl := Option.some.inj (hj.symm.trans hi)
    exact ⟨congrArg Node.list List.length_set, rfl⟩
  | object ms =>
    have hget : Entries.get? s ms = some x := by
      have := descend_eq (.object ms) s
      rw [hi] at this
      exact this.trans hx
    rw [Path.store?_object, Entries.insert_of_get? hget, Option.some.injEq] at h
    subst h
    clear hget hx
    show Node.object _ = Node.object _ ∧ List.map _ _ = List.set (List.map _ _) i z
    replace hi : (Entries.keys ms).findIdx? (· == s) = some i := hi
    induction ms generalizing i with
    | nil => cases hi
    | cons e ms ih =>
      rw [Entries.keys, List.map_cons, List.findIdx?_cons] at hi
      by_cases hs : e.1 = s
      · obtain rfl : 0 = i := by simpa [hs] using hi
        simp [Entries.update, hs, Entries.keys]
      · simp only [hs, beq_iff_eq, if_false] at hi
        obtain ⟨j, hj, rfl⟩ := Option.map_eq_some_iff.mp hi
        obtain ⟨hnode, hparts⟩ := ih hj
        have hupdate : Entries.update s (fun _ => z) (e :: ms) =
            e :: Entries.update s (fun _ => z) ms := by
          simp [Entries.update, hs]
        rw [hupdate, List.map_cons, hparts]
        exact ⟨congrArg (fun keys => Node.object (e.1 :: keys)) (Node.object.inj hnode), rfl⟩
  | _ => cases hi

end Value

/-! ### Places -/

namespace Path

/-- The place that segments lead to: a position for each container on the way. -/
def placeOf? : List String → Value → Option (List Nat)
  | [], _ => some []
  | s :: p, v => do
    let i ← v.node.position? s
    let x ← v.parts[i]?
    (placeOf? p x).map (i :: ·)

/-- The place of a path, if there is something at it. -/
def place? (p : Path) (v : Value) : Option (List Nat) := placeOf? p.segments v

variable {v x : Value} {s : String} {p q : List String} {i : Nat} {π ρ : List Nat}

theorem exists_position?_of_descend (h : descend v s = some x) :
    ∃ i, v.node.position? s = some i ∧ v.parts[i]? = some x := by
  rw [Value.descend_eq] at h
  exact Option.bind_eq_some_iff.mp h

theorem descend_of_position? (hi : v.node.position? s = some i) (hx : v.parts[i]? = some x) :
    descend v s = some x := by
  rw [Value.descend_eq, hi]
  exact hx

theorem placeOf?_cons (hi : v.node.position? s = some i) (hx : v.parts[i]? = some x)
    (p : List String) : placeOf? (s :: p) v = (placeOf? p x).map (i :: ·) := by
  rw [placeOf?, hi, Option.bind_eq_bind, Option.bind_some, hx]
  rfl

theorem placeOf?_of_descend_none (h : descend v s = none) (p : List String) :
    placeOf? (s :: p) v = none := by
  rw [Value.descend_eq] at h
  rw [placeOf?]
  cases hi : v.node.position? s with
  | none => rfl
  | some i =>
    rw [hi, Option.bind_some] at h
    rw [Option.bind_eq_bind, Option.bind_some, h]
    rfl

/-- Where there is a value there is a place. -/
theorem exists_placeOf? (h : lookupSegments p v = some x) : ∃ π, placeOf? p v = some π := by
  induction p generalizing v with
  | nil => exact ⟨[], rfl⟩
  | cons s p ih =>
    obtain ⟨y, hd, hy⟩ := Option.bind_eq_some_iff.mp h
    obtain ⟨i, hi, hiy⟩ := exists_position?_of_descend hd
    obtain ⟨π, hπ⟩ := ih hy
    exact ⟨i :: π, by rw [placeOf?_cons hi hiy, hπ]; rfl⟩

/-- The place of a path through a value is that of the value and the place inside it. -/
theorem placeOf?_append : placeOf? (p ++ q) v = some π ↔ ∃ x κ ρ, lookupSegments p v = some x ∧
    placeOf? p v = some κ ∧ placeOf? q x = some ρ ∧ π = κ ++ ρ := by
  induction p generalizing v π with
  | nil =>
    constructor
    · exact fun h => ⟨v, [], π, rfl, rfl, h, rfl⟩
    · rintro ⟨x, κ, ρ, hx, hκ, hρ, rfl⟩
      obtain rfl := Option.some.inj hx
      obtain rfl := Option.some.inj hκ
      exact hρ
  | cons s p ih =>
    cases hd : descend v s with
    | none =>
      rw [List.cons_append, lookupSegments, placeOf?_of_descend_none hd, hd]
      exact ⟨nofun, fun ⟨_, _, _, h, _⟩ => nomatch h⟩
    | some y =>
      obtain ⟨i, hi, hy⟩ := exists_position?_of_descend hd
      rw [List.cons_append, placeOf?_cons hi hy, lookupSegments, hd, placeOf?_cons hi hy]
      constructor
      · intro h
        obtain ⟨π', hπ', rfl⟩ := Option.map_eq_some_iff.mp h
        obtain ⟨x, κ, ρ, hx, hκ, hρ, rfl⟩ := ih.mp hπ'
        exact ⟨x, i :: κ, ρ, hx, by rw [hκ]; rfl, hρ, rfl⟩
      · rintro ⟨x, κ, ρ, hx, hκ, hρ, rfl⟩
        obtain ⟨κ', hκ', rfl⟩ := Option.map_eq_some_iff.mp hκ
        rw [ih.mpr ⟨x, κ', ρ, hx, hκ', hρ, rfl⟩]
        rfl

theorem placeOf?_cons_ne (h : placeOf? (s :: p) v = some π) : π ≠ [] := by
  cases hd : descend v s with
  | none =>
    rw [placeOf?_of_descend_none hd] at h
    cases h
  | some x =>
    obtain ⟨i, hi, hx⟩ := exists_position?_of_descend hd
    rw [placeOf?_cons hi hx] at h
    obtain ⟨κ, -, rfl⟩ := Option.map_eq_some_iff.mp h
    exact List.cons_ne_nil i κ

/-- A path leads through every place that its own place is inside of. -/
theorem exists_append_of_placeOf? (h : placeOf? p v = some (π ++ ρ)) :
    ∃ q r, p = q ++ r ∧ placeOf? q v = some π := by
  induction π generalizing p v with
  | nil => exact ⟨[], p, rfl, rfl⟩
  | cons i π ih =>
    cases p with
    | nil => cases h
    | cons s p =>
      cases hd : descend v s with
      | none =>
        rw [placeOf?_of_descend_none hd] at h
        cases h
      | some x =>
        obtain ⟨j, hj, hx⟩ := exists_position?_of_descend hd
        rw [placeOf?_cons hj hx] at h
        obtain ⟨κ, hκ, heq⟩ := Option.map_eq_some_iff.mp h
        obtain ⟨rfl, rfl⟩ := List.cons.inj heq
        obtain ⟨q, r, rfl, hq⟩ := ih hκ
        exact ⟨s :: q, r, rfl, by rw [placeOf?_cons hj hx, hq]; rfl⟩

end Path

/-! ### Regions -/

/-- Places of a value. -/
abbrev Region := Set (List Nat)

namespace Region

variable {T U : Region} {π ρ : List Nat}

/-- The region inside the value at a place. -/
def below (T : Region) (π : List Nat) : Region := {ρ | π ++ ρ ∈ T}

/-- The places of a region, seen from a container that has the value at a place. -/
def above (T : Region) (π : List Nat) : Region := {κ | ∃ ρ ∈ T, κ = π ++ ρ}

/-- A place is in the region or inside a place of it. -/
def Covers (T : Region) (π : List Nat) : Prop := ∃ κ ρ, π = κ ++ ρ ∧ κ ∈ T

theorem covers_of_mem (h : π ∈ T) : T.Covers π := ⟨π, [], (List.append_nil π).symm, h⟩

theorem covers_of_nil (h : [] ∈ T) (π : List Nat) : T.Covers π := ⟨[], π, rfl, h⟩

theorem covers_nil : T.Covers [] ↔ [] ∈ T := by
  refine ⟨fun ⟨κ, ρ, h, hκ⟩ => ?_, covers_of_mem⟩
  rwa [(List.append_eq_nil_iff.mp h.symm).1] at hκ

theorem Covers.append (h : T.Covers π) (ρ : List Nat) : T.Covers (π ++ ρ) := by
  obtain ⟨κ, κ', rfl, hκ⟩ := h
  exact ⟨κ, κ' ++ ρ, List.append_assoc .., hκ⟩

theorem Covers.of_below (h : (T.below π).Covers ρ) : T.Covers (π ++ ρ) := by
  obtain ⟨κ, κ', rfl, hκ⟩ := h
  exact ⟨π ++ κ, κ', (List.append_assoc ..).symm, hκ⟩

/-- What covers a place does so in its first container or inside it. -/
theorem covers_cons {i : Nat} (h : T.Covers (i :: π)) : [] ∈ T ∨ (T.below [i]).Covers π := by
  obtain ⟨κ, ρ, heq, hκ⟩ := h
  cases κ with
  | nil => exact .inl hκ
  | cons j κ =>
    obtain ⟨rfl, rfl⟩ := List.cons.inj heq
    exact .inr ⟨κ, ρ, rfl, hκ⟩

end Region

/-! ### Agreement -/

/-- Two values agree off a region, in which nothing becomes a text. -/
inductive AgreesOff : Region → Value → Value → Prop
  | inside {T : Region} {v w : Value} (h : [] ∈ T) (text : ∀ s, w = .string s → v = .string s) :
      AgreesOff T v w
  | outside {T : Region} {v w : Value} (node : w.node = v.node)
      (parts : ∀ i x y, v.parts[i]? = some x → w.parts[i]? = some y → AgreesOff (T.below [i]) x y) :
      AgreesOff T v w

/-- How a path goes in two values that agree off a region. -/
inductive Trail (T : Region) (v w : Value) (p : List String) : Prop
  /-- It comes to the region. -/
  | enters (q r : List String) (π : List Nat) (path : p = q ++ r)
      (old : Path.placeOf? q v = some π) (new : Path.placeOf? q w = some π) (region : π ∈ T)
  /-- It leads nowhere. -/
  | ends (old : Path.lookupSegments p v = none) (new : Path.lookupSegments p w = none)
  /-- It leads to values that agree in turn. -/
  | reaches (π : List Nat) (x y : Value) (old : Path.placeOf? p v = some π)
      (new : Path.placeOf? p w = some π) (oldValue : Path.lookupSegments p v = some x)
      (newValue : Path.lookupSegments p w = some y) (agrees : AgreesOff (T.below π) x y)

namespace AgreesOff

variable {T U : Region} {u v w x y z : Value} {p : List String} {π : List Nat}

theorem refl (T : Region) (v : Value) : AgreesOff T v v := by
  induction v using Value.weightInduction generalizing T with
  | step v ih =>
    refine .outside rfl fun i x y hx hy => ?_
    rw [hx] at hy
    rw [← Option.some.inj hy]
    exact ih x (Value.weight_lt_of_mem_parts (List.mem_of_getElem? hx)) _

theorem mono (h : AgreesOff T v w) (hTU : T ⊆ U) : AgreesOff U v w := by
  induction h generalizing U with
  | inside h text => exact .inside (hTU h) text
  | outside node _ ih => exact .outside node fun i x y hx hy => ih i x y hx hy fun _ hρ => hTU hρ

/-- A text was there before. -/
theorem string {s : String} (h : AgreesOff T v w) (hw : w = .string s) : v = .string s := by
  cases h with
  | inside _ text => exact text s hw
  | outside node _ =>
    rw [hw] at node
    exact Value.node_string node.symm

/-- Changes inside one region after changes inside a greater one. -/
theorem trans (h : AgreesOff T v w) (h' : AgreesOff U w z) (hUT : ∀ π ∈ U, T.Covers π) :
    AgreesOff T v z := by
  induction h generalizing U z with
  | inside hT text => exact .inside hT fun s hs => text s (h'.string hs)
  | @outside T v w node parts ih =>
    by_cases hT : [] ∈ T
    · exact .inside hT fun s hs => (outside node parts : AgreesOff T v w).string (h'.string hs)
    · cases h' with
      | inside hU _ => exact absurd (Region.covers_nil.mp (hUT [] hU)) hT
      | outside node' parts' =>
        refine .outside (node'.trans node) fun i x y hx hy => ?_
        have hi : i < w.parts.length := by
          rw [Value.length_parts node]
          exact (List.getElem?_eq_some_iff.mp hx).1
        have hw := List.getElem?_eq_getElem hi
        refine ih i x _ hx hw (parts' i _ y hw hy) fun ρ hρ => ?_
        exact (Region.covers_cons (hUT (i :: ρ) hρ)).resolve_left hT

/-- Nothing changes off a region without places. -/
theorem eq_of_empty (h : AgreesOff T v w) (hT : ∀ π, π ∉ T) : w = v := by
  induction h with
  | inside h _ => exact absurd h (hT [])
  | @outside T v w node _ ih =>
    refine Value.eq_of_parts node (List.ext_getElem? fun i => ?_)
    cases hx : v.parts[i]? with
    | none =>
      rw [List.getElem?_eq_none_iff] at hx ⊢
      rwa [Value.length_parts node]
    | some x =>
      have hi : i < w.parts.length := by
        rw [Value.length_parts node]
        exact (List.getElem?_eq_some_iff.mp hx).1
      have hw := List.getElem?_eq_getElem hi
      rw [hw]
      exact congrArg some (ih i x _ hx hw fun ρ => hT (i :: ρ))

/-- A path goes the same way in both values until it comes to the region. -/
theorem trail (h : AgreesOff T v w) (p : List String) : Trail T v w p := by
  induction p generalizing T v w with
  | nil => exact .reaches [] v w rfl rfl rfl rfl h
  | cons s p ih =>
    cases h with
    | inside h _ => exact .enters [] (s :: p) [] rfl rfl rfl h
    | outside node parts =>
      have hnone : ∀ u : Value, Path.descend u s = none →
          Path.lookupSegments (s :: p) u = none := fun u hu => by
        rw [Path.lookupSegments, hu]
        rfl
      cases hi : v.node.position? s with
      | none =>
        refine .ends (hnone v ?_) (hnone w ?_)
        · rw [Value.descend_eq, hi]
          rfl
        · rw [Value.descend_eq, node, hi]
          rfl
      | some i =>
        have hi' : w.node.position? s = some i := node ▸ hi
        cases hx : v.parts[i]? with
        | none =>
          refine .ends (hnone v ?_) (hnone w ?_)
          · rw [Value.descend_eq, hi]
            exact hx
          · rw [Value.descend_eq, hi']
            refine List.getElem?_eq_none_iff.mpr ?_
            rw [Value.length_parts node]
            exact List.getElem?_eq_none_iff.mp hx
        | some x =>
          have hlt : i < w.parts.length := by
            rw [Value.length_parts node]
            exact (List.getElem?_eq_some_iff.mp hx).1
          have hy := List.getElem?_eq_getElem hlt
          have hdv := Path.descend_of_position? hi hx
          have hdw := Path.descend_of_position? hi' hy
          cases ih (parts i x _ hx hy) with
          | enters q r π path old new region =>
            refine .enters (s :: q) r (i :: π) (congrArg (s :: ·) path) ?_ ?_ region
            · rw [Path.placeOf?_cons hi hx, old]
              rfl
            · rw [Path.placeOf?_cons hi' hy, new]
              rfl
          | ends old new =>
            refine .ends ?_ ?_
            · rw [Path.lookupSegments, hdv]
              exact old
            · rw [Path.lookupSegments, hdw]
              exact new
          | reaches π x' y' old new oldValue newValue agrees =>
            refine .reaches (i :: π) x' y' ?_ ?_ ?_ ?_ agrees
            · rw [Path.placeOf?_cons hi hx, old]
              rfl
            · rw [Path.placeOf?_cons hi' hy, new]
              rfl
            · rw [Path.lookupSegments, hdv]
              exact oldValue
            · rw [Path.lookupSegments, hdw]
              exact newValue

/-- What a path leads to was there before, unless it leads through the region. -/
theorem lookup {p : Path} (h : AgreesOff T v w) (hy : p.lookup w = some y)
    (hπ : p.place? w = some π) :
    T.Covers π ∨ ∃ x, p.lookup v = some x ∧ p.place? v = some π ∧ AgreesOff (T.below π) x y := by
  cases h.trail p.segments with
  | enters q r κ path _ new region =>
    have hplace : Path.placeOf? (q ++ r) w = some π := path ▸ hπ
    obtain ⟨_, κ', ρ, _, hq, -, rfl⟩ := Path.placeOf?_append.mp hplace
    obtain rfl := Option.some.inj (new.symm.trans hq)
    exact .inl ((Region.covers_of_mem region).append ρ)
  | ends _ new => cases new.symm.trans hy
  | reaches κ x y' old new oldValue newValue agrees =>
    obtain rfl := Option.some.inj (newValue.symm.trans hy)
    obtain rfl := Option.some.inj (new.symm.trans hπ)
    exact .inr ⟨x, oldValue, old, agrees⟩

/-- What a path leads to outside the region is the same apart from the values in it. -/
theorem node_lookup {p : Path} (h : AgreesOff T v w)
    (hp : ∀ q r π, p.segments = q ++ r → Path.placeOf? q v = some π → π ∉ T) :
    (p.lookup w).map Value.node = (p.lookup v).map Value.node := by
  cases h.trail p.segments with
  | enters q r π path old _ region => exact absurd region (hp q r π path old)
  | ends old new => rw [Path.lookup, Path.lookup, old, new]
  | reaches π x y old _ oldValue newValue agrees =>
    rw [Path.lookup, Path.lookup, oldValue, newValue]
    cases agrees with
    | inside hπ _ =>
      have hπ : π ++ [] ∈ T := hπ
      rw [List.append_nil] at hπ
      exact absurd hπ (hp p.segments [] π (List.append_nil _).symm old)
    | outside node _ => exact congrArg some node

/-- What a path leads to is the same where it meets the region neither on its way nor behind. -/
theorem lookup_eq {p : Path} (h : AgreesOff T v w)
    (hp : ∀ q r π, p.segments = q ++ r → Path.placeOf? q v = some π → π ∉ T)
    (hbelow : ∀ π, p.place? v = some π → ∀ ρ, π ++ ρ ∉ T) : p.lookup w = p.lookup v := by
  cases h.trail p.segments with
  | enters q r π path old _ region => exact absurd region (hp q r π path old)
  | ends old new => exact new.trans old.symm
  | reaches π x y old _ oldValue newValue agrees =>
    rw [Path.lookup, Path.lookup, oldValue, newValue, agrees.eq_of_empty (hbelow π old)]

/-- Storing a changed value back changes what contains it inside the same region. -/
theorem setSegments? (hx : Path.lookupSegments p v = some x) (hπ : Path.placeOf? p v = some π)
    (h : AgreesOff T x y) (hw : Path.setSegments? y p v = some w) :
    AgreesOff (T.above π) v w := by
  induction p generalizing v w π with
  | nil =>
    obtain rfl := Option.some.inj hx
    obtain rfl := Option.some.inj hπ
    obtain rfl := Option.some.inj hw
    exact h.mono fun ρ hρ => ⟨ρ, hρ, rfl⟩
  | cons s p ih =>
    obtain ⟨u, hd, hu⟩ := Option.bind_eq_some_iff.mp hx
    obtain ⟨i, hi, hiu⟩ := Path.exists_position?_of_descend hd
    rw [Path.placeOf?_cons hi hiu] at hπ
    obtain ⟨κ, hκ, rfl⟩ := Option.map_eq_some_iff.mp hπ
    rw [Path.setSegments?_of_descend hd] at hw
    obtain ⟨u', hu', hw⟩ := Option.bind_eq_some_iff.mp hw
    obtain ⟨hnode, hparts⟩ := Value.parts_store? hi hiu hw
    refine .outside hnode fun j a b ha hb => ?_
    by_cases hij : i = j
    · subst hij
      rw [hparts, List.getElem?_set_self (List.getElem?_eq_some_iff.mp hiu).1] at hb
      rw [hiu] at ha
      rw [← Option.some.inj ha, ← Option.some.inj hb]
      refine (ih hu hκ hu').mono ?_
      rintro _ ⟨ρ, hρ, rfl⟩
      exact ⟨ρ, hρ, rfl⟩
    · rw [hparts, List.getElem?_set_ne hij, ha] at hb
      rw [← Option.some.inj hb]
      exact .refl _ a

theorem set {p : Path} (hx : p.lookup v = some x) (hπ : p.place? v = some π)
    (h : AgreesOff T x y) : AgreesOff (T.above π) v (p.set y v) :=
  setSegments? hx hπ h ((Path.hasRoom_of_lookup hx).set? y)

end AgreesOff

end ContentSchema
