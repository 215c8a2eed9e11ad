import Mathlib.Data.List.Perm.Subperm
import ContentSchema.Document
import ContentSchema.Proofs.PathLaws
import ContentSchema.Proofs.SameValues

/-!
# Same containers — equal values stand for one another

Equality by value is an equivalence, and a value may be replaced by an equal one wherever it
stands: in a list, in an object, at any path (`Value.same_set`).

Two objects are compared member by member, in the order of their keys.  Where keys increase, as they
do in every value that is read (`Document.ordered_toValue?`), one can as well count the members and
look up the keys of one side in the other: as many distinct keys, all of them found, are the same
keys (`Value.same_object_sorted`).  So values that are read are equal exactly when a comparison that
does this at every depth finds them so (`Value.same_eq_sameByLookup`).
-/

namespace ContentSchema

/-! ### Increasing keys -/

namespace Entries

variable {α : Type}

/-- The keys increase, so that none of them is repeated. -/
def Sorted (es : Entries α) : Prop := es.keys.Pairwise (· < ·)

instance (es : Entries α) : Decidable es.Sorted := inferInstanceAs (Decidable (List.Pairwise _ _))

theorem Sorted.nodup {es : Entries α} (h : Sorted es) : es.keys.Nodup := by
  refine List.Pairwise.imp (fun {a b} hlt => ?_) h
  rintro rfl
  exact String.lt_irrefl a hlt

theorem Sorted.place {es : Entries α} (h : Sorted es) {key : String} (hkey : key ∉ es.keys)
    (value : α) : Sorted (es.place key value) := by
  induction es with
  | nil => exact List.pairwise_singleton _ _
  | cons e rest ih =>
    obtain ⟨k, v⟩ := e
    obtain ⟨hk, hrest⟩ := List.pairwise_cons.mp h
    unfold Entries.place
    split
    · next hlt =>
      refine List.pairwise_cons.mpr ⟨fun other hother => ?_, h⟩
      rcases List.mem_cons.mp hother with rfl | hother
      · exact hlt
      · exact String.lt_trans hlt (hk other hother)
    · next hlt =>
      have hne : k ≠ key := fun hk => hkey (hk ▸ List.mem_cons_self)
      have hkey' : k < key := Std.lt_of_le_of_ne hlt hne
      refine List.pairwise_cons.mpr ⟨fun other hother => ?_, ih hrest fun hmem =>
        hkey (List.mem_cons_of_mem _ hmem)⟩
      rcases List.mem_cons.mp ((keys_place key value rest).subset hother) with rfl | hother
      · exact hkey'
      · exact hk other hother

theorem Sorted.insert {es : Entries α} (h : Sorted es) (key : String) (value : α) :
    Sorted (es.insert key value) := by
  unfold Entries.insert
  split
  · next hkey =>
    unfold Sorted
    rw [keys_put hkey value]
    exact h
  · next hkey => exact h.place (fun hmem => hkey (contains_iff_mem_keys.mpr hmem)) value

theorem sorted_sorted (ps : List (String × α)) : Sorted (sorted ps) := by
  have hfold : ∀ (ps : List (String × α)) (es : Entries α), Sorted es →
      Sorted (ps.foldl (fun es p => Entries.insert p.1 p.2 es) es) := by
    intro ps
    induction ps with
    | nil => exact fun es h => h
    | cons p ps ih => exact fun es h => ih _ (h.insert p.1 p.2)
  exact hfold ps [] List.Pairwise.nil

/-- Of two sorted lists of one length, one has the keys of the other as soon as they are among
them. -/
theorem Sorted.keys_eq {β : Type} {es : Entries α} {fs : Entries β} (he : Sorted es)
    (hf : Sorted fs) (hlength : es.length = fs.length) (h : es.keys ⊆ fs.keys) :
    es.keys = fs.keys := by
  -- keys that do not repeat and are all among as many others are the same in some order
  have hperm : es.keys.Perm fs.keys := by
    refine (List.subperm_of_subset he.nodup h).perm_of_length_le ?_
    unfold keys
    rw [List.length_map, List.length_map]
    exact Nat.le_of_eq hlength.symm
  refine hperm.eq_of_pairwise (fun a b _ _ hab hba => ?_) he hf
  exact absurd (String.lt_trans hab hba) (String.lt_irrefl a)

end Entries

/-! ### Values that are read -/

namespace Value

mutual

/-- Every object in the value lists its members by increasing keys. -/
def Ordered : Value → Prop
  | .list items => OrderedItems items
  | .object ms => Entries.Sorted ms ∧ OrderedMembers ms
  | _ => True

def OrderedItems : List Value → Prop
  | [] => True
  | v :: vs => Ordered v ∧ OrderedItems vs

def OrderedMembers : List (String × Value) → Prop
  | [] => True
  | (_, v) :: ms => Ordered v ∧ OrderedMembers ms

end

theorem orderedMembers_iff {ms : List (String × Value)} :
    OrderedMembers ms ↔ ∀ m ∈ ms, m.2.Ordered := by
  induction ms with
  | nil => simp [OrderedMembers]
  | cons m ms ih => simp [OrderedMembers, ih]

/-- A plain word stands for no container. -/
theorem ordered_resolve? (s : String) : ∀ v, Yaml.resolve? s = some v → v.Ordered := by
  unfold Yaml.resolve?
  dsimp only
  -- Whatever is tried, the word ends as null, a flag, a number or a text.
  repeat' split
  all_goals rintro _ ⟨⟩ <;> trivial

end Value

namespace Document

open Value

mutual

/-- What is read lists the members of its objects by increasing keys, at any depth. -/
theorem ordered_toValue? : ∀ (d : Document) {v : Value}, d.toValue? = some v → v.Ordered
  | .null, v, h | .bool _, v, h | .number _, v, h | .string _, v, h => by
    cases h
    trivial
  | .plain s, v, h => Value.ordered_resolve? s v h
  | .list ds, v, h => by
    obtain ⟨vs, hvs, rfl⟩ := Option.map_eq_some_iff.mp h
    exact orderedItems_toValues? ds hvs
  | .map ds, v, h => by
    obtain ⟨ms, hms, rfl⟩ := Option.map_eq_some_iff.mp h
    refine ⟨Entries.sorted_sorted ms, orderedMembers_iff.mpr fun m hm => ?_⟩
    exact orderedMembers_iff.mp (orderedMembers_toMembers? ds hms) m (Entries.mem_sorted hm)

theorem orderedItems_toValues? : ∀ (ds : List Document) {vs : List Value},
    toValues? ds = some vs → OrderedItems vs
  | [], vs, h => by
    cases h
    trivial
  | d :: ds, vs, h => by
    obtain ⟨v, hv, h⟩ := Option.bind_eq_some_iff.mp h
    obtain ⟨ws, hws, h⟩ := Option.bind_eq_some_iff.mp h
    cases h
    exact ⟨ordered_toValue? d hv, orderedItems_toValues? ds hws⟩

theorem orderedMembers_toMembers? : ∀ (ds : List (String × Document))
    {ms : List (String × Value)}, toMembers? ds = some ms → OrderedMembers ms
  | [], ms, h => by
    cases h
    trivial
  | (k, d) :: ds, ms, h => by
    obtain ⟨v, hv, h⟩ := Option.bind_eq_some_iff.mp h
    obtain ⟨ws, hws, h⟩ := Option.bind_eq_some_iff.mp h
    cases h
    exact ⟨ordered_toValue? d hv, orderedMembers_toMembers? ds hws⟩

end

end Document

/-! ### Equal values -/

namespace Value

mutual

theorem same_refl : (v : Value) → v.same v = true
  | .null => rfl
  | .bool b => by simp [same]
  | .number n => by simp [same, Number.same, Binary64.same]
  | .string s => by simp [same]
  | .list items => by
    rw [same]
    exact sameItems_refl items
  | .object ms => by
    rw [same]
    exact sameMembers_refl ms

theorem sameItems_refl : (vs : List Value) → sameItems vs vs = true
  | [] => rfl
  | v :: vs => by rw [sameItems, same_refl v, sameItems_refl vs]; rfl

theorem sameMembers_refl : (ms : List (String × Value)) → sameMembers ms ms = true
  | [] => rfl
  | (k, v) :: ms => by rw [sameMembers, same_refl v, sameMembers_refl ms, beq_self_eq_true]; rfl

end

variable {vs ws : List Value} {as bs : List (String × Value)} {v w x y : Value}

theorem sameItems_iff :
    sameItems vs ws = true ↔ List.Forall₂ (fun v w => v.same w = true) vs ws := by
  induction vs generalizing ws with
  | nil => cases ws <;> simp [sameItems]
  | cons v vs ih => cases ws <;> simp [sameItems, ih]

theorem sameMembers_iff :
    sameMembers as bs = true ↔
      List.Forall₂ (fun a b => a.1 = b.1 ∧ a.2.same b.2 = true) as bs := by
  induction as generalizing bs with
  | nil => cases bs <;> simp [sameMembers]
  | cons a as ih => cases bs <;> simp [sameMembers, ih]

/-! ### Replacing a value by an equal one -/

theorem sameItems_set (h : sameItems vs ws = true) (hvw : v.same w = true) (i : Nat) :
    sameItems (vs.set i v) (ws.set i w) = true := by
  rw [sameItems_iff] at h ⊢
  induction h generalizing i with
  | nil => exact .nil
  | cons hhead htail ih =>
    cases i with
    | zero => exact .cons hvw htail
    | succ i => exact .cons hhead (ih i)

theorem same_getElem? (h : sameItems vs ws = true) (i : Nat) :
    Option.Rel (same · · = true) vs[i]? ws[i]? := by
  rw [sameItems_iff] at h
  induction h generalizing i with
  | nil => exact .none
  | cons hhead htail ih =>
    cases i with
    | zero => exact .some hhead
    | succ i => exact ih i

theorem keys_of_sameMembers (h : sameMembers as bs = true) :
    Entries.keys as = Entries.keys bs := by
  rw [sameMembers_iff] at h
  induction h with
  | nil => rfl
  | cons hhead htail ih => exact congrArg₂ List.cons hhead.1 ih

theorem same_get? (h : sameMembers as bs = true) (key : String) :
    Option.Rel (same · · = true) (Entries.get? key as) (Entries.get? key bs) := by
  rw [sameMembers_iff] at h
  induction h with
  | nil => exact .none
  | cons hhead htail ih =>
    rw [Entries.get?_cons, Entries.get?_cons, ← hhead.1]
    split
    · exact .some hhead.2
    · exact ih

theorem sameMembers_put (h : sameMembers as bs = true) (hvw : v.same w = true) (key : String) :
    sameMembers (Entries.put key v as) (Entries.put key w bs) = true := by
  rw [sameMembers_iff] at h ⊢
  induction h with
  | nil => exact .cons ⟨rfl, hvw⟩ .nil
  | cons hhead htail ih =>
    unfold Entries.put
    rw [← hhead.1]
    split
    · exact .cons ⟨rfl, hvw⟩ htail
    · exact .cons ⟨rfl, hhead.2⟩ ih

theorem sameMembers_place (h : sameMembers as bs = true) (hvw : v.same w = true) (key : String) :
    sameMembers (Entries.place key v as) (Entries.place key w bs) = true := by
  rw [sameMembers_iff] at h ⊢
  induction h with
  | nil => exact .cons ⟨rfl, hvw⟩ .nil
  | cons hhead htail ih =>
    unfold Entries.place
    rw [← hhead.1]
    split
    · exact .cons ⟨rfl, hvw⟩ (.cons ⟨rfl, hhead.2⟩ htail)
    · exact .cons ⟨rfl, hhead.2⟩ ih

/-- What is at one key is replaced or added at the same place on both sides. -/
theorem sameMembers_insert (h : sameMembers as bs = true) (hvw : v.same w = true) (key : String) :
    sameMembers (Entries.insert key v as) (Entries.insert key w bs) = true := by
  have hcontains : Entries.contains key as = Entries.contains key bs := by
    rw [Bool.eq_iff_iff, Entries.contains_iff_mem_keys, Entries.contains_iff_mem_keys,
      keys_of_sameMembers h]
  unfold Entries.insert
  rw [hcontains]
  split
  · exact sameMembers_put h hvw key
  · exact sameMembers_place h hvw key

theorem same_list : (list vs).same (list ws) = sameItems vs ws := by
  rw [same]

theorem same_object : (object as).same (object bs) = sameMembers as bs := by
  rw [same]

/-- Equal values have equal parts. -/
theorem same_descend (h : v.same w = true) (segment : String) :
    Option.Rel (same · · = true) (Path.descend v segment) (Path.descend w segment) := by
  cases v with
  | list vs =>
    cases w with
    | list ws =>
      rw [same_list] at h
      unfold Path.descend
      cases Text.readIndex? segment with
      | none => exact .none
      | some i => exact same_getElem? h i
    | _ => cases h
  | object as =>
    cases w with
    | object bs =>
      rw [same_object] at h
      exact same_get? h segment
    | _ => cases h
  | _ => cases w <;> first | exact .none | cases h

/-- Storing equal values in equal containers gives equal containers. -/
theorem same_store? (hvw : v.same w = true) (hxy : x.same y = true)
    (segment : String) :
    Option.Rel (same · · = true) (Path.store? segment x v) (Path.store? segment y w) := by
  cases v with
  | list vs =>
    cases w with
    | list ws =>
      rw [same_list] at hvw
      cases hi : Text.readIndex? segment with
      | none => simp [Path.store?, hi]
      | some i =>
        rw [Path.store?_list hi, Path.store?_list hi, (sameItems_iff.mp hvw).length_eq]
        split
        · exact .some (by rw [same_list]; exact sameItems_set hvw hxy i)
        · exact .none
    | _ => cases hvw
  | object as =>
    cases w with
    | object bs =>
      rw [same_object] at hvw
      exact .some (by rw [same_object]; exact sameMembers_insert hvw hxy segment)
    | _ => cases hvw
  | _ => cases w <;> first | exact .none | cases hvw

/-- Storing equal values along the same segments of equal values gives equal values. -/
theorem same_setSegments? (hvw : v.same w = true) (hxy : x.same y = true)
    (p : List String) :
    Option.Rel (same · · = true) (Path.setSegments? x p v) (Path.setSegments? y p w) := by
  induction p generalizing v w with
  | nil => exact .some hxy
  | cons s p ih =>
    have hstep := same_descend hvw s
    generalize hv : Path.descend v s = v', hw : Path.descend w s = w' at hstep
    cases hstep with
    | none =>
      rw [Path.setSegments?_of_descend_none hv, Path.setSegments?_of_descend_none hw]
      split
      · exact same_store? hvw hxy s
      · exact .none
    | some hvw' =>
      rw [Path.setSegments?_of_descend hv, Path.setSegments?_of_descend hw]
      have hrest := ih hvw'
      generalize Path.setSegments? x p _ = x', Path.setSegments? y p _ = y' at hrest ⊢
      cases hrest with
      | none => exact .none
      | some hxy' => exact same_store? hvw hxy' s

/-- A value may be replaced by an equal one at any path. -/
theorem same_set (hvw : v.same w = true) (hxy : x.same y = true) (p : Path) :
    (p.set x v).same (p.set y w) = true := by
  have h : Option.Rel (same · · = true) (p.set? x v) (p.set? y w) :=
    same_setSegments? hvw hxy p.segments
  unfold Path.set
  generalize p.set? x v = v', p.set? y w = w' at h ⊢
  cases h with
  | none => exact hvw
  | some h => exact h

/-! ### Objects compared by look-up -/

/-- Members with the same keys are equal when every key leads to an equal value. -/
theorem sameMembers_of_keys (hkeys : Entries.keys as = Entries.keys bs)
    (hnodup : (Entries.keys as).Nodup)
    (h : ∀ m ∈ as, ∃ w, Entries.get? m.1 bs = some w ∧ m.2.same w = true) :
    sameMembers as bs = true := by
  induction as generalizing bs with
  | nil =>
    cases bs with
    | nil => rfl
    | cons b bs => cases hkeys
  | cons a as ih =>
    cases bs with
    | nil => cases hkeys
    | cons b bs =>
      obtain ⟨hkey, hrest⟩ := List.cons.inj hkeys
      obtain ⟨hnew, hnodup⟩ := List.nodup_cons.mp hnodup
      obtain ⟨⟨w, hw, hsame⟩, htail⟩ := List.forall_mem_cons.mp h
      rw [Entries.get?_cons, if_pos hkey.symm] at hw
      cases hw
      have hbelow : ∀ m ∈ as, ∃ w, Entries.get? m.1 bs = some w ∧ m.2.same w = true := by
        intro m hm
        have hne : b.1 ≠ m.1 := by
          intro heq
          have hmem : m.1 ∈ Entries.keys as := List.mem_map_of_mem hm
          rw [← heq, ← show a.1 = b.1 from hkey] at hmem
          exact hnew hmem
        obtain ⟨w, hw, hsame⟩ := htail m hm
        rw [Entries.get?_cons, if_neg hne] at hw
        exact ⟨w, hw, hsame⟩
      rw [sameMembers_iff]
      exact .cons ⟨hkey, hsame⟩ (sameMembers_iff.mp (ih hrest hnodup hbelow))

/-- Objects with increasing keys are equal when there are as many members on both sides and every
key of the one leads to an equal value in the other. -/
theorem same_object_sorted (ha : Entries.Sorted as) (hb : Entries.Sorted bs) :
    (object as).same (object bs) =
      (as.length == bs.length && as.all fun m => (Entries.get? m.1 bs).any m.2.same) := by
  rw [same_object, Bool.eq_iff_iff]
  simp only [Bool.and_eq_true, beq_iff_eq, List.all_eq_true, Option.any_eq_true]
  constructor
  · intro h
    refine ⟨(sameMembers_iff.mp h).length_eq, fun m hm => ?_⟩
    have hrel := same_get? h m.1
    rw [(Entries.mem_iff_get? ha.nodup).mp hm] at hrel
    generalize Entries.get? m.1 bs = found at hrel ⊢
    cases hrel with
    | some hsame => exact ⟨_, rfl, hsame⟩
  · rintro ⟨hlength, hvalues⟩
    refine sameMembers_of_keys (ha.keys_eq hb hlength fun key hkey => ?_) ha.nodup hvalues
    obtain ⟨m, hm, rfl⟩ := List.mem_map.mp hkey
    obtain ⟨w, hw, -⟩ := hvalues m hm
    exact List.mem_map.mpr ⟨(m.1, w), Entries.mem_of_get? hw, rfl⟩

mutual

/-- The comparison of values that looks keys up: objects are equal when there are as many members on
both sides and every key of the first leads to an equal value in the second. -/
def sameByLookup : Value → Value → Bool
  | .null, .null => true
  | .bool a, .bool b => a == b
  | .number a, .number b => a.same b
  | .string a, .string b => a == b
  | .list as, .list bs => sameItemsByLookup as bs
  | .object as, .object bs => as.length == bs.length && foundByLookup as bs
  | _, _ => false

/-- Pairwise comparison of two lists of one length. -/
def sameItemsByLookup : List Value → List Value → Bool
  | [], [] => true
  | a :: as, b :: bs => sameByLookup a b && sameItemsByLookup as bs
  | _, _ => false

/-- Every key of the first members leads to an equal value in the second ones. -/
def foundByLookup : List (String × Value) → List (String × Value) → Bool
  | [], _ => true
  | (k, a) :: as, bs => (Entries.get? k bs).any (sameByLookup a) && foundByLookup as bs

end

mutual

/-- Where keys increase at every depth, both comparisons are one. -/
theorem same_eq_sameByLookup : ∀ v w : Value, v.Ordered → w.Ordered →
    v.same w = v.sameByLookup w
  | .list as, .list bs, ha, hb => by
    rw [same_list, sameByLookup]
    exact sameItems_eq_sameByLookup as bs ha hb
  | .object as, .object bs, ha, hb => by
    rw [same_object_sorted ha.1 hb.1, sameByLookup,
      all_get?_eq_foundByLookup as bs ha.2 (orderedMembers_iff.mp hb.2)]
  | .null, w, _, _ | .bool _, w, _, _ | .number _, w, _, _ | .string _, w, _, _ => by
    cases w <;> simp [same, sameByLookup]
  | .list _, .null, _, _ | .list _, .bool _, _, _ | .list _, .number _, _, _
  | .list _, .string _, _, _ | .list _, .object _, _, _ => by simp [same, sameByLookup]
  | .object _, .null, _, _ | .object _, .bool _, _, _ | .object _, .number _, _, _
  | .object _, .string _, _, _ | .object _, .list _, _, _ => by simp [same, sameByLookup]

theorem sameItems_eq_sameByLookup : ∀ vs ws : List Value, OrderedItems vs → OrderedItems ws →
    sameItems vs ws = sameItemsByLookup vs ws
  | [], [], _, _ | [], _ :: _, _, _ | _ :: _, [], _, _ => rfl
  | v :: vs, w :: ws, hv, hw => by
    rw [sameItems, sameItemsByLookup, same_eq_sameByLookup v w hv.1 hw.1,
      sameItems_eq_sameByLookup vs ws hv.2 hw.2]

theorem all_get?_eq_foundByLookup : ∀ as bs : List (String × Value), OrderedMembers as →
    (∀ m ∈ bs, m.2.Ordered) →
    (as.all fun m => (Entries.get? m.1 bs).any m.2.same) = foundByLookup as bs
  | [], _, _, _ => rfl
  | (k, v) :: as, bs, ha, hb => by
    rw [List.all_cons, foundByLookup, all_get?_eq_foundByLookup as bs ha.2 hb]
    congr 1
    cases hget : Entries.get? k bs with
    | none => rfl
    | some w => exact same_eq_sameByLookup v w ha.1 (hb _ (Entries.mem_of_get? hget))

end

/-- Equality by value is an equivalence.  A value may be replaced by an equal one: at an index of a
list, at a key of an object, and at any path of equal values.  Two objects whose keys increase are
equal exactly when there are as many members on both sides and every key of the one leads to an
equal value in the other, and values that are read are compared so at every depth. -/
theorem same_equivalence :
    Equivalence (fun v w : Value => v.same w = true) ∧
    (∀ items i v w, items[i]? = some v → v.same w = true →
      (list items).same (list (items.set i w)) = true) ∧
    (∀ ms key v w, Entries.get? key ms = some v → v.same w = true →
      (object ms).same (object (Entries.insert key w ms)) = true) ∧
    (∀ (p : Path) v w x y, v.same w = true → x.same y = true →
      (p.set x v).same (p.set y w) = true) ∧
    (∀ as bs, Entries.Sorted as → Entries.Sorted bs → (object as).same (object bs) =
      (as.length == bs.length && as.all fun m => (Entries.get? m.1 bs).any m.2.same)) ∧
    ∀ (c d : Document) v w, c.toValue? = some v → d.toValue? = some w →
      v.same w = v.sameByLookup w := by
  refine ⟨⟨same_refl, fun {v w} h => (same_comm w v).trans h, fun {u v w} => same_trans u v w⟩,
    fun items i v w hv hvw => ?_, fun ms key v w hv hvw => ?_,
    fun p v w x y hvw hxy => same_set hvw hxy p, fun as bs => same_object_sorted,
    fun c d v w hv hw => same_eq_sameByLookup v w (c.ordered_toValue? hv) (d.ordered_toValue? hw)⟩
  · obtain ⟨hlt, hi⟩ := List.getElem?_eq_some_iff.mp hv
    have hset := sameItems_set (sameItems_refl items) hvw i
    rw [← hi, List.set_getElem_self] at hset
    rw [same_list]
    exact hset
  · have hinsert := sameMembers_insert (sameMembers_refl ms) hvw key
    rw [Entries.insert_of_get? hv, Entries.update_of_get? hv] at hinsert
    rw [same_object]
    exact hinsert

/-- A bill with one row. -/
def bill (price total : Number) : Value :=
  .object [("rows", .list [.null, .object [("price", .number price)]]), ("total", .number total)]

/-- The same bill, as it is written with the total first. -/
def billDocument (price total : Number) : Document :=
  .map [("total", .number total), ("rows", .list [.null, .map [("price", .number price)]])]

/-- Two bills with integers and with doubles.  The totals round to one double, so they are equal,
also when the price is replaced on both sides, and when keys are looked up in what was read. -/
theorem same_equivalence_bill :
    let v := bill 2 9007199254740993
    let w := bill (.real (.ofInt 2)) (.real (.ofInt 9007199254740992))
    let price := Path.parse "rows.1.price"
    (v ≠ w ∧ v.same w = true ∧ w.same v = true ∧ v.same v = true) ∧
    (list [.null, .number 2]).same (list [.null, .number (.real (.ofInt 2))]) = true ∧
    (object [("price", .number 2)]).same (object [("price", .number (.real (.ofInt 2)))]) = true ∧
    ((price.set (.number 3) v).same (price.set (.number (.real (.ofInt 3))) w) = true) ∧
    v.members.all (fun m => (Entries.get? m.1 w.members).any m.2.same) = true ∧
    v.sameByLookup w = true := by
  intro v w price
  obtain ⟨hequiv, hitem, hmember, hset, hlookup, hread⟩ := same_equivalence
  have htwo : (number 2).same (number (.real (.ofInt 2))) = true := by decide +kernel
  have hthree : (number 3).same (number (.real (.ofInt 3))) = true := by decide +kernel
  have hvw : v.same w = true := by decide +kernel
  refine ⟨⟨by decide +kernel, hvw, hequiv.symm hvw, hequiv.refl v⟩,
    hitem [.null, .number 2] 1 _ _ rfl htwo, hmember [("price", .number 2)] "price" _ _ rfl htwo,
    hset price v w _ _ hvw hthree, ?_, ?_⟩
  · have hsorted := (hlookup v.members w.members (by decide) (by decide)).symm.trans hvw
    exact (Bool.and_eq_true_iff.mp hsorted).2
  · have hv : (billDocument 2 9007199254740993).toValue? = some v := by decide +kernel
    have hw : (billDocument (.real (.ofInt 2)) (.real (.ofInt 9007199254740992))).toValue? =
        some w := by decide +kernel
    exact (hread _ _ v w hv hw).symm.trans hvw

end Value

end ContentSchema
