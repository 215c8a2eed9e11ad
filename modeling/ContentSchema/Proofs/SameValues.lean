import ContentSchema.Value

/-!
# Same values — equality by value is symmetric and transitive

Numbers are the same when they round to one double, and everything else when its parts are.  No
value other than null is the same as null.
-/

namespace ContentSchema.Value

theorem null_same (v : Value) : same .null v = v.isNull := by
  cases v <;> rfl

theorem isNull_of_same {v w : Value} (h : v.same w = true) : v.isNull = w.isNull := by
  cases v <;> cases w <;> first | rfl | cases h

mutual

theorem same_comm : (v w : Value) → v.same w = w.same v
  | .list as, .list bs => by
    unfold same
    exact sameItems_comm as bs
  | .object as, .object bs => by
    unfold same
    exact sameMembers_comm as bs
  | .bool a, .bool b => by
    simp only [same]
    exact Bool.beq_comm
  | .number a, .number b => by
    simp only [same, Number.same, Binary64.same]
    exact BEq.comm
  | .string a, .string b => by
    simp only [same]
    exact BEq.comm
  | .null, w => by cases w <;> rfl
  | .bool _, .null | .bool _, .number _ | .bool _, .string _ | .bool _, .list _
  | .bool _, .object _ | .number _, .null | .number _, .bool _ | .number _, .string _
  | .number _, .list _ | .number _, .object _ | .string _, .null | .string _, .bool _
  | .string _, .number _ | .string _, .list _ | .string _, .object _ | .list _, .null
  | .list _, .bool _ | .list _, .number _ | .list _, .string _ | .list _, .object _
  | .object _, .null | .object _, .bool _ | .object _, .number _ | .object _, .string _
  | .object _, .list _ => rfl

theorem sameItems_comm : (vs ws : List Value) → sameItems vs ws = sameItems ws vs
  | [], [] => rfl
  | v :: vs, w :: ws => by
    unfold sameItems
    rw [same_comm v w, sameItems_comm vs ws]
  | [], _ :: _ | _ :: _, [] => rfl

theorem sameMembers_comm :
    (vs ws : List (String × Value)) → sameMembers vs ws = sameMembers ws vs
  | [], [] => rfl
  | (k, v) :: vs, (l, w) :: ws => by
    unfold sameMembers
    rw [same_comm v w, sameMembers_comm vs ws, BEq.comm]
  | [], _ :: _ | _ :: _, [] => rfl

end

mutual

theorem same_trans : (u v w : Value) → u.same v = true → v.same w = true → u.same w = true
  | .list as, v, w, h, h' => by
    cases v with
    | list bs =>
      cases w with
      | list cs =>
        simp only [same] at h h' ⊢
        exact sameItems_trans as bs cs h h'
      | _ => cases h'
    | _ => cases h
  | .object as, v, w, h, h' => by
    cases v with
    | object bs =>
      cases w with
      | object cs =>
        simp only [same] at h h' ⊢
        exact sameMembers_trans as bs cs h h'
      | _ => cases h'
    | _ => cases h
  | .number a, v, w, h, h' => by
    cases v with
    | number b =>
      cases w with
      | number c =>
        simp only [same, Number.same, Binary64.same_iff] at h h' ⊢
        exact h.trans h'
      | _ => cases h'
    | _ => cases h
  | .bool a, v, w, h, h' => by
    cases v with
    | bool b =>
      cases w with
      | bool c =>
        simp only [same, beq_iff_eq] at h h' ⊢
        exact h.trans h'
      | _ => cases h'
    | _ => cases h
  | .string a, v, w, h, h' => by
    cases v with
    | string b =>
      cases w with
      | string c =>
        simp only [same, beq_iff_eq] at h h' ⊢
        exact h.trans h'
      | _ => cases h'
    | _ => cases h
  | .null, v, w, h, h' => by
    cases v with
    | null => exact h'
    | _ => cases h

theorem sameItems_trans : (us vs ws : List Value) → sameItems us vs = true →
    sameItems vs ws = true → sameItems us ws = true
  | [], [], ws, _, h' => h'
  | u :: us, v :: vs, w :: ws, h, h' => by
    simp only [sameItems, Bool.and_eq_true] at h h' ⊢
    exact ⟨same_trans u v w h.1 h'.1, sameItems_trans us vs ws h.2 h'.2⟩

theorem sameMembers_trans : (us vs ws : List (String × Value)) → sameMembers us vs = true →
    sameMembers vs ws = true → sameMembers us ws = true
  | [], [], ws, _, h' => h'
  | (_, u) :: us, (_, v) :: vs, (_, w) :: ws, h, h' => by
    simp only [sameMembers, Bool.and_eq_true, beq_iff_eq] at h h' ⊢
    exact ⟨⟨h.1.1.trans h'.1.1, same_trans u v w h.1.2 h'.1.2⟩,
      sameMembers_trans us vs ws h.2 h'.2⟩

end

end ContentSchema.Value
