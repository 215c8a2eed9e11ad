import ContentSchema.Proofs.PassRuns

/-!
# Field errors — the entries of an error map that belong to one field

An error map has texts of paths as keys.  The entries of a field are those under its name and those
that go on after it with a dot (`KeyAt`).  What is reported inside a field falls there
(`keyAt_text`), and what is reported inside another one does not, as long as neither name goes on
where the other one ends (`NamesPart.not_keyAt`).  For names without dots that is always so.
-/

namespace ContentSchema

/-! ### Keys -/

/-- A key that is a name, or goes on after it with a dot. -/
def KeyAt (name key : String) : Prop := key = name ∨ name.toList ++ ['.'] <+: key.toList

instance (name key : String) : Decidable (KeyAt name key) := inferInstanceAs (Decidable (_ ∨ _))

/-- Neither name is the other one or goes on after it with a dot. -/
def NamesPart (a b : String) : Prop := ¬ KeyAt a b ∧ ¬ KeyAt b a

instance (a b : String) : Decidable (NamesPart a b) := inferInstanceAs (Decidable (_ ∧ _))

theorem KeyAt.refl (name : String) : KeyAt name name := .inl rfl

/-- A key without dots belongs to no name but itself. -/
theorem KeyAt.eq {name key : String} (h : KeyAt name key) (hdot : '.' ∉ key.toList) :
    key = name := by
  rcases h with h | h
  · exact h
  · exact (hdot (h.subset (List.mem_append_right _ List.mem_cons_self))).elim

/-- Of two names that one key belongs to, one belongs to the other. -/
theorem KeyAt.comparable {a b key : String} (ha : KeyAt a key) (hb : KeyAt b key) :
    KeyAt a b ∨ KeyAt b a := by
  rcases ha with rfl | ha
  · exact .inr hb
  · rcases hb with rfl | hb
    · exact .inl (.inr ha)
    · rcases List.prefix_or_prefix_of_prefix ha hb with h | h
      · rcases List.prefix_concat_iff.mp h with h | h
        · exact .inl (.inl (String.toList_inj.mp (List.append_cancel_right h)).symm)
        · exact .inl (.inr h)
      · rcases List.prefix_concat_iff.mp h with h | h
        · exact .inr (.inl (String.toList_inj.mp (List.append_cancel_right h)).symm)
        · exact .inr (.inr h)

namespace NamesPart

variable {a b key : String}

theorem ne (h : NamesPart a b) : a ≠ b := by
  rintro rfl
  exact h.1 (.refl a)

theorem of_dotFree (hne : a ≠ b) (ha : '.' ∉ a.toList) (hb : '.' ∉ b.toList) : NamesPart a b :=
  ⟨fun h => hne (h.eq hb).symm, fun h => hne (h.eq ha)⟩

/-- A key belongs to one of two such names at most. -/
theorem not_keyAt (h : NamesPart a b) (hb : KeyAt b key) : ¬ KeyAt a key :=
  fun ha => (ha.comparable hb).elim h.1 h.2

end NamesPart

/-- What is below a name reads as the name, and as it goes on. -/
theorem keyAt_text (name : String) (rest : List String) :
    KeyAt name (Path.text ⟨name :: rest⟩) := by
  cases rest with
  | nil => exact .refl name
  | cons t rest =>
    refine .inr ?_
    show _ <+: (Text.join "." (name :: t :: rest)).toList
    rw [Text.join_cons_cons, String.toList_append, String.toList_append]
    exact List.prefix_append _ _

/-! ### Entries -/

namespace ErrorMap

variable {errors : ErrorMap} {name key : String}

/-- The entries of a name. -/
def under (errors : ErrorMap) (name : String) : ErrorMap :=
  ⟨errors.entries.filter fun e => decide (KeyAt name e.1)⟩

theorem under_empty (name : String) : empty.under name = empty := rfl

theorem under_add_of_not (h : ¬ KeyAt name key) (errors : ErrorMap) (message : String) :
    (errors.add key message).under name = errors.under name := by
  unfold add
  split
  · rfl
  · show ErrorMap.mk ((errors.entries ++ [(key, message)]).filter _) = _
    rw [List.filter_append, List.filter_singleton, decide_eq_false h]
    exact congrArg ErrorMap.mk (List.append_nil _)

/-- The entries of a name decide alone what becomes of them. -/
theorem under_add (h : KeyAt name key) (errors : ErrorMap) (message : String) :
    (errors.add key message).under name = (errors.under name).add key message := by
  have hcontains : Entries.contains key (errors.under name).entries =
      errors.entries.contains key := by
    show (Entries.get? key (errors.entries.filter fun e => decide (KeyAt name e.1))).isSome = _
    rw [Entries.get?_filter fun key => decide (KeyAt name key), if_pos (decide_eq_true h)]
    rfl
  unfold add
  rw [hcontains]
  split
  · rfl
  · show ErrorMap.mk ((errors.entries ++ [(key, message)]).filter _) = _
    rw [List.filter_append, List.filter_singleton, decide_eq_true h]
    rfl

/-- Problems outside a field add nothing to its entries. -/
theorem under_report_of_not {problems : List Problem}
    (h : ∀ p ∈ problems, ¬ KeyAt name p.1.text) (errors : ErrorMap) :
    (errors.report problems).under name = errors.under name := by
  induction problems generalizing errors with
  | nil => rfl
  | cons p ps ih =>
    obtain ⟨hp, hps⟩ := List.forall_mem_cons.mp h
    exact (ih hps (errors.insert p.1 p.2)).trans (under_add_of_not hp errors p.2)

end ErrorMap

end ContentSchema
