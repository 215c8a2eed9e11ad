import ContentSchema.Proofs.CacheGrowth
import ContentSchema.Proofs.KeyPrefix

/-!
# Cache coherence — when a kept answer is the answer

A history of calls asks the cache to resolve declarations and to forget what it keeps.  The cache
answers every history as resolving anew would exactly when declarations with one key that resolve
at all resolve alike (`OptionCache.coherent_iff`).  Legible declarations do
(`OptionCache.answers_of_legible`); two declarations that only differ in where a name ends do not:
one gets the options of the other, even if it has none of its own (`OptionCache.answers_collide`).
-/

namespace ContentSchema

/-- A call of an option cache. -/
inductive CacheCall
  | resolve (name : String) (d : Declaration)
  | invalidate

namespace CacheCall

/-- What is resolved anew, whatever was resolved before. -/
def fresh? (r : Registry) : CacheCall → Option (Except SchemaError Options)
  | .resolve name d => some (r.resolve name d)
  | .invalidate => none

/-- The declaration that is resolved, if there is one, satisfies `P`. -/
def About (P : Declaration → Prop) : CacheCall → Prop
  | .resolve _ d => P d
  | .invalidate => True

end CacheCall

namespace OptionCache

/-- The answers to a history of calls, each through the cache that the calls before it left. -/
def answers (r : Registry) : OptionCache → List CacheCall → List (Except SchemaError Options)
  | _, [] => []
  | cache, .resolve name d :: rest =>
    (cache.resolve r name d).1 :: answers r (cache.resolve r name d).2 rest
  | cache, .invalidate :: rest => answers r cache.invalidate rest

/-- Every kept entry is the answer to each declaration of `P` with its key. -/
def Coherent (r : Registry) (P : Declaration → Prop) (cache : OptionCache) : Prop :=
  ∀ d, P d → ∀ name o, cache.get? (d.cacheKey, name) = some o → r.resolve name d = .ok o

/-- Declarations of `P` with one key that resolve at all resolve alike. -/
def KeysApart (r : Registry) (P : Declaration → Prop) : Prop :=
  ∀ d, P d → ∀ e, P e → d.cacheKey = e.cacheKey → ∀ name o, r.resolve name d = .ok o →
    r.resolve name e = .ok o

section

variable {r : Registry} {P : Declaration → Prop} {cache : OptionCache}

theorem coherent_empty (r : Registry) (P : Declaration → Prop) : empty.Coherent r P := by
  intro d _ name o h
  cases h

theorem coherent_invalidate (r : Registry) (P : Declaration → Prop) (cache : OptionCache) :
    cache.invalidate.Coherent r P := by
  intro d _ name o h
  cases h

/-- Resolving answers as without the cache, and keeps it coherent. -/
theorem Coherent.resolve (h : cache.Coherent r P) (hP : KeysApart r P) {d : Declaration} (hd : P d)
    (name : String) :
    (cache.resolve r name d).1 = r.resolve name d ∧ (cache.resolve r name d).2.Coherent r P := by
  cases hget : cache.get? (d.cacheKey, name) with
  | some o =>
    rw [resolve_of_get? hget]
    exact ⟨(h d hd name o hget).symm, h⟩
  | none =>
    refine ⟨resolve_of_get?_none hget, ?_⟩
    unfold OptionCache.resolve
    simp only [hget]
    cases hres : r.resolve name d with
    | error e => exact h
    | ok o =>
      intro e he name' o' hget'
      rw [get?_add] at hget'
      cases hold : cache.get? (e.cacheKey, name') with
      | some p =>
        rw [hold] at hget'
        exact h e he name' o' (hold.trans hget')
      | none =>
        rw [hold, Option.none_or] at hget'
        split at hget'
        · next hkey =>
          obtain ⟨hchars, rfl⟩ := Prod.mk.inj hkey
          rw [← Option.some.inj hget']
          exact hP d hd e he hchars.symm name' o hres
        · cases hget'

/-- A history over declarations that keys tell apart is answered as without the cache. -/
theorem Coherent.answers (h : cache.Coherent r P) (hP : KeysApart r P) {calls : List CacheCall}
    (hcalls : ∀ call ∈ calls, call.About P) :
    cache.answers r calls = calls.filterMap (CacheCall.fresh? r) := by
  induction calls generalizing cache with
  | nil => rfl
  | cons call calls ih =>
    obtain ⟨hcall, hrest⟩ := List.forall_mem_cons.mp hcalls
    cases call with
    | resolve name d =>
      obtain ⟨hanswer, hnext⟩ := h.resolve hP hcall name
      rw [OptionCache.answers, hanswer, ih hnext hrest]
      rfl
    | invalidate =>
      rw [OptionCache.answers, ih (coherent_invalidate r P cache) hrest]
      rfl

/-- The cache answers every history over `P` as resolving anew would exactly when keys tell the
declarations of `P` apart. -/
theorem coherent_iff (r : Registry) (P : Declaration → Prop) :
    (∀ calls : List CacheCall, (∀ call ∈ calls, call.About P) →
      empty.answers r calls = calls.filterMap (CacheCall.fresh? r)) ↔ KeysApart r P := by
  refine ⟨fun h d hd e he hkey name o hres => ?_, fun h calls hcalls =>
    (coherent_empty r P).answers h hcalls⟩
  -- what is kept for `d` is the answer to `e`
  have hanswers := h [.resolve name d, .resolve name e] (by simp [CacheCall.About, hd, he])
  have hfirst : (empty.resolve r name d).1 = .ok o := (resolve_of_get?_none rfl).trans hres
  have hkept := get?_resolve hfirst
  rw [hkey] at hkept
  simp only [answers, resolve_of_get? hkept, CacheCall.fresh?, List.filterMap_cons,
    List.filterMap_nil, List.cons.injEq] at hanswers
  exact hanswers.2.1.symm

end

/-- A history over legible declarations is answered as without the cache, failures included. -/
theorem answers_of_legible (r : Registry) {calls : List CacheCall}
    (h : ∀ call ∈ calls, call.About (·.isLegible = true)) :
    empty.answers r calls = calls.filterMap (CacheCall.fresh? r) := by
  refine (coherent_iff r _).mpr (fun d hd e he hkey name o hres => ?_) calls h
  rw [← Registry.resolve_of_cacheKey hd he hkey]
  exact hres

/-- Rows of a quantity, and a declaration of them that lacks its choices. -/
def rowCalls : List CacheCall :=
  [.resolve "rows" ((Declaration.ofKind .repeater).subfield "qty" (.ofKind .number)),
    .resolve "rows" ((Declaration.ofKind .repeater).subfield "qty" (.ofKind .select)),
    .invalidate,
    .resolve "rows" ((Declaration.ofKind .repeater).subfield "qty" (.ofKind .number))]

theorem answers_of_legible_rows :
    (∀ call ∈ rowCalls, call.About (·.isLegible = true)) ∧
      empty.answers .builtin rowCalls = rowCalls.filterMap (CacheCall.fresh? .builtin) := by
  have hlegible : ∀ call ∈ rowCalls, call.About (·.isLegible = true) := by
    simp only [rowCalls, List.forall_mem_cons]
    exact ⟨rfl, rfl, trivial, rfl, List.forall_mem_nil _⟩
  exact ⟨hlegible, answers_of_legible .builtin hlegible⟩

/-- Rows with one field, whose name looks like two fields. -/
def oneField : Declaration :=
  (Declaration.ofKind .repeater).subfield "a=text\x7b\x7d,b" (.ofKind .number)

/-- Rows with these two fields. -/
def twoFields : Declaration :=
  ((Declaration.ofKind .repeater).subfield "a" (.ofKind .text)).subfield "b" (.ofKind .number)

/-- A text that asks for a colour, which texts do not have. -/
def colouredText : Declaration := (Declaration.ofKind .text).option "colour" (.ofInt 1)

/-- Rows with one field, whose name looks like a coloured text and another field. -/
def oneColoured : Declaration :=
  (Declaration.ofKind .repeater).subfield "a=text\x7b\"colour\":1\x7d,b" (.ofKind .number)

/-- Rows with these two fields. -/
def twoColoured : Declaration :=
  ((Declaration.ofKind .repeater).subfield "a" colouredText).subfield "b" (.ofKind .number)

/-- The rows with two fields get the options of the rows with one, and so do rows with a coloured
text, which have no options of their own. -/
theorem answers_collide :
    oneField.cacheKey = twoFields.cacheKey ∧
      empty.answers .builtin [.resolve "rows" oneField, .resolve "rows" twoFields] =
        [Registry.builtin.resolve "rows" oneField, Registry.builtin.resolve "rows" oneField] ∧
      Registry.builtin.resolve "rows" oneField ≠ Registry.builtin.resolve "rows" twoFields ∧
      (∃ o, empty.answers .builtin [.resolve "rows" oneColoured, .resolve "rows" twoColoured] =
        [.ok o, .ok o]) ∧
      Registry.builtin.resolve "rows" twoColoured =
        .error (.unknownOption "text" "a" "colour") := by
  have hkey : oneField.cacheKey = twoFields.cacheKey := by decide +kernel
  refine ⟨hkey, rfl, fun h => ?_, ⟨_, rfl⟩, rfl⟩
  have := congrArg (fun answer => answer.toOption.map fun o => o.subfields.length) h
  revert this
  decide +kernel

end OptionCache

/-- The declaration with a validator that asks for the options of each subfield. -/
def Declaration.watched (d : Declaration) : Declaration :=
  { d with
    additional := { d.additional with validators := [⟨fun context _ =>
      if d.subfields.all fun f => (context.options.subfield? f.1).isSome then .ok ()
      else .error (.message "options of other fields"), {}⟩] } }

end ContentSchema
