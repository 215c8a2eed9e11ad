import ContentSchema.Proofs.PassFrames
import ContentSchema.Proofs.PathAccess

/-!
# Field confinement — processing one field leaves the rest of the record alone

Whatever stages a field has and however its passes end, what they make of a record is the record
with another value at the path of the field, or the record itself (`Path.Rewrites`).  So nothing is
seen of it along a path that forks off, and nothing is changed at all where the container of the
field is missing.
-/

namespace ContentSchema

namespace Path

/-! ### Rewriting at a path -/

/-- What can be stored below some segments can be had by storing there. -/
theorem exists_setSegments?_of_append {p q : List String} {w v v' : Value}
    (h : setSegments? w (p ++ q) v = some v') : ∃ x, setSegments? x p v = some v' := by
  induction p generalizing v v' with
  | nil => exact ⟨v', rfl⟩
  | cons s p ih =>
    rw [List.cons_append] at h
    cases hd : descend v s with
    | some y =>
      rw [setSegments?_of_descend hd] at h
      obtain ⟨y', hy', hstore⟩ := Option.bind_eq_some_iff.mp h
      obtain ⟨x, hx⟩ := ih hy'
      refine ⟨x, ?_⟩
      rw [setSegments?_of_descend hd, hx]
      exact hstore
    | none =>
      rw [setSegments?_of_descend_none hd] at h
      split at h
      · next hpq =>
        obtain ⟨rfl, -⟩ := List.append_eq_nil_iff.mp hpq
        exact ⟨w, h⟩
      · cases h

theorem set_of_setSegments?_none {p : Path} {w v : Value}
    (h : setSegments? w p.segments v = none) : p.set w v = v := by
  unfold set set?
  rw [h]
  rfl

/-- Storing below a path changes nothing or is storing at the path. -/
theorem set_append_eq (p q : Path) (w v : Value) :
    (p ++ q).set w v = v ∨ ∃ x, (p ++ q).set w v = p.set x v := by
  cases h : setSegments? w (p ++ q).segments v with
  | none => exact .inl (set_of_setSegments?_none h)
  | some v' =>
    obtain ⟨x, hx⟩ := exists_setSegments?_of_append h
    exact .inr ⟨x, (set_eq h).trans (set_eq hx).symm⟩

/-- The second value is the first one but for what is at the path. -/
def Rewrites (p : Path) (v r : Value) : Prop := r = v ∨ ∃ x, r = p.set x v

namespace Rewrites

variable {p : Path} {v r : Value}

theorem refl (p : Path) (v : Value) : p.Rewrites v v := .inl rfl

/-- Storing at the path or below it rewrites there once more. -/
theorem set_append (h : p.Rewrites v r) (q : Path) (w : Value) :
    p.Rewrites v ((p ++ q).set w r) := by
  rcases set_append_eq p q w r with hsame | ⟨x, hx⟩
  · rw [hsame]
    exact h
  · rw [hx]
    rcases h with rfl | ⟨y, rfl⟩
    · exact .inr ⟨x, rfl⟩
    · exact .inr ⟨x, set_set p y x v⟩

end Rewrites

/-! ### What a rewriting leaves -/

/-- A rewriting is not seen along a path that forks off. -/
theorem Rewrites.lookup {p q : Path} {v r : Value} (h : p.Rewrites v r) (hq : Forks v p q) :
    q.lookup r = q.lookup v := by
  rcases h with rfl | ⟨x, rfl⟩
  · rfl
  · cases hs : setSegments? x p.segments v with
    | none => rw [set_of_setSegments?_none hs]
    | some v' =>
      rw [set_eq hs]
      exact hq.lookupSegments hs

/-- Without its container a path cannot be rewritten. -/
theorem Rewrites.eq_of_not_housed {p : Path} {v r : Value} (h : p.Rewrites v r)
    (hp : ¬ p.Housed v) : r = v := by
  rcases h with rfl | ⟨x, rfl⟩
  · rfl
  · cases hs : setSegments? x p.segments v with
    | none => exact set_of_setSegments?_none hs
    | some v' => exact absurd (Housed.of_setSegments? hs) hp

end Path

/-! ### Frames -/

section Frames

variable {registry : Registry}

/-- What is stored at a path and below it rewrites there. -/
theorem frame_rewrites (registry : Registry) (path : Path) (record : Value) :
    FrameAmong registry (fun s => path.Rewrites record s.record) path.Under fun _ => True where
  resolve _ _ h := h
  store := by
    rintro s _ w ⟨q, rfl⟩ h
    exact h.set_append q w
  report _ _ h := h

/-- What is reported at a path and below it has keys of that kind. -/
theorem frame_keys (registry : Registry) (path : Path) :
    FrameAmong registry (fun s => ∀ key ∈ Entries.keys s.errors.entries,
      ∃ q, path.Under q ∧ key = q.text) (fun _ => True) path.Under where
  resolve _ _ h := h
  store _ _ h := h
  report := by
    intro s p message hp h key hkey
    unfold ErrorMap.insert ErrorMap.add at hkey
    split at hkey
    · exact h key hkey
    · rw [Entries.keys, List.map_append, List.mem_append] at hkey
      rcases hkey with hkey | hkey
      · exact h key hkey
      · exact ⟨p, hp, List.mem_singleton.mp hkey⟩

end Frames

/-! ### One field -/

namespace Engine

variable {e : Engine} {path : Path} {d : Declaration} {record : Value} {operation : Operation}

/-- A pass that began with no errors ends in a state with all that the pass maintains. -/
theorem processed_maintains {P : PassState → Prop} {pass : PassM Unit} (hpass : Maintains P pass)
    (hs : P ⟨record, .empty, e.cache⟩) :
    ∃ s, P s ∧ (e.processed record pass).records = s.record ∧
      ∀ errors, (e.processed record pass).result = .ok errors → errors = s.errors := by
  have ht := hpass _ hs
  unfold processed runPass
  cases hrun : pass ⟨record, .empty, e.cache⟩ with
  | ok a t =>
    rw [hrun] at ht
    exact ⟨t, ht, rfl, fun errors h => (Except.ok.inj h).symm⟩
  | error err t =>
    rw [hrun] at ht
    exact ⟨t, ht, rfl, fun errors h => nomatch h⟩

/-- Both passes over a field maintain what survives storing and reporting there and below. -/
theorem process_maintains (d : Declaration) (record : Value) (operation : Operation)
    {P : PassState → Prop} {S R : Path → Prop} (h : FrameAmong e.registry P S R)
    (hpath : ∀ q, S (path ++ q) ∧ R (path ++ q)) (hs : P ⟨record, .empty, e.cache⟩) :
    ∃ s, P s ∧ (e.process path d record operation).records = s.record ∧
      ∀ errors, (e.process path d record operation).result = .ok errors → errors = s.errors :=
  have hc : FrameAmong (e.passContext operation).registry P S R := h
  processed_maintains (.bind (hc.sanitize _ hpath d) fun _ =>
    .bind .get fun _ => hc.check _ hpath d) hs

/-- Processing a field rewrites the record at the path of the field. -/
theorem process_rewrites (e : Engine) (path : Path) (d : Declaration) (record : Value)
    (operation : Operation) :
    path.Rewrites record (e.process path d record operation).records := by
  obtain ⟨s, hs, hrecord, -⟩ := process_maintains d record operation
    (frame_rewrites e.registry path record) (fun q => ⟨⟨q, rfl⟩, trivial⟩) (.refl path record)
  rw [hrecord]
  exact hs

/-- Processing a field reports at the path of the field and below it. -/
theorem process_keys {errors : ErrorMap}
    (h : (e.process path d record operation).result = .ok errors) :
    ∀ key ∈ Entries.keys errors.entries, ∃ q, path.Under q ∧ key = q.text := by
  obtain ⟨s, hs, -, herrors⟩ := process_maintains d record operation
    (frame_keys e.registry path) (fun q => ⟨trivial, ⟨q, rfl⟩⟩)
    (fun key hkey => (List.not_mem_nil hkey).elim)
  rw [herrors errors h]
  exact hs

/-- Processing one field is confined to it: what is read along a path that forks off is as before,
every error has the key of a path at the field or below it, and where the container of the field
is missing the record stays as it is.  The declaration may have stages of any kind, and the engine
kinds of any kind. -/
theorem process_confined (e : Engine) (path : Path) (d : Declaration) (record : Value)
    (operation : Operation) {errors : ErrorMap}
    (h : (e.process path d record operation).result = .ok errors) :
    (∀ q, Path.Forks record path q →
      q.lookup (e.process path d record operation).records = q.lookup record) ∧
    (∀ key ∈ Entries.keys errors.entries, ∃ q, path.Under q ∧ key = q.text) ∧
    (¬ path.Housed record → (e.process path d record operation).records = record) := by
  have hrewrites := process_rewrites e path d record operation
  exact ⟨fun q hq => hrewrites.lookup hq, process_keys h, hrewrites.eq_of_not_housed⟩

end Engine

/-- Rows with one number each. -/
def tallies : Declaration := { Declaration.ofKind .repeater with
  subfields := [("count", .ofKind .number)] }

/-- A page with a row that is no object and a row with a member that is not declared. -/
def tallyBook : Value :=
  .object [("pages", .list [.object [
    ("rows", .list [.bool true, .object [("count", .number 1), ("note", .null)]]),
    ("title", .string " T ")]])]

theorem process_confined_tallies :
    let e := Engine.ofCatalog .empty
    let errors : ErrorMap := ⟨[("pages.0.rows.0", Message.invalidInputType),
      ("pages.0.rows.1.note", Message.unrecognizedField)]⟩
    let rows : Path := ⟨["pages", "0", "rows"]⟩
    let title : Path := ⟨["pages", "00", "title"]⟩
    let nowhere : Path := ⟨["pages", "1", "rows"]⟩
    (e.process rows tallies tallyBook .create).result = .ok errors ∧
      Path.Forks tallyBook rows title ∧
      title.lookup (e.process rows tallies tallyBook .create).records = some (.string " T ") ∧
      (∀ key ∈ Entries.keys errors.entries, ∃ q, rows.Under q ∧ key = q.text) ∧
      (e.process nowhere tallies tallyBook .create).result = .ok .empty ∧
      ¬ nowhere.Housed tallyBook ∧
      (e.process nowhere tallies tallyBook .create).records = tallyBook := by
  intro e errors rows title nowhere
  have hrows : (e.process rows tallies tallyBook .create).result = .ok errors := rfl
  have hnowhere : (e.process nowhere tallies tallyBook .create).result = .ok .empty := rfl
  have hforks : Path.Forks tallyBook rows title := by
    refine .under rfl (fun h => nomatch h) (.under rfl (fun h => ?_) ?_)
    · cases h with
      | indices h => exact h rfl
    · exact .here [] [] (.keys (by decide))
  have hhoused : ¬ nowhere.Housed tallyBook := by
    rintro (h | ⟨container, h, -⟩)
    · cases h
    · cases h
  obtain ⟨hlookup, hkeys, -⟩ := Engine.process_confined e rows tallies tallyBook .create hrows
  obtain ⟨-, -, hsame⟩ := Engine.process_confined e nowhere tallies tallyBook .create hnowhere
  exact ⟨hrows, hforks, hlookup title hforks, hkeys, hnowhere, hhoused, hsame hhoused⟩

end ContentSchema
