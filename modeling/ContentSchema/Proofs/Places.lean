import ContentSchema.Proofs.PathLaws

/-!
# Places — several paths of one value

`Places v ps` says that something can be stored at each of the paths and that no two of them meet.
Storing at one of them keeps all of them places and changes what is read at no other.
-/

namespace ContentSchema

/-- Paths of a value that can be stored to and do not meet. -/
structure Places (v : Value) (ps : List Path) : Prop where
  room : ∀ p ∈ ps, p.HasRoom v
  apart : ps.Pairwise (Path.Diverges v)

namespace Path

/-- Storing along one path leaves it apart from others. -/
theorem Diverge.set_self {v v' w : Value} {p q : List String} (h : Diverge v p q)
    (hs : setSegments? w p v = some v') : Diverge v' p q := by
  induction h generalizing v' with
  | here p q h =>
    obtain ⟨x', hx'⟩ := exists_store?_of_setSegments? hs
    exact .here p q (apart_of_store? hx' h)
  | under hd _ ih =>
    rw [setSegments?_of_descend hd] at hs
    obtain ⟨x', hx', hs⟩ := Option.bind_eq_some_iff.mp hs
    exact .under (descend_store? hs) (ih hx')

end Path

namespace Places

variable {v w x : Value} {ps qs : List Path}

theorem nil (v : Value) : Places v [] := ⟨fun _ h => (List.not_mem_nil h).elim, List.Pairwise.nil⟩

/-- Two members of a list of places are equal or apart. -/
theorem eq_or_diverges (h : Places v ps) {p q : Path} (hp : p ∈ ps) (hq : q ∈ ps) :
    p = q ∨ Path.Diverges v p q := by
  have happ := h.apart
  clear h
  induction ps with
  | nil => cases hp
  | cons r ps ih =>
    obtain ⟨hr, hps⟩ := List.pairwise_cons.mp happ
    rcases List.mem_cons.mp hp with hpr | hp <;> rcases List.mem_cons.mp hq with hqr | hq
    · exact .inl (hpr.trans hqr.symm)
    · exact .inr (hpr ▸ hr q hq)
    · exact .inr (hqr ▸ (hr p hp).symm)
    · exact ih hp hq hps

/-- Storing at one place keeps all of them. -/
theorem set (h : Places v ps) {p : Path} (hp : p ∈ ps) (w : Value) : Places (p.set w v) ps := by
  have hpv : p.HasRoom v := h.room p hp
  refine ⟨fun q hq => ?_, h.apart.imp_of_mem fun {q r} hq hr hqr => ?_⟩
  · rcases h.eq_or_diverges hp hq with rfl | hpq
    · exact Path.hasRoom_of_lookup (Path.lookup_set hpv w)
    · exact hpq.hasRoom_set hpv (h.room q hq) w
  · rcases h.eq_or_diverges hp hq with rfl | hpq
    · exact hqr.set_self (hpv.set? w)
    · rcases h.eq_or_diverges hp hr with rfl | hpr
      · exact (hqr.symm.set_self (hpv.set? w)).symm
      · exact hqr.set hpq hpr hpv w

/-- The places of a part, seen from the container. -/
theorem below {s : String} (hd : Path.descend v s = some x) (h : Places x ps) :
    Places v (ps.map (Path.root.child s ++ ·)) := by
  refine ⟨fun q hq => ?_, List.pairwise_map.mpr (h.apart.imp fun hpq => .under hd hpq)⟩
  obtain ⟨p, hp, rfl⟩ := List.mem_map.mp hq
  exact (Path.room_cons hd).mpr (h.room p hp)

/-- Places of several parts are places together. -/
theorem flatMap {ss : List String} {f : String → List Path} (happ : ss.Pairwise (Path.Apart v))
    (hf : ∀ s ∈ ss, ∀ q ∈ f s, ∃ q', q.segments = s :: q') (h : ∀ s ∈ ss, Places v (f s)) :
    Places v (ss.flatMap f) := by
  refine ⟨fun q hq => ?_, List.pairwise_flatMap.mpr ⟨fun s hs => (h s hs).apart, ?_⟩⟩
  · obtain ⟨s, hs, hq⟩ := List.mem_flatMap.mp hq
    exact (h s hs).room q hq
  · refine happ.imp_of_mem fun {s t} hs ht hst p hp q hq => ?_
    obtain ⟨p', hp'⟩ := hf s hs p hp
    obtain ⟨q', hq'⟩ := hf t ht q hq
    show Path.Diverge v p.segments q.segments
    rw [hp', hq']
    exact .here p' q' hst

/-- Places of two parts are places together. -/
theorem append {s t : String} (hst : Path.Apart v s t)
    (hps : ∀ p ∈ ps, ∃ p', p.segments = s :: p') (hqs : ∀ q ∈ qs, ∃ q', q.segments = t :: q')
    (hp : Places v ps) (hq : Places v qs) : Places v (ps ++ qs) := by
  refine ⟨fun r hr => ?_, List.pairwise_append.mpr ⟨hp.apart, hq.apart, ?_⟩⟩
  · rcases List.mem_append.mp hr with hr | hr
    · exact hp.room r hr
    · exact hq.room r hr
  · intro p hpm q hqm
    obtain ⟨p', hp'⟩ := hps p hpm
    obtain ⟨q', hq'⟩ := hqs q hqm
    show Path.Diverge v p.segments q.segments
    rw [hp', hq']
    exact .here p' q' hst

/-- The keys of an object are places, whether or not it has them. -/
theorem keys (ms : Entries Value) {names : List String} (h : names.Nodup) :
    Places (.object ms) (names.map (Path.root.child ·)) := by
  refine ⟨fun q hq => ?_, List.pairwise_map.mpr (h.imp fun hst => .here [] [] (.keys hst))⟩
  obtain ⟨s, -, rfl⟩ := List.mem_map.mp hq
  exact Path.room_singleton s ms

/-- Items of a list stand at different indices. -/
theorem pairwise_zipIdx (items : List Value) : items.zipIdx.Pairwise fun a b => a.2 ≠ b.2 := by
  rw [← List.pairwise_map (f := Prod.snd) (R := (· ≠ ·)), List.zipIdx_map_snd]
  exact List.nodup_range'

/-- The places inside the items of a list. -/
theorem items {items : List Value} {f : Value → List Path}
    (h : ∀ x ∈ items, Places x (f x)) :
    Places (.list items)
      (items.zipIdx.flatMap fun e => (f e.1).map (Path.root.index e.2 ++ ·)) := by
  have hget : ∀ {e : Value × Nat}, e ∈ items.zipIdx → items[e.2]? = some e.1 := fun he =>
    List.mem_zipIdx_iff_getElem?.mp he
  refine ⟨fun q hq => ?_, List.pairwise_flatMap.mpr ⟨fun e he => ?_, ?_⟩⟩
  · obtain ⟨e, he, hq⟩ := List.mem_flatMap.mp hq
    have hd := (Path.descend_indexText items e.2).trans (hget he)
    exact (below hd (h e.1 (List.mem_of_getElem? (hget he)))).room q hq
  · have hd := (Path.descend_indexText items e.2).trans (hget he)
    exact (below hd (h e.1 (List.mem_of_getElem? (hget he)))).apart
  · refine (pairwise_zipIdx items).imp fun {a b} hab p hp q hq => ?_
    obtain ⟨p', -, rfl⟩ := List.mem_map.mp hp
    obtain ⟨q', -, rfl⟩ := List.mem_map.mp hq
    exact .here p'.segments q'.segments (Path.apart_indexText hab items)

end Places

end ContentSchema
