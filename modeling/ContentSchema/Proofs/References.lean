import Mathlib.Data.List.DropRight
import ContentSchema.Proofs.PathTexts

/-!
# References — up some levels, then down along names

A reference is read part by part, and each part moves the place reached so far.  All its parts
together are one route: so many levels up from the place where the reference starts, and from there
down along names (`Path.segments_resolve`).  The route depends on the reference alone, it stops at
the root if there are fewer levels than it goes up, and the route of two references with a slash
between them is the one after the other (`Path.resolve_composes`).
-/

namespace ContentSchema

namespace Path

/-- A reference that starts at the root. -/
def IsAbsolute (reference : String) : Prop := reference.toList.head? = some '/'

instance (reference : String) : Decidable (IsAbsolute reference) :=
  inferInstanceAs (Decidable (_ = _))

/-- Where a reference from a path starts: at the root, or beside the last segment of the path. -/
def start (p : Path) (reference : String) : List String :=
  if IsAbsolute reference then [] else p.parent.segments

/-- A segment that a dotted text can name, in a reference too. -/
def IsName (s : String) : Prop := s ≠ "" ∧ '.' ∉ s.toList ∧ '/' ∉ s.toList

/-- Some levels up, and then down along names. -/
structure Route where
  ups : Nat := 0
  names : List String := []
deriving DecidableEq

namespace Route

/-- Where a route leads from a place; above the root there is nothing. -/
def target (r : Route) (segments : List String) : List String := segments.rdrop r.ups ++ r.names

/-- A route with one more part.  A part that goes up takes back the last name, if there is one. -/
def step (r : Route) (part : String) : Route :=
  if part = "" ∨ part = "." then r
  else if part = ".." then
    if r.names = [] then { r with ups := r.ups + 1 } else { r with names := r.names.dropLast }
  else { r with names := r.names ++ pieces part }

/-- The route of a reference. -/
def ofReference (reference : String) : Route := (Text.split '/' reference).foldl step {}

@[simp] theorem target_start (segments : List String) :
    ({} : Route).target segments = segments := by
  unfold target
  rw [List.rdrop_zero, List.append_nil]

theorem rdrop_succ (segments : List String) (n : Nat) :
    segments.rdrop (n + 1) = (segments.rdrop n).dropLast := by
  unfold List.rdrop
  rw [List.dropLast_eq_take, List.take_take, List.length_take]
  congr 1
  omega

/-- A part moves the place that a route leads to. -/
theorem target_step (r : Route) (segments : List String) (part : String) :
    (r.step part).target segments = Path.step (r.target segments) part := by
  unfold step Path.step
  by_cases hstay : part = "" ∨ part = "."
  · rw [if_pos hstay, if_pos hstay]
  · rw [if_neg hstay, if_neg hstay]
    by_cases hup : part = ".."
    · rw [if_pos hup, if_pos hup]
      unfold Route.target
      by_cases hnames : r.names = []
      · rw [if_pos hnames]
        simp only [hnames, List.append_nil, rdrop_succ]
      · rw [if_neg hnames, List.dropLast_append_of_ne_nil hnames]
    · rw [if_neg hup, if_neg hup]
      exact (List.append_assoc ..).symm

/-- The parts one after another move the place that a route leads to. -/
theorem target_foldl (r : Route) (segments : List String) (parts : List String) :
    (parts.foldl step r).target segments = parts.foldl Path.step (r.target segments) := by
  induction parts generalizing r with
  | nil => rfl
  | cons part parts ih => rw [List.foldl_cons, List.foldl_cons, ih, target_step]

theorem isName_pieces {part : String} (hpart : '/' ∉ part.toList) :
    ∀ s ∈ pieces part, IsName s := by
  intro s hs
  obtain ⟨hne, hdot⟩ := isPiece_of_mem_pieces hs
  have hchars := Text.mem_of_mem_split (List.mem_filter.mp hs).1
  exact ⟨hne, hdot, fun hslash => hpart (hchars _ hslash).1⟩

/-- A part without a slash leads along names only. -/
theorem isName_step {r : Route} (h : ∀ s ∈ r.names, IsName s) {part : String}
    (hpart : '/' ∉ part.toList) : ∀ s ∈ (r.step part).names, IsName s := by
  unfold step
  split
  · exact h
  · split
    · split
      · exact h
      · exact fun s hs => h s (List.dropLast_subset _ hs)
    · exact fun s hs => (List.mem_append.mp hs).elim (h s) (isName_pieces hpart s)

theorem isName_foldl {r : Route} (h : ∀ s ∈ r.names, IsName s) {parts : List String}
    (hparts : ∀ part ∈ parts, '/' ∉ part.toList) : ∀ s ∈ (parts.foldl step r).names, IsName s := by
  induction parts generalizing r with
  | nil => exact h
  | cons part parts ih =>
    obtain ⟨hpart, hparts⟩ := List.forall_mem_cons.mp hparts
    exact ih (isName_step h hpart) hparts

theorem isName_ofReference (reference : String) :
    ∀ s ∈ (ofReference reference).names, IsName s :=
  isName_foldl (List.forall_mem_nil _) fun _ hpart hslash =>
    (Text.mem_of_mem_split hpart _ hslash).2 rfl

end Route

/-! ### Resolving -/

theorem start_of_isAbsolute {reference : String} (h : IsAbsolute reference) (p : Path) :
    p.start reference = [] := if_pos h

theorem start_of_not_isAbsolute {reference : String} (h : ¬ IsAbsolute reference) (p : Path) :
    p.start reference = p.parent.segments := if_neg h

/-- The slash in front of a reference is no step of the way. -/
theorem segments_resolve_foldl (p : Path) (reference : String) :
    (p.resolve reference).segments = (Text.split '/' reference).foldl step (p.start reference) := by
  unfold resolve
  split
  · next rest h =>
    have habsolute : IsAbsolute reference := congrArg List.head? h
    have hsplit : Text.split '/' reference = "" :: Text.split '/' (String.ofList rest) := by
      unfold Text.split
      rw [h, String.toList_ofList, Text.splitChars, if_pos rfl, List.map_cons]
    rw [start_of_isAbsolute habsolute, hsplit, List.foldl_cons]
    rfl
  · next h =>
    have hrelative : ¬ IsAbsolute reference := fun habsolute =>
      (List.head?_eq_some_iff.mp habsolute).elim h
    rw [start_of_not_isAbsolute hrelative]

/-- A reference leads along its route from where it starts. -/
theorem segments_resolve (p : Path) (reference : String) :
    (p.resolve reference).segments = (Route.ofReference reference).target (p.start reference) := by
  rw [segments_resolve_foldl, Route.ofReference, Route.target_foldl, Route.target_start]

theorem isAbsolute_append {a : String} (ha : a ≠ "") (b : String) :
    IsAbsolute (a ++ b) ↔ IsAbsolute a := by
  have hne : a.toList ≠ [] := fun h => ha (String.toList_inj.mp h)
  obtain ⟨c, cs, hcs⟩ := List.exists_cons_of_ne_nil hne
  unfold IsAbsolute
  rw [String.toList_append, hcs]
  rfl

theorem parent_child (p : Path) (s : String) : (p.child s).parent = p := by
  unfold child parent
  rw [List.dropLast_concat]

/-- From inside an item of a list, two points lead to the list. -/
theorem resolve_points (p : Path) (s t : String) : ((p.child s).child t).resolve ".." = p := by
  have hroute : Route.ofReference ".." = ⟨1, []⟩ := by decide
  rw [ext_iff, segments_resolve, start_of_not_isAbsolute (by decide), parent_child, hroute,
    Route.target, List.append_nil, segments_child, List.rdrop_concat_succ, List.rdrop_zero]

/-- References compose: what stands behind a slash is resolved at the place reached before it, as
from any file there.  A leading slash makes a reference independent of its base.  And a reference
keeps all but some levels of the place where it starts and adds names to the rest. -/
theorem resolve_composes :
    (∀ (p : Path) (a b x : String), a ≠ "" → ¬ IsAbsolute b →
      p.resolve (a ++ "/" ++ b) = ((p.resolve a).child x).resolve b) ∧
    (∀ (p q : Path) (reference : String), IsAbsolute reference →
      p.resolve reference = q.resolve reference) ∧
    ∀ (p : Path) (reference : String),
      (p.resolve reference).segments =
        (p.start reference).rdrop (Route.ofReference reference).ups ++
          (Route.ofReference reference).names ∧
      ∀ s ∈ (Route.ofReference reference).names, IsName s := by
  refine ⟨fun p a b x ha hb => ?_, fun p q reference h => ?_, fun p reference => ?_⟩
  · have hstart : p.start (a ++ "/" ++ b) = p.start a := by
      unfold start
      rw [String.append_assoc, if_congr (isAbsolute_append ha ("/" ++ b)) rfl rfl]
    have hfile : ((p.resolve a).child x).start b = (p.resolve a).segments := by
      rw [start_of_not_isAbsolute hb, parent_child]
    rw [ext_iff, segments_resolve_foldl, segments_resolve_foldl, hstart, hfile,
      segments_resolve_foldl]
    have hsplit : Text.split '/' (a ++ "/" ++ b) = Text.split '/' a ++ Text.split '/' b :=
      Text.split_append '/' a b
    rw [hsplit, List.foldl_append]
  · rw [ext_iff, segments_resolve, segments_resolve, start_of_isAbsolute h,
      start_of_isAbsolute h]
  · exact ⟨segments_resolve p reference, Route.isName_ofReference reference⟩

/-- A reference in two parts with empty parts and points in it, which goes up past the root. -/
theorem resolve_composes_tags :
    let label := parse "items.1.label"
    let above := "..//."
    let tag := "../../../meta..tags/./2"
    (above ≠ "" ∧ ¬ IsAbsolute tag ∧ label.resolve above = parse "items" ∧
      label.resolve (above ++ "/" ++ tag) = ((label.resolve above).child "note").resolve tag) ∧
    (IsAbsolute "/items.0" ∧ label.resolve "/items.0" = root.resolve "/items.0") ∧
    label.resolve (above ++ "/" ++ tag) = parse "meta.tags.2" ∧
    Route.ofReference (above ++ "/" ++ tag) = ⟨4, ["meta", "tags", "2"]⟩ ∧
    ∀ s ∈ ["meta", "tags", "2"], IsName s := by
  intro label above tag
  obtain ⟨hcompose, habsolute, hroute⟩ := resolve_composes
  have habove : above ≠ "" := by decide
  have htag : ¬ IsAbsolute tag := by decide
  have hitems : IsAbsolute "/items.0" := by decide
  have hof : Route.ofReference (above ++ "/" ++ tag) = ⟨4, ["meta", "tags", "2"]⟩ := by
    decide
  obtain ⟨hsegments, hnames⟩ := hroute label (above ++ "/" ++ tag)
  rw [hof] at hsegments hnames
  refine ⟨⟨habove, htag, by decide, hcompose label above tag "note" habove htag⟩,
    ⟨hitems, habsolute label root "/items.0" hitems⟩, ext_iff.mpr (hsegments.trans ?_), hof, hnames⟩
  decide

end Path

end ContentSchema
