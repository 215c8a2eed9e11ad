import ContentSchema.Engine.Keywords
import ContentSchema.Proofs.InPlay
import ContentSchema.Proofs.Stages
import ContentSchema.Proofs.Trimming

/-!
# Keyword leaves — the keywords of a value are those of its leaves

Joining parts that were joined before is joining all of them at once (`Keywords.join_append`,
`Keywords.join_joined`), so it makes no difference at which level of a value the parts are put
together.  The leaves of a value are what is reached through members and holds none
(`Catalog.forall_leaves`).  The keywords of a composite value are those of its leaves in the order
of the walk (`Catalog.keywords_composite`), and this is what the engine computes from whatever
options it kept (`Engine.keywordsOf_answers`), for one value and for the search fields of a record
(`Engine.extractKeywords_leaves`).
-/

namespace ContentSchema

/-! ### Joining -/

namespace Keywords

/-- Two joined texts joined once more. -/
def spaced (s t : String) : String := if s = "" then t else if t = "" then s else s ++ " " ++ t

@[simp] theorem spaced_empty_left (t : String) : spaced "" t = t := if_pos rfl

@[simp] theorem spaced_empty_right (s : String) : spaced s "" = s := by
  by_cases h : s = "" <;> simp [spaced, h]

theorem spaced_assoc (s t u : String) : spaced (spaced s t) u = spaced s (spaced t u) := by
  by_cases hs : s = ""
  · simp [hs]
  · by_cases ht : t = ""
    · simp [ht]
    · by_cases hu : u = ""
      · simp [hu]
      · simp [spaced, hs, ht, hu, String.append_assoc]

theorem trimmed_spaced {s t : String} (hs : Text.Trimmed Text.isBlank s.toList)
    (ht : Text.Trimmed Text.isBlank t.toList) : Text.Trimmed Text.isBlank (spaced s t).toList := by
  unfold spaced
  split
  · exact ht
  · next hs' =>
    split
    · exact hs
    · next ht' =>
      rw [String.toList_append, String.toList_append]
      exact hs.append ht (by simpa using hs') (by simpa using ht') _

@[simp] theorem join_nil : join [] = "" := rfl

theorem join_cons (s : String) (parts : List String) :
    join (s :: parts) = spaced (Text.trim s) (join parts) := by
  unfold join
  rw [List.map_cons, List.filter_cons]
  by_cases hs : Text.trim s = ""
  · simp [hs]
  · rw [if_pos (by simpa using hs)]
    cases hwords : (parts.map Text.trim).filter (· ≠ "") with
    | nil => simp
    | cons w words =>
      have hw : w ≠ "" := by
        have hmem : w ∈ (parts.map Text.trim).filter (· ≠ "") := by rw [hwords]; simp
        simpa using (List.mem_filter.mp hmem).2
      have hne : Text.join " " (w :: words) ≠ "" := by
        cases words <;> simp [Text.join, hw]
      rw [Text.join_cons_cons, spaced, if_neg hs, if_neg hne]

/-- Parts in two lists are the parts of the lists one after the other. -/
theorem join_append (xs ys : List String) : join (xs ++ ys) = spaced (join xs) (join ys) := by
  induction xs with
  | nil => simp
  | cons x xs ih => rw [List.cons_append, join_cons, join_cons, ih, spaced_assoc]

theorem trimmed_join (parts : List String) : Text.Trimmed Text.isBlank (join parts).toList := by
  induction parts with
  | nil => exact Text.trimmed_of_forall nofun
  | cons s parts ih =>
    rw [join_cons]
    exact trimmed_spaced (Text.trimmed_trim s) ih

@[simp] theorem trim_join (parts : List String) : Text.trim (join parts) = join parts :=
  Text.trim_of_trimmed (trimmed_join parts)

theorem join_singleton (s : String) : join [s] = Text.trim s := by simp [join_cons]

/-- Joining what was joined joins all of it. -/
theorem join_joined (xs ys : List String) : join [join xs, join ys] = join (xs ++ ys) := by
  simp [join_cons, join_append]

theorem join_flatMap {α : Type} {xs : List α} {word : α → String} {parts : α → List String}
    (h : ∀ x ∈ xs, Text.trim (word x) = join (parts x)) :
    join (xs.map word) = join (xs.flatMap parts) := by
  induction xs with
  | nil => rfl
  | cons x xs ih =>
    obtain ⟨hx, hxs⟩ := List.forall_mem_cons.mp h
    rw [List.map_cons, List.flatMap_cons, join_cons, join_append, hx, ih hxs]

end Keywords

/-! ### Leaves -/

/-- A value at its place, with its declaration. -/
structure Position where
  path : Path
  declaration : Declaration
  value : Value

/-- The keywords that the kind of a position gives for its value. -/
def Position.keywords (p : Position) : String :=
  p.declaration.kind.definition.keywords p.declaration.ownOptions p.value

namespace Catalog

/-- The members of a value that are there. -/
def present (c : Catalog) (p : Position) : List Position :=
  (c.members p.declaration p.value).filterMap fun m =>
    (m.relative.lookup p.value).map (⟨p.path ++ m.relative, m.declaration, ·⟩)

variable {c : Catalog} {p : Position}

theorem mem_present {q : Position} :
    q ∈ c.present p ↔ ∃ m ∈ c.members p.declaration p.value, ∃ u,
      m.relative.lookup p.value = some u ∧ q = ⟨p.path ++ m.relative, m.declaration, u⟩ := by
  unfold present
  simp only [List.mem_filterMap, Option.map_eq_some_iff, eq_comm (a := q)]

theorem weight_present {q : Position} (h : q ∈ c.present p) : q.value.weight < p.value.weight := by
  obtain ⟨m, hm, u, hu, rfl⟩ := mem_present.mp h
  exact weight_member hm hu

/-- The positions without members that are there, at all depths and in the order of the walk. -/
def leaves (c : Catalog) (p : Position) : List Position :=
  if p.declaration.kind.isComposite then
    (c.present p).attach.flatMap fun q => c.leaves q.1
  else [p]
termination_by p.value.weight
decreasing_by exact weight_present q.2

theorem leaves_leaf (hp : p.declaration.kind.isComposite = false) : c.leaves p = [p] := by
  rw [leaves, hp, if_neg Bool.false_ne_true]

theorem leaves_composite (hp : p.declaration.kind.isComposite = true) :
    c.leaves p = (c.present p).flatMap c.leaves := by
  rw [leaves, if_pos hp]
  conv_rhs => rw [← List.attach_map_subtype_val (c.present p), List.flatMap_map]

/-- The leaves are what is reached through members and holds none. -/
theorem forall_leaves {P : Position → Prop} :
    (∀ l ∈ c.leaves p, P l) ↔
      Everywhere c (fun path d v => d.kind.isComposite = false → P ⟨path, d, v⟩) p.path
        p.declaration p.value := by
  induction p using leaves.induct c with
  | case1 p hp ih =>
    rw [leaves_composite hp]
    constructor
    · intro h
      refine .mk (fun hleaf => absurd hp (Bool.eq_false_iff.mp hleaf)) fun m hm u hu => ?_
      have hq : ⟨p.path ++ m.relative, m.declaration, u⟩ ∈ c.present p :=
        mem_present.mpr ⟨m, hm, u, hu, rfl⟩
      exact (ih ⟨_, hq⟩).mp fun l hl => h l (List.mem_flatMap.mpr ⟨_, hq, hl⟩)
    · intro h l hl
      obtain ⟨q, hq, hl⟩ := List.mem_flatMap.mp hl
      obtain ⟨m, hm, u, hu, rfl⟩ := mem_present.mp hq
      exact (ih ⟨_, hq⟩).mpr (h.member hm hu) l hl
  | case2 p hp =>
    have hleaf := Bool.eq_false_iff.mpr hp
    rw [leaves_leaf hleaf, List.forall_mem_singleton]
    exact ⟨fun h => .leaf (fun _ => h) (c.members_leaf hleaf p.value), fun h => h.here hleaf⟩

/-- The keywords of a position: its own if it is a leaf, those of its leaves otherwise. -/
def keywords (c : Catalog) (p : Position) : String :=
  if p.declaration.kind.isComposite then Keywords.join ((c.leaves p).map Position.keywords)
  else p.keywords

theorem trim_keywords (c : Catalog) (p : Position) :
    Text.trim (c.keywords p) = Keywords.join ((c.leaves p).map Position.keywords) := by
  unfold keywords
  split
  · rw [Keywords.trim_join]
  · next hp =>
    rw [leaves_leaf (Bool.eq_false_iff.mpr hp), List.map_singleton, Keywords.join_singleton]

/-- The keywords of several positions, joined, are those of all their leaves. -/
theorem join_keywords (c : Catalog) (ps : List Position) :
    Keywords.join (ps.map c.keywords) =
      Keywords.join ((ps.flatMap c.leaves).map Position.keywords) := by
  rw [List.map_flatMap]
  exact Keywords.join_flatMap fun p _ => c.trim_keywords p

theorem keywords_composite (hp : p.declaration.kind.isComposite = true) :
    c.keywords p = Keywords.join ((c.present p).map c.keywords) := by
  rw [keywords, if_pos hp, leaves_composite hp, join_keywords]

end Catalog

/-- The value that a record has for a declared field. -/
def Collection.position? (collection : Collection) (record : Value) (name : String) :
    Option Position :=
  match Entries.get? name collection.fields, record.get? name with
  | some d, some v => some ⟨Path.root.child name, d, v⟩
  | _, _ => none

/-- The values of the search fields in their order, or of all declared fields. -/
def Collection.searched (collection : Collection) (record : Value) : List Position :=
  (collection.search.getD (Entries.keys collection.fields)).filterMap (collection.position? record)

/-! ### Resolving -/

/-- Starting from options that were kept rightly, the computation can only answer with `P`. -/
def Answers {α : Type} (m : ResolveM α) (P : α → Prop) : Prop :=
  ∀ cache cache' a, cache.Sound → m cache = .ok a cache' → cache'.Sound ∧ P a

namespace Answers

variable {α β : Type} {m : ResolveM α} {P : α → Prop}

theorem pure {a : α} (h : P a) : Answers (pure a) P := by
  intro cache cache' b hs hrun
  obtain ⟨rfl, rfl⟩ := EStateM.Result.ok.inj hrun
  exact ⟨hs, h⟩

theorem bind {f : α → ResolveM β} {Q : β → Prop} (hm : Answers m P)
    (hf : ∀ a, P a → Answers (f a) Q) : Answers (m >>= f) Q := by
  intro cache cache' b hs hrun
  obtain ⟨a, between, ha, hb⟩ := bind_ok.mp hrun
  obtain ⟨hbetween, hP⟩ := hm _ _ _ hs ha
  exact hf a hP _ _ _ hbetween hb

theorem mapM {f : α → ResolveM β} {g : α → β} {o : Option α}
    (h : ∀ a, o = some a → Answers (f a) (· = g a)) : Answers (o.mapM f) (· = o.map g) := by
  cases o with
  | none => exact .pure rfl
  | some a =>
    refine (h a rfl).bind fun b hb => .pure ?_
    rw [hb]
    rfl

/-- A loop over computations with one answer each. -/
theorem filterMapM {f : α → ResolveM (Option β)} {g : α → Option β} {xs : List α}
    (h : ∀ x ∈ xs, Answers (f x) (· = g x)) : Answers (xs.filterMapM f) (· = xs.filterMap g) := by
  induction xs with
  | nil => exact .pure rfl
  | cons x xs ih =>
    obtain ⟨hx, hxs⟩ := List.forall_mem_cons.mp h
    rw [List.filterMapM_cons]
    refine hx.bind fun a ha => ?_
    rw [List.filterMap_cons, ← ha]
    cases a with
    | none => exact ih hxs
    | some b =>
      refine (ih hxs).bind fun bs hbs => .pure ?_
      simp only [hbs]

end Answers

namespace Engine

variable {e : Engine}

theorem definition_builtin (hreg : e.registry = .builtin) (k : FieldKind) :
    e.definition k = .ok k.definition := by
  unfold Engine.definition
  rw [hreg, get_builtin]
  rfl

/-- The options of a declaration have its own values, computed or kept. -/
theorem cachedOptions_answers (hreg : e.registry = .builtin) (name : String) (d : Declaration) :
    Answers (e.cachedOptions name d) (·.values = d.values) := by
  intro cache cache' o hs hrun
  obtain ⟨hsound, hvalues⟩ := hs.resolve name d
  obtain ⟨⟨result, kept⟩, hresolve⟩ : ∃ p, cache.resolve .builtin name d = p := ⟨_, rfl⟩
  rw [hresolve] at hsound hvalues
  unfold cachedOptions at hrun
  rw [hreg, bind_run get_run] at hrun
  simp only [hresolve] at hrun
  cases result with
  | error err => cases hrun
  | ok options =>
    obtain ⟨rfl, rfl⟩ := EStateM.Result.ok.inj hrun
    exact ⟨hsound, (hvalues _ rfl).2⟩

/-- With fuel for its weight a value has its keywords. -/
theorem keywordsOf_answers (hreg : e.registry = .builtin) {fuel : Nat} {path : Path}
    {d : Declaration} {v : Value} (hfuel : v.weight < fuel) :
    Answers (e.keywordsOf fuel path d v) (· = e.catalog.keywords ⟨path, d, v⟩) := by
  induction fuel generalizing path d v with
  | zero => omega
  | succ fuel ih =>
    unfold keywordsOf
    rw [definition_builtin hreg]
    simp only [pure_bind, composite_definition]
    by_cases hd : d.kind.isComposite = true
    · rw [if_pos hd, Catalog.keywords_composite hd]
      have hmembers : ∀ m ∈ e.catalog.members d v, Answers
          ((m.relative.lookup v).mapM (e.keywordsOf fuel (path ++ m.relative) m.declaration))
          (· = (m.relative.lookup v).map fun u =>
            e.catalog.keywords ⟨path ++ m.relative, m.declaration, u⟩) := by
        refine fun m hm => .mapM fun u hu => ih ?_
        -- a member weighs less than the value it lies in
        have := Catalog.weight_member hm hu
        omega
      refine (Answers.filterMapM hmembers).bind fun parts hparts => .pure ?_
      rw [hparts, Catalog.present, List.map_filterMap]
      simp only [Option.map_map, Function.comp_def]
    · rw [if_neg hd, Catalog.keywords, if_neg hd]
      refine (cachedOptions_answers hreg path.name d).bind fun o ho => .pure ?_
      exact keywords_values d.kind ho v

theorem runResolve_ok {α : Type} {m : ResolveM α} {P : α → Prop} (h : Answers m P)
    (hcache : e.cache.Sound) {a : α} (hrun : (e.runResolve m).1 = .ok a) : P a := by
  unfold runResolve at hrun
  split at hrun
  · next b cache hb =>
    rw [← Except.ok.inj hrun]
    exact (h _ _ _ hcache hb).2
  · cases hrun

/-- Extracting keywords is flattening: whatever composites the leaves of a value lie in, its
keywords are theirs in the order of the walk, joined once.  The leaves are the places that are
reached through members and hold none. -/
theorem extractKeywords_leaves (hreg : e.registry = .builtin) (hcache : e.cache.Sound) :
    (∀ p : Position, p.declaration.kind.isComposite = true → ∀ text,
      (e.extractKeywords p.path p.declaration p.value).1 = .ok text →
        text = Keywords.join ((e.catalog.leaves p).map Position.keywords) ∧
          Text.Trimmed Text.isBlank text.toList) ∧
      (∀ name collection, e.collection name = .ok collection → ∀ record text,
        (e.extractRecordKeywords name record).1 = .ok text →
          text = Keywords.join
              (((collection.searched record).flatMap e.catalog.leaves).map Position.keywords) ∧
            Text.Trimmed Text.isBlank text.toList) ∧
      (∀ xs ys, Keywords.join (xs ++ ys) = Keywords.join [Keywords.join xs, Keywords.join ys]) ∧
      ∀ (p : Position) (P : Position → Prop), (∀ l ∈ e.catalog.leaves p, P l) ↔
        Everywhere e.catalog (fun path d v => d.kind.isComposite = false → P ⟨path, d, v⟩) p.path
          p.declaration p.value := by
  refine ⟨fun p hp text hrun => ?_, fun name collection hname record text hrun => ?_,
    fun xs ys => (Keywords.join_joined xs ys).symm, fun p P => Catalog.forall_leaves⟩
  · have htext : text = e.catalog.keywords p :=
      runResolve_ok (keywordsOf_answers hreg (Nat.lt_succ_self _)) hcache hrun
    rw [Catalog.keywords, if_pos hp] at htext
    rw [htext]
    exact ⟨rfl, Keywords.trimmed_join _⟩
  · unfold extractRecordKeywords at hrun
    rw [hname] at hrun
    have htext : text = Keywords.join ((collection.searched record).map e.catalog.keywords) := by
      refine runResolve_ok (P := (· = _)) ?_ hcache hrun
      have hfields : ∀ name ∈ collection.search.getD (Entries.keys collection.fields), Answers
          (match Entries.get? name collection.fields, record.get? name with
            | some d, some v => some <$> e.keywordsOf (v.weight + 1) (Path.root.child name) d v
            | _, _ => pure none)
          (· = (collection.position? record name).map e.catalog.keywords) := by
        intro name _
        unfold Collection.position?
        split
        · rw [map_eq_pure_bind]
          refine (keywordsOf_answers hreg (Nat.lt_succ_self _)).bind fun a ha => .pure ?_
          rw [ha]
          rfl
        · exact .pure rfl
      refine (Answers.filterMapM hfields).bind fun parts hparts => .pure ?_
      rw [hparts, Collection.searched, List.map_filterMap]
    rw [htext, Catalog.join_keywords]
    exact ⟨rfl, Keywords.trimmed_join _⟩

/-- A page with rows of texts and a state. -/
def sectionedPage : Declaration :=
  { kind := .object
    subfields := [
      ("rows", { kind := .repeater, subfields := [("label", .ofKind .text)] }),
      ("state", { kind := .select, options := [("choices", .object [("o", .string " Open ")])] })] }

def sectionedPages : Collection where
  name := "pages"
  fields := [("body", sectionedPage), ("title", .ofKind .text)]
  search := some ["title", "body", "gone"]

/-- Rows with spaces to trim, one with nothing else and one that is no row. -/
def sectionedBody : Value :=
  .object [
    ("rows", .list [.object [("label", .string " first ")], .object [("label", .string "  ")],
      .null, .object [("label", .string "last")]]),
    ("state", .string "o")]

def sectionedRecord : Value := .object [("body", sectionedBody), ("title", .string "About ")]

def sectionedEngine : Engine := .ofCatalog ⟨[("pages", sectionedPages)], []⟩

theorem extractKeywords_leaves_sections :
    sectionedEngine.registry = .builtin ∧ sectionedEngine.cache.Sound ∧
      "first last Open" = Keywords.join ((sectionedEngine.catalog.leaves
        ⟨Path.root.child "body", sectionedPage, sectionedBody⟩).map Position.keywords) ∧
      "About first last Open" = Keywords.join (((sectionedPages.searched sectionedRecord).flatMap
        sectionedEngine.catalog.leaves).map Position.keywords) := by
  obtain ⟨hfield, hrecord, -⟩ :=
    extractKeywords_leaves (e := sectionedEngine) rfl OptionCache.sound_empty
  refine ⟨rfl, OptionCache.sound_empty, ?_, ?_⟩
  · exact (hfield ⟨Path.root.child "body", sectionedPage, sectionedBody⟩ rfl _ rfl).1
  · exact (hrecord "pages" sectionedPages rfl sectionedRecord _ rfl).1

end Engine

end ContentSchema
