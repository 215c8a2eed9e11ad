import ContentSchema.Proofs.OwnOptions

/-!
# Key prefixes — what the key of a declaration tells

The kind and the given options stand in front of the key, and the options end at their closing
brace.  So every key tells them, and with them the values of all options but the nested ones
(`cacheKey_determines`).

Of what is nested, the key puts names between `=`, `,`, `|` and braces and escapes none of them.  As
long as no nested name holds the mark that ends it, keys in front of what may follow them are equal
only for declarations that agree in all that resolving looks at (`keyChars_prefix`), so that
declarations with one key resolve alike (`resolve_of_cacheKey`).
-/

namespace ContentSchema

/-! ### Any names -/

/-- Declarations with one key are given the same option values, or refused for the same reason. -/
theorem Registry.values_of_cacheKey {d e : Declaration} (h : d.cacheKey = e.cacheKey)
    (r : Registry) (name : String) : r.values name d = r.values name e := by
  obtain ⟨hkind, hoptions⟩ := Declaration.cacheKey_injective h
  unfold values
  rw [hkind, hoptions]

namespace Declaration

/-- The key is the kind, the text of the given options and what is nested, and it determines all
three. -/
theorem cacheKey_iff {d e : Declaration} :
    d.cacheKey = e.cacheKey ↔ d.kind = e.kind ∧
      Json.text (.object d.options) = Json.text (.object e.options) ∧
      d.nestedChars = e.nestedChars := by
  constructor
  · intro h
    have hchars : d.keyChars ++ [] = e.keyChars ++ [] :=
      congrArg (· ++ []) (String.ofList_injective h)
    obtain ⟨hkind, hoptions, hnested⟩ := keyChars_append hchars
    rw [List.append_nil, List.append_nil] at hnested
    exact ⟨hkind, by rw [hoptions], hnested⟩
  · rintro ⟨hkind, htext, hnested⟩
    have hoptions : Json.chars (.object d.options) = Json.chars (.object e.options) :=
      String.ofList_injective htext
    unfold cacheKey
    rw [keyChars_eq, keyChars_eq, hkind, hoptions, hnested]

/-- A key determines the flat options, whatever is nested and however it is named.  Declarations
have one key exactly when they are of one kind, the texts of their given options are equal and what
is nested reads alike.  They were then given the same options, and every registry resolves these to
the same values under one name or refuses them for the same reason. -/
theorem cacheKey_determines (d e : Declaration) :
    (d.cacheKey = e.cacheKey ↔ d.kind = e.kind ∧
      Json.text (.object d.options) = Json.text (.object e.options) ∧
      d.nestedChars = e.nestedChars) ∧
    (d.cacheKey = e.cacheKey → d.options = e.options ∧ ∀ (r : Registry) (name : String),
      r.values name d = r.values name e ∧
      ∀ o o', r.resolve name d = .ok o → r.resolve name e = .ok o' → o.values = o'.values) := by
  refine ⟨cacheKey_iff, fun h => ⟨(cacheKey_injective h).2, fun r name => ?_⟩⟩
  have hvalues := Registry.values_of_cacheKey h r name
  refine ⟨hvalues, fun o o' ho ho' => ?_⟩
  rw [Registry.values_eq_of_resolve ho, Registry.values_eq_of_resolve ho'] at hvalues
  exact Except.ok.inj hvalues

/-- Blocks with one allowed, whose name looks like the end of the options and a variant. -/
def oddlyNamedBlocks : Declaration :=
  (ofKind .blocks).option "allowed-blocks" (.list [.string "\"]\x7d|quote\x7b\x7d"])

/-- One variant whose key looks like two, and the two variants: what is nested is mixed up, the
flat options are not. -/
theorem cacheKey_determines_odd :
    let d := oddlyNamedBlocks.variant "quote\x7b\x7d|image" []
    let e := (oddlyNamedBlocks.variant "quote" []).variant "image" []
    d.cacheKey = e.cacheKey ∧ d.variants.length ≠ e.variants.length ∧
      Json.text (.object d.options) = Json.text (.object e.options) ∧
      Registry.builtin.values "body" d = Registry.builtin.values "body" e ∧
      ∃ o o', Registry.builtin.resolve "body" d = .ok o ∧
        Registry.builtin.resolve "body" e = .ok o' ∧ o.variants.length ≠ o'.variants.length ∧
        o.values = o'.values := by
  intro d e
  have hkey : d.cacheKey = e.cacheKey := by decide +kernel
  obtain ⟨hiff, hdetermines⟩ := cacheKey_determines d e
  obtain ⟨-, htext, -⟩ := hiff.mp hkey
  obtain ⟨hvalues, hresolve⟩ := (hdetermines hkey).2 .builtin "body"
  exact ⟨hkey, by decide, htext, hvalues, _, _, rfl, rfl, by decide, hresolve _ _ rfl rfl⟩

/-! ### Legible names -/

/-- A field name that `=` ends, and that cannot be taken for the end of a schema. -/
def isLegibleName (name : String) : Bool :=
  !name.toList.contains '=' && name.toList.head? != some '\x7d'

/-- A key of a variant that an opening brace ends. -/
def isLegibleKey (key : String) : Bool := !key.toList.contains '\x7b'

mutual

/-- Every name that is nested in the declaration ends where the key says. -/
def isLegible : Declaration → Bool
  | ⟨_, _, subfields, variants, _⟩ => isLegibleSchema subfields && areLegibleVariants variants

def isLegibleSchema : List (String × Declaration) → Bool
  | [] => true
  | (name, d) :: rest => isLegibleName name && isLegible d && isLegibleSchema rest

def areLegibleVariants : List (String × List (String × Declaration)) → Bool
  | [] => true
  | (key, schema) :: rest =>
    isLegibleKey key && isLegibleSchema schema && areLegibleVariants rest

end

mutual

/-- The declaration without what it and those nested in it add to their kinds. -/
def bare : Declaration → Declaration
  | ⟨kind, options, subfields, variants, _⟩ =>
    ⟨kind, options, bareSchema subfields, bareVariants variants, {}⟩

def bareSchema : List (String × Declaration) → List (String × Declaration)
  | [] => []
  | (name, d) :: rest => (name, bare d) :: bareSchema rest

def bareVariants :
    List (String × List (String × Declaration)) → List (String × List (String × Declaration))
  | [] => []
  | (key, schema) :: rest => (key, bareSchema schema) :: bareVariants rest

end

/-! ### Keys in front of what may follow -/

/-- A text ends at the first mark that it does not hold. -/
theorem mark_prefix {c : Char} {m n r s : List Char} (hm : c ∉ m) (hn : c ∉ n)
    (h : m ++ c :: r = n ++ c :: s) : m = n ∧ r = s := by
  induction m generalizing n with
  | nil =>
    cases n with
    | nil => exact ⟨rfl, (List.cons.inj h).2⟩
    | cons b n => exact absurd (List.cons.inj h).1 (List.ne_of_not_mem_cons hn)
  | cons a m ih =>
    cases n with
    | nil => exact absurd (List.cons.inj h).1.symm (List.ne_of_not_mem_cons hm)
    | cons b n =>
      obtain ⟨rfl, htail⟩ := List.cons.inj h
      obtain ⟨rfl, hrs⟩ := ih (List.not_mem_of_not_mem_cons hm) (List.not_mem_of_not_mem_cons hn)
        htail
      exact ⟨rfl, hrs⟩

theorem name_prefix {m n : String} (hm : isLegibleName m = true) (hn : isLegibleName n = true)
    {r s : List Char} (h : m.toList ++ '=' :: r = n.toList ++ '=' :: s) : m = n ∧ r = s := by
  simp only [isLegibleName, Bool.and_eq_true, Bool.not_eq_true', List.contains_eq_mem,
    decide_eq_false_iff_not] at hm hn
  obtain ⟨hname, hrest⟩ := mark_prefix hm.1 hn.1 h
  exact ⟨String.toList_inj.mp hname, hrest⟩

theorem key_prefix {m n : String} (hm : isLegibleKey m = true) (hn : isLegibleKey n = true)
    {r s : List Char} (h : m.toList ++ '\x7b' :: r = n.toList ++ '\x7b' :: s) :
    m = n ∧ r = s := by
  simp only [isLegibleKey, Bool.not_eq_true', List.contains_eq_mem, decide_eq_false_iff_not]
    at hm hn
  obtain ⟨hkey, hrest⟩ := mark_prefix hm hn h
  exact ⟨String.toList_inj.mp hkey, hrest⟩

/-- A legible name with its mark does not begin like the end of a schema. -/
theorem name_ne_close {m : String} (hm : isLegibleName m = true) {r s : List Char} :
    m.toList ++ '=' :: r ≠ '\x7d' :: s := by
  intro h
  simp only [isLegibleName, Bool.and_eq_true, bne_iff_ne] at hm
  cases hchars : m.toList with
  | nil =>
    rw [hchars] at h
    exact absurd (List.cons.inj h).1 (by decide)
  | cons c cs =>
    rw [hchars] at h hm
    exact hm.2 (congrArg some (List.cons.inj h).1)

/-- What follows one field of a schema. -/
def afterField (schema : Schema) (r : List Char) : List Char :=
  match schema with
  | [] => '\x7d' :: r
  | field :: rest => ',' :: keyMembers (field :: rest) ++ '\x7d' :: r

theorem keyMembers_cons (name : String) (d : Declaration) (rest : Schema) (r : List Char) :
    keyMembers ((name, d) :: rest) ++ '\x7d' :: r =
      name.toList ++ '=' :: (keyChars d ++ afterField rest r) := by
  cases rest with
  | nil =>
    rw [keyMembers, List.append_assoc]
    rfl
  | cons field rest =>
    rw [keyMembers, List.append_assoc, List.append_assoc]
    rfl

theorem ends_afterField (schema : Schema) (r : List Char) : Json.Ends (afterField schema r) := by
  intro c cs h
  cases schema with
  | nil => exact .inr (.inr (List.cons.inj h).1.symm)
  | cons field rest => exact .inl (List.cons.inj h).1.symm

/-- The key of a declaration without subfields does not go on like that of one with some. -/
theorem variants_ne_open {vs : List (String × Schema)} {r s : List Char} (hr : Json.Ends r) :
    keyVariants vs ++ r ≠ '\x7b' :: s := by
  intro h
  cases vs with
  | nil =>
    rcases hr _ _ h with hc | hc | hc <;> exact absurd hc (by decide)
  | cons v vs => exact absurd (List.cons.inj h).1 (by decide)

theorem keyVariants_cons (key : String) (schema : Schema) (rest : List (String × Schema))
    (r : List Char) :
    keyVariants ((key, schema) :: rest) ++ r = '|' :: (key.toList ++
      '\x7b' :: (keyMembers schema ++ '\x7d' :: (keyVariants rest ++ r))) := by
  simp [keyVariants]

mutual

/-- Keys of legible declarations in front of what may follow them are equal only for declarations
that agree in all but what they add to their kinds. -/
theorem keyChars_prefix : ∀ (d e : Declaration) {r s : List Char}, d.isLegible = true →
    e.isLegible = true → Json.Ends r → Json.Ends s → d.keyChars ++ r = e.keyChars ++ s →
      d.bare = e.bare ∧ r = s
  | ⟨kind, options, fields, variants, _⟩, ⟨kind', options', fields', variants', _⟩, r, s,
      hd, he, hr, hs, h => by
    simp only [isLegible, Bool.and_eq_true] at hd he
    simp only [keyChars, List.append_assoc] at h
    obtain ⟨rfl, rfl, htail⟩ := options_prefix h
    obtain ⟨hfields, hvariants, hrs⟩ : bareSchema fields = bareSchema fields' ∧
        bareVariants variants = bareVariants variants' ∧ r = s := by
      cases fields with
      | nil =>
        cases fields' with
        | nil =>
          obtain ⟨hvariants, hrs⟩ := keyVariants_prefix variants variants' hd.2 he.2 hr hs htail
          exact ⟨rfl, hvariants, hrs⟩
        | cons b bs => exact absurd htail (variants_ne_open hr)
      | cons a as =>
        cases fields' with
        | nil => exact absurd htail.symm (variants_ne_open hs)
        | cons b bs =>
          simp only [List.cons_append, List.append_assoc, List.cons.injEq, true_and,
            List.nil_append] at htail
          obtain ⟨hfields, hrest⟩ := keyMembers_prefix (a :: as) (b :: bs) hd.1 he.1 htail
          obtain ⟨hvariants, hrs⟩ := keyVariants_prefix variants variants' hd.2 he.2 hr hs hrest
          exact ⟨hfields, hvariants, hrs⟩
    exact ⟨by rw [bare, bare, hfields, hvariants], hrs⟩

theorem keyMembers_prefix : ∀ (as bs : Schema) {r s : List Char}, isLegibleSchema as = true →
    isLegibleSchema bs = true → keyMembers as ++ '\x7d' :: r = keyMembers bs ++ '\x7d' :: s →
      bareSchema as = bareSchema bs ∧ r = s
  | [], [], r, s, _, _, h => ⟨rfl, (List.cons.inj h).2⟩
  | [], (n, e) :: bs, r, s, _, hbs, h => by
    simp only [isLegibleSchema, Bool.and_eq_true] at hbs
    rw [keyMembers_cons] at h
    exact absurd h.symm (name_ne_close hbs.1.1)
  | (m, d) :: as, [], r, s, has, _, h => by
    simp only [isLegibleSchema, Bool.and_eq_true] at has
    rw [keyMembers_cons] at h
    exact absurd h (name_ne_close has.1.1)
  | (m, d) :: as, (n, e) :: bs, r, s, has, hbs, h => by
    simp only [isLegibleSchema, Bool.and_eq_true] at has hbs
    obtain ⟨⟨hm, hd⟩, has⟩ := has
    obtain ⟨⟨hn, he⟩, hbs⟩ := hbs
    rw [keyMembers_cons, keyMembers_cons] at h
    obtain ⟨rfl, hrest⟩ := name_prefix hm hn h
    obtain ⟨hde, htail⟩ :=
      keyChars_prefix d e hd he (ends_afterField as r) (ends_afterField bs s) hrest
    have hnext : keyMembers as ++ '\x7d' :: r = keyMembers bs ++ '\x7d' :: s := by
      cases as with
      | nil =>
        cases bs with
        | nil => exact htail
        | cons b bs => exact absurd (List.cons.inj htail).1 (by decide)
      | cons a as =>
        cases bs with
        | nil => exact absurd (List.cons.inj htail).1 (by decide)
        | cons b bs => exact (List.cons.inj htail).2
    obtain ⟨hsame, hrs⟩ := keyMembers_prefix as bs has hbs hnext
    exact ⟨by rw [bareSchema, bareSchema, hde, hsame], hrs⟩

theorem keyVariants_prefix : ∀ (vs ws : List (String × Schema)) {r s : List Char},
    areLegibleVariants vs = true → areLegibleVariants ws = true → Json.Ends r → Json.Ends s →
      keyVariants vs ++ r = keyVariants ws ++ s → bareVariants vs = bareVariants ws ∧ r = s
  | [], [], r, s, _, _, _, _, h => ⟨rfl, h⟩
  | [], (l, bs) :: ws, r, s, _, _, hr, _, h => by
    rw [keyVariants_cons] at h
    rcases hr _ _ h with hc | hc | hc <;> exact absurd hc (by decide)
  | (k, as) :: vs, [], r, s, _, _, _, hs, h => by
    rw [keyVariants_cons] at h
    rcases hs _ _ h.symm with hc | hc | hc <;> exact absurd hc (by decide)
  | (k, as) :: vs, (l, bs) :: ws, r, s, hvs, hws, hr, hs, h => by
    simp only [areLegibleVariants, Bool.and_eq_true] at hvs hws
    obtain ⟨⟨hk, has⟩, hvs⟩ := hvs
    obtain ⟨⟨hl, hbs⟩, hws⟩ := hws
    rw [keyVariants_cons, keyVariants_cons] at h
    obtain ⟨rfl, hschema⟩ := key_prefix hk hl (List.cons.inj h).2
    obtain ⟨hsame, hrest⟩ := keyMembers_prefix as bs has hbs hschema
    obtain ⟨hvariants, hrs⟩ := keyVariants_prefix vs ws hvs hws hr hs hrest
    exact ⟨by rw [bareVariants, bareVariants, hsame, hvariants], hrs⟩

end

end Declaration

/-! ### Resolving -/

namespace Registry

mutual

/-- What a declaration adds to its kind has no part in its options. -/
theorem resolve_bare (r : Registry) (name : String) :
    ∀ d : Declaration, r.resolve name d.bare = r.resolve name d
  | ⟨kind, options, fields, variants, _⟩ => by
    rw [Declaration.bare, resolve, resolve, resolveSchema_bare r fields,
      resolveVariants_bare r variants]

theorem resolveSchema_bare (r : Registry) :
    ∀ schema : Schema, r.resolveSchema (Declaration.bareSchema schema) = r.resolveSchema schema
  | [] => rfl
  | (name, d) :: rest => by
    rw [Declaration.bareSchema, resolveSchema, resolveSchema, resolve_bare r name d,
      resolveSchema_bare r rest]

theorem resolveVariants_bare (r : Registry) : ∀ variants : List (String × Schema),
    r.resolveVariants (Declaration.bareVariants variants) = r.resolveVariants variants
  | [] => rfl
  | (key, schema) :: rest => by
    rw [Declaration.bareVariants, resolveVariants, resolveVariants, resolveSchema_bare r schema,
      resolveVariants_bare r rest]

end

/-- Legible declarations with one key resolve alike. -/
theorem resolve_of_cacheKey {d e : Declaration} (hd : d.isLegible = true)
    (he : e.isLegible = true) (h : d.cacheKey = e.cacheKey) (r : Registry) (name : String) :
    r.resolve name d = r.resolve name e := by
  have hends : Json.Ends [] := fun _ _ h => nomatch h
  have hchars : d.keyChars ++ [] = e.keyChars ++ [] :=
    congrArg (· ++ []) (String.ofList_injective h)
  obtain ⟨hbare, -⟩ := d.keyChars_prefix e hd he hends hends hchars
  rw [← resolve_bare, hbare, resolve_bare]

end Registry

end ContentSchema
