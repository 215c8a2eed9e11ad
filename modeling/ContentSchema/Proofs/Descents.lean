import ContentSchema.Proofs.AbsentFields
import ContentSchema.Proofs.Acceptance
import ContentSchema.Proofs.FieldConfinement
import ContentSchema.Proofs.MemberCoverage
import ContentSchema.Proofs.PopulationReach

/-!
# Descents — the places that the second pass comes to

The second pass goes down from a field to its members, and from a member to its own, as long as the
values are accepted (`PassContext.Leads`).  Where members of one value do not meet (`Untangled`),
what a visit leaves at its place is what is there once the pass is done with the place that it came
from (`Leads.stays`), and places below a refused value are not come to again
(`Leads.nothing_below`).

A place is judged where its conditions hold (`Visit.Judged`): a judgement that fails stores the
default (`Visit.Judged.refuses`), and nothing but such judgements is reported (`check_reports`).
-/

namespace ContentSchema

/-! ### Places in one another -/

/-- Storing inside a value changes that value where it is stored. -/
theorem Path.lookup_set_around {p q : Path} {v x : Value} (hx : p.lookup v = some x)
    (hroom : q.HasRoom x) (w : Value) : p.lookup ((p ++ q).set w v) = some (q.set w x) := by
  rw [set_append hx hroom]
  exact lookup_set (hasRoom_of_lookup hx) _

/-- Paths that lie in each other are equal. -/
theorem Path.Under.antisymm {p q : Path} (hpq : p.Under q) (hqp : q.Under p) : p = q := by
  obtain ⟨r, rfl⟩ := hpq
  obtain ⟨r', hr'⟩ := hqp
  have hlen := congrArg List.length (Path.ext_iff.mp hr')
  simp only [Path.segments_append, List.length_append] at hlen
  have hr : r.segments = [] := List.eq_nil_of_length_eq_zero (by omega)
  rw [Path.ext_iff, Path.segments_append, hr, List.append_nil]

/-- Nothing lies below both of two paths that diverge. -/
theorem Path.Diverges.not_under {v : Value} {p q base r : Path} (h : Path.Diverges v p q)
    (hp : (base ++ p).Under r) (hq : (base ++ q).Under r) : False := by
  obtain ⟨p', hp'⟩ := hp
  obtain ⟨q', hq'⟩ := hq
  have hsame : p.segments ++ p'.segments = q.segments ++ q'.segments := by
    have hsegments := Path.ext_iff.mp (hp'.symm.trans hq')
    simp only [Path.segments_append, List.append_assoc] at hsegments
    exact List.append_cancel_left hsegments
  rcases List.prefix_or_prefix_of_prefix ⟨p'.segments, rfl⟩ ⟨q'.segments, hsame.symm⟩ with
    hpre | hpre
  · exact Path.Diverge.not_prefix h hpre
  · exact Path.Diverge.not_prefix h.symm hpre

/-! ### Members that the pass treats one after the other -/

/-- Storing at a member keeps it apart from the others. -/
theorem MembersApart.set_self {v : Value} {m : Member} {ms : List Member}
    (h : MembersApart v (m :: ms)) {x : Value} (hx : m.relative.lookup v = some x) (w : Value) :
    MembersApart (m.relative.set w v) (m :: ms) := by
  obtain ⟨hm, -⟩ := List.pairwise_cons.mp h
  have hroom := Path.hasRoom_of_lookup hx
  refine List.pairwise_cons.mpr ⟨fun n hn _ _ => ?_, (h.set hx w).2⟩
  exact Path.Diverge.set_self (hm n hn x hx) (hroom.set? w)

/-- A member that a value has may stand behind those it does not meet as well as before them. -/
theorem MembersApart.rotate {v : Value} {m : Member} {ms : List Member}
    (h : MembersApart v (m :: ms)) {x : Value} (hx : m.relative.lookup v = some x) :
    MembersApart v (ms ++ [m]) := by
  obtain ⟨hm, hms⟩ := List.pairwise_cons.mp h
  refine List.pairwise_append.mpr ⟨hms, List.pairwise_singleton _ _, fun n hn k hk _ _ => ?_⟩
  rw [List.mem_singleton.mp hk]
  exact (hm n hn x hx).symm

section

variable {c : PassContext} {path : Path} {u : Value} {s s' : PassState} {fuel : Nat}

/-- Checking a member stores at its place, if it has a value, and changes nothing if it has none. -/
theorem checkMember_set (hc : c.registry = .builtin) (hu : path.lookup s.record = some u)
    {m : Member} (h : c.check fuel (path ++ m.relative) m.declaration s = .ok () s') :
    (m.relative.lookup u = none → s'.record = s.record) ∧
      ∀ x, m.relative.lookup u = some x →
        ∃ w, path.lookup s'.record = some (m.relative.set w u) := by
  have hplace : (path ++ m.relative).lookup s.record = m.relative.lookup u := by
    rw [Path.lookup_append, hu]
    rfl
  refine ⟨fun hnone => check_absent hc (hplace.trans hnone) h, fun x hx => ?_⟩
  have hrewrites : (path ++ m.relative).Rewrites s.record s'.record :=
    ((frame_rewrites c.registry (path ++ m.relative) s.record).check fuel
      (fun q => ⟨⟨q, rfl⟩, trivial⟩) m.declaration).ok (.refl _ _) h
  rcases hrewrites with hsame | ⟨w, hset⟩
  · refine ⟨x, ?_⟩
    rw [hsame, hu, Path.set_of_lookup hx]
  · refine ⟨w, ?_⟩
    rw [hset, Path.set_append hu (Path.hasRoom_of_lookup hx)]
    exact Path.lookup_set (Path.hasRoom_of_lookup hu) _

/-- Checking members leaves those alone that they do not meet. -/
theorem checkMembers_others (hc : c.registry = .builtin) {ms rest : List Member}
    (hu : path.lookup s.record = some u) (hapart : MembersApart u (ms ++ rest))
    (h : ms.forM (fun m => c.check fuel (path ++ m.relative) m.declaration) s = .ok () s') :
    ∃ u', path.lookup s'.record = some u' ∧ MembersApart u' rest ∧
      ∀ n ∈ rest, n.relative.lookup u' = n.relative.lookup u := by
  induction ms generalizing s u with
  | nil =>
    obtain ⟨-, rfl⟩ := EStateM.Result.ok.inj h
    exact ⟨u, hu, hapart, fun _ _ => rfl⟩
  | cons m ms ih =>
    obtain ⟨t, hhere, hrest⟩ := forM_cons_ok.mp h
    obtain ⟨hnone, hsome⟩ := checkMember_set hc hu hhere
    cases hx : m.relative.lookup u with
    | none =>
      rw [← hnone hx] at hu
      exact ih hu (List.pairwise_cons.mp hapart).2 hrest
    | some x =>
      obtain ⟨w, hw⟩ := hsome x hx
      obtain ⟨hlook, hnext⟩ := hapart.set hx w
      obtain ⟨u', hu', hrest', hsame⟩ := ih hw hnext hrest
      exact ⟨u', hu', hrest', fun n hn =>
        (hsame n hn).trans (hlook n (List.mem_append_right _ hn))⟩

/-- What checking a member leaves at its place is there after the members that come later. -/
theorem lookup_after_rest (hc : c.registry = .builtin) {m : Member} {after : List Member}
    (hu : path.lookup s.record = some u) (hapart : MembersApart u (m :: after)) {x : Value}
    (hx : m.relative.lookup u = some x) {t : PassState}
    (hhere : c.check fuel (path ++ m.relative) m.declaration s = .ok () t)
    (hafter : after.forM (fun n => c.check fuel (path ++ n.relative) n.declaration) t =
      .ok () s') :
    (path ++ m.relative).lookup s'.record = (path ++ m.relative).lookup t.record := by
  obtain ⟨w, hw⟩ := (checkMember_set hc hu hhere).2 x hx
  have hthere := Path.lookup_set (Path.hasRoom_of_lookup hx) w
  -- to the later ones this member is one that they do not meet
  obtain ⟨u', hu', -, hsame⟩ :=
    checkMembers_others hc hw ((hapart.set_self hx w).rotate hthere) hafter
  rw [Path.lookup_append, Path.lookup_append, hu', hw, Option.bind_some, Option.bind_some,
    hsame m List.mem_cons_self]

end

/-! ### Visits -/

/-- A place that a pass comes to: a declaration at a path, with the fuel and the state in which it
is come to. -/
structure Visit where
  fuel : Nat
  path : Path
  declaration : Declaration
  state : PassState

/-- What the second pass does from a place on, up to the last of its members. -/
def Visit.run (a : Visit) (c : PassContext) : PassM Unit := c.check a.fuel a.path a.declaration

/-- The conditions of a place hold, if it has any, and this is the judgement about its value: by the
validators of its kind and its own, and by the constraints on unique and on immutable values. -/
def Visit.Judged (a : Visit) (c : PassContext) (judgement : Except FieldError Unit) : Prop :=
  0 < a.fuel ∧ ∃ o v,
    (a.state.cache.resolve c.registry a.path.name a.declaration).1 = .ok o ∧
      a.path.lookup a.state.record = some v ∧
      (∀ l, a.declaration.additional.logic = some l →
        l.matches? a.state.record a.path = .ok true) ∧
      judge (c.fieldContext a.path a.declaration.kind.definition o a.state.record)
        a.declaration.kind.definition a.declaration.additional v = judgement

namespace PassContext

/-- The second pass comes from one place to another: to the same, or from a value that is accepted
to one of its members, once it is done with the members before that one. -/
inductive Leads (c : PassContext) : Visit → Visit → Prop
  | here (a : Visit) : Leads c a a
  | member {fuel : Nat} {path : Path} {d : Declaration} {s t : PassState} {o : Options}
      {cache : OptionCache} {v : Value} {before after : List Member} {m : Member} {b : Visit}
      (hoptions : s.cache.resolve c.registry path.name d = (.ok o, cache))
      (hvalue : path.lookup s.record = some v)
      (haccept : c.verdict path d o s.record v = .accept)
      (hmembers : c.catalog.members d v = before ++ m :: after)
      (hbefore : before.forM (fun n => c.check fuel (path ++ n.relative) n.declaration)
        { s with cache := cache } = .ok () t)
      (hbelow : Leads c ⟨fuel, path ++ m.relative, m.declaration, t⟩ b) :
      Leads c ⟨fuel + 1, path, d, s⟩ b

end PassContext

section

variable {c : PassContext} {a b : Visit} {s' : PassState}

namespace PassContext.Leads

/-- The pass goes down. -/
theorem under (h : c.Leads a b) : a.path.Under b.path := by
  induction h with
  | here a => exact ⟨.root, (Path.append_root _).symm⟩
  | @member _ path _ _ _ _ _ _ _ _ m b _ _ _ _ _ _ ih =>
    obtain ⟨q, hq⟩ := ih
    exact ⟨m.relative ++ q, by rw [hq, Path.append_assoc]⟩

theorem trans {b' : Visit} (h : c.Leads a b) (h' : c.Leads b b') : c.Leads a b' := by
  induction h with
  | here => exact h'
  | member hoptions hvalue haccept hmembers hbefore _ ih =>
    exact .member hoptions hvalue haccept hmembers hbefore (ih h')

/-- The pass goes down through values. -/
theorem present (h : c.Leads a b) {x : Value} (hx : b.path.lookup b.state.record = some x) :
    ∃ y, a.path.lookup a.state.record = some y := by
  cases h with
  | here => exact ⟨x, hx⟩
  | member _ hvalue => exact ⟨_, hvalue⟩

end PassContext.Leads

/-- From a value that is accepted the pass goes through all members. -/
theorem check_members {fuel : Nat} {path : Path} {d : Declaration} {s t : PassState} {o : Options}
    {cache : OptionCache} {v : Value} {before after : List Member} {m : Member}
    (hc : c.registry = .builtin)
    (hoptions : s.cache.resolve c.registry path.name d = (.ok o, cache))
    (hvalue : path.lookup s.record = some v) (haccept : c.verdict path d o s.record v = .accept)
    (hmembers : c.catalog.members d v = before ++ m :: after)
    (hbefore : before.forM (fun n => c.check fuel (path ++ n.relative) n.declaration)
      { s with cache := cache } = .ok () t)
    (h : c.check (fuel + 1) path d s = .ok () s') :
    ∃ t', c.check fuel (path ++ m.relative) m.declaration t = .ok () t' ∧
      after.forM (fun n => c.check fuel (path ++ n.relative) n.declaration) t' = .ok () s' := by
  have hcomp : d.kind.definition.composite = true := by
    rw [composite_definition]
    by_contra hleaf
    rw [c.catalog.members_leaf (Bool.not_eq_true _ ▸ hleaf)] at hmembers
    exact List.append_ne_nil_of_right_ne_nil _ (List.cons_ne_nil _ _) hmembers.symm
  rw [PassContext.check_run hc, ← hc, hoptions] at h
  simp only [hvalue, haccept, hcomp, if_true, hmembers] at h
  obtain ⟨t₁, t', hbefore₁, hhere, hafter⟩ := forM_cut h
  obtain ⟨-, rfl⟩ := EStateM.Result.ok.inj (hbefore.symm.trans hbefore₁)
  exact ⟨t', hhere, hafter⟩

/-- No member of a value meets a later one, nor does any of the values below it. -/
def Untangled (c : Catalog) : Path → Declaration → Value → Prop :=
  Everywhere c fun _ d v => MembersApart v (c.members d v)

/-- The pass finds a member with the value that it had, and this is untangled too. -/
theorem Untangled.finds {fuel : Nat} {path : Path} {d : Declaration} {s t : PassState} {v : Value}
    {before after : List Member} {m : Member} (hv : Untangled c.catalog path d v)
    (hc : c.registry = .builtin) (hvalue : path.lookup s.record = some v)
    (hmembers : c.catalog.members d v = before ++ m :: after)
    (hbefore : before.forM (fun n => c.check fuel (path ++ n.relative) n.declaration) s =
      .ok () t) :
    (path ++ m.relative).lookup t.record = m.relative.lookup v ∧
      ∀ w, (path ++ m.relative).lookup t.record = some w →
        Untangled c.catalog (path ++ m.relative) m.declaration w := by
  have hapart : MembersApart v (before ++ m :: after) := hmembers ▸ hv.here
  obtain ⟨u, hu, -, hsame⟩ := checkMembers_others hc hvalue hapart hbefore
  have hplace : (path ++ m.relative).lookup t.record = m.relative.lookup v := by
    rw [Path.lookup_append, hu, Option.bind_some, hsame m List.mem_cons_self]
  have hmem : m ∈ c.catalog.members d v := by
    rw [hmembers]
    exact List.mem_append_right _ List.mem_cons_self
  exact ⟨hplace, fun w hw => hv.member hmem (hplace.symm.trans hw)⟩

/-- What the pass makes of a place that has a value stays until it is done with the place that it
came from. -/
theorem PassContext.Leads.stays (hc : c.registry = .builtin) (h : c.Leads a b)
    (ha : ∀ v, a.path.lookup a.state.record = some v →
      Untangled c.catalog a.path a.declaration v)
    {x : Value} (hx : b.path.lookup b.state.record = some x)
    (hrun : a.run c a.state = .ok () s') :
    ∃ t, b.run c b.state = .ok () t ∧ b.path.lookup s'.record = b.path.lookup t.record := by
  induction h generalizing s' with
  | here a => exact ⟨s', hrun, rfl⟩
  | @member fuel path d s t o cache v before after m b hoptions hvalue haccept hmembers hbefore
      hbelow ih =>
    obtain ⟨t', hhere, hafter⟩ :=
      check_members hc hoptions hvalue haccept hmembers hbefore hrun
    have hv : Untangled c.catalog path d v := ha v hvalue
    have hapart : MembersApart v (before ++ m :: after) := hmembers ▸ hv.here
    obtain ⟨u, hu, hapart', -⟩ :=
      checkMembers_others (s := { s with cache := cache }) hc hvalue hapart hbefore
    obtain ⟨-, hmember⟩ := hv.finds (s := { s with cache := cache }) hc hvalue hmembers hbefore
    obtain ⟨r, hr, hstays⟩ := ih hmember hx hhere
    refine ⟨r, hr, ?_⟩
    -- the members after this one do not meet it
    obtain ⟨y, hy⟩ := hbelow.present hx
    have hmu : m.relative.lookup u = some y := by
      rw [Path.lookup_append, hu] at hy
      exact hy
    have hlast := lookup_after_rest hc hu hapart' hmu hhere hafter
    obtain ⟨q, hq⟩ := hbelow.under
    rw [← hstays]
    simp only [hq, Path.lookup_append _ q] at hlast ⊢
    rw [hlast]

/-! ### What is not come to -/

/-- Two entries of a list are one, or one of them comes after the other. -/
theorem entries_of_append_eq {α : Type} {before before' after after' : List α} {x x' : α}
    (h : before ++ x :: after = before' ++ x' :: after') :
    (before = before' ∧ x = x') ∨ x' ∈ after ∨ x ∈ after' := by
  rcases List.append_eq_append_iff.mp h with ⟨l, rfl, hl⟩ | ⟨l, rfl, hl⟩
  · cases l with
    | nil => exact .inl ⟨(List.append_nil _).symm, (List.cons.inj hl).1⟩
    | cons y l =>
      obtain ⟨-, rfl⟩ := List.cons.inj hl
      exact .inr (.inl (List.mem_append_right _ List.mem_cons_self))
  · cases l with
    | nil => exact .inl ⟨List.append_nil _, (List.cons.inj hl).1.symm⟩
    | cons y l =>
      obtain ⟨-, rfl⟩ := List.cons.inj hl
      exact .inr (.inr (List.mem_append_right _ List.mem_cons_self))

/-- The pass comes to nothing below a place whose value it does not accept. -/
theorem PassContext.Leads.nothing_below {b' : Visit} (hc : c.registry = .builtin)
    (h : c.Leads a b) (h' : c.Leads a b')
    (ha : ∀ v, a.path.lookup a.state.record = some v →
      Untangled c.catalog a.path a.declaration v)
    {x x' : Value} (hx : b.path.lookup b.state.record = some x)
    (hx' : b'.path.lookup b'.state.record = some x')
    (hrefused : ∀ o, (b.state.cache.resolve c.registry b.path.name b.declaration).1 = .ok o →
      c.verdict b.path b.declaration o b.state.record x ≠ .accept)
    (hunder : b.path.Under b'.path) : b'.path = b.path := by
  induction h with
  | here a =>
    cases h' with
    | here => rfl
    | member hoptions hvalue haccept _ _ _ =>
      obtain rfl := Option.some.inj (hx.symm.trans hvalue)
      exact (hrefused _ (congrArg Prod.fst hoptions) haccept).elim
  | @member fuel path d s t o cache v before after m b hoptions hvalue haccept hmembers hbefore
      hbelow ih =>
    have hb : path.Under b.path := (PassContext.Leads.member hoptions hvalue haccept hmembers
      hbefore hbelow).under
    cases h' with
    | here => exact hb.antisymm hunder
    | @member _ _ _ _ t' o' cache' v' before' after' m' _ hoptions' hvalue' haccept' hmembers'
        hbefore' hbelow' =>
      obtain rfl := Option.some.inj (hvalue.symm.trans hvalue')
      obtain ⟨-, rfl⟩ := Prod.mk.inj (hoptions.symm.trans hoptions')
      have hv : Untangled c.catalog path d v := ha v hvalue
      have hapart : MembersApart v (before ++ m :: after) := hmembers ▸ hv.here
      have hapart' : MembersApart v (before' ++ m' :: after') := hmembers' ▸ hv.here
      obtain ⟨hplace, hmember⟩ :=
        hv.finds (s := { s with cache := cache }) hc hvalue hmembers hbefore
      obtain ⟨hplace', -⟩ :=
        hv.finds (s := { s with cache := cache }) hc hvalue hmembers' hbefore'
      obtain ⟨y, hy⟩ := hbelow.present hx
      obtain ⟨y', hy'⟩ := hbelow'.present hx'
      have hunder' : (path ++ m.relative).Under b'.path := by
        obtain ⟨q, hq⟩ := hbelow.under
        obtain ⟨r, hr⟩ := hunder
        exact ⟨q ++ r, by rw [hr, hq, Path.append_assoc]⟩
      rcases entries_of_append_eq (hmembers.symm.trans hmembers') with ⟨rfl, rfl⟩ | hlater | hlater
      · obtain ⟨-, rfl⟩ := EStateM.Result.ok.inj (hbefore.symm.trans hbefore')
        exact ih hbelow' hmember hx hrefused hunder
      · obtain ⟨hhere, -⟩ := List.pairwise_cons.mp (List.pairwise_append.mp hapart).2.1
        exact ((hhere m' hlater y (hplace.symm.trans hy)).not_under hunder' hbelow'.under).elim
      · obtain ⟨hhere, -⟩ := List.pairwise_cons.mp (List.pairwise_append.mp hapart').2.1
        exact ((hhere m hlater y' (hplace'.symm.trans hy')).not_under hbelow'.under hunder').elim

/-! ### Refusals -/

/-- A value is judged where the conditions of its field hold. -/
theorem verdict_of_conditions {path : Path} {d : Declaration} {o : Options} {record v : Value}
    (h : ∀ l, d.additional.logic = some l → l.matches? record path = .ok true) :
    c.verdict path d o record v = .ofJudgement (d.kind.definition.default o)
      (judge (c.fieldContext path d.kind.definition o record) d.kind.definition d.additional
        v) := by
  cases hl : d.additional.logic with
  | none =>
    unfold PassContext.verdict
    simp only [hl]
    rfl
  | some l => rw [verdict_logic hl, h l hl]

/-- A value is refused with the message of its judgement, where the conditions of its field hold. -/
theorem judge_of_refuse {path : Path} {d : Declaration} {o : Options} {record v w : Value}
    {message : String} (h : c.verdict path d o record v = .refuse message w) :
    (∀ l, d.additional.logic = some l → l.matches? record path = .ok true) ∧
      ∃ err, judge (c.fieldContext path d.kind.definition o record) d.kind.definition d.additional
        v = .error err ∧ err.messageText = message := by
  have hconditions : ∀ l, d.additional.logic = some l → l.matches? record path = .ok true := by
    intro l hl
    rw [verdict_logic hl] at h
    split at h
    · cases h
    · cases h
    · next hmatch => exact hmatch
  refine ⟨hconditions, ?_⟩
  rw [verdict_of_conditions hconditions] at h
  cases hjudge : judge (c.fieldContext path d.kind.definition o record) d.kind.definition
      d.additional v with
  | ok =>
    rw [hjudge] at h
    cases h
  | error err =>
    rw [hjudge] at h
    refine ⟨err, rfl, ?_⟩
    cases err with
    | engine e => cases h
    | _ => exact (Verdict.refuse.inj h).1

/-- The cache stays sound on the way. -/
theorem PassContext.Leads.sound (hc : c.registry = .builtin) (h : c.Leads a b)
    (hs : a.state.cache.Sound) : b.state.cache.Sound := by
  induction h with
  | here => exact hs
  | @member fuel path d s t o cache v before after m b hoptions _ _ _ hbefore _ ih =>
    have hcache := (hs.resolve path.name d).1
    rw [hc] at hoptions
    rw [hoptions] at hcache
    refine ih ((Maintains.forM fun n _ => ?_).ok (P := fun s => s.cache.Sound) hcache hbefore)
    exact Maintains.check frame_sound hc fuel (fun _ => ⟨trivial, trivial⟩) n.declaration

/-- What is judged is a value. -/
theorem Visit.Judged.value {judgement : Except FieldError Unit} (h : a.Judged c judgement) :
    ∃ x, a.path.lookup a.state.record = some x :=
  let ⟨_, _, x, _, hx, _⟩ := h
  ⟨x, hx⟩

/-- Where the judgement fails, the default takes the place of the value. -/
theorem Visit.Judged.refuses (hc : c.registry = .builtin) (hs : a.state.cache.Sound)
    {err : FieldError} (h : a.Judged c (.error err)) (hrun : a.run c a.state = .ok () s') :
    (∀ o x, (a.state.cache.resolve c.registry a.path.name a.declaration).1 = .ok o →
        a.path.lookup a.state.record = some x →
          c.verdict a.path a.declaration o a.state.record x ≠ .accept) ∧
      s'.record = a.path.set a.declaration.fallback a.state.record := by
  obtain ⟨fuel, path, d, s⟩ := a
  obtain ⟨hfuel, o, v, hoptions, hvalue, hconditions, hjudge⟩ := h
  simp only at hs hfuel hoptions hvalue hconditions hjudge ⊢
  obtain ⟨fuel, rfl⟩ := Nat.exists_eq_succ_of_ne_zero hfuel.ne'
  have hverdict := verdict_of_conditions (c := c) (o := o) (v := v) hconditions
  rw [hjudge] at hverdict
  have hne : c.verdict path d o s.record v ≠ .accept := by
    rw [hverdict]
    cases err <;> exact nofun
  refine ⟨fun o' x ho' hx => ?_, ?_⟩
  · obtain rfl := Except.ok.inj (hoptions.symm.trans ho')
    obtain rfl := Option.some.inj (hvalue.symm.trans hx)
    exact hne
  · obtain ⟨o', cache, hoptions', hends⟩ := PassContext.check_ends hc hrun
    obtain rfl : o' = o :=
      Except.ok.inj ((congrArg Prod.fst hoptions').symm.trans (hc ▸ hoptions))
    have ho := (hs.of_resolve hoptions').2.2
    cases hends with
    | absent hnone => cases hvalue.symm.trans hnone
    | reset _ hreset => rw [eq_fallback_of_reset ho hreset]
    | refuse _ hrefuse => rw [eq_fallback_of_refuse ho hrefuse]
    | accept hu haccept =>
      obtain rfl := Option.some.inj (hvalue.symm.trans hu)
      exact (hne haccept).elim

/-! ### Reports -/

/-- What holds after a loop held before it, or one of the steps made it hold. -/
theorem forM_establishes {α : Type} {f : α → PassM Unit} {xs : List α} {P : PassState → Prop}
    {s : PassState} (h : xs.forM f s = .ok () s') (hs' : P s') :
    P s ∨ ∃ before x after t t', xs = before ++ x :: after ∧ before.forM f s = .ok () t ∧
      f x t = .ok () t' ∧ ¬ P t ∧ P t' := by
  induction xs generalizing s with
  | nil =>
    obtain ⟨-, rfl⟩ := EStateM.Result.ok.inj h
    exact .inl hs'
  | cons x xs ih =>
    obtain ⟨t, hx, hrest⟩ := forM_cons_ok.mp h
    rcases ih hrest with ht | ⟨before, y, after, u, u', rfl, hbefore, hy⟩
    · by_cases hs : P s
      · exact .inl hs
      · exact .inr ⟨[], x, xs, s, t, rfl, rfl, hx, hs, ht⟩
    · exact .inr ⟨x :: before, y, after, u, u', rfl, forM_cons_ok.mpr ⟨t, hx, hbefore⟩, hy⟩

/-- What the second pass reports on a field and below it is the failure of some judgement there. -/
theorem check_reports (hc : c.registry = .builtin) {fuel : Nat} {path : Path} {d : Declaration}
    {s : PassState} (h : c.check fuel path d s = .ok () s') {key message : String}
    (hkey : s'.errors.get? key = some message) :
    s.errors.get? key = some message ∨
      ∃ b err, c.Leads ⟨fuel, path, d, s⟩ b ∧ b.Judged c (.error err) ∧ b.path.text = key ∧
        err.messageText = message := by
  induction fuel generalizing path d s s' with
  | zero =>
    obtain ⟨-, rfl⟩ := EStateM.Result.ok.inj h
    exact .inl hkey
  | succ fuel ih =>
    obtain ⟨o, cache, hoptions, hends⟩ := PassContext.check_ends hc h
    rw [← hc] at hoptions
    cases hends with
    | absent => exact .inl hkey
    | reset => exact .inl hkey
    | @refuse v w reported hvalue hverdict =>
      obtain ⟨hconditions, err, hjudge, rfl⟩ := judge_of_refuse hverdict
      have hadded : (s.errors.add path.text err.messageText).get? key = some message := hkey
      rw [ErrorMap.get?_add] at hadded
      rcases Option.or_eq_some_iff.mp hadded with hold | ⟨-, hnew⟩
      · exact .inl hold
      · split at hnew
        · next htext =>
          exact .inr ⟨_, err, .here _, ⟨Nat.succ_pos _, o, v, congrArg Prod.fst hoptions, hvalue,
            hconditions, hjudge⟩, htext, Option.some.inj hnew⟩
        · cases hnew
    | accept hvalue haccept hloop =>
      rcases forM_establishes (P := fun s => s.errors.get? key = some message) hloop hkey with
        hstart | ⟨before, m, after, t, t', hmembers, hbefore, hm, hnot, ht'⟩
      · exact .inl hstart
      · rcases ih hm ht' with ht | ⟨b, err, hbelow, hb⟩
        · exact (hnot ht).elim
        · exact .inr ⟨b, err, .member hoptions hvalue haccept hmembers hbefore hbelow, hb⟩

end

end ContentSchema
