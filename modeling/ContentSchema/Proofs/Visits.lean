import ContentSchema.Proofs.PassRuns
import ContentSchema.Proofs.Places

/-!
# Visits — a loop that treats the places of one value one after the other

Each step of the loop changes nothing but what stands at its own place.  A step therefore finds its
place as the loop found it, whatever the steps before did, and leaves what the others made
(`forM_places`).
-/

namespace ContentSchema

/-- The values that arise by storing at some of the paths. -/
inductive StoredAt (ps : List Path) (v : Value) : Value → Prop
  | refl : StoredAt ps v v
  | store {u : Value} (h : StoredAt ps v u) {p : Path} (hp : p ∈ ps) (hroom : p.HasRoom u)
      (w : Value) : StoredAt ps v (p.set w u)

/-- Nothing changes but what stands at one path. -/
def ChangesAt (p : Path) (r r' : Value) : Prop := r' = r ∨ ∃ x, r' = p.set x r

namespace ChangesAt

variable {p q b : Path} {ps : List Path} {u u' v r r' : Value}

theorem lookup_of_diverges (h : ChangesAt p u u') (hroom : p.HasRoom u)
    (hpq : Path.Diverges u p q) : q.lookup u' = q.lookup u := by
  rcases h with rfl | ⟨w, rfl⟩
  · rfl
  · exact hpq.lookup_set hroom w

theorem eq_of_lookup (h : ChangesAt p u u') (hroom : p.HasRoom u)
    (hsame : p.lookup u' = p.lookup u) : u' = u := by
  rcases h with rfl | ⟨w, rfl⟩
  · rfl
  · rw [Path.lookup_set hroom w] at hsame
    exact Path.set_of_lookup hsame.symm

/-- A change below the place of a value is a change of that value. -/
theorem below (h : ChangesAt (b ++ p) r r') (hu : b.lookup r = some u) (hroom : p.HasRoom u) :
    ∃ u', ChangesAt p u u' ∧ b.lookup r' = some u' ∧ r' = b.set u' r := by
  rcases h with rfl | ⟨w, rfl⟩
  · exact ⟨u, .inl rfl, hu, (Path.set_of_lookup hu).symm⟩
  · rw [Path.set_append hu hroom]
    exact ⟨_, .inr ⟨w, rfl⟩, Path.lookup_set (Path.hasRoom_of_lookup hu) _, rfl⟩

theorem storedAt (h : ChangesAt p u u') (hv : StoredAt ps v u) (hp : p ∈ ps)
    (hroom : p.HasRoom u) : StoredAt ps v u' := by
  rcases h with rfl | ⟨w, rfl⟩
  · exact hv
  · exact hv.store hp hroom w

theorem places (h : ChangesAt p u u') (hu : Places u ps) (hp : p ∈ ps) : Places u' ps := by
  rcases h with rfl | ⟨w, rfl⟩
  · exact hu
  · exact hu.set hp w

end ChangesAt

section

variable {α : Type} {r : α → Path} {f : α → PassM Unit} {b : Path} {v : Value}
  {xs : List α} {I : List α → PassState → Prop} {Q : α → Option Value → Prop}

/-- The loop from its middle on: `u` is what the steps so far made of the value. -/
theorem forM_places_from
    (hstep : ∀ done x todo, xs = done ++ x :: todo → ∀ t t', I done t →
      (b ++ r x).HasRoom t.record → (b ++ r x).lookup t.record = (r x).lookup v →
        f x t = .ok () t' →
          I (done ++ [x]) t' ∧ ChangesAt (b ++ r x) t.record t'.record ∧
            Q x ((b ++ r x).lookup t'.record))
    {done todo : List α} (hxs : xs = done ++ todo) {u : Value} {t s' : PassState}
    (hu : b.lookup t.record = some u) (hstored : StoredAt (xs.map r) v u)
    (hp : Places u (xs.map r)) (hnext : ∀ x ∈ todo, (r x).lookup u = (r x).lookup v)
    (hdone : ∀ x ∈ done, Q x ((r x).lookup u)) (hI : I done t)
    (h : todo.forM f t = .ok () s') :
    I xs s' ∧ ∃ v', StoredAt (xs.map r) v v' ∧ s'.record = b.set v' t.record ∧
      (∀ x ∈ xs, Q x ((r x).lookup v')) ∧ (∀ x ∈ done, (r x).lookup v' = (r x).lookup u) ∧
      ((∀ x ∈ todo, (r x).lookup v' = (r x).lookup u) → v' = u) := by
  induction todo generalizing done u t with
  | nil =>
    obtain ⟨-, rfl⟩ := EStateM.Result.ok.inj h
    rw [List.append_nil] at hxs
    subst hxs
    exact ⟨hI, u, hstored, (Path.set_of_lookup hu).symm, hdone, fun _ _ => rfl, fun _ => rfl⟩
  | cons x todo ih =>
    obtain ⟨t₁, hx, h⟩ := forM_cons_ok.mp h
    have hmem : x ∈ xs := by
      rw [hxs]
      exact List.mem_append_right _ List.mem_cons_self
    have hpx : r x ∈ xs.map r := List.mem_map_of_mem hmem
    have hroom : (r x).HasRoom u := hp.room _ hpx
    have hlook : (b ++ r x).lookup t.record = (r x).lookup u := by
      rw [Path.lookup_append, hu]
      rfl
    obtain ⟨hI₁, hchange, hQ⟩ := hstep done x todo hxs t t₁ hI
      ((Path.hasRoom_append hu).mpr hroom) (hlook.trans (hnext x List.mem_cons_self)) hx
    obtain ⟨u₁, hchange, hu₁, hset⟩ := hchange.below hu hroom
    rw [Path.lookup_append, hu₁, Option.bind_some] at hQ
    have hxs' : xs = (done ++ [x]) ++ todo := by
      rw [hxs, List.append_assoc]
      rfl
    -- the other places keep apart from the one that is stored at
    have hapart := hp.apart
    rw [hxs, List.map_append, List.map_cons] at hapart
    obtain ⟨-, hrest, hbefore⟩ := List.pairwise_append.mp hapart
    obtain ⟨hafter, -⟩ := List.pairwise_cons.mp hrest
    have hlater : ∀ y ∈ todo, (r y).lookup u₁ = (r y).lookup u := fun y hy =>
      hchange.lookup_of_diverges hroom (hafter _ (List.mem_map_of_mem hy))
    have hearlier : ∀ y ∈ done, (r y).lookup u₁ = (r y).lookup u := fun y hy =>
      hchange.lookup_of_diverges hroom
        (hbefore _ (List.mem_map_of_mem hy) _ List.mem_cons_self).symm
    obtain ⟨hI', v', hv', hrec, hall, hdone', hsame⟩ := ih hxs' hu₁
      (hchange.storedAt hstored hpx hroom) (hchange.places hp hpx)
      (fun y hy => (hlater y hy).trans (hnext y (List.mem_cons_of_mem _ hy)))
      (fun y hy => by
        rcases List.mem_append.mp hy with hy | hy
        · rw [hearlier y hy]
          exact hdone y hy
        · rw [List.mem_singleton.mp hy]
          exact hQ) hI₁ h
    refine ⟨hI', v', hv', ?_, hall, fun y hy => ?_, fun hlook' => ?_⟩
    · rw [hrec, hset, Path.set_set]
    · rw [hdone' y (List.mem_append_left _ hy), hearlier y hy]
    · -- what this step stored was there before
      have hsame₁ : u₁ = u := hchange.eq_of_lookup hroom (by
        rw [← hlook' x List.mem_cons_self, hdone' x (List.mem_append_right _ (by simp))])
      subst hsame₁
      exact hsame fun y hy => hlook' y (List.mem_cons_of_mem _ hy)

/-- A loop over places of the value at `b`: every step finds its place as it was, and `Q` holds
in the end of what each step made.  When no place changed nothing did.  A step may depend on those
before it. -/
theorem forM_places_in_order
    (hstep : ∀ done x todo, xs = done ++ x :: todo → ∀ t t', I done t →
      (b ++ r x).HasRoom t.record → (b ++ r x).lookup t.record = (r x).lookup v →
        f x t = .ok () t' →
          I (done ++ [x]) t' ∧ ChangesAt (b ++ r x) t.record t'.record ∧
            Q x ((b ++ r x).lookup t'.record))
    {s s' : PassState} (hv : b.lookup s.record = some v) (hp : Places v (xs.map r))
    (hI : I [] s) (h : xs.forM f s = .ok () s') :
    I xs s' ∧ ∃ v', StoredAt (xs.map r) v v' ∧ s'.record = b.set v' s.record ∧
      (∀ x ∈ xs, Q x ((r x).lookup v')) ∧
      ((∀ x ∈ xs, (r x).lookup v' = (r x).lookup v) → v' = v) := by
  obtain ⟨hI', v', hv', hrec, hQ, -, hsame⟩ :=
    forM_places_from hstep rfl hv .refl hp (fun _ _ => rfl) (List.forall_mem_nil _) hI h
  exact ⟨hI', v', hv', hrec, hQ, hsame⟩

/-- The same where a step depends on nothing but its place. -/
theorem forM_places
    (hstep : ∀ done, ∀ x ∈ xs, ∀ t t', I done t → (b ++ r x).HasRoom t.record →
      (b ++ r x).lookup t.record = (r x).lookup v → f x t = .ok () t' →
        I (done ++ [x]) t' ∧ ChangesAt (b ++ r x) t.record t'.record ∧
          Q x ((b ++ r x).lookup t'.record))
    {s s' : PassState} (hv : b.lookup s.record = some v) (hp : Places v (xs.map r))
    (hI : I [] s) (h : xs.forM f s = .ok () s') :
    I xs s' ∧ ∃ v', StoredAt (xs.map r) v v' ∧ s'.record = b.set v' s.record ∧
      (∀ x ∈ xs, Q x ((r x).lookup v')) ∧
      ((∀ x ∈ xs, (r x).lookup v' = (r x).lookup v) → v' = v) :=
  forM_places_in_order (fun done x _ hxs => hstep done x (by
    rw [hxs]
    exact List.mem_append_right _ List.mem_cons_self)) hv hp hI h

end

end ContentSchema
