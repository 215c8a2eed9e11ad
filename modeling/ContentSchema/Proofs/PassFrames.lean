import ContentSchema.Proofs.PassRuns
import ContentSchema.Proofs.ProblemPlaces

/-!
# Pass frames — what a pass keeps

A property of the state that survives what a pass does one step at a time survives the pass,
however it ends.  A field is treated inside its own value: all that is stored and all that is
reported stands at its path or below it, in either pass.
-/

namespace ContentSchema

/-- The state in which a run ends, well or badly. -/
def PassState.after {α : Type} : EStateM.Result EngineError PassState α → PassState
  | .ok _ s => s
  | .error _ s => s

/-- However it ends, the run maintains `P`. -/
def Maintains {α : Type} (P : PassState → Prop) (m : PassM α) : Prop :=
  ∀ s : PassState, P s → P (PassState.after (m s))

/-- `P` survives resolving options, storing at the paths of `S` and reporting at those of `R`. -/
structure Frame (P : PassState → Prop) (S R : Path → Prop) : Prop where
  resolve : ∀ {s : PassState} (name : String) (d : Declaration), P s →
    P { s with cache := (s.cache.resolve .builtin name d).2 }
  store : ∀ {s : PassState} {p : Path} (w : Value), S p → P s →
    P { s with record := p.set w s.record }
  report : ∀ {s : PassState} {p : Path} (message : String), R p → P s →
    P { s with errors := s.errors.insert p message }

/-- The same where options are resolved among any kinds, the host's own included. -/
structure FrameAmong (registry : Registry) (P : PassState → Prop) (S R : Path → Prop) : Prop where
  resolve : ∀ {s : PassState} (name : String) (d : Declaration), P s →
    P { s with cache := (s.cache.resolve registry name d).2 }
  store : ∀ {s : PassState} {p : Path} (w : Value), S p → P s →
    P { s with record := p.set w s.record }
  report : ∀ {s : PassState} {p : Path} (message : String), R p → P s →
    P { s with errors := s.errors.insert p message }

theorem Frame.among {P : PassState → Prop} {S R : Path → Prop} (h : Frame P S R)
    {registry : Registry} (hregistry : registry = .builtin) : FrameAmong registry P S R := by
  subst hregistry
  exact ⟨h.resolve, h.store, h.report⟩

/-- The same where options are resolved for the declarations of `D` alone. -/
structure FrameFor (registry : Registry) (D : Declaration → Prop) (P : PassState → Prop)
    (S R : Path → Prop) : Prop where
  resolve : ∀ {s : PassState} (name : String) {d : Declaration}, D d → P s →
    P { s with cache := (s.cache.resolve registry name d).2 }
  store : ∀ {s : PassState} {p : Path} (w : Value), S p → P s →
    P { s with record := p.set w s.record }
  report : ∀ {s : PassState} {p : Path} (message : String), R p → P s →
    P { s with errors := s.errors.insert p message }

theorem FrameAmong.all {registry : Registry} {P : PassState → Prop} {S R : Path → Prop}
    (h : FrameAmong registry P S R) : FrameFor registry (fun _ => True) P S R :=
  ⟨fun name d _ => h.resolve name d, h.store, h.report⟩

namespace Maintains

variable {α β : Type} {P : PassState → Prop}

theorem ok {m : PassM α} (h : Maintains P m) {a : α} {s t : PassState} (hs : P s)
    (hrun : m s = .ok a t) : P t := by
  have ht := h s hs
  rw [hrun] at ht
  exact ht

theorem pure (a : α) : Maintains P (pure a) := fun _ h => h

theorem throw (e : EngineError) : Maintains P (throw e : PassM α) := fun _ h => h

theorem get : Maintains P (get : PassM PassState) := fun _ h => h

theorem bind {m : PassM α} {f : α → PassM β} (hm : Maintains P m) (hf : ∀ a, Maintains P (f a)) :
    Maintains P (m >>= f) := by
  intro s hs
  have ht := hm s hs
  show P (PassState.after (EStateM.bind m f s))
  unfold EStateM.bind
  cases h : m s with
  | error e t =>
    rw [h] at ht
    exact ht
  | ok a t =>
    rw [h] at ht
    exact hf a t ht

theorem forM {f : α → PassM Unit} {xs : List α} (hf : ∀ x ∈ xs, Maintains P (f x)) :
    Maintains P (xs.forM f) := by
  induction xs with
  | nil => exact pure ()
  | cons x xs ih =>
    obtain ⟨hx, hxs⟩ := List.forall_mem_cons.mp hf
    exact bind hx fun _ => ih hxs

/-! ### Steps -/

variable {c : PassContext}

theorem definition (k : FieldKind) : Maintains P (c.definition k) := by
  unfold PassContext.definition
  split
  · exact pure _
  · exact throw _

end Maintains

namespace FrameFor

open Maintains

variable {P : PassState → Prop} {S R : Path → Prop} {c : PassContext} {D : Declaration → Prop}
  {path : Path} {d : Declaration}

section

variable {registry : Registry} (h : FrameFor registry D P S R)

include h

theorem setField (hpath : S path) (v : Value) : Maintains P (setField path v) :=
  fun _ hs => h.store v hpath hs

theorem reportProblem {problem : Problem} (hpath : R problem.1) :
    Maintains P (reportProblem problem) := fun _ hs => h.report problem.2 hpath hs

/-- Shaping stores at its place and reports there and below. -/
theorem shapeField (hpath : ∀ q, S (path ++ q) ∧ R (path ++ q)) (d : Declaration) (o : Options) :
    Maintains P (c.shapeField path d o) := by
  have here : S path ∧ R path := path.append_root ▸ hpath .root
  unfold PassContext.shapeField
  refine bind get fun s => ?_
  split
  · exact pure _
  · next v _ =>
    refine bind (h.setField here.1 _) fun _ => bind (forM fun p hp => ?_) fun _ => pure _
    obtain ⟨q, hq⟩ := reports_shape c.catalog d o path v p hp
    exact h.reportProblem (hq ▸ (hpath q).2)

theorem sanitizePresent {descend : Path → Declaration → PassM Unit}
    (hpath : ∀ q, S (path ++ q) ∧ R (path ++ q))
    (hdescend : ∀ v, ∀ m ∈ c.catalog.members d v,
      Maintains P (descend (path ++ m.relative) m.declaration))
    (definition : Definition) (o : Options) (v : Value) :
    Maintains P (c.sanitizePresent descend path d definition o v) := by
  have here : S path ∧ R path := path.append_root ▸ hpath .root
  unfold PassContext.sanitizePresent
  refine bind get fun s => bind (h.setField here.1 _) fun _ => ?_
  split
  · refine bind (h.shapeField hpath d o) fun valid => ?_
    split
    · exact bind get fun s => forM (hdescend _)
    · exact h.setField here.1 _
  · exact pure _

end

theorem options (h : FrameFor c.registry D P S R) (name : String) (hd : D d) :
    Maintains P (c.options name d) := by
  intro s hs
  have hs := h.resolve name hd hs
  rw [PassContext.options_run]
  obtain ⟨⟨result, cache⟩, hp⟩ : ∃ p, s.cache.resolve c.registry name d = p := ⟨_, rfl⟩
  rw [hp] at hs ⊢
  cases result <;> exact hs

section

variable (h : FrameFor c.registry D P S R)
  (hnested : ∀ d, D d → ∀ v, ∀ m ∈ c.catalog.members d v, D m.declaration)

include h hnested

/-- The first pass over the field at a path stores and reports there and below. -/
theorem sanitize (fuel : Nat) (hpath : ∀ q, S (path ++ q) ∧ R (path ++ q)) (hd : D d) :
    Maintains P (c.sanitize fuel path d) := by
  induction fuel generalizing path d with
  | zero => exact pure ()
  | succ fuel ih =>
    have here : S path ∧ R path := path.append_root ▸ hpath .root
    have hdescend : ∀ v, ∀ m ∈ c.catalog.members d v,
        Maintains P (c.sanitize fuel (path ++ m.relative) m.declaration) := by
      intro v m hm
      refine ih (fun q => ?_) (hnested d hd v m hm)
      rw [Path.append_assoc]
      exact hpath _
    unfold PassContext.sanitize
    refine bind (definition _) fun definition => bind (h.options _ hd) fun o =>
      bind get fun s => ?_
    split
    · split
      · exact h.sanitizePresent hpath hdescend definition o .null
      · exact h.setField here.1 _
    · exact h.sanitizePresent hpath hdescend definition o _

/-- The second pass over the field at a path stores and reports there and below. -/
theorem check (fuel : Nat) (hpath : ∀ q, S (path ++ q) ∧ R (path ++ q)) (hd : D d) :
    Maintains P (c.check fuel path d) := by
  induction fuel generalizing path d with
  | zero => exact pure ()
  | succ fuel ih =>
    have here : S path ∧ R path := path.append_root ▸ hpath .root
    unfold PassContext.check
    refine bind (definition _) fun definition => bind (h.options _ hd) fun o =>
      bind get fun s => ?_
    simp only
    split
    · exact pure _
    · split
      · exact throw _
      · exact h.setField here.1 _
      · split
        · exact throw _
        · exact bind (h.reportProblem here.2) fun _ => h.setField here.1 _
        · split
          · refine forM fun m hm => ih (fun q => ?_) (hnested d hd _ m hm)
            rw [Path.append_assoc]
            exact hpath _
          · exact pure _

end

end FrameFor

namespace FrameAmong

variable {P : PassState → Prop} {S R : Path → Prop} {c : PassContext}

theorem sanitize (h : FrameAmong c.registry P S R) (fuel : Nat) {path : Path}
    (hpath : ∀ q, S (path ++ q) ∧ R (path ++ q)) (d : Declaration) :
    Maintains P (c.sanitize fuel path d) :=
  h.all.sanitize (fun _ _ _ _ _ => trivial) fuel hpath trivial

theorem check (h : FrameAmong c.registry P S R) (fuel : Nat) {path : Path}
    (hpath : ∀ q, S (path ++ q) ∧ R (path ++ q)) (d : Declaration) :
    Maintains P (c.check fuel path d) :=
  h.all.check (fun _ _ _ _ _ => trivial) fuel hpath trivial

end FrameAmong

/-! ### Built-in kinds -/

namespace Maintains

variable {P : PassState → Prop} {S R : Path → Prop} {c : PassContext}

theorem setField (h : Frame P S R) {path : Path} (hpath : S path) (v : Value) :
    Maintains P (setField path v) := (h.among rfl).all.setField hpath v

theorem reportProblem (h : Frame P S R) {problem : Problem} (hpath : R problem.1) :
    Maintains P (reportProblem problem) := (h.among rfl).all.reportProblem hpath

theorem options (h : Frame P S R) (hc : c.registry = .builtin) (name : String) (d : Declaration) :
    Maintains P (c.options name d) := (h.among hc).all.options name trivial

theorem sanitize (h : Frame P S R) (hc : c.registry = .builtin) (fuel : Nat) {path : Path}
    (hpath : ∀ q, S (path ++ q) ∧ R (path ++ q)) (d : Declaration) :
    Maintains P (c.sanitize fuel path d) := (h.among hc).sanitize fuel hpath d

theorem check (h : Frame P S R) (hc : c.registry = .builtin) (fuel : Nat) {path : Path}
    (hpath : ∀ q, S (path ++ q) ∧ R (path ++ q)) (d : Declaration) :
    Maintains P (c.check fuel path d) := (h.among hc).check fuel hpath d

end Maintains

end ContentSchema
