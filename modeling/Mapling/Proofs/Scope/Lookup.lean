import Mapling.Proofs.Outcome
import Mapling.Proofs.Scope.Resolving

/-! # Names and addresses refer to the same bindings

An environment lists the names of its frames, and these lists are the scopes that resolution
works with. In an environment whose frames declare no name twice, the address that resolution
finds for a name leads to the binding that the name itself leads to. The first declaration of a
frame is then also its last, which is what makes counting from the front and searching from the
back agree. -/

namespace Mapling

namespace Env

/-- The names declared around a place whose environment is `env`. -/
def scopes (env : Env) : Scopes := env.map (fun f => f.map Binding.name)

def Distinct (env : Env) : Prop := ∀ f ∈ env, (f.map Binding.name).Nodup

@[simp] theorem scopes_nil : scopes [] = [] := rfl

@[simp] theorem scopes_cons (f : Frame) (env : Env) :
    scopes (f :: env) = f.map Binding.name :: scopes env := rfl

@[simp] theorem distinct_nil : Distinct [] := by
  intro f hf
  cases hf

@[simp] theorem distinct_cons {f : Frame} {env : Env} :
    Distinct (f :: env) ↔ (f.map Binding.name).Nodup ∧ env.Distinct := by
  simp [Distinct]

end Env

variable {x : String}

/-- Among bindings of different names, searching from the back finds what counting from the front
does. -/
theorem Frame.find?_reverse_eq_getElem? {f : Frame} (hf : (f.map Binding.name).Nodup) :
    f.reverse.find? (fun b => b.name == x) = ((f.map Binding.name).idxOf? x).bind (f[·]?) := by
  induction f with
  | nil => rfl
  | cons b f ih =>
    simp only [List.map_cons, List.nodup_cons] at hf
    rw [List.reverse_cons, List.find?_append, ih hf.2, List.map_cons, List.idxOf?_cons]
    by_cases hx : b.name = x
    · have hnone : (f.map Binding.name).idxOf? x = none := by
        rw [List.idxOf?_eq_none_iff, ← hx]
        exact hf.1
      simp [hnone, hx]
    · rcases (f.map Binding.name).idxOf? x with _ | i
      · simp [hx]
      · cases hi : f[i]? <;> simp [hx, hi]

theorem Env.at?_succ (f : Frame) (env : Env) (a : Address) :
    Env.at? (f :: env) ⟨a.depth + 1, a.offset⟩ = env.at? a := rfl

/-- The address of a name leads to the binding of the name. -/
theorem Env.find?_eq_at? {env : Env} {a : Address} (henv : env.Distinct)
    (ha : env.scopes.address? x = some a) : env.find? x = env.at? a := by
  induction env generalizing a with
  | nil => simp [Scopes.address?] at ha
  | cons f env ih =>
    rw [Env.distinct_cons] at henv
    rw [Env.scopes_cons, Scopes.address?] at ha
    rw [Env.find?, Frame.find?_reverse_eq_getElem? henv.1]
    cases hi : (f.map Binding.name).idxOf? x with
    | some i =>
      rw [hi] at ha
      cases ha
      have hlt : i < f.length := by
        obtain ⟨h, -⟩ := List.idxOf?_eq_some_iff.mp hi
        simpa using h
      simp [Env.at?, List.getElem?_eq_getElem hlt]
    | none =>
      rw [hi] at ha
      obtain ⟨a', ha', rfl⟩ := Option.map_eq_some_iff.mp ha
      rw [Env.at?_succ]
      exact ih henv.2 ha'

/-- An address found in the scopes of an environment leads to a binding. -/
theorem Env.isSome_at? {env : Env} {a : Address} (ha : env.scopes.address? x = some a) :
    (env.at? a).isSome := by
  induction env generalizing a with
  | nil => simp [Scopes.address?] at ha
  | cons f env ih =>
    rw [Env.scopes_cons, Scopes.address?] at ha
    cases hi : (f.map Binding.name).idxOf? x with
    | some i =>
      rw [hi] at ha
      cases ha
      obtain ⟨h, -⟩ := List.idxOf?_eq_some_iff.mp hi
      simpa [Env.at?] using h
    | none =>
      rw [hi] at ha
      obtain ⟨a', ha', rfl⟩ := Option.map_eq_some_iff.mp ha
      rw [Env.at?_succ]
      exact ih ha'

theorem Expr.resolve_eq_ok_iff {p : NamedExpr} {r : AddressedExpr} :
    p.resolve = .ok r ↔ p.scopeFaults [] = [] ∧ p.addressed [] = r := by
  rw [Expr.resolve_eq]
  cases p.scopeFaults [] with
  | nil | cons => simp

end Mapling
