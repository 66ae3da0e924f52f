import ChunkedArray.Proofs.Outcome

/-!
# How computations end

A computation ends with a value, with an error or by breaking a precondition. `Ends` says which
values and which broken preconditions are possible; about errors it says nothing. The ways in which
a `do` block ends follow from those of its steps.
-/

namespace ChunkedArray

variable {α β ε ε' σ : Type} {allowed : Violation → Prop} {post : α → Prop} {post' : β → Prop}

namespace Checked

/-- Every value has a property and every broken precondition is one that is allowed for. -/
def Ends (allowed : Violation → Prop) (post : α → Prop) (x : Checked ε α) : Prop :=
  match x with
  | .ok a => post a
  | .error (.error _) => True
  | .error (.violation v) => allowed v

theorem Ends.allowed_of_eq {x : Checked ε α} (h : Ends allowed post x) {v : Violation}
    (hx : x = .error (.violation v)) : allowed v := by
  subst hx
  exact h

theorem Ends.mono {x : Checked ε α} {post₂ : α → Prop} (h : Ends allowed post x)
    (hpost : ∀ a, post a → post₂ a) : Ends allowed post₂ x := by
  match x with
  | .ok a => exact hpost a h
  | .error (.error _) => trivial
  | .error (.violation _) => exact h

theorem Ends.allow {x : Checked ε α} {allowed₂ : Violation → Prop} (h : Ends allowed post x)
    (hallowed : ∀ v, allowed v → allowed₂ v) : Ends allowed₂ post x := by
  match x with
  | .ok _ => exact h
  | .error (.error _) => trivial
  | .error (.violation v) => exact hallowed v h

theorem Ends.bind {x : Checked ε α} {f : α → Checked ε β} (hx : Ends allowed post x)
    (hf : ∀ a, post a → Ends allowed post' (f a)) : Ends allowed post' (x >>= f) := by
  match x with
  | .ok a => exact hf a hx
  | .error (.error _) => trivial
  | .error (.violation _) => exact hx

theorem ends_fail (e : ε) : Ends allowed post (fail e) := trivial

theorem ends_report {x : Except ε α} {f : ε → ε'} (hx : ∀ a, x = .ok a → post a) :
    Ends allowed post (report f x) := by
  cases x with
  | ok a => exact hx a rfl
  | error e => trivial

theorem ends_guarded {x : Except Violation α} (hx : ∃ a, x = .ok a ∧ post a) :
    Ends allowed post (guarded x : Checked ε α) := by
  obtain ⟨a, rfl, ha⟩ := hx
  exact ha

theorem ends_guarded_of {x : Except Violation α} (hok : ∀ a, x = .ok a → post a)
    (herror : ∀ v, x = .error v → allowed v) : Ends allowed post (guarded x : Checked ε α) := by
  cases x with
  | ok a => exact hok a rfl
  | error v => exact herror v rfl

theorem Ends.mapError {x : Checked ε α} (f : ε → ε') (hx : Ends allowed post x) :
    Ends allowed post (Checked.mapError f x) := by
  match x with
  | .ok _ => exact hx
  | .error (.error _) => trivial
  | .error (.violation _) => exact hx

/-- What every step of a fold keeps holds at its end. -/
theorem ends_foldlM {ι : Type} {f : α → ι → Checked ε α} {l : List ι}
    (hstep : ∀ i ∈ l, ∀ a, post a → Ends allowed post (f a i)) {a : α} (ha : post a) :
    Ends allowed post (l.foldlM f a) := by
  induction l generalizing a with
  | nil => exact ha
  | cons i l ih =>
    rw [List.forall_mem_cons] at hstep
    rw [List.foldlM_cons]
    exact (hstep.1 a ha).bind fun b hb => ih hstep.2 hb

end Checked

namespace StoreAction

def Ends (allowed : Violation → Prop) (post : α → Prop) (a : StoreAction σ (Failure ε) α) : Prop :=
  ∀ s, Checked.Ends allowed post (a s).1

theorem Ends.bind {a : StoreAction σ (Failure ε) α} {f : α → StoreAction σ (Failure ε) β}
    (ha : Ends allowed post a) (hf : ∀ x, post x → Ends allowed post' (f x)) :
    Ends allowed post' (a >>= f) := by
  intro s
  have hbind : (a >>= f) s = ExceptT.bindCont f (a s).1 (a s).2 := rfl
  have hs := ha s
  rw [hbind]
  match (a s).1, hs with
  | .ok x, hx => exact hf x hx (a s).2
  | .error (.error _), _ => trivial
  | .error (.violation _), hv => exact hv

theorem ends_reading {f : σ → Checked ε α} (hf : ∀ s, Checked.Ends allowed post (f s)) :
    Ends allowed post (reading f) := hf

theorem ends_pure {a : α} (ha : post a) :
    Ends allowed post (pure a : StoreAction σ (Failure ε) α) := fun _ => ha

theorem ends_rename (f : ε → ε') (a : StoreAction σ ε α) :
    Ends allowed (fun _ => True) (a.rename fun e => Failure.error (f e)) := by
  intro s
  show Checked.Ends allowed _ ((a s).1.mapError _)
  cases (a s).1 with
  | ok _ => trivial
  | error _ => trivial

theorem ends_guard {p : Prop} [Decidable p] {e : ε} {a b : StoreAction σ (Failure ε) α}
    (ha : ¬ p → Ends allowed post a) :
    Ends allowed post (if p then (throw (.error e) : StoreAction σ (Failure ε) PUnit) >>= fun _ => b
      else a) := by
  by_cases h : p
  · rw [if_pos h]
    exact fun _ => trivial
  · rw [if_neg h]
    exact ha h

theorem ends_forM {ι : Type} {f : ι → StoreAction σ (Failure ε) Unit} {l : List ι}
    (hf : ∀ i ∈ l, Ends allowed (fun _ => True) (f i)) :
    Ends allowed (fun _ => True) (l.forM f) := by
  induction l with
  | nil => exact fun _ => trivial
  | cons i l ih =>
    rw [List.forall_mem_cons] at hf
    exact hf.1.bind fun _ _ => ih hf.2

end StoreAction

end ChunkedArray
