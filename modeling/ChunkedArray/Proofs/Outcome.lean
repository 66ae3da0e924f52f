import ChunkedArray.Failure
import ChunkedArray.Store.Basic
import Mathlib.Data.List.Forall2

/-!
# Outcomes of sequences of computations

A sequence succeeds exactly if each of its steps does. The lemmas open a `do` block from the front,
for plain results and for operations on a store.
-/

namespace ChunkedArray

variable {α β ε ε' σ : Type}

namespace Outcome

/-! ### Results -/

theorem bind_eq_error_iff {x : Except ε α} {f : α → Except ε β} {e : ε} :
    (x >>= f) = .error e ↔ x = .error e ∨ ∃ a, x = .ok a ∧ f a = .error e := by
  cases x with
  | error e' => simp
  | ok a => simp

theorem check_bind_eq_ok_iff {x : Except ε Unit} {y : Except ε β} {b : β} :
    (x >>= fun _ => y) = .ok b ↔ x = .ok () ∧ y = .ok b := by
  cases x with
  | error e => simp
  | ok a => simp

theorem mapError_eq_ok_iff {f : ε → ε'} {x : Except ε α} {a : α} :
    x.mapError f = .ok a ↔ x = .ok a := by
  cases x with
  | ok b =>
    show (Except.ok b : Except ε' α) = .ok a ↔ _
    rw [Except.ok.injEq, Except.ok.injEq]
  | error e =>
    constructor
    · intro h
      cases h
    · intro h
      cases h

theorem map_eq_ok_iff {f : α → β} {x : Except ε α} {b : β} :
    x.map f = .ok b ↔ ∃ a, x = .ok a ∧ f a = b := by
  cases x with
  | error e => simp [Except.map]
  | ok a => simp [Except.map]

theorem map_eq_error_iff {f : α → β} {x : Except ε α} {e : ε} :
    x.map f = .error e ↔ x = .error e := by
  cases x with
  | error e => simp [Except.map]
  | ok a => simp [Except.map]

theorem toOption_eq_some_iff {x : Except ε α} {a : α} : x.toOption = some a ↔ x = .ok a := by
  cases x <;> simp [Except.toOption]

theorem guard_eq_ok_iff {p : Prop} [Decidable p] {e : ε} {x y : Except ε α} {a : α} :
    (if p then (throw e : Except ε PUnit) >>= fun _ => y else x) = .ok a ↔ ¬ p ∧ x = .ok a := by
  by_cases h : p <;> simp [h, throw, throwThe, MonadExceptOf.throw]

theorem forM_eq_ok_iff {f : α → Except ε Unit} {l : List α} :
    l.forM f = .ok () ↔ ∀ a ∈ l, f a = .ok () := by
  induction l with
  | nil => simp
  | cons a l ih =>
    show (f a >>= fun _ => l.forM f) = .ok () ↔ _
    rw [check_bind_eq_ok_iff, ih, List.forall_mem_cons]

theorem mapM_eq_ok_iff {f : α → Except ε β} {l : List α} {r : List β} :
    l.mapM f = .ok r ↔ List.Forall₂ (fun a b => f a = .ok b) l r := by
  induction l generalizing r with
  | nil =>
    rw [List.mapM_nil, List.forall₂_nil_left_iff]
    exact ⟨fun h => (Except.ok.inj h).symm, fun h => congrArg Except.ok h.symm⟩
  | cons a l ih =>
    simp only [List.mapM_cons, bind_eq_ok_iff, List.forall₂_cons_left_iff, ← ih]
    constructor
    · rintro ⟨b, hb, rest, hrest, hr⟩
      exact ⟨b, rest, hb, hrest, (Except.ok.inj hr).symm⟩
    · rintro ⟨b, rest, hb, hrest, rfl⟩
      exact ⟨b, hb, rest, hrest, rfl⟩

/-- A step that gives a value of its own where it has one. -/
theorem mapM_eq_ok_iff_of_step {f : α → Except ε β} {p : α → Prop} {g : α → β}
    (h : ∀ a b, f a = .ok b ↔ p a ∧ b = g a) {l : List α} {r : List β} :
    l.mapM f = .ok r ↔ (∀ a ∈ l, p a) ∧ r = l.map g := by
  rw [mapM_eq_ok_iff]
  induction l generalizing r with
  | nil => simp
  | cons a l ih =>
    rw [List.forall₂_cons_left_iff, List.forall_mem_cons, List.map_cons]
    constructor
    · rintro ⟨b, rest, hb, hrest, rfl⟩
      obtain ⟨hp, rfl⟩ := (h a b).1 hb
      obtain ⟨hall, rfl⟩ := ih.1 hrest
      exact ⟨⟨hp, hall⟩, rfl⟩
    · rintro ⟨⟨hp, hall⟩, rfl⟩
      exact ⟨g a, l.map g, (h a _).2 ⟨hp, rfl⟩, ih.2 ⟨hall, rfl⟩, rfl⟩

theorem mapM_eq_error_iff {f : α → Except ε β} {l : List α} {e : ε} :
    l.mapM f = .error e ↔ ∃ before a after, l = before ++ a :: after ∧
      (∀ x ∈ before, ∃ b, f x = .ok b) ∧ f a = .error e := by
  constructor
  · intro h
    induction l with
    | nil => cases h
    | cons a l ih =>
      rw [List.mapM_cons] at h
      rcases bind_eq_error_iff.1 h with hfirst | ⟨b, hfirst, hrest⟩
      · exact ⟨[], a, l, rfl, List.forall_mem_nil _, hfirst⟩
      · rcases bind_eq_error_iff.1 hrest with hrest | ⟨_, -, hpure⟩
        · obtain ⟨before, d, after, rfl, hbefore, hd⟩ := ih hrest
          exact ⟨a :: before, d, after, rfl, List.forall_mem_cons.2 ⟨⟨b, hfirst⟩, hbefore⟩, hd⟩
        · cases hpure
  · rintro ⟨before, a, after, rfl, hbefore, ha⟩
    induction before with
    | nil =>
      rw [List.nil_append, List.mapM_cons, ha]
      rfl
    | cons d before ih =>
      rw [List.forall_mem_cons] at hbefore
      obtain ⟨⟨b, hb⟩, hbefore⟩ := hbefore
      rw [List.cons_append, List.mapM_cons, hb, ok_bind, ih hbefore]
      rfl

theorem exists_of_mem_mapM {f : α → Except ε β} {l : List α} {r : List β} (h : l.mapM f = .ok r)
    {b : β} (hb : b ∈ r) : ∃ a ∈ l, f a = .ok b := by
  obtain ⟨n, hn, rfl⟩ := List.getElem_of_mem hb
  obtain ⟨hlength, hget⟩ := List.forall₂_iff_get.1 (mapM_eq_ok_iff.1 h)
  exact ⟨l[n], List.getElem_mem (hlength ▸ hn), hget n (hlength ▸ hn) hn⟩

theorem mapM_map_eq_ok {f : β → Except ε α} {g : α → β} {l : List α}
    (h : ∀ a ∈ l, f (g a) = .ok a) : (l.map g).mapM f = .ok l :=
  mapM_eq_ok_iff.2 (List.forall₂_map_left_iff.2 (List.forall₂_same.2 h))

theorem foldlM_eq_error_iff {ι : Type} {f : α → ι → Except ε α} {l : List ι} {a : α} {e : ε} :
    l.foldlM f a = .error e ↔ ∃ before i after b, l = before ++ i :: after ∧
      before.foldlM f a = .ok b ∧ f b i = .error e := by
  constructor
  · intro h
    induction l generalizing a with
    | nil => cases h
    | cons i l ih =>
      rw [List.foldlM_cons] at h
      rcases bind_eq_error_iff.1 h with hfirst | ⟨b, hfirst, hrest⟩
      · exact ⟨[], i, l, a, rfl, rfl, hfirst⟩
      · obtain ⟨before, j, after, d, rfl, hbefore, hj⟩ := ih hrest
        refine ⟨i :: before, j, after, d, rfl, ?_, hj⟩
        rw [List.foldlM_cons, hfirst]
        exact hbefore
  · rintro ⟨before, i, after, b, rfl, hbefore, hi⟩
    rw [List.foldlM_append, hbefore, ok_bind, List.foldlM_cons, hi]
    rfl

/-- Steps that succeed and keep something succeed one after the other and keep it. -/
theorem exists_foldlM_eq_ok {ι : Type} {post : α → Prop} {f : α → ι → Except ε α} {l : List ι}
    (hstep : ∀ i ∈ l, ∀ a, post a → ∃ b, f a i = .ok b ∧ post b) {a : α} (ha : post a) :
    ∃ b, l.foldlM f a = .ok b ∧ post b := by
  induction l generalizing a with
  | nil => exact ⟨a, rfl, ha⟩
  | cons i l ih =>
    rw [List.forall_mem_cons] at hstep
    obtain ⟨b, hb, hpost⟩ := hstep.1 a ha
    rw [List.foldlM_cons, hb]
    exact ih hstep.2 hpost

/-- Steps that agree unless the first fails for some reason run to the same end unless the first run
fails for that reason. -/
theorem foldlM_eq_or_error {ι : Type} {f g : α → ι → Except ε α} {reason : ε → Prop} {l : List ι}
    (hstep : ∀ i ∈ l, ∀ a, g a i = f a i ∨ ∃ e, f a i = .error e ∧ reason e) (a : α) :
    l.foldlM g a = l.foldlM f a ∨ ∃ e, l.foldlM f a = .error e ∧ reason e := by
  induction l generalizing a with
  | nil => exact .inl rfl
  | cons i l ih =>
    rw [List.forall_mem_cons] at hstep
    rw [List.foldlM_cons, List.foldlM_cons]
    obtain hsame | ⟨e, he, hreason⟩ := hstep.1 a
    · rw [hsame]
      cases f a i with
      | error e => exact .inl rfl
      | ok b => exact ih hstep.2 b
    · exact .inr ⟨e, by rw [he]; rfl, hreason⟩

/-- If every step can be taken back, so can all of them, the last one first. -/
theorem foldlM_reverse_eq_ok {ι : Type} {f : α → ι → Except ε α} {g : α → ι → Except ε' α}
    {l : List ι} (hback : ∀ i ∈ l, ∀ a b, f a i = .ok b → g b i = .ok a) {a b : α}
    (h : l.foldlM f a = .ok b) : l.reverse.foldlM g b = .ok a := by
  induction l generalizing a with
  | nil =>
    obtain rfl := Except.ok.inj h
    rfl
  | cons i l ih =>
    rw [List.forall_mem_cons] at hback
    rw [List.foldlM_cons, bind_eq_ok_iff] at h
    obtain ⟨first, hfirst, hrest⟩ := h
    rw [List.reverse_cons, List.foldlM_append, ih hback.2 hrest, ok_bind, List.foldlM_cons,
      hback.1 a first hfirst]
    rfl

theorem foldlM_eq_ok_of_reverse {ι : Type} {f : α → ι → Except ε α} {g : α → ι → Except ε' α}
    {l : List ι} (hback : ∀ i ∈ l, ∀ a b, f a i = .ok b → g b i = .ok a) {a b : α}
    (h : l.reverse.foldlM f a = .ok b) : l.foldlM g b = .ok a := by
  have hundone := foldlM_reverse_eq_ok (fun i hi => hback i (List.mem_reverse.1 hi)) h
  rwa [List.reverse_reverse] at hundone

end Outcome

/-! ### Checked results -/

namespace Checked

theorem report_eq_ok_iff {f : ε → ε'} {x : Except ε α} {a : α} :
    report f x = .ok a ↔ x = .ok a := by
  cases x <;> simp [report]

theorem guarded_eq_ok_iff {x : Except Violation α} {a : α} :
    (guarded x : Checked ε α) = .ok a ↔ x = .ok a := by
  cases x <;> simp [guarded]

theorem report_eq_error_iff {x : Except ε α} {e : ε} :
    report id x = .error (.error e) ↔ x = .error e := by
  cases x <;> simp [report]

theorem guarded_ne_error (x : Except Violation α) (e : ε) : guarded x ≠ .error (.error e) := by
  cases x <;> simp [guarded]

theorem mapError_eq_ok_iff {f : ε → ε'} {x : Checked ε α} {a : α} :
    mapError f x = .ok a ↔ x = .ok a := by
  match x with
  | .ok _ | .error (.error _) | .error (.violation _) => simp [mapError]

@[simp] theorem report_ok (f : ε → ε') (a : α) : report f (.ok a) = .ok a := rfl

@[simp] theorem guarded_ok (a : α) : (guarded (.ok a) : Checked ε α) = .ok a := rfl

end Checked

/-! ### Operations on a store -/

namespace StoreAction

variable {s s' : σ}

theorem bind_eq_ok_iff {a : StoreAction σ ε α} {f : α → StoreAction σ ε β} {b : β} :
    (a >>= f) s = (.ok b, s') ↔ ∃ x s₁, a s = (.ok x, s₁) ∧ f x s₁ = (.ok b, s') := by
  have hbind : (a >>= f) s = ExceptT.bindCont f (a s).1 (a s).2 := rfl
  rw [hbind]
  obtain ⟨r, s₁⟩ := a s
  cases r with
  | ok x =>
    constructor
    · exact fun hf => ⟨x, s₁, rfl, hf⟩
    · rintro ⟨y, s₂, he, hf⟩
      cases he
      exact hf
  | error e =>
    constructor
    · intro he
      cases he
    · rintro ⟨y, s₂, he, -⟩
      cases he

theorem bind_eq_error_iff {a : StoreAction σ ε α} {f : α → StoreAction σ ε β} {e : ε} :
    (a >>= f) s = (.error e, s') ↔
      a s = (.error e, s') ∨ ∃ x s₁, a s = (.ok x, s₁) ∧ f x s₁ = (.error e, s') := by
  have hbind : (a >>= f) s = ExceptT.bindCont f (a s).1 (a s).2 := rfl
  rw [hbind]
  obtain ⟨r, s₁⟩ := a s
  cases r with
  | ok x =>
    constructor
    · exact fun hf => .inr ⟨x, s₁, rfl, hf⟩
    · rintro (he | ⟨y, s₂, he, hf⟩)
      · cases he
      · cases he
        exact hf
  | error e' =>
    constructor
    · intro he
      cases he
      exact .inl rfl
    · rintro (he | ⟨y, s₂, he, -⟩)
      · cases he
        rfl
      · cases he

theorem bind_apply {a : StoreAction σ ε α} {x : α} {s₁ : σ} (h : a s = (.ok x, s₁))
    (f : α → StoreAction σ ε β) : (a >>= f) s = f x s₁ := by
  show ExceptT.bindCont f (a s).1 (a s).2 = _
  rw [h]
  rfl

theorem bind_apply_error {a : StoreAction σ ε α} {e : ε} {s₁ : σ} (h : a s = (.error e, s₁))
    (f : α → StoreAction σ ε β) : (a >>= f) s = (.error e, s₁) := by
  show ExceptT.bindCont f (a s).1 (a s).2 = _
  rw [h]
  rfl

theorem get_bind_apply (f : σ → StoreAction σ ε α) :
    ((get : StoreAction σ ε σ) >>= f) s = f s s := rfl

theorem pure_eq_ok_iff {a b : α} :
    (pure a : StoreAction σ ε α) s = (.ok b, s') ↔ b = a ∧ s' = s := by
  constructor
  · intro h
    cases h
    exact ⟨rfl, rfl⟩
  · rintro ⟨rfl, rfl⟩
    rfl

theorem reading_eq_ok_iff {f : σ → Except ε α} {a : α} :
    reading f s = (.ok a, s') ↔ f s = .ok a ∧ s' = s := by
  constructor
  · intro h
    exact ⟨congrArg Prod.fst h, (congrArg Prod.snd h).symm⟩
  · rintro ⟨h, rfl⟩
    exact Prod.ext h rfl

theorem reading_eq_error_iff {f : σ → Except ε α} {e : ε} :
    reading f s = (.error e, s') ↔ f s = .error e ∧ s' = s := by
  constructor
  · intro h
    exact ⟨congrArg Prod.fst h, (congrArg Prod.snd h).symm⟩
  · rintro ⟨h, rfl⟩
    exact Prod.ext h rfl

/-- A computation that reads the store goes on from the same store. -/
theorem reading_bind_apply (f : σ → Except ε α) (g : α → StoreAction σ ε β) (s : σ) :
    (reading f >>= g) s =
      match f s with
      | .ok a => g a s
      | .error e => (.error e, s) := by
  show ExceptT.bindCont g (f s) s = _
  cases f s <;> rfl

/-- Two computations that read the store are one. -/
theorem reading_bind_reading {γ : Type} (f : σ → Except ε α) (g : α → σ → Except ε β)
    (k : β → StoreAction σ ε γ) :
    (reading f >>= fun a => reading (g a) >>= k) = reading (fun s => f s >>= fun a => g a s) >>= k := by
  funext s
  rw [reading_bind_apply, reading_bind_apply]
  cases f s with
  | error e => rfl
  | ok a => exact reading_bind_apply (g a) k s

theorem rename_eq_ok_iff {f : ε → ε'} {a : StoreAction σ ε α} {x : α} :
    rename f a s = (.ok x, s') ↔ a s = (.ok x, s') := by
  constructor
  · intro h
    have hresult : (a s).1.mapError f = .ok x := congrArg Prod.fst h
    have hstate : (a s).2 = s' := congrArg Prod.snd h
    exact Prod.ext (Outcome.mapError_eq_ok_iff.1 hresult) hstate
  · intro h
    simp only [rename, h]
    rfl

theorem rename_eq_error {f : ε → ε'} {a : StoreAction σ ε α} {e : ε'}
    (h : rename f a s = (.error e, s')) : ∃ e', a s = (.error e', s') := by
  have hresult : (a s).1.mapError f = .error e := congrArg Prod.fst h
  have hstate : (a s).2 = s' := congrArg Prod.snd h
  cases ha : (a s).1 with
  | ok x => rw [ha] at hresult; cases hresult
  | error e' => exact ⟨e', Prod.ext ha hstate⟩

theorem guard_eq_ok_iff {p : Prop} [Decidable p] {e : ε} {a b : StoreAction σ ε α} {x : α} :
    (if p then (throw e : StoreAction σ ε PUnit) >>= fun _ => b else a) s = (.ok x, s') ↔
      ¬ p ∧ a s = (.ok x, s') := by
  by_cases h : p
  · simp only [h, if_true, not_true, false_and, iff_false]
    intro he
    obtain ⟨_, _, hthrow, -⟩ := bind_eq_ok_iff.1 he
    cases hthrow
  · simp only [h, if_false, not_false_eq_true, true_and]

theorem guard_eq_error {p : Prop} [Decidable p] {e e' : ε} {a b : StoreAction σ ε α}
    (h : (if p then (throw e : StoreAction σ ε PUnit) >>= fun _ => b else a) s = (.error e', s')) :
    s' = s ∨ a s = (.error e', s') := by
  by_cases hp : p
  · rw [if_pos hp] at h
    exact .inl (congrArg Prod.snd h).symm
  · rw [if_neg hp] at h
    exact .inr h

theorem eq_ok_of_isOk {a : StoreAction σ ε Unit} (h : (a s).1.isOk = true) :
    a s = (.ok (), (a s).2) := by
  refine Prod.ext ?_ rfl
  cases ha : (a s).1 with
  | ok => rfl
  | error => rw [ha] at h; cases h

theorem forM_nil_eq_ok_iff {f : α → StoreAction σ ε Unit} :
    ([] : List α).forM f s = (.ok (), s') ↔ s' = s := by
  show (pure () : StoreAction σ ε Unit) s = _ ↔ _
  simp [pure_eq_ok_iff]

theorem forM_cons_eq_ok_iff {f : α → StoreAction σ ε Unit} {a : α} {l : List α} :
    (a :: l).forM f s = (.ok (), s') ↔ ∃ s₁, f a s = (.ok (), s₁) ∧ l.forM f s₁ = (.ok (), s') := by
  refine (bind_eq_ok_iff (f := fun _ => l.forM f)).trans ?_
  constructor
  · rintro ⟨_, s₁, h⟩
    exact ⟨s₁, h⟩
  · rintro ⟨s₁, h⟩
    exact ⟨(), s₁, h⟩

theorem forM_append_eq_ok_iff {f : α → StoreAction σ ε Unit} {l l' : List α} :
    (l ++ l').forM f s = (.ok (), s') ↔
      ∃ s₁, l.forM f s = (.ok (), s₁) ∧ l'.forM f s₁ = (.ok (), s') := by
  induction l generalizing s with
  | nil => simp only [List.nil_append, forM_nil_eq_ok_iff, exists_eq_left]
  | cons a l ih =>
    simp only [List.cons_append, forM_cons_eq_ok_iff, ih]
    constructor
    · rintro ⟨s₁, hfirst, s₂, hrest, hlater⟩
      exact ⟨s₂, ⟨s₁, hfirst, hrest⟩, hlater⟩
    · rintro ⟨s₂, ⟨s₁, hfirst, hrest⟩, hlater⟩
      exact ⟨s₁, hfirst, s₂, hrest, hlater⟩

/-- A sequence that fails does so at one step; all steps before it succeeded. -/
theorem forM_eq_error {f : α → StoreAction σ ε Unit} {l : List α} {e : ε}
    (h : l.forM f s = (.error e, s')) :
    ∃ before a after s₁, l = before ++ a :: after ∧ before.forM f s = (.ok (), s₁) ∧
      f a s₁ = (.error e, s') := by
  induction l generalizing s with
  | nil => cases congrArg Prod.fst h
  | cons a l ih =>
    rcases bind_eq_error_iff.1 h with hfirst | ⟨_, s₁, hfirst, hrest⟩
    · exact ⟨[], a, l, s, rfl, rfl, hfirst⟩
    · obtain ⟨before, b, after, s₂, rfl, hbefore, hb⟩ := ih hrest
      exact ⟨a :: before, b, after, s₂, rfl, forM_cons_eq_ok_iff.2 ⟨s₁, hfirst, hbefore⟩, hb⟩

/-! What every step of a sequence keeps, the sequence keeps, also where it fails. -/

theorem bind_keeps {P : σ → Prop} {a : StoreAction σ ε α} {f : α → StoreAction σ ε β}
    (ha : P s → P (a s).2) (hf : ∀ x s', P s' → P (f x s').2) (hs : P s) : P ((a >>= f) s).2 := by
  have hfirst := ha hs
  rcases hrun : a s with ⟨e | x, s₁⟩ <;> rw [hrun] at hfirst
  · rw [bind_apply_error hrun]
    exact hfirst
  · rw [bind_apply hrun]
    exact hf x s₁ hfirst

theorem forM_keeps {P : σ → Prop} {f : α → StoreAction σ ε Unit} {l : List α}
    (hf : ∀ a ∈ l, ∀ s, P s → P (f a s).2) (hs : P s) : P (l.forM f s).2 := by
  induction l generalizing s with
  | nil => exact hs
  | cons a l ih =>
    rw [List.forall_mem_cons] at hf
    exact bind_keeps (hf.1 s) (fun _ _ hs' => ih hf.2 hs') hs

end StoreAction

end ChunkedArray
