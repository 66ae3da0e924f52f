import ChunkedArray.Proofs.Store.Lawful

/-!
# What a store holds

What is stored under a key is not always what a reader is told, since reading may fail. A view of a
store gives its entries apart from any reader. A store keeps its entries if a change that succeeds is
one of the entry of its key alone, a change that fails has no effect, and a reader who is told
anything is told the entry.
-/

namespace ChunkedArray

/-- The entries of a store under these keys, in these states. -/
structure StoreView (σ : Type) where
  keys : Key → Prop
  good : σ → Prop
  entry : Key → σ → Option Bytes

namespace StoreView

variable {σ : Type} {v : StoreView σ} {s s' : σ}

/-- From `s` to `s'` no entry changed. -/
structure Same (v : StoreView σ) (s s' : σ) : Prop where
  isGood : v.good s'
  entry_eq : ∀ k, v.keys k → v.entry k s' = v.entry k s

/-- From `s` to `s'` the entry of a key became what is said, and no other entry changed. -/
structure Became (v : StoreView σ) (k : Key) (found : Option Bytes) (s s' : σ) : Prop where
  isGood : v.good s'
  entry_eq : v.entry k s' = found
  others : ∀ k', v.keys k' → k' ≠ k → v.entry k' s' = v.entry k' s

theorem Same.refl (hs : v.good s) : v.Same s s := ⟨hs, fun _ _ => rfl⟩

/-- The entries of a store that answers every reader. -/
def ofValues [Store σ] (keys : Key → Prop) (good : σ → Prop) : StoreView σ where
  keys := keys
  good := good
  entry k s :=
    match Store.get k s with
    | .ok found => found
    | .error _ => none

theorem entry_ofValues [Store σ] {keys : Key → Prop} {good : σ → Prop} {k : Key}
    {found : Option Bytes} (h : Store.get k s = .ok found) :
    (ofValues keys good).entry k s = found := by
  show (match Store.get k s with | .ok found => found | .error _ => none) = found
  rw [h]

theorem entry_ofValues_congr [Store σ] {keys : Key → Prop} {good : σ → Prop} {k : Key}
    (h : Store.get k s' = Store.get k s) :
    (ofValues keys good).entry k s' = (ofValues keys good).entry k s := by
  show (match Store.get k s' with | .ok found => found | .error _ => none) =
    match Store.get k s with | .ok found => found | .error _ => none
  rw [h]

end StoreView

structure KeepsEntries {σ : Type} [Store σ] (v : StoreView σ) : Prop where
  get : ∀ {s : σ} {k : Key} {found : Option Bytes}, v.good s → v.keys k →
    Store.get k s = .ok found → v.entry k s = found
  set : ∀ {s s' : σ} {k : Key} {value : Bytes}, v.good s → v.keys k →
    (Store.set k value : StoreAction σ StoreError Unit) s = (.ok (), s') →
    v.Became k (some value) s s'
  set_error : ∀ {s s' : σ} {k : Key} {value : Bytes} {e : StoreError}, v.good s → v.keys k →
    (Store.set k value : StoreAction σ StoreError Unit) s = (.error e, s') → v.Same s s'
  erase : ∀ {s s' : σ} {k : Key} {found : Bool}, v.good s → v.keys k →
    (Store.erase k : StoreAction σ StoreError Bool) s = (.ok found, s') → v.Became k none s s'
  erase_error : ∀ {s s' : σ} {k : Key} {e : StoreError}, v.good s → v.keys k →
    (Store.erase k : StoreAction σ StoreError Bool) s = (.error e, s') → v.Same s s'

/-- Every reader is told the entry, and every change succeeds. -/
structure NeverFails {σ : Type} [Store σ] (v : StoreView σ) : Prop
    extends AcceptsValues σ v.keys v.good where
  get : ∀ {s : σ} {k : Key}, v.good s → v.keys k → Store.get k s = .ok (v.entry k s)

/-- A store that keeps values and accepts them all keeps its entries. -/
theorem keepsEntries_ofValues {σ : Type} [Store σ] {keys : Key → Prop} {good : σ → Prop}
    (hkeeps : KeepsValues σ keys good) (haccepts : AcceptsValues σ keys good) :
    KeepsEntries (StoreView.ofValues (σ := σ) keys good) := by
  constructor
  · exact fun _ _ hget => StoreView.entry_ofValues hget
  · intro s s' k value hs hk hset
    obtain ⟨hgood, hget, hothers⟩ := hkeeps.set hs hk hset
    exact ⟨hgood, StoreView.entry_ofValues hget,
      fun k' hk' hne => StoreView.entry_ofValues_congr (hothers k' hk' hne)⟩
  · intro s s' k value e hs hk hset
    obtain ⟨s'', hok⟩ := haccepts.set value hs hk
    cases congrArg Prod.fst (hok.symm.trans hset)
  · intro s s' k found hs hk herase
    obtain ⟨hgood, hget, hothers⟩ := hkeeps.erase hs hk herase
    exact ⟨hgood, StoreView.entry_ofValues hget,
      fun k' hk' hne => StoreView.entry_ofValues_congr (hothers k' hk' hne)⟩
  · intro s s' k e hs hk herase
    obtain ⟨found, s'', hok⟩ := haccepts.erase hs hk
    cases congrArg Prod.fst (hok.symm.trans herase)

theorem MemoryStore.keepsEntries (keys : Key → Prop) :
    KeepsEntries (StoreView.ofValues (σ := MemoryStore) keys fun _ => True) :=
  keepsEntries_ofValues (keepsValues keys) (acceptsValues keys)

theorem MemoryStore.neverFails (keys : Key → Prop) :
    NeverFails (StoreView.ofValues (σ := MemoryStore) keys fun _ => True) :=
  ⟨acceptsValues keys, fun _ _ => rfl⟩

namespace FaultyStore

variable {σ : Type} {v : StoreView σ}

/-- The entries are those of the inner store, also where reading them fails. -/
def view (v : StoreView σ) : StoreView (FaultyStore σ) where
  keys := v.keys
  good s := v.good s.inner
  entry k s := v.entry k s.inner

variable [Store σ]

theorem keepsEntries (h : KeepsEntries v) : KeepsEntries (view v) := by
  constructor
  · intro s k found hs hk hget
    by_cases hfails : s.fails k = true
    · rw [show Store.get k s = .error s.error from if_pos hfails] at hget
      cases hget
    · rw [get_of_not_fails (Bool.eq_false_of_not_eq_true hfails)] at hget
      exact h.get hs hk hget
  · intro s s' k value hs hk hset
    obtain ⟨hr, -⟩ | ⟨-, inner, hinner, rfl⟩ := change_cases hset
    · cases hr
    · obtain ⟨hgood, hentry, hothers⟩ := h.set hs hk hinner
      exact ⟨hgood, hentry, hothers⟩
  · intro s s' k value e hs hk hset
    obtain ⟨-, rfl⟩ | ⟨-, inner, hinner, rfl⟩ := change_cases hset
    · exact .refl hs
    · obtain ⟨hgood, hentry⟩ := h.set_error hs hk hinner
      exact ⟨hgood, hentry⟩
  · intro s s' k found hs hk herase
    obtain ⟨hr, -⟩ | ⟨-, inner, hinner, rfl⟩ := change_cases herase
    · cases hr
    · obtain ⟨hgood, hentry, hothers⟩ := h.erase hs hk hinner
      exact ⟨hgood, hentry, hothers⟩
  · intro s s' k e hs hk herase
    obtain ⟨-, rfl⟩ | ⟨-, inner, hinner, rfl⟩ := change_cases herase
    · exact .refl hs
    · obtain ⟨hgood, hentry⟩ := h.erase_error hs hk hinner
      exact ⟨hgood, hentry⟩

end FaultyStore

end ChunkedArray
