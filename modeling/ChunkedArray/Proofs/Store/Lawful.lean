import ChunkedArray.Proofs.Store.Laws
import ChunkedArray.Proofs.Store.Mirror
import ChunkedArray.Store.Faulty

/-!
# Stores that can be relied on

A directory keeps values under keys of which none starts with another. A store around another one
keeps what that one keeps; where it fails it does nothing.
-/

namespace ChunkedArray

variable {keys : Key → Prop}

/-! ### Stores that fail -/

namespace FaultyStore

variable {σ : Type} {good : σ → Prop}

/-- A change either is refused or is one of the inner store. -/
theorem change_cases {α : Type} {k : Key} {a : StoreAction σ StoreError α} {s s' : FaultyStore σ}
    {r : Except StoreError α} (h : change k a s = (r, s')) :
    (r = .error s.error ∧ s' = s) ∨
      (s.fails k = false ∧ ∃ inner, a s.inner = (r, inner) ∧ s' = { s with inner }) := by
  by_cases hfails : s.fails k = true
  · rw [change, if_pos hfails] at h
    obtain ⟨rfl, rfl⟩ := Prod.mk.inj h
    exact .inl ⟨rfl, rfl⟩
  · rw [change, if_neg hfails] at h
    obtain ⟨rfl, rfl⟩ := Prod.mk.inj h
    exact .inr ⟨Bool.eq_false_of_not_eq_true hfails, _, rfl, rfl⟩

variable [Store σ]

theorem get_of_not_fails {s : FaultyStore σ} {k : Key} (h : s.fails k = false) :
    Store.get k s = Store.get k s.inner := if_neg (by rw [h]; nofun)

theorem get_with_inner {s : FaultyStore σ} {inner : σ} {k : Key}
    (h : Store.get k inner = Store.get k s.inner) :
    Store.get k { s with inner } = Store.get k s := by
  show (if s.fails k then _ else Store.get k inner) = if s.fails k then _ else Store.get k s.inner
  rw [h]

theorem keepsValues (h : KeepsValues σ keys good) :
    KeepsValues (FaultyStore σ) keys fun s => good s.inner := by
  constructor
  · intro s s' k value hgood hk hset
    obtain ⟨hr, -⟩ | ⟨hfails, inner, hinner, rfl⟩ := change_cases hset
    · cases hr
    · obtain ⟨hgood', hget, hothers⟩ := h.set hgood hk hinner
      have hsame : Store.get k { s with inner } = Store.get k inner := get_of_not_fails hfails
      exact ⟨hgood', hsame.trans hget, fun k' hk' hne => get_with_inner (hothers k' hk' hne)⟩
  · intro s s' k found hgood hk herase
    obtain ⟨hr, -⟩ | ⟨hfails, inner, hinner, rfl⟩ := change_cases herase
    · cases hr
    · obtain ⟨hgood', hget, hothers⟩ := h.erase hgood hk hinner
      have hsame : Store.get k { s with inner } = Store.get k inner := get_of_not_fails hfails
      exact ⟨hgood', hsame.trans hget, fun k' hk' hne => get_with_inner (hothers k' hk' hne)⟩

theorem failsCleanly (h : FailsCleanly σ keys good) :
    FailsCleanly (FaultyStore σ) keys fun s => good s.inner := by
  constructor
  · intro s k hgood hk hhas
    by_cases hfails : s.fails k = true
    · rw [show Store.has k s = .error s.error from if_pos hfails] at hhas
      cases hhas
    · rw [Bool.not_eq_true] at hfails
      have hread : Store.has k s = (Store.get k s.inner).map Option.isSome :=
        if_neg (by rw [hfails]; nofun)
      rw [get_of_not_fails hfails]
      rw [hread] at hhas
      cases hget : Store.get k s.inner with
      | error e => rw [hget] at hhas; cases hhas
      | ok value =>
        rw [hget] at hhas
        cases value with
        | none => rfl
        | some value => cases hhas
  · intro s s' k value e hgood hk hset k' hk'
    obtain ⟨-, rfl⟩ | ⟨-, inner, hinner, rfl⟩ := change_cases hset
    · rfl
    · exact get_with_inner (h.set hgood hk hinner k' hk')

end FaultyStore

/-! ### Directories -/

namespace DirectoryStore

variable {root : Path}

/-- A directory that holds the values of some store in memory. -/
def Holds (root : Path) (keys : Key → Prop) (d : DirectoryStore) : Prop :=
  d.root = root ∧ ∃ m, Mirrors keys d m

theorem keepsValues (hs : SuitsKeys root keys) :
    KeepsValues DirectoryStore keys (Holds root keys) := by
  constructor
  · rintro d d' k value ⟨rfl, m, hm⟩ hk hset
    obtain ⟨t, ht, hm'⟩ := hm.set hs hk value
    obtain rfl : { d with tree := t } = d' := congrArg Prod.snd (ht.symm.trans hset)
    obtain ⟨-, hget, hothers⟩ := (MemoryStore.keepsValues keys).set trivial hk
      (rfl : (Store.set k value : StoreAction MemoryStore StoreError Unit) m = _)
    refine ⟨⟨rfl, _, hm'⟩, (hm'.get hs (.inr hk)).trans hget, fun k' hk' hne => ?_⟩
    rw [hm'.get hs (.inr hk'), hm.get hs (.inr hk')]
    exact hothers k' hk' hne
  · rintro d d' k found ⟨rfl, m, hm⟩ hk herase
    obtain ⟨t, ht, hm'⟩ := hm.erase hs hk
    obtain rfl : { d with tree := t } = d' := congrArg Prod.snd (ht.symm.trans herase)
    obtain ⟨-, hget, hothers⟩ := (MemoryStore.keepsValues keys).erase trivial hk
      (rfl : (Store.erase k : StoreAction MemoryStore StoreError Bool) m = _)
    refine ⟨⟨rfl, _, hm'⟩, (hm'.get hs (.inr hk)).trans hget, fun k' hk' hne => ?_⟩
    rw [hm'.get hs (.inr hk'), hm.get hs (.inr hk')]
    exact hothers k' hk' hne

theorem acceptsValues (hs : SuitsKeys root keys) :
    AcceptsValues DirectoryStore keys (Holds root keys) := by
  constructor
  · rintro d k value ⟨rfl, m, hm⟩ hk
    obtain ⟨t, ht, -⟩ := hm.set hs hk value
    exact ⟨_, ht⟩
  · rintro d k ⟨rfl, m, hm⟩ hk
    obtain ⟨t, ht, -⟩ := hm.erase hs hk
    exact ⟨_, _, ht⟩

theorem failsCleanly (hs : SuitsKeys root keys) :
    FailsCleanly DirectoryStore keys (Holds root keys) := by
  constructor
  · rintro d k ⟨rfl, m, hm⟩ hk hhas
    rw [hm.has hs (.inr hk)] at hhas
    rw [hm.get hs (.inr hk)]
    exact (MemoryStore.failsCleanly keys).has trivial hk hhas
  · intro d d' k value e hd hk hset
    obtain ⟨d'', hok⟩ := (acceptsValues hs).set value hd hk
    cases congrArg Prod.fst (hok.symm.trans hset)

end DirectoryStore

end ChunkedArray
