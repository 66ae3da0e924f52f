import ChunkedArray.Proofs.Outcome
import ChunkedArray.Store.Memory

/-!
# What is relied on of a store

A store keeps values under some keys if a key has the value that was set last, or none after it was
erased, whatever was done under the other keys. Operations may fail; nothing is said then.
-/

namespace ChunkedArray

/-- The store keeps values under these keys, from each of these states on. -/
structure KeepsValues (σ : Type) [Store σ] (keys : Key → Prop) (good : σ → Prop) : Prop where
  set : ∀ {s s' : σ} {k : Key} {value : Bytes}, good s → keys k →
    (Store.set k value : StoreAction σ StoreError Unit) s = (.ok (), s') →
    good s' ∧ Store.get k s' = .ok (some value) ∧
      ∀ k', keys k' → k' ≠ k → Store.get k' s' = Store.get k' s
  erase : ∀ {s s' : σ} {k : Key} {found : Bool}, good s → keys k →
    (Store.erase k : StoreAction σ StoreError Bool) s = (.ok found, s') →
    good s' ∧ Store.get k s' = .ok none ∧ ∀ k', keys k' → k' ≠ k → Store.get k' s' = Store.get k' s

/-- Setting and erasing under these keys do not fail in these states. -/
structure AcceptsValues (σ : Type) [Store σ] (keys : Key → Prop) (good : σ → Prop) : Prop where
  set : ∀ {s : σ} {k : Key} (value : Bytes), good s → keys k →
    ∃ s', (Store.set k value : StoreAction σ StoreError Unit) s = (.ok (), s')
  erase : ∀ {s : σ} {k : Key}, good s → keys k →
    ∃ found s', (Store.erase k : StoreAction σ StoreError Bool) s = (.ok found, s')

/-- A change that fails leaves the values under these keys as they were, and the store knows which of
them there are. -/
structure FailsCleanly (σ : Type) [Store σ] (keys : Key → Prop) (good : σ → Prop) : Prop where
  has : ∀ {s : σ} {k : Key}, good s → keys k → Store.has k s = .ok false → Store.get k s = .ok none
  set : ∀ {s s' : σ} {k : Key} {value : Bytes} {e : StoreError}, good s → keys k →
    (Store.set k value : StoreAction σ StoreError Unit) s = (.error e, s') →
    ∀ k', keys k' → Store.get k' s' = Store.get k' s

theorem MemoryStore.acceptsValues (keys : Key → Prop) :
    AcceptsValues MemoryStore keys fun _ => True :=
  ⟨fun _ _ _ => ⟨_, rfl⟩, fun _ _ => ⟨_, _, rfl⟩⟩

theorem MemoryStore.failsCleanly (keys : Key → Prop) :
    FailsCleanly MemoryStore keys fun _ => True := by
  constructor
  · intro s k _ _ h
    have hsome : (s.get? k).isSome = false := Except.ok.inj h
    exact congrArg Except.ok (Option.not_isSome_iff_eq_none.1 (by rw [hsome]; nofun))
  · intro s s' k value e _ _ h
    cases congrArg Prod.fst h

theorem MemoryStore.keepsValues (keys : Key → Prop) :
    KeepsValues MemoryStore keys fun _ => True := by
  constructor
  · intro s s' k value _ _ h
    obtain rfl : s.insert k value = s' := congrArg Prod.snd h
    refine ⟨trivial, congrArg Except.ok ?_, fun k' _ hne => congrArg Except.ok ?_⟩
    · rw [get?_insert, if_pos rfl]
    · rw [get?_insert, if_neg (Ne.symm hne)]
  · intro s s' k found _ _ h
    obtain rfl : s.restrict (· ≠ k) = s' := congrArg Prod.snd h
    refine ⟨trivial, congrArg Except.ok ?_, fun k' _ hne => congrArg Except.ok ?_⟩
    · rw [get?_restrict]
      simp
    · rw [get?_restrict]
      simp [hne]

end ChunkedArray
