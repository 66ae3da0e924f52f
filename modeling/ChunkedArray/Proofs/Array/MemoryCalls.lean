import ChunkedArray.Proofs.Array.OwnKeys
import ChunkedArray.Proofs.Array.Reopen

/-!
# What calls do to a store in memory

A store in memory never fails, so what a call leaves of it can be said outright.
-/

namespace ChunkedArray

def ArrayOperation.erasesAll {t : DataType} : ArrayOperation t → Bool
  | .eraseAll => true
  | _ => false

namespace ArrayCall

variable {σ : Type} [Store σ]

/-- The store after some calls, made one after the other. -/
def runAll : List ArrayCall → σ → σ
  | [], s => s
  | c :: calls, s => runAll calls (c.run s).2

end ArrayCall

namespace MemoryStore

theorem get?_put (s : MemoryStore) (k k' : Key) (entry : Option Bytes) :
    (s.put k entry).get? k' = if k' = k then entry else s.get? k' := by
  cases entry with
  | none =>
    rw [put, get?_restrict]
    by_cases hk : k' = k <;> simp [hk]
  | some value =>
    rw [put, get?_insert]
    simp [eq_comm]

end MemoryStore

namespace ArrayHandle

open MemoryStore

variable {t : DataType} {h : ArrayHandle t} {s : MemoryStore}

/-! ### Chunks -/

section

variable {step : ChunkStep t} {entry : Option Bytes} {e : Failure ArrayError} {chunk : Index}

/-- A step puts the entry that it makes. -/
theorem runStep_put (hentry : h.newEntry (Store.get (h.chunkKey step.chunk) s) step = .ok entry) :
    h.runStep step s = (.ok (), s.put (h.chunkKey step.chunk) entry) := by
  rw [runStep, StoreAction.reading_bind_apply, hentry]
  exact putEntry_eq step.chunk entry s

/-- A step that fails leaves the store as it is. -/
theorem runStep_stays (he : h.newEntry (Store.get (h.chunkKey step.chunk) s) step = .error e) :
    h.runStep step s = (.error e, s) := by
  rw [runStep, StoreAction.reading_bind_apply, he]

theorem eraseChunk_put (hcheck : h.checkChunk chunk = .ok ()) (s : MemoryStore) :
    (h.eraseChunk chunk s).2 = s.put (h.chunkKey chunk) none := by
  rw [eraseChunk, StoreAction.reading_bind_apply, hcheck]
  rfl

theorem eraseChunk_stays (he : h.checkChunk chunk = .error e) (s : MemoryStore) :
    (h.eraseChunk chunk s).2 = s := by
  rw [eraseChunk, StoreAction.reading_bind_apply, he]

end

theorem change_eraseChunk_snd (chunk : Index) (s : MemoryStore) :
    (h.change (.eraseChunk chunk) s).2 = (h.eraseChunk chunk s).2 := by
  rw [change]
  rcases hrun : h.eraseChunk chunk s with ⟨e | found, s'⟩
  · rw [StoreAction.bind_apply_error hrun]
  · rw [StoreAction.bind_apply hrun]
    rfl

/-! ### Metadata -/

section

variable {key : Key} {metadata : ArrayMetadata} {registry : CodecRegistry} {options : ArrayOptions}

/-- An array is created where no metadata are stored, and then they are. -/
theorem create_eq_ok {s' : MemoryStore}
    (hcreate : create t key metadata registry options s = (.ok h, s')) :
    h.key = key ∧ s.get? key.metadata = none ∧ ∃ value, s' = s.insert key.metadata value := by
  obtain ⟨hhas, made, hmade, rfl, hset⟩ := create_eq_ok_iff.1 hcreate
  have hkey : made.key = key := congrArg ArrayHandle.key (ofMetadata_eq_ok_iff.1 hmade).2.2.2.2.2
  rw [metadataKey, hkey] at hset
  have habsent : (s.get? key.metadata).isSome = false := Except.ok.inj hhas
  exact ⟨hkey, Option.isNone_iff_eq_none.1 (Option.isSome_eq_false_iff.1 habsent), _,
    (congrArg Prod.snd hset).symm⟩

/-- Creating an array adds its metadata, or leaves the store as it is. -/
theorem create_snd (s : MemoryStore) :
    (create t key metadata registry options s).2 = s ∨
      ∃ value, (create t key metadata registry options s).2 = s.insert key.metadata value := by
  rcases hcreate : create t key metadata registry options s with ⟨e | h, s'⟩
  · rcases create_eq_error hcreate with rfl | ⟨value, storeError, hset⟩
    · exact .inl rfl
    · cases congrArg Prod.fst hset
  · exact .inr (create_eq_ok hcreate).2.2

end

end ArrayHandle

end ChunkedArray
