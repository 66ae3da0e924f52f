import ChunkedArray.Proofs.Array.MemoryCalls
import ChunkedArray.Proofs.Store.Mirror

/-!
# The chunks that are listed

While arrays are created and used, never erased, it is noted what was done to which chunk. Of each
array those chunks are listed whose last note says that they were stored, in the order of keys.
-/

namespace ChunkedArray

/-! ### Notes -/

/-- A chunk of the array with a key was stored, or erased. -/
structure ChunkNote where
  array : Key
  chunk : Index
  stored : Bool
deriving DecidableEq

namespace ChunkNote

/-- Whether a chunk was stored the last time that anything was done to it. -/
def last? (array : Key) (chunk : Index) (notes : List ChunkNote) : Option Bool :=
  ((notes.filter fun x => x.array = array ∧ x.chunk = chunk).getLast?).map stored

theorem last?_concat {array : Key} {chunk : Index} (notes : List ChunkNote) (x : ChunkNote) :
    last? array chunk (notes ++ [x]) =
      if x.array = array ∧ x.chunk = chunk then some x.stored else last? array chunk notes := by
  rw [last?, List.filter_append]
  split
  · next h => simp [h]
  · next h => simp [h, last?]

theorem exists_of_last? {array : Key} {chunk : Index} {notes : List ChunkNote} {stored : Bool}
    (h : last? array chunk notes = some stored) : ∃ x ∈ notes, x.array = array := by
  obtain ⟨x, hx, -⟩ := Option.map_eq_some_iff.1 h
  have hmem := List.mem_of_getLast? hx
  rw [List.mem_filter, decide_eq_true_iff] at hmem
  exact ⟨x, hmem.1, hmem.2.1⟩

end ChunkNote

namespace ArrayHandle

variable {t : DataType} {σ : Type} [Store σ]

/-- What steps do to chunks, up to the first failure. -/
def stepNotes (h : ArrayHandle t) : List (ChunkStep t) → σ → List ChunkNote
  | [], _ => []
  | step :: steps, s =>
    match h.newEntry (Store.get (h.chunkKey step.chunk) s) step with
    | .ok entry => ⟨h.key, step.chunk, entry.isSome⟩ :: h.stepNotes steps (h.runStep step s).2
    | .error _ => []

section

variable {h : ArrayHandle t} {step : ChunkStep t} {steps : List (ChunkStep t)} {s : σ}

theorem stepNotes_ok {entry : Option Bytes}
    (hentry : h.newEntry (Store.get (h.chunkKey step.chunk) s) step = .ok entry) :
    h.stepNotes (step :: steps) s =
      ⟨h.key, step.chunk, entry.isSome⟩ :: h.stepNotes steps (h.runStep step s).2 := by
  rw [stepNotes, hentry]

theorem stepNotes_error {e : Failure ArrayError}
    (he : h.newEntry (Store.get (h.chunkKey step.chunk) s) step = .error e) :
    h.stepNotes (step :: steps) s = [] := by
  rw [stepNotes, he]

end

/-- What an operation does to chunks. -/
def notes (h : ArrayHandle t) : ArrayOperation t → σ → List ChunkNote
  | .change c, s =>
    match h.stepsOf c with
    | .ok steps => h.stepNotes steps s
    | .error _ => []
  | .eraseChunk chunk, _ =>
    match h.checkChunk chunk with
    | .ok _ => [⟨h.key, chunk, false⟩]
    | .error _ => []
  | _, _ => []

/-- A change that succeeds is noted for just the chunks of which it sets a cell. -/
theorem exists_note_iff {h : ArrayHandle t} (hwf : h.WellFormed) {c : ArrayChange t} {s s' : σ}
    (hrun : h.change c s = (.ok (), s')) {chunk : Index} :
    (∃ n ∈ h.notes (.change c) s, n.chunk = chunk) ↔ h.Meets c chunk := by
  have hnotes {steps : List (ChunkStep t)} {s s' : σ} (hrun : h.runSteps steps s = (.ok (), s')) :
      (h.stepNotes steps s).map ChunkNote.chunk = steps.map ChunkStep.chunk := by
    induction steps generalizing s with
    | nil => rfl
    | cons step steps ih =>
      obtain ⟨s₁, hstep, hrest⟩ := StoreAction.forM_cons_eq_ok_iff.1 hrun
      obtain ⟨entry, s₂, hread, -⟩ := StoreAction.bind_eq_ok_iff.1 hstep
      obtain ⟨hentry, -⟩ := StoreAction.reading_eq_ok_iff.1 hread
      rw [stepNotes_ok hentry, List.map_cons, List.map_cons, hstep, ih hrest]
  obtain ⟨steps, hsteps, hrun⟩ := change_eq_ok_iff_exists_steps.1 hrun
  rw [(plans_of_stepsOf hwf hsteps).meets_iff hwf, notes, hsteps]
  simp only [← List.mem_map, hnotes hrun]

/-- A handle of the same array, which may have other options or attributes. -/
structure SameArray (h h' : ArrayHandle t) : Prop where
  key_eq : h.key = h'.key
  shape_eq : h.shape = h'.shape
  grid_eq : h.grid = h'.grid
  chunkKeyEncoding_eq : h.metadata.chunkKeyEncoding = h'.metadata.chunkKeyEncoding
  codecs_eq : h.codecs = h'.codecs

end ArrayHandle

/-! ### Sessions -/

/-- What is stored, the arrays that were created and what was done to their chunks. -/
structure Session where
  store : MemoryStore
  arrays : List (Σ t, ArrayHandle t)
  notes : List ChunkNote

namespace ArrayCall

variable {σ : Type} [Store σ]

def notes : ArrayCall → σ → List ChunkNote
  | .perform h o, s => h.notes o s
  | _, _ => []

/-- The handle of the array that a call creates. -/
def created : ArrayCall → σ → List (Σ t, ArrayHandle t)
  | .create t key metadata registry options, s =>
    match (ArrayHandle.create t key metadata registry options s).1 with
    | .ok h => [⟨t, h⟩]
    | .error _ => []
  | _, _ => []

end ArrayCall

namespace Session

def start : Session := ⟨.empty, [], []⟩

def next (x : Session) (c : ArrayCall) : Session :=
  ⟨(c.run x.store).2, x.arrays ++ c.created x.store, x.notes ++ c.notes x.store⟩

/-- The call creates an array, not below or above another one, opens one, or uses a handle of one that
was created without erasing the array. -/
def Admits (x : Session) : ArrayCall → Prop
  | .create _ key metadata _ _ =>
    (∀ n ∈ metadata.shape, n < wordLimit) ∧ ∀ a ∈ x.arrays, key = a.2.key ∨ key.Apart a.2.key
  | .openStored .. => True
  | .perform (t := t) h o =>
    o.erasesAll = false ∧ ∃ a : ArrayHandle t, ⟨t, a⟩ ∈ x.arrays ∧ h.SameArray a

def AdmitsAll : Session → List ArrayCall → Prop
  | _, [] => True
  | x, c :: calls => x.Admits c ∧ (x.next c).AdmitsAll calls

def after : Session → List ArrayCall → Session
  | x, [] => x
  | x, c :: calls => (x.next c).after calls

theorem store_after (x : Session) (calls : List ArrayCall) :
    (x.after calls).store = ArrayCall.runAll calls x.store := by
  induction calls generalizing x with
  | nil => rfl
  | cons c calls ih => exact ih (x.next c)

end Session

/-! ### Handles of one array -/

namespace ArrayHandle

variable {t : DataType} {h h' : ArrayHandle t} {chunk : Index}

theorem SameArray.refl (h : ArrayHandle t) : h.SameArray h := ⟨rfl, rfl, rfl, rfl, rfl⟩

theorem SameArray.chunkKey_eq (hsame : h.SameArray h') (chunk : Index) :
    h.chunkKey chunk = h'.chunkKey chunk := by
  rw [chunkKey, hsame.chunkKeyEncoding_eq, hsame.key_eq]
  rfl

theorem SameArray.isChunk_iff (hsame : h.SameArray h') : h.IsChunk chunk ↔ h'.IsChunk chunk := by
  rw [IsChunk, IsChunk, hsame.grid_eq, hsame.shape_eq]

theorem SameArray.wellFormed (hsame : h.SameArray h') (hwf : h'.WellFormed) : h.WellFormed := by
  obtain ⟨hrank, hcuts, hword, horder⟩ := hwf
  rw [← hsame.grid_eq] at hrank hcuts horder
  rw [← hsame.shape_eq] at hcuts hword
  rw [← hsame.codecs_eq] at horder
  exact ⟨hrank, hcuts, hword, horder⟩

end ArrayHandle

/-! ### What notes say about the store -/

namespace Session

open MemoryStore

/-- The notes account for the store: all that is in it are the metadata of each array and those chunks
of it that are noted as stored last. -/
structure Accounts (x : Session) : Prop where
  nodup : (Assoc.keys x.store.entries).Nodup
  wellFormed : ∀ a ∈ x.arrays, a.2.WellFormed
  apart : ∀ a ∈ x.arrays, ∀ b ∈ x.arrays, a = b ∨ a.2.key.Apart b.2.key
  metadata : ∀ a ∈ x.arrays, x.store.get? a.2.metadataKey ≠ none
  array_of_note : ∀ n ∈ x.notes, ∃ a ∈ x.arrays, a.2.key = n.array
  array_of_entry : ∀ k, x.store.get? k ≠ none → ∃ a ∈ x.arrays, k.startsWith a.2.key = true
  entry_iff : ∀ a ∈ x.arrays, ∀ k : Key, k.startsWith a.2.key = true → k ≠ a.2.metadataKey →
    (x.store.get? k ≠ none ↔ ∃ chunk, a.2.IsChunk chunk ∧ k = a.2.chunkKey chunk ∧
      ChunkNote.last? a.2.key chunk x.notes = some true)

variable {x : Session} {t : DataType} {a h : ArrayHandle t}

theorem accounts_start : start.Accounts where
  nodup := List.nodup_nil
  wellFormed _ ha := by cases ha
  apart _ ha := by cases ha
  metadata _ ha := by cases ha
  array_of_note _ hn := by cases hn
  array_of_entry _ hk := absurd rfl hk
  entry_iff _ ha := by cases ha

/-- Writing the metadata of an array again changes no chunk. -/
theorem Accounts.writeMetadata (hx : x.Accounts) (ha : ⟨t, a⟩ ∈ x.arrays) (value : Bytes) :
    Accounts { x with store := x.store.insert a.metadataKey value } := by
  have hget (k : Key) : (x.store.insert a.metadataKey value).get? k ≠ none ↔
      x.store.get? k ≠ none := by
    rw [get?_insert]
    split
    · next he =>
      subst he
      exact iff_of_true (Option.some_ne_none value) (hx.metadata _ ha)
    · exact Iff.rfl
  refine ⟨Assoc.nodup_keys_set hx.nodup, hx.wellFormed, hx.apart, ?_, hx.array_of_note, ?_, ?_⟩
  · exact fun b hb => (hget _).2 (hx.metadata b hb)
  · exact fun k hk => hx.array_of_entry k ((hget k).1 hk)
  · exact fun b hb k hk hne => (hget k).trans (hx.entry_iff b hb k hk hne)

/-- Nothing is stored under a key that is apart from those of all arrays. -/
theorem Accounts.get?_of_apart (hx : x.Accounts) {key k : Key}
    (hapart : ∀ a ∈ x.arrays, key.Apart a.2.key) (hk : k.startsWith key = true) :
    x.store.get? k = none := by
  by_contra hne
  obtain ⟨a, ha, hstart⟩ := hx.array_of_entry k hne
  have hnot := (hapart a ha).not_startsWith hk
  rw [hstart] at hnot
  cases hnot

/-- A new array has no chunks and no notes. -/
theorem Accounts.create (hx : x.Accounts) (hwf : h.WellFormed)
    (hapart : ∀ a ∈ x.arrays, h.key.Apart a.2.key) (value : Bytes) :
    Accounts { x with store := x.store.insert h.metadataKey value, arrays := x.arrays ++ [⟨t, h⟩] } := by
  have hget {k : Key} (hne : k ≠ h.metadataKey) :
      (x.store.insert h.metadataKey value).get? k = x.store.get? k := by
    rw [get?_insert, if_neg (Ne.symm hne)]
  have hmetadata : (x.store.insert h.metadataKey value).get? h.metadataKey ≠ none := by
    rw [get?_insert, if_pos rfl]
    exact Option.some_ne_none value
  -- The keys of the other arrays are not among those of the new one.
  have hother {b : Σ t, ArrayHandle t} (hb : b ∈ x.arrays) {k : Key}
      (hk : k.startsWith b.2.key = true) : k ≠ h.metadataKey := by
    rintro rfl
    have hnot := (hapart b hb).not_startsWith ArrayHandle.startsWith_metadataKey
    rw [hk] at hnot
    cases hnot
  have hmem {b : Σ t, ArrayHandle t} (hb : b ∈ x.arrays ++ [⟨t, h⟩]) : b ∈ x.arrays ∨ b = ⟨t, h⟩ := by
    simpa using hb
  constructor
  · exact Assoc.nodup_keys_set hx.nodup
  · intro b hb
    rcases hmem hb with hb | rfl
    · exact hx.wellFormed b hb
    · exact hwf
  · intro b hb c hc
    rcases hmem hb with hb | rfl <;> rcases hmem hc with hc | rfl
    · exact hx.apart b hb c hc
    · exact .inr (hapart b hb).symm
    · exact .inr (hapart c hc)
    · exact .inl rfl
  · intro b hb
    rcases hmem hb with hb | rfl
    · show (x.store.insert h.metadataKey value).get? b.2.metadataKey ≠ none
      rw [hget (hother hb ArrayHandle.startsWith_metadataKey)]
      exact hx.metadata b hb
    · exact hmetadata
  · intro n hn
    obtain ⟨b, hb, hkey⟩ := hx.array_of_note n hn
    exact ⟨b, List.mem_append_left _ hb, hkey⟩
  · intro k hk
    by_cases hne : k = h.metadataKey
    · subst hne
      exact ⟨⟨t, h⟩, List.mem_append_right _ (List.mem_singleton_self _),
        ArrayHandle.startsWith_metadataKey⟩
    · have hk : (x.store.insert h.metadataKey value).get? k ≠ none := hk
      rw [hget hne] at hk
      obtain ⟨b, hb, hstart⟩ := hx.array_of_entry k hk
      exact ⟨b, List.mem_append_left _ hb, hstart⟩
  · intro b hb k hk hne
    show (x.store.insert h.metadataKey value).get? k ≠ none ↔ _
    rcases hmem hb with hb | rfl
    · rw [hget (hother hb hk)]
      exact hx.entry_iff b hb k hk hne
    · rw [hget hne, hx.get?_of_apart hapart hk]
      refine iff_of_false (fun h => h rfl) ?_
      rintro ⟨chunk, -, -, hlast⟩
      obtain ⟨n, hn, hkey⟩ := ChunkNote.exists_of_last? hlast
      obtain ⟨b, hb, hnote⟩ := hx.array_of_note n hn
      exact absurd (hnote.trans hkey ▸ hapart b hb) (Key.not_apart_self _)

/-- One chunk of an array gets an entry or loses it, and that is noted. -/
theorem Accounts.put (hx : x.Accounts) (ha : ⟨t, a⟩ ∈ x.arrays) {chunk : Index}
    (hchunk : a.IsChunk chunk) (entry : Option Bytes) :
    Accounts { x with
      store := x.store.put (a.chunkKey chunk) entry
      notes := x.notes ++ [⟨a.key, chunk, entry.isSome⟩] } := by
  have hwf := hx.wellFormed _ ha
  have hget (k : Key) : (x.store.put (a.chunkKey chunk) entry).get? k =
      if k = a.chunkKey chunk then entry else x.store.get? k := get?_put _ _ _ _
  -- No other array has anything under the key of the chunk.
  have hsame {b : Σ t, ArrayHandle t} (hb : b ∈ x.arrays) {k : Key}
      (hk : k.startsWith b.2.key = true) (he : k = a.chunkKey chunk) : b = ⟨t, a⟩ := by
    subst he
    refine (hx.apart b hb _ ha).resolve_right fun hapart => ?_
    have hnot := hapart.not_startsWith hk
    rw [ArrayHandle.startsWith_chunkKey] at hnot
    cases hnot
  constructor
  · cases entry with
    | none => exact MemoryStore.nodup_keys_restrict x.store _ hx.nodup
    | some value => exact Assoc.nodup_keys_set hx.nodup
  · exact hx.wellFormed
  · exact hx.apart
  · intro b hb
    show (x.store.put (a.chunkKey chunk) entry).get? b.2.metadataKey ≠ none
    rw [hget, if_neg]
    · exact hx.metadata b hb
    · intro he
      obtain rfl := hsame hb ArrayHandle.startsWith_metadataKey he
      exact ChunkKeyEncoding.chunkKey_ne_metadata _ _ _ he.symm
  · intro n hn
    rcases List.mem_append.1 hn with hn | hn
    · exact hx.array_of_note n hn
    · obtain rfl := List.mem_singleton.1 hn
      exact ⟨_, ha, rfl⟩
  · intro k hk
    have hk : (x.store.put (a.chunkKey chunk) entry).get? k ≠ none := hk
    rw [hget] at hk
    split at hk
    · next he => exact ⟨_, ha, he ▸ ArrayHandle.startsWith_chunkKey chunk⟩
    · exact hx.array_of_entry k hk
  · intro b hb k hk hne
    show (x.store.put (a.chunkKey chunk) entry).get? k ≠ none ↔ ∃ other, b.2.IsChunk other ∧
      k = b.2.chunkKey other ∧
        ChunkNote.last? b.2.key other (x.notes ++ [⟨a.key, chunk, entry.isSome⟩]) = some true
    simp only [hget, ChunkNote.last?_concat]
    by_cases he : k = a.chunkKey chunk
    · -- The note is about this key, and about no other chunk of the array.
      obtain rfl := hsame hb hk he
      subst he
      rw [if_pos rfl]
      constructor
      · intro hsome
        refine ⟨chunk, hchunk, rfl, ?_⟩
        rw [if_pos ⟨rfl, rfl⟩, Option.isSome_iff_ne_none.2 hsome]
      · rintro ⟨other, hother, hkey, hlast⟩
        obtain rfl : chunk = other := by
          by_contra hneq
          exact ArrayHandle.chunkKey_ne hwf hother hchunk hneq hkey
        rw [if_pos ⟨rfl, rfl⟩, Option.some.injEq] at hlast
        exact Option.isSome_iff_ne_none.1 hlast
    · rw [if_neg he, hx.entry_iff b hb k hk hne]
      refine exists_congr fun other => and_congr_right fun hother => and_congr_right fun hkey => ?_
      rw [if_neg]
      rintro ⟨hnote, rfl⟩
      obtain rfl : b = ⟨t, a⟩ := (hx.apart b hb _ ha).resolve_right fun hapart =>
        absurd (hnote ▸ hapart) (Key.not_apart_self _)
      exact he hkey

/-- Steps through a handle of an array put entries of chunks of it, up to the first failure. -/
theorem Accounts.runSteps (hx : x.Accounts) (ha : ⟨t, a⟩ ∈ x.arrays) (hsame : h.SameArray a)
    {steps : List (ChunkStep t)} (hsteps : ∀ step ∈ steps, h.IsChunk step.chunk) :
    Accounts { x with
      store := (h.runSteps steps x.store).2
      notes := x.notes ++ h.stepNotes steps x.store } := by
  induction steps generalizing x with
  | nil =>
    rw [ArrayHandle.stepNotes, List.append_nil]
    exact hx
  | cons step steps ih =>
    rw [List.forall_mem_cons] at hsteps
    have hcons : h.runSteps (step :: steps) x.store =
        (h.runStep step >>= fun _ => h.runSteps steps) x.store := rfl
    rw [hcons]
    cases hentry : h.newEntry (Store.get (h.chunkKey step.chunk) x.store) step with
    | error e =>
      rw [ArrayHandle.stepNotes_error hentry, List.append_nil,
        StoreAction.bind_apply_error (ArrayHandle.runStep_stays hentry)]
      exact hx
    | ok entry =>
      have hrun := ArrayHandle.runStep_put hentry
      have hput := hx.put ha (hsame.isChunk_iff.1 hsteps.1) entry
      rw [← hsame.chunkKey_eq, ← hsame.key_eq] at hput
      rw [ArrayHandle.stepNotes_ok hentry, hrun, StoreAction.bind_apply hrun,
        List.append_cons]
      exact ih hput ha hsteps.2

theorem Accounts.perform (hx : x.Accounts) (ha : ⟨t, a⟩ ∈ x.arrays) (hsame : h.SameArray a)
    {o : ArrayOperation t} (herases : o.erasesAll = false) :
    Accounts { x with
      store := (h.perform o x.store).2
      notes := x.notes ++ h.notes o x.store } := by
  have hwf := hsame.wellFormed (hx.wellFormed _ ha)
  cases o with
  | readChunk | readRegion | readSelection | storedChunkKeys =>
    show Accounts { x with notes := x.notes ++ [] }
    rw [List.append_nil]
    exact hx
  | writeMetadata =>
    have hwritten := hx.writeMetadata ha h.metadata.toBytes
    rw [ArrayHandle.metadataKey, ← hsame.key_eq] at hwritten
    show Accounts { x with
      store := x.store.insert h.metadataKey h.metadata.toBytes
      notes := x.notes ++ [] }
    rw [List.append_nil]
    exact hwritten
  | eraseAll => cases herases
  | eraseChunk chunk =>
    show Accounts { x with
      store := (h.eraseChunk chunk x.store).2
      notes := x.notes ++ h.notes (.eraseChunk chunk) x.store }
    rw [ArrayHandle.notes]
    cases hcheck : h.checkChunk chunk with
    | error e =>
      rw [ArrayHandle.eraseChunk_stays hcheck, List.append_nil]
      exact hx
    | ok _ =>
      have hchunk := (ArrayHandle.checkChunk_eq_ok_iff hwf).1 hcheck
      have hput := hx.put ha (hsame.isChunk_iff.1 hchunk) none
      rw [← hsame.chunkKey_eq, ← hsame.key_eq] at hput
      rw [ArrayHandle.eraseChunk_put hcheck]
      exact hput
  | change c =>
    show Accounts { x with
      store := (h.change c x.store).2
      notes := x.notes ++ h.notes (.change c) x.store }
    rw [ArrayHandle.notes, ArrayHandle.change_eq, ArrayHandle.runPlan,
      StoreAction.reading_bind_apply]
    cases hsteps : h.stepsOf c with
    | error e =>
      rw [List.append_nil]
      exact hx
    | ok steps =>
      have hplans := ArrayHandle.plans_of_stepsOf hwf hsteps
      exact hx.runSteps ha hsame fun step hstep => (hplans.isStep step hstep).isChunk hwf

/-- A call that is admitted keeps the account. -/
theorem Accounts.next (hx : x.Accounts) {c : ArrayCall} (hc : x.Admits c) : (x.next c).Accounts := by
  cases c with
  | openStored t key registry options =>
    show Accounts ⟨x.store, x.arrays ++ [], x.notes ++ []⟩
    rw [List.append_nil, List.append_nil]
    exact hx
  | perform h o =>
    obtain ⟨herases, a, ha, hsame⟩ := hc
    show Accounts ⟨(h.perform o x.store).2, x.arrays ++ [], x.notes ++ h.notes o x.store⟩
    rw [List.append_nil]
    exact hx.perform ha hsame herases
  | create t key metadata registry options =>
    obtain ⟨hword, hapart⟩ := hc
    show Accounts ⟨(ArrayHandle.create t key metadata registry options x.store).2,
      x.arrays ++ (ArrayCall.create t key metadata registry options).created x.store, x.notes ++ []⟩
    rw [List.append_nil, ArrayCall.created]
    rcases hcreate : ArrayHandle.create t key metadata registry options x.store with ⟨e | h, s'⟩
    · rw [List.append_nil]
      rcases ArrayHandle.create_eq_error hcreate with rfl | ⟨value, storeError, hset⟩
      · exact hx
      · cases congrArg Prod.fst hset
    · obtain ⟨rfl, habsent, value, rfl⟩ := ArrayHandle.create_eq_ok hcreate
      refine hx.create (ArrayHandle.Obtained.create hword hcreate).wellFormed (fun a ha => ?_) value
      -- An array with the same key has metadata, so this one could not have been created.
      refine (hapart a ha).resolve_left fun hkey => hx.metadata a ha ?_
      rw [ArrayHandle.metadataKey, ← hkey]
      exact habsent

theorem Accounts.after (hx : x.Accounts) {calls : List ArrayCall} (hcalls : x.AdmitsAll calls) :
    (x.after calls).Accounts := by
  induction calls generalizing x with
  | nil => exact hx
  | cons c calls ih => exact ih (hx.next hcalls.1) hcalls.2

end Session

/-! ### Listing -/

namespace MemoryStore

variable {s : MemoryStore}

theorem nodup_keysUnder (hs : (Assoc.keys s.entries).Nodup) (base : Key) :
    (s.keysUnder base).Nodup := (List.mergeSort_perm _ _).nodup_iff.2 (hs.filter _)

theorem increasing_keysUnder (hs : (Assoc.keys s.entries).Nodup) (base : Key) :
    (s.keysUnder base).Pairwise fun a b => Key.compare a b = .lt :=
  Key.increasing_sort (hs.filter _)

end MemoryStore

namespace ArrayHandle

open MemoryStore

variable {t : DataType} {a h : ArrayHandle t} {x : Session}

/-- The keys are those of the chunks that are stored, in order. -/
structure Lists (h : ArrayHandle t) (notes : List ChunkNote) (s : MemoryStore) (keys : List Key) :
    Prop where
  storedChunkKeys_eq : h.storedChunkKeys s = .ok keys
  increasing : keys.Pairwise fun a b => Key.compare a b = .lt
  nodup : keys.Nodup
  metadataKey_notMem : h.metadataKey ∉ keys
  /-- They are the keys of chunks of the grid, the last note on which says that they were stored. -/
  mem_iff : ∀ k, k ∈ keys ↔ ∃ chunk, h.IsChunk chunk ∧ k = h.chunkKey chunk ∧
    ChunkNote.last? h.key chunk notes = some true
  last_iff : ∀ chunk, h.IsChunk chunk →
    (h.chunkKey chunk ∈ keys ↔ ChunkNote.last? h.key chunk notes = some true)
  present_iff : ∀ chunk, h.chunkKey chunk ∈ keys ↔
    ∃ bytes, Store.get (h.chunkKey chunk) s = .ok (some bytes)

theorem lists_of_accounts (hx : x.Accounts) (ha : ⟨t, a⟩ ∈ x.arrays) (hsame : h.SameArray a) :
    ∃ keys, h.Lists x.notes x.store keys := by
  have hwf := hsame.wellFormed (hx.wellFormed _ ha)
  have hne (chunk : Index) : h.chunkKey chunk ≠ h.metadataKey :=
    ChunkKeyEncoding.chunkKey_ne_metadata _ _ _
  have hentry : ∀ k : Key, k.startsWith h.key = true → k ≠ h.metadataKey →
      (x.store.get? k ≠ none ↔ ∃ chunk, h.IsChunk chunk ∧ k = h.chunkKey chunk ∧
        ChunkNote.last? h.key chunk x.notes = some true) := by
    simp only [hsame.isChunk_iff, hsame.chunkKey_eq, hsame.key_eq, metadataKey]
    exact hx.entry_iff _ ha
  have hpresent (k : Key) : k ∈ (x.store.keysUnder h.key).filter (· ≠ h.metadataKey) ↔
      k.startsWith h.key = true ∧ x.store.get? k ≠ none ∧ k ≠ h.metadataKey := by
    rw [List.mem_filter, mem_keysUnder_iff, decide_eq_true_iff, and_assoc]
  have hmem (k : Key) : k ∈ (x.store.keysUnder h.key).filter (· ≠ h.metadataKey) ↔
      ∃ chunk, h.IsChunk chunk ∧ k = h.chunkKey chunk ∧
        ChunkNote.last? h.key chunk x.notes = some true := by
    rw [hpresent]
    constructor
    · rintro ⟨hstart, hsome, hkey⟩
      exact (hentry k hstart hkey).1 hsome
    · rintro ⟨chunk, hchunk, rfl, hlast⟩
      have hstart := h.startsWith_chunkKey chunk
      exact ⟨hstart, (hentry _ hstart (hne chunk)).2 ⟨chunk, hchunk, rfl, hlast⟩, hne chunk⟩
  refine ⟨_, rfl, (increasing_keysUnder hx.nodup h.key).filter _,
    (nodup_keysUnder hx.nodup h.key).filter _, ?_, hmem, ?_, ?_⟩
  · exact fun hmetadata => ((hpresent _).1 hmetadata).2.2 rfl
  · intro chunk hchunk
    rw [hmem]
    constructor
    · rintro ⟨other, hother, hkey, hlast⟩
      obtain rfl : chunk = other := by
        by_contra hneq
        exact chunkKey_ne hwf hother hchunk hneq hkey
      exact hlast
    · exact fun hlast => ⟨chunk, hchunk, rfl, hlast⟩
  · intro chunk
    rw [hpresent]
    constructor
    · rintro ⟨-, hsome, -⟩
      obtain ⟨bytes, hbytes⟩ := Option.ne_none_iff_exists'.1 hsome
      exact ⟨bytes, congrArg Except.ok hbytes⟩
    · rintro ⟨bytes, hget⟩
      have hbytes : x.store.get? (h.chunkKey chunk) = some bytes := Except.ok.inj hget
      exact ⟨h.startsWith_chunkKey chunk, ne_of_eq_of_ne hbytes (Option.some_ne_none bytes), hne chunk⟩

/-- After any calls that create arrays apart from each other and use them without erasing them, those
chunks of each array are listed that were stored the last time that anything was done to them. -/
theorem lists_of_admitsAll {calls : List ArrayCall} (hcalls : Session.start.AdmitsAll calls)
    (ha : ⟨t, a⟩ ∈ (Session.start.after calls).arrays) (hsame : h.SameArray a) :
    ∃ keys, h.Lists (Session.start.after calls).notes (ArrayCall.runAll calls MemoryStore.empty) keys := by
  have hlists := lists_of_accounts (Session.accounts_start.after hcalls) ha hsame
  rw [Session.store_after] at hlists
  exact hlists

/-- The first array with other options, under which chunks that are empty are erased. -/
def droppingArrHandle : ArrayHandle (.uint .bits16) :=
  { arrHandle with
    options := { arrHandle.options with storeEmptyChunks := false, validateChecksums := false } }

/-- Two arrays are used in turn, one of them under changed options. -/
def listedCalls : List ArrayCall :=
  [.create (.uint .bits16) arrHandle.key maskedMetadata maskRegistry (.default 1),
    .create (.uint .bits16) arr2Handle.key { maskedMetadata with chunkKeyEncoding := .v2 .dot }
      maskRegistry (.default 1),
    .perform arrHandle (.change (.fillSelection [.full, .full] (DataType.ofPattern _ 1))),
    .perform arr2Handle (.change (.fillRegion [⟨2, 1, 1⟩, ⟨0, 4, 1⟩] (DataType.ofPattern _ 2))),
    .perform droppingArrHandle (.change (.fillRegion [⟨0, 3, 1⟩, ⟨0, 3, 1⟩] (DataType.ofPattern _ 7))),
    .perform arrHandle (.eraseChunk [1, 1]), .perform arr2Handle (.eraseChunk [1, 0]),
    .perform arrHandle .writeMetadata]

theorem lists_of_admitsAll_beside :
    Session.start.AdmitsAll listedCalls ∧
      ∃ keys, droppingArrHandle.Lists (Session.start.after listedCalls).notes
          (ArrayCall.runAll listedCalls MemoryStore.empty) keys ∧
        arrHandle.chunkKey [0, 0] ∉ keys ∧ arrHandle.chunkKey [0, 1] ∈ keys := by
  have hfirst : (⟨_, arrHandle⟩ : Σ t, ArrayHandle t) ∈ [⟨_, arrHandle⟩, ⟨_, arr2Handle⟩] := by simp
  have hsecond : (⟨_, arr2Handle⟩ : Σ t, ArrayHandle t) ∈ [⟨_, arrHandle⟩, ⟨_, arr2Handle⟩] := by simp
  have harr : (⟨_, arrHandle⟩ : Σ t, ArrayHandle t) ∈ (Session.start.after listedCalls).arrays := hfirst
  have hsame : droppingArrHandle.SameArray arrHandle := ⟨rfl, rfl, rfl, rfl, rfl⟩
  have hadmits : Session.start.AdmitsAll listedCalls := by
    refine ⟨⟨by decide, fun a ha => by cases ha⟩, ⟨by decide, fun a ha => ?_⟩, ⟨rfl, _, hfirst, .refl _⟩,
      ⟨rfl, _, hsecond, .refl _⟩, ⟨rfl, _, hfirst, hsame⟩, ⟨rfl, _, hfirst, .refl _⟩,
      ⟨rfl, _, hsecond, .refl _⟩, ⟨rfl, _, hfirst, .refl _⟩, trivial⟩
    obtain rfl : a = ⟨_, arrHandle⟩ := List.mem_singleton.1 ha
    exact .inr (by decide)
  obtain ⟨keys, hlists⟩ := lists_of_admitsAll hadmits harr hsame
  have hchunk (chunk : Index)
      (h : chunk ∈ (droppingArrHandle.grid.chunkCounts droppingArrHandle.shape).indices) :
      droppingArrHandle.IsChunk chunk := Shape.mem_indices_iff.1 h
  refine ⟨hadmits, keys, hlists, ?_, ?_⟩
  · exact mt (hlists.last_iff [0, 0] (hchunk _ (by decide))).1 (by decide +kernel)
  · exact (hlists.last_iff [0, 1] (hchunk _ (by decide))).2 (by decide +kernel)

end ArrayHandle

end ChunkedArray
