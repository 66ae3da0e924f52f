import ChunkedArray.Proofs.Array.Steps
import ChunkedArray.Proofs.Store.Agreement

/-!
# Arrays in one store

Every key that an operation on an array reads or changes starts with the key of the array, so arrays
of which neither key starts with the other do not disturb each other. Within an array, an operation
changes only what it must: a write the chunks of the cells that it sets, erasing the array all that
is stored under its key.
-/

namespace ChunkedArray

/-! ### Operations -/

/-- What is done through a handle. Among the changes, erasing a chunk does not tell whether it was
stored; the operation of its own does. -/
inductive ArrayOperation (t : DataType) where
  | readChunk (chunk : Index)
  | readRegion (region : Region)
  | readSelection (selection : Selection)
  | storedChunkKeys
  | writeMetadata
  | change (c : ArrayChange t)
  | eraseChunk (chunk : Index)
  | eraseAll

inductive ArrayAnswer where
  | handle {t : DataType} (r : Except ArrayError (ArrayHandle t))
  | cells {t : DataType} (r : Checked ArrayError (NdArray t.Element))
  | keys (r : Except ArrayError (List Key))
  | done (r : Except ArrayError Unit)
  | changed (r : Checked ArrayError Unit)
  | erased (r : Checked ArrayError Bool)

/-- What is done with an array: it is created, opened, or used through a handle. -/
inductive ArrayCall where
  | create (t : DataType) (key : Key) (metadata : ArrayMetadata) (registry : CodecRegistry)
    (options : ArrayOptions)
  | openStored (t : DataType) (key : Key) (registry : CodecRegistry) (options : ArrayOptions)
  | perform {t : DataType} (h : ArrayHandle t) (o : ArrayOperation t)

namespace ArrayHandle

variable {t : DataType} {σ : Type} [Store σ]

def perform (h : ArrayHandle t) : ArrayOperation t → σ → ArrayAnswer × σ
  | .readChunk chunk, s => (.cells (h.readChunk chunk s), s)
  | .readRegion region, s => (.cells (h.readRegion region s), s)
  | .readSelection selection, s => (.cells (h.readSelection selection s), s)
  | .storedChunkKeys, s => (.keys (h.storedChunkKeys s), s)
  | .writeMetadata, s => (.done (h.writeMetadata s).1, (h.writeMetadata s).2)
  | .change c, s => (.changed (h.change c s).1, (h.change c s).2)
  | .eraseChunk chunk, s => (.erased (h.eraseChunk chunk s).1, (h.eraseChunk chunk s).2)
  | .eraseAll, s => (.done (h.eraseAll s).1, (h.eraseAll s).2)

/-- The keys under which an operation may change what is stored. -/
def Touches (h : ArrayHandle t) : ArrayOperation t → Key → Prop
  | .readChunk _, _ | .readRegion _, _ | .readSelection _, _ | .storedChunkKeys, _ => False
  | .writeMetadata, k => k = h.metadataKey
  | .change (.writeChunk chunk _), k | .change (.eraseChunk chunk), k | .eraseChunk chunk, k =>
    k = h.chunkKey chunk
  | .change c, k => ∃ chunk, h.Meets c chunk ∧ k = h.chunkKey chunk
  | .eraseAll, k => k.startsWith h.key = true

end ArrayHandle

namespace ArrayCall

variable {σ : Type} [Store σ]

/-- The key of the array. -/
def key : ArrayCall → Key
  | .create _ key _ _ _ | .openStored _ key _ _ => key
  | .perform h _ => h.key

def run : ArrayCall → σ → ArrayAnswer × σ
  | .create t key metadata registry options, s =>
    (.handle (ArrayHandle.create t key metadata registry options s).1,
      (ArrayHandle.create t key metadata registry options s).2)
  | .openStored t key registry options, s =>
    (.handle (ArrayHandle.openStored t key registry options s), s)
  | .perform h o, s => h.perform o s

/-- The answers to those of the calls, made one after the other, that concern the array with this
key. -/
def answersAt (key : Key) : List ArrayCall → σ → List ArrayAnswer
  | [], _ => []
  | c :: calls, s =>
    if c.key = key then (c.run s).1 :: answersAt key calls (c.run s).2
    else answersAt key calls (c.run s).2

end ArrayCall

namespace ArrayHandle

open MemoryStore

variable {t : DataType} {h : ArrayHandle t} {s s' : MemoryStore} {keep : Key → Bool}
  {chunk : Index} {step : ChunkStep t}

/-! ### Changes of a store in memory -/

theorem startsWith_chunkKey (chunk : Index) : (h.chunkKey chunk).startsWith h.key = true :=
  Key.startsWith_append ..

theorem startsWith_metadataKey : h.metadataKey.startsWith h.key = true := Key.startsWith_metadata _

theorem putEntry_eq (chunk : Index) (entry : Option Bytes) (s : MemoryStore) :
    h.putEntry chunk entry s = (.ok (), s.put (h.chunkKey chunk) entry) := by
  cases entry <;> rfl

theorem local_runStep (hkeep : keep (h.chunkKey step.chunk) = true) :
    Local keep (h.runStep step) := by
  refine Local.bind (local_read fun s s' hagree => ?_) fun entry s s' hagree => ?_
  · show h.newEntry (.ok (s.get? _)) step = h.newEntry (.ok (s'.get? _)) step
    rw [hagree.get? hkeep]
  · rw [putEntry_eq, putEntry_eq]
    exact ⟨rfl, hagree.put _ _⟩

theorem spares_runStep (hkeep : keep (h.chunkKey step.chunk) = false) :
    Spares keep (h.runStep step) := by
  intro s
  rw [runStep, StoreAction.reading_bind_apply]
  split
  · rw [putEntry_eq]
    exact agree_put hkeep s _
  · exact .refl keep s

theorem local_change (hkeep : ∀ k, k.startsWith h.key = true → keep k = true) (c : ArrayChange t) :
    Local keep (h.change c) := by
  rw [change_eq]
  refine local_reading_bind _ fun steps _ => local_forM fun step _ => ?_
  exact local_runStep (hkeep _ (startsWith_chunkKey step.chunk))

theorem spares_change {c : ArrayChange t} (hmiss : ∀ steps, h.stepsOf c = .ok steps →
    ∀ step ∈ steps, keep (h.chunkKey step.chunk) = false) : Spares keep (h.change c) := by
  rw [change_eq]
  refine spares_reading_bind fun _ steps hsteps => spares_forM fun step hstep => ?_
  exact spares_runStep (hmiss steps hsteps step hstep)

theorem local_eraseChunk (hkeep : keep (h.chunkKey chunk) = true) :
    Local keep (h.eraseChunk chunk) := by
  refine local_reading_bind _ fun _ _ s s' hagree => ⟨?_, hagree.restrict _⟩
  show Except.ok (s.get? _).isSome = Except.ok (s'.get? _).isSome
  rw [hagree.get? hkeep]

theorem spares_eraseChunk (hmiss : keep (h.chunkKey chunk) = false) :
    Spares keep (h.eraseChunk chunk) :=
  spares_reading_bind fun _ _ _ s => agree_put hmiss s none

/-! ### What operations read and change -/

/-- The keys that an operation gives to the store to change. -/
inductive Alters (h : ArrayHandle t) : ArrayOperation t → Key → Prop where
  | metadata : Alters h .writeMetadata h.metadataKey
  | step {c : ArrayChange t} {steps : List (ChunkStep t)} {step : ChunkStep t} :
    h.stepsOf c = .ok steps → step ∈ steps → Alters h (.change c) (h.chunkKey step.chunk)
  | chunk (chunk : Index) : Alters h (.eraseChunk chunk) (h.chunkKey chunk)
  | under {k : Key} : k.startsWith h.key = true → Alters h .eraseAll k

variable {o : ArrayOperation t} {k : Key}

theorem Alters.startsWith (halters : h.Alters o k) : k.startsWith h.key = true := by
  cases halters with
  | metadata => exact startsWith_metadataKey
  | step => exact startsWith_chunkKey _
  | chunk chunk => exact startsWith_chunkKey chunk
  | under hk => exact hk

theorem Alters.touches (hwf : h.WellFormed) (halters : h.Alters o k) : h.Touches o k := by
  cases halters with
  | metadata => rfl
  | chunk chunk => rfl
  | under hk => exact hk
  | @step c steps step hsteps hstep =>
    have hplans := plans_of_stepsOf hwf hsteps
    have hmeets := (hplans.meets_iff hwf).2 ⟨step, hstep, rfl⟩
    cases c with
    | writeChunk chunk cells =>
      obtain ⟨i, ⟨-, rfl⟩, hi⟩ := hmeets
      exact congrArg h.chunkKey hi.symm
    | eraseChunk chunk =>
      obtain ⟨i, ⟨-, rfl⟩, hi⟩ := hmeets
      exact congrArg h.chunkKey hi.symm
    | writeRegion | fillRegion | writeSelection | fillSelection => exact ⟨_, hmeets, rfl⟩

theorem spares_perform (hmiss : ∀ k, h.Alters o k → keep k = false) :
    Spares keep (h.perform o) := by
  intro s
  cases o with
  | readChunk | readRegion | readSelection | storedChunkKeys => exact .refl keep s
  | writeMetadata => exact agree_insert (hmiss _ .metadata) s _
  | change c =>
    exact spares_change (fun steps hsteps step hstep => hmiss _ (.step hsteps hstep)) s
  | eraseChunk chunk => exact spares_eraseChunk (hmiss _ (.chunk chunk)) s
  | eraseAll =>
    refine agree_restrict (fun k hk => ?_) s
    by_contra hunder
    rw [hmiss k (.under (by simpa using hunder))] at hk
    cases hk

theorem local_perform (hkeep : ∀ k, k.startsWith h.key = true → keep k = true)
    (o : ArrayOperation t) : Local keep (h.perform o) := by
  have hchunk (chunk : Index) := hkeep _ (h.startsWith_chunkKey chunk)
  have hreads (s s' : MemoryStore) (hagree : Agree keep s s') : h.ReadsSame h s s' :=
    readsSame_of_forall fun chunk =>
      storedChunk?_congr (congrArg Except.ok (hagree.get? (hchunk chunk)))
  cases o with
  | readChunk chunk => exact local_read fun s s' ha => congrArg _ ((hreads s s' ha).chunk chunk)
  | readRegion region => exact local_read fun s s' ha => congrArg _ ((hreads s s' ha).region region)
  | readSelection selection =>
    exact local_read fun s s' ha => congrArg _ ((hreads s s' ha).selection selection)
  | storedChunkKeys =>
    refine local_read fun s s' ha => congrArg ArrayAnswer.keys ?_
    show Except.ok ((s.keysUnder h.key).filter _) = Except.ok ((s'.keysUnder h.key).filter _)
    rw [ha.keysUnder hkeep]
  | writeMetadata => exact fun s s' ha => ⟨rfl, ha.insert _ _⟩
  | change c => exact (local_change hkeep c).map _
  | eraseChunk chunk => exact (local_eraseChunk (hchunk chunk)).map _
  | eraseAll => exact fun s s' ha => ⟨rfl, ha.restrict _⟩

section

variable {key : Key} {metadata : ArrayMetadata} {registry : CodecRegistry} {options : ArrayOptions}

theorem local_create (hkeep : keep key.metadata = true) :
    Local keep (create t key metadata registry options) := by
  refine Local.bind (local_read fun s s' ha => ?_) fun found => local_guard ?_
  · show Except.ok (s.get? _).isSome = Except.ok (s'.get? _).isSome
    rw [ha.get? hkeep]
  · exact local_reading_bind _ fun made _ s s' ha => ⟨rfl, ha.insert _ _⟩

theorem spares_create (hmiss : keep key.metadata = false) :
    Spares keep (create t key metadata registry options) := by
  refine spares_reading_bind fun _ found _ => spares_guard ?_
  refine spares_reading_bind fun _ made hmade s => ?_
  obtain ⟨-, -, -, -, -, hmade⟩ := ofMetadata_eq_ok_iff.1 hmade
  have hkey : made.metadataKey = key.metadata := by rw [hmade]; rfl
  exact agree_insert (hkey ▸ hmiss) s _

theorem openStored_congr (hget : s.get? key.metadata = s'.get? key.metadata) :
    openStored t key registry options s = openStored t key registry options s' := by
  have hget : Store.get key.metadata s = Store.get key.metadata s' := congrArg Except.ok hget
  rw [openStored, openStored, hget]

end

end ArrayHandle

/-! ### Arrays beside each other -/

namespace ArrayCall

open MemoryStore

variable {c : ArrayCall} {keep : Key → Bool} {base : Key} {s s' : MemoryStore}

theorem local_run (hkeep : ∀ k, k.startsWith c.key = true → keep k = true) : Local keep c.run := by
  cases c with
  | create t key metadata registry options =>
    exact (ArrayHandle.local_create (hkeep _ (Key.startsWith_metadata key))).map _
  | openStored t key registry options =>
    refine local_read fun s s' ha => congrArg ArrayAnswer.handle (ArrayHandle.openStored_congr ?_)
    exact ha.get? (hkeep _ (Key.startsWith_metadata key))
  | perform h o => exact ArrayHandle.local_perform hkeep o

theorem spares_run (hmiss : ∀ k, k.startsWith c.key = true → keep k = false) : Spares keep c.run := by
  cases c with
  | create t key metadata registry options =>
    exact ArrayHandle.spares_create (hmiss _ (Key.startsWith_metadata key))
  | openStored t key registry options => exact .refl keep
  | perform h o => exact ArrayHandle.spares_perform fun k halters => hmiss k halters.startsWith

/-- Calls that concern other arrays leave the answers as they are. -/
theorem answersAt_filter {calls : List ArrayCall}
    (hcalls : ∀ c ∈ calls, c.key = base ∨ c.key.Apart base)
    (hagree : Agree (·.startsWith base) s s') :
    answersAt base calls s = answersAt base (calls.filter (·.key = base)) s' := by
  induction calls generalizing s s' with
  | nil => rfl
  | cons c calls ih =>
    rw [List.forall_mem_cons] at hcalls
    by_cases hkey : c.key = base
    · obtain ⟨hanswer, hagree⟩ := local_run (fun k hk => hkey ▸ hk) s s' hagree
      rw [List.filter_cons, if_pos (decide_eq_true hkey), answersAt, answersAt, if_pos hkey,
        if_pos hkey, hanswer, ih hcalls.2 hagree]
    · have hapart := hcalls.1.resolve_left hkey
      have hspared := spares_run (fun k hk => hapart.not_startsWith hk) s
      rw [List.filter_cons, if_neg (by simpa using hkey), answersAt, if_neg hkey]
      exact ih hcalls.2 (hspared.symm.trans hagree)

end ArrayCall

namespace ArrayHandle

variable {t : DataType} {h : ArrayHandle t}

/-- The array keeps to its own keys. -/
structure KeepsToOwnKeys (h : ArrayHandle t) : Prop where
  /-- An operation changes no value but those that it touches. -/
  others : ∀ (o : ArrayOperation t) (s : MemoryStore) (k : Key), ¬ h.Touches o k →
    Store.get k (h.perform o s).2 = Store.get k s
  /-- Erasing the array takes all away whose key starts with that of the array. -/
  erased : ∀ (s : MemoryStore) (k : Key), k.startsWith h.key = true →
    Store.get k (h.perform .eraseAll s).2 = .ok none
  /-- Calls for the array are answered as if no calls were made for arrays apart from it. -/
  undisturbed : ∀ (calls : List ArrayCall) (s : MemoryStore),
    (∀ c ∈ calls, c.key = h.key ∨ c.key.Apart h.key) →
    ArrayCall.answersAt h.key calls s =
      ArrayCall.answersAt h.key (calls.filter (·.key = h.key)) s

/-- A handle that was made is well-formed, also after its options or its attributes were changed; so
every array keeps to its own keys. -/
theorem keepsToOwnKeys_of_wellFormed (hwf : h.WellFormed) : h.KeepsToOwnKeys where
  others o s k htouches := by
    have hspares : MemoryStore.Spares (fun k' => decide (k' = k)) (h.perform o) :=
      spares_perform fun k' halters => decide_eq_false fun he => htouches (he ▸ halters.touches hwf)
    exact congrArg Except.ok ((hspares s).get? (decide_eq_true rfl)).symm
  erased s k hk := by
    show Except.ok ((s.restrict fun k => !k.startsWith h.key).get? k) = .ok none
    rw [MemoryStore.get?_restrict, hk]
    rfl
  undisturbed calls s hcalls := ArrayCall.answersAt_filter hcalls (.refl _ s)

def arrHandle : ArrayHandle (.uint .bits16) := { maskedHandle with key := ⟨[⟨"arr"⟩]⟩ }

/-- An array beside it, whose key has that of the other as the start of its text. -/
def arr2Handle : ArrayHandle (.uint .bits16) :=
  let metadata := { maskedHandle.metadata with chunkKeyEncoding := .v2 .dot }
  { maskedHandle with key := ⟨[⟨"arr2"⟩]⟩, metadata }

/-- Calls for both arrays in turn. -/
def besideCalls : List ArrayCall :=
  [.create (.uint .bits16) arrHandle.key maskedMetadata maskRegistry (.default 1),
    .create (.uint .bits16) arr2Handle.key arr2Handle.metadata maskRegistry (.default 1),
    .perform arr2Handle (.change (.fillSelection [.full, .full] (DataType.ofPattern _ 1))),
    .perform arrHandle (.change (.fillSelection [.index 2, .full] (DataType.ofPattern _ 2))),
    .perform arrHandle (.readSelection [.full, .full]), .perform arr2Handle (.eraseChunk [1, 1]),
    .perform arr2Handle .eraseAll, .perform arrHandle .storedChunkKeys,
    .perform arrHandle (.eraseChunk [1, 1])]

theorem keepsToOwnKeys_arr :
    arrHandle.KeepsToOwnKeys ∧ ArrayCall.answersAt arrHandle.key besideCalls MemoryStore.empty =
      ArrayCall.answersAt arrHandle.key (besideCalls.filter (·.key = arrHandle.key))
        MemoryStore.empty := by
  have hmade : (create _ arrHandle.key maskedMetadata maskRegistry (.default 1)
      MemoryStore.empty).1 = .ok arrHandle := rfl
  have hobtained : arrHandle.Obtained (σ := MemoryStore) :=
    .create (by decide) (Prod.ext hmade rfl)
  have hkeeps := keepsToOwnKeys_of_wellFormed hobtained.wellFormed
  exact ⟨hkeeps, hkeeps.undisturbed besideCalls _ (by decide +kernel)⟩

end ArrayHandle

end ChunkedArray
