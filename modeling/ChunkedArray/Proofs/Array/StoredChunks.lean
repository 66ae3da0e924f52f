import ChunkedArray.Proofs.Array.EmptyChunks
import ChunkedArray.Proofs.Array.StepRuns
import ChunkedArray.Proofs.DataType.FillValues

/-!
# What stored chunks hold

Whatever is stored for a chunk was made of some cells. A handle that drops chunks makes an entry only
of cells that do not all pass for the fill value, so no chunk is stored that holds the fill value
alone. The exception is a fill value that is not a number: it does not pass for itself.
-/

namespace ChunkedArray

namespace ArrayHandle

variable {t : DataType} {σ : Type} [Store σ] {h : ArrayHandle t} {v : StoreView σ} {s s' : σ}
  {chunk : Index}

/-- Each chunk has no entry, or one that was made of some cells. -/
structure EntriesMade (h : ArrayHandle t) (v : StoreView σ) (s : σ) : Prop where
  isGood : v.good s
  entry : ∀ chunk, h.IsChunk chunk → v.entry (h.chunkKey chunk) s = none ∨
    ∃ cells : NdArray t.Element, cells.shape = h.grid.chunkShape ∧
      h.entryOf chunk cells = .ok (v.entry (h.chunkKey chunk) s)

section

variable (hwf : h.WellFormed) (hkeeps : KeepsEntries v)
  (hkeys : ∀ chunk, h.IsChunk chunk → v.keys (h.chunkKey chunk))

include hkeys

omit [Store σ] in
theorem EntriesMade.same (hs : h.EntriesMade v s) (hsame : v.Same s s') : h.EntriesMade v s' := by
  refine ⟨hsame.isGood, fun chunk hchunk => ?_⟩
  rw [hsame.entry_eq _ (hkeys chunk hchunk)]
  exact hs.entry chunk hchunk

include hwf hkeeps

/-- A step makes the entry of its chunk, or fails and changes none. -/
theorem EntriesMade.runStep (hs : h.EntriesMade v s) {step : ChunkStep t} (hstep : h.IsStep step) :
    h.EntriesMade v (h.runStep step s).2 := by
  have hchunk := hstep.isChunk hwf
  have hkey := hkeys _ hchunk
  rcases hrun : h.runStep step s with ⟨_ | _, s'⟩
  · exact hs.same hkeys (runStep_error hkeeps hs.isGood hwf hstep hkey hrun).1
  · obtain ⟨entry, hentry, hbecame⟩ := runStep_ok hkeeps hs.isGood hkey hrun
    refine ⟨hbecame.isGood, fun other hother => ?_⟩
    by_cases hne : other = step.chunk
    · subst hne
      rw [hbecame.entry_eq]
      exact exists_entryOf_of_newEntry hwf hstep hentry
    · rw [hbecame.others _ (hkeys other hother) (chunkKey_ne hwf hchunk hother hne)]
      exact hs.entry other hother

theorem EntriesMade.runSteps (hs : h.EntriesMade v s) {steps : List (ChunkStep t)}
    (hsteps : ∀ step ∈ steps, h.IsStep step) : h.EntriesMade v (h.runSteps steps s).2 :=
  StoreAction.forM_keeps (fun step hstep _ hs => hs.runStep hwf hkeeps hkeys (hsteps step hstep)) hs

theorem EntriesMade.change (hs : h.EntriesMade v s) (c : ArrayChange t) :
    h.EntriesMade v (h.change c s).2 := by
  rcases change_cases hwf c s with ⟨e, -, hrefused⟩ | ⟨steps, hplans, hruns⟩
  · rwa [hrefused]
  · rw [hruns]
    exact hs.runSteps hwf hkeeps hkeys hplans.isStep

theorem EntriesMade.after (hs : h.EntriesMade v s) (changes : List (ArrayChange t)) :
    h.EntriesMade v (h.after changes s) := by
  induction changes generalizing s with
  | nil => exact hs
  | cons c changes ih => exact ih (hs.change hwf hkeeps hkeys c)

end

section

variable (hdrops : h.options.storeEmptyChunks = false)

include hdrops

theorem entryOf_eq_some_iff {cells : NdArray t.Element} {bytes : Bytes} :
    h.entryOf chunk cells = .ok (some bytes) ↔
      h.isEmptyChunk cells = false ∧ h.codecs.encode cells = .ok bytes := by
  rw [entryOf, hdrops]
  cases h.isEmptyChunk cells with
  | true => simp
  | false => simp [Outcome.bind_eq_ok_iff, Checked.mapError_eq_ok_iff]

/-- Starting from a store without chunks of the array, after any changes, of which any may fail, each
chunk that is stored has a cell that is not the fill value, also bit for bit. The cell may be one past
the end of the array. -/
theorem exists_cell_ne_fillValue (hobtained : h.Obtained (σ := σ))
    (hlossless : ∀ c, .custom c ∈ h.codecs.onBytes → c.Lossless)
    (hfill : Element.isNaN h.fillValue = false) (hkeeps : KeepsEntries v)
    (hkeys : ∀ chunk, h.IsChunk chunk → v.keys (h.chunkKey chunk)) (hs : v.good s)
    (hempty : ∀ chunk, h.IsChunk chunk → v.entry (h.chunkKey chunk) s = none)
    (changes : List (ArrayChange t)) (hchunk : h.IsChunk chunk) {bytes : Bytes}
    (hentry : v.entry (h.chunkKey chunk) (h.after changes s) = some bytes) :
    ∃ cells, h.decodeChunk chunk bytes = .ok cells ∧
      ∃ place : Index, place.Inside h.grid.chunkShape ∧ cells.cell place ≠ h.fillValue := by
  have hwf := hobtained.wellFormed
  have hstart : h.EntriesMade v s := ⟨hs, fun chunk hchunk => .inl (hempty chunk hchunk)⟩
  obtain hnone | ⟨cells, hshape, hmade⟩ :=
    (hstart.after hwf hkeeps hkeys changes).entry chunk hchunk
  · rw [hnone] at hentry
    cases hentry
  · rw [hentry] at hmade
    obtain ⟨hnonempty, hencode⟩ := (entryOf_eq_some_iff hdrops).1 hmade
    refine ⟨cells, decodeChunk_of_encode hwf hlossless hshape hencode, ?_⟩
    by_contra! hall
    have hempty : h.isEmptyChunk cells = true := isEmptyChunk_iff.2 fun i hi => by
      rw [hall i (hshape ▸ hi), Element.sameValue_self, hfill]
      rfl
    rw [hempty] at hnonempty
    cases hnonempty

end

theorem create_dropping :
    create _ .root maskedMetadata maskRegistry maskedHandle.dropping.options MemoryStore.empty =
      (.ok maskedHandle.dropping, maskedStore) := rfl

theorem exists_cell_ne_fillValue_mixed :
    ∃ bytes cells, Store.get (maskedHandle.dropping.chunkKey [0, 0])
        (maskedHandle.dropping.after mixedChanges maskedStore) = .ok (some bytes) ∧
      maskedHandle.dropping.decodeChunk [0, 0] bytes = .ok cells ∧
      ∃ place : Index, place.Inside maskedHandle.dropping.grid.chunkShape ∧
        cells.cell place ≠ maskedHandle.dropping.fillValue := by
  have hsome : ((maskedHandle.dropping.after mixedChanges maskedStore).get?
      (maskedHandle.dropping.chunkKey [0, 0])).isSome = true := by decide +kernel
  have hchunk : maskedHandle.dropping.IsChunk [0, 0] := Shape.mem_indices_iff.1 (by decide +kernel)
  obtain ⟨bytes, hbytes⟩ := Option.isSome_iff_exists.1 hsome
  have hget : Store.get (maskedHandle.dropping.chunkKey [0, 0])
      (maskedHandle.dropping.after mixedChanges maskedStore) = .ok (some bytes) :=
    congrArg Except.ok hbytes
  obtain ⟨cells, hcells, hne⟩ := exists_cell_ne_fillValue rfl (.create (by decide) create_dropping)
    (fun _ hc => (custom_masked hc).1) rfl (MemoryStore.keepsEntries fun _ => True)
    (fun _ _ => trivial) trivial
    (fun _ hchunk => StoreView.entry_ofValues (get_chunkKey_masked hchunk)) mixedChanges hchunk
    (StoreView.entry_ofValues hget)
  exact ⟨bytes, cells, hget, hcells, hne⟩

/-! ### A fill value that is not a number -/

/-- A fill value that is not a number passes for nothing, so no chunk is dropped. -/
theorem isEmptyChunk_of_isNaN (hfill : Element.isNaN h.fillValue = true)
    {cells : NdArray t.Element} {i : Index} (hi : i.Inside cells.shape) :
    h.isEmptyChunk cells = false := by
  by_contra hempty
  have hsame := isEmptyChunk_iff.1 (Bool.eq_true_of_not_eq_false hempty) i hi
  rw [Element.sameValue_of_isNaN _ hfill] at hsame
  cases hsame

def nanHandle : ArrayHandle (.float .bits32) :=
  let metadata := { zeroHandle.metadata with fillValue := .str "NaN" }
  { zeroHandle.dropping with metadata, fillValue := DataType.ofPattern _ 0x7fc00000 }

def nanStore : MemoryStore :=
  MemoryStore.empty.insert nanHandle.metadataKey nanHandle.metadata.toBytes

/-- A chunk of the fill value alone. -/
def nanCells : NdArray (DataType.float .bits32).Element :=
  .ofFn zeroMetadata.shape isAddressable_zero fun _ => nanHandle.fillValue

/-- A chunk that holds the fill value alone is stored. -/
theorem stores_nanCells :
    create _ .root { zeroMetadata with fillValue := .str "NaN" } .default nanHandle.options
        MemoryStore.empty = (.ok nanHandle, nanStore) ∧
      nanHandle.options.storeEmptyChunks = false ∧
      ∃ bytes cells, Store.get (nanHandle.chunkKey [0])
          (nanHandle.after [.writeChunk [0] nanCells] nanStore) = .ok (some bytes) ∧
        nanHandle.decodeChunk [0] bytes = .ok cells ∧
        ∀ place : Index, place.Inside nanHandle.grid.chunkShape →
          cells.cell place = nanHandle.fillValue := by
  refine ⟨rfl, rfl, _, nanCells, rfl, rfl, fun place hplace => ?_⟩
  exact NdArray.cell_ofFn isAddressable_zero (fun _ => nanHandle.fillValue) hplace

end ArrayHandle

end ChunkedArray
