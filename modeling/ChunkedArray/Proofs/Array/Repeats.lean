import ChunkedArray.Proofs.Array.StoredChunks

/-!
# Changes made again

A change that succeeded and is made again at once succeeds and leaves every entry as it is. A step may
take another way the second time: what it stored is decoded and merged into, and a chunk that it
dropped is made anew of the fill value. Both ways end in the entry that is there.
-/

namespace ChunkedArray

namespace ArrayHandle

variable {t : DataType} {σ : Type} [Store σ] {h : ArrayHandle t} {v : StoreView σ} {s s₁ : σ}
  {chunk : Index} {cells : NdArray t.Element} {x : Task t} {entry made : Option Bytes}

/-! ### One step again -/

theorem encode_of_entryOf {bytes : Bytes} (hentry : h.entryOf chunk cells = .ok (some bytes)) :
    h.codecs.encode cells = .ok bytes := by
  rw [entryOf] at hentry
  split at hentry
  · cases hentry
  · obtain ⟨_, hencode, hpure⟩ := Outcome.bind_eq_ok_iff.1 hentry
    cases hpure
    exact Checked.mapError_eq_ok_iff.1 hencode

theorem entryOf_eq_none_iff : h.entryOf chunk cells = .ok none ↔
    h.options.storeEmptyChunks = false ∧ h.isEmptyChunk cells = true := by
  rw [entryOf]
  cases h.options.storeEmptyChunks <;> cases h.isEmptyChunk cells <;>
    simp [Outcome.bind_eq_ok_iff]

section

variable (hwf : h.WellFormed) (hx : h.HasTask x)

include hwf hx

/-- A task is merged into the chunk that it stored without changing a cell. -/
theorem HasTask.newEntry_of_stored (hlossless : ∀ c, .custom c ∈ h.codecs.onBytes → c.Lossless)
    (hwhole : h.replacesChunk x.part = .ok false) {base : NdArray t.Element} {bytes : Bytes}
    (hbase : base.shape = h.grid.chunkShape)
    (hreplaced : NdArray.Replaced x.part.inChunk x.value base cells)
    (hstored : h.entryOf x.chunk cells = .ok (some bytes)) :
    h.newEntry (.ok (some bytes)) (.merge x) = .ok (some bytes) := by
  have hshape := hreplaced.shape_eq.trans hbase
  obtain ⟨cells', hcells', hagain⟩ := hx.merge_spec hwf hshape
  obtain rfl := hreplaced.eq_of_again hagain
  have hfound : h.foundChunk x.part.chunk (.ok (some bytes)) = .ok (some cells') := by
    rw [foundChunk, decodeChunk_of_encode hwf hlossless hshape (encode_of_entryOf hstored)]
    rfl
  refine newEntry_merge_eq_ok_iff.2 ⟨cells', cells', ?_, hcells', hstored⟩
  rw [baseFrom_eq_of_replaces hwhole, if_neg Bool.false_ne_true, previous, hfound]
  rfl

/-- The cells that a task sets pass for the fill value if its chunk was dropped, so a chunk made anew
of the fill value is dropped as well. -/
theorem HasTask.newEntry_of_dropped (hroom : t.HasRoomFor h.grid.chunkShape)
    {base : NdArray t.Element} (hbase : base.shape = h.grid.chunkShape)
    (hreplaced : NdArray.Replaced x.part.inChunk x.value base cells)
    (hdropped : h.entryOf x.chunk cells = .ok none) :
    h.newEntry (.ok none) (.merge x) = .ok none := by
  obtain ⟨hdrops, hempty⟩ := entryOf_eq_none_iff.1 hdropped
  have hset {k : Index} (hk : k.Inside x.part.inChunk.shape) :
      Element.sameValue (x.value k) h.fillValue = true := by
    rw [← hreplaced.cell_index k hk]
    refine isEmptyChunk_iff.1 hempty _ ?_
    rw [hreplaced.shape_eq.trans hbase]
    exact hx.inside_chunkShape hwf ⟨k, hk, rfl⟩
  -- A fill value that is not a number passes for nothing, and the task sets a cell.
  have hself : Element.sameValue h.fillValue h.fillValue = true := by
    obtain ⟨-, k, hk, -⟩ := hx.exists_sets hwf
    rw [Element.sameValue_self, Bool.not_eq_true']
    by_contra hnan
    have hne := Element.sameValue_of_isNaN (x.value k) (Bool.eq_true_of_not_eq_false hnan)
    rw [hset hk] at hne
    cases hne
  obtain ⟨blank, hblank⟩ := NdArray.exists_filled hroom h.fillValue
  obtain ⟨hblankShape, hblankCell⟩ := NdArray.filled_spec hblank
  obtain ⟨cells', hcells', hreplaced'⟩ := hx.merge_spec hwf hblankShape
  have hempty' : h.isEmptyChunk cells' = true := isEmptyChunk_iff.2 fun i hi => by
    rw [hreplaced'.shape_eq] at hi
    by_cases hon : ∃ k : Index, k.Inside x.part.inChunk.shape ∧ x.part.inChunk.index k = i
    · obtain ⟨k, hk, rfl⟩ := hon
      rw [hreplaced'.cell_index k hk]
      exact hset hk
    · rw [hreplaced'.cell_of_ne i hi fun k hk he => hon ⟨k, hk, he⟩,
        hblankCell i (hblankShape ▸ hi)]
      exact hself
  have hfilled : h.filled h.grid.chunkShape = .ok blank := Checked.guarded_eq_ok_iff.2 hblank
  refine newEntry_merge_eq_ok_iff.2 ⟨blank, cells', ?_, hcells', ?_⟩
  · rw [baseFrom_eq_of_replaces (replacesChunk_eq_ok hwf (hx.accepts.fits hwf) hx.mem_parts)]
    split
    · exact hfilled
    · exact hfilled
  · exact entryOf_eq_none_iff.2 ⟨hdrops, hempty'⟩

end

/-- A chunk that is read or made has a place in memory if those that are read have one. -/
theorem hasRoomFor_of_baseFrom (hwf : h.WellFormed) {part : ChunkPart} {base : NdArray t.Element}
    (hroom : ∀ cells, h.foundChunk part.chunk (.ok entry) = .ok (some cells) →
      t.HasRoomFor cells.shape) (hbase : h.baseFrom part (.ok entry) = .ok base) :
    t.HasRoomFor h.grid.chunkShape := by
  have hshape := shape_baseFrom hwf hbase
  obtain ⟨whole, -, hbase⟩ := Outcome.bind_eq_ok_iff.1 hbase
  split at hbase
  · exact NdArray.hasRoomFor_of_filled (Checked.guarded_eq_ok_iff.1 hbase)
  · obtain ⟨stored, hstored, hbase⟩ := Outcome.bind_eq_ok_iff.1 hbase
    cases stored with
    | none => exact NdArray.hasRoomFor_of_filled (Checked.guarded_eq_ok_iff.1 hbase)
    | some cells =>
      obtain rfl := Except.ok.inj hbase
      exact hshape ▸ hroom _ hstored

/-- What a step made of an entry, it makes of what it made. -/
theorem newEntry_again (hwf : h.WellFormed)
    (hlossless : ∀ c, .custom c ∈ h.codecs.onBytes → c.Lossless) {step : ChunkStep t}
    (hstep : h.IsStep step)
    (hroom : ∀ cells, h.foundChunk step.chunk (.ok entry) = .ok (some cells) →
      t.HasRoomFor cells.shape) (hmade : h.newEntry (.ok entry) step = .ok made) :
    h.newEntry (.ok made) step = .ok made := by
  cases step with
  | store chunk cells => exact hmade
  | erase chunk => exact hmade
  | merge x =>
    obtain ⟨base, cells, hbase, hcells, hentry⟩ := newEntry_merge_eq_ok_iff.1 hmade
    have hshape := shape_baseFrom hwf hbase
    have hreplaced := HasTask.replaced hwf hstep hshape hcells
    obtain ⟨whole, hguarded, -⟩ := Outcome.bind_eq_ok_iff.1 hbase
    have hwhole := Checked.guarded_eq_ok_iff.1 hguarded
    cases whole with
    | true =>
      refine newEntry_merge_eq_ok_iff.2 ⟨base, cells, ?_, hcells, hentry⟩
      rw [baseFrom_eq_of_replaces hwhole] at hbase ⊢
      exact hbase
    | false =>
      cases made with
      | none =>
        have hchunkRoom := hasRoomFor_of_baseFrom hwf hroom hbase
        exact HasTask.newEntry_of_dropped hwf hstep hchunkRoom hshape hreplaced hentry
      | some bytes =>
        exact HasTask.newEntry_of_stored hwf hstep hlossless hwhole hshape hreplaced hentry

/-! ### A change again -/

/-- Each stored chunk that can be decoded has a place in memory. -/
def StoredHaveRoom (h : ArrayHandle t) (v : StoreView σ) (s : σ) : Prop :=
  ∀ chunk, h.IsChunk chunk → ∀ cells,
    h.foundChunk chunk (.ok (v.entry (h.chunkKey chunk) s)) = .ok (some cells) →
      t.HasRoomFor cells.shape

omit [Store σ] in
theorem storedHaveRoom_of_hasRoomFor (hwf : h.WellFormed) (hroom : t.HasRoomFor h.grid.chunkShape) :
    h.StoredHaveRoom v s := by
  intro chunk _ cells hcells
  have hends := ends_foundChunk hwf DataType.lacks_overflow chunk
    (.ok (v.entry (h.chunkKey chunk) s))
  rw [hcells] at hends
  have hshape : cells.shape = h.grid.chunkShape := hends cells rfl
  rwa [hshape]

theorem runSteps_again (hwf : h.WellFormed)
    (hlossless : ∀ c, .custom c ∈ h.codecs.onBytes → c.Lossless) (hkeeps : KeepsEntries v)
    (hnever : NeverFails v) (hkeys : ∀ chunk, h.IsChunk chunk → v.keys (h.chunkKey chunk))
    {steps : List (ChunkStep t)} (hsteps : ∀ step ∈ steps, h.IsStep step)
    (hpairs : steps.Pairwise fun x y => x.chunk ≠ y.chunk) (hs : v.good s)
    (hroom : h.StoredHaveRoom v s) (hrun : h.runSteps steps s = (.ok (), s₁)) :
    ∃ s₂, h.runSteps steps s₁ = (.ok (), s₂) ∧ v.Same s₁ s₂ := by
  have hdone := stepsDone_of_runSteps hwf hkeeps hkeys hsteps hpairs hs hrun
  have hagain (step : ChunkStep t) (hstep : step ∈ steps) :
      h.newEntry (.ok (v.entry (h.chunkKey step.chunk) s₁)) step =
        .ok (v.entry (h.chunkKey step.chunk) s₁) :=
    newEntry_again hwf hlossless (hsteps step hstep)
      (hroom _ ((hsteps step hstep).isChunk hwf)) (hdone.made step hstep)
  obtain ⟨s₂, hrun₂⟩ := (exists_runSteps_iff hwf hkeeps hnever hkeys hsteps hpairs hdone.isGood).2
    fun step hstep => ⟨_, hagain step hstep⟩
  have hdone₂ := stepsDone_of_runSteps hwf hkeeps hkeys hsteps hpairs hdone.isGood hrun₂
  refine ⟨s₂, hrun₂, hdone₂.isGood, fun k hk => ?_⟩
  by_cases hon : ∃ step ∈ steps, k = h.chunkKey step.chunk
  · obtain ⟨step, hstep, rfl⟩ := hon
    have hmade := hdone₂.made step hstep
    rw [hagain step hstep] at hmade
    exact (Except.ok.inj hmade).symm
  · exact hdone₂.kept k hk fun step hstep he => hon ⟨step, hstep, he⟩

/-- A change that succeeded succeeds when it is made again, and leaves every entry as it is. -/
theorem change_again (hobtained : h.Obtained (σ := σ))
    (hlossless : ∀ c, .custom c ∈ h.codecs.onBytes → c.Lossless) (hkeeps : KeepsEntries v)
    (hnever : NeverFails v) (hkeys : ∀ chunk, h.IsChunk chunk → v.keys (h.chunkKey chunk))
    (hs : v.good s) (hroom : h.StoredHaveRoom v s) {c : ArrayChange t}
    (hrun : h.change c s = (.ok (), s₁)) :
    ∃ s₂, h.change c s₁ = (.ok (), s₂) ∧ v.Same s₁ s₂ := by
  have hwf := hobtained.wellFormed
  obtain ⟨steps, hsteps, hrun⟩ := change_eq_ok_iff_exists_steps.1 hrun
  have hplans := plans_of_stepsOf hwf hsteps
  obtain ⟨s₂, hrun₂, hsame⟩ := runSteps_again hwf hlossless hkeeps hnever hkeys hplans.isStep
    (hplans.pairwise_ne hwf) hs hroom hrun
  exact ⟨s₂, change_eq_ok_iff_exists_steps.2 ⟨steps, hsteps, hrun₂⟩, hsame⟩

theorem create_zero_dropping :
    create _ .root zeroMetadata .default zeroHandle.dropping.options MemoryStore.empty =
      (.ok zeroHandle.dropping, zeroStore) := rfl

def firstCell (pattern : Nat) : ArrayChange (.float .bits32) :=
  .fillRegion [⟨0, 1, 1⟩] (DataType.ofPattern _ pattern)

/-- A store with one chunk, whose first cell is one and whose second is the fill value. -/
def oneStore : MemoryStore := zeroHandle.dropping.after [firstCell 0x3f800000] zeroStore

/-- With a negative zero for the one, all cells pass for the fill value. The first change reads the
chunk and erases it, the second one makes it anew. -/
theorem change_again_negative_zero :
    ∃ s₁ s₂, zeroHandle.dropping.change (firstCell 0x80000000) oneStore = (.ok (), s₁) ∧
      (oneStore.get? (zeroHandle.chunkKey [0])).isSome = true ∧
      s₁.get? (zeroHandle.chunkKey [0]) = none ∧
      zeroHandle.dropping.change (firstCell 0x80000000) s₁ = (.ok (), s₂) ∧
      (StoreView.ofValues (σ := MemoryStore) (fun _ => True) fun _ => True).Same s₁ s₂ := by
  have hobtained : zeroHandle.dropping.Obtained (σ := MemoryStore) :=
    .create (by decide) create_zero_dropping
  have hrun := StoreAction.eq_ok_of_isOk (a := zeroHandle.dropping.change (firstCell 0x80000000))
    (s := oneStore) (by decide +kernel)
  obtain ⟨s₂, hrun₂, hsame⟩ := change_again hobtained (fun c hc => by cases hc)
    (MemoryStore.keepsEntries fun _ => True) (MemoryStore.neverFails _) (fun _ _ => trivial) trivial
    (storedHaveRoom_of_hasRoomFor hobtained.wellFormed ⟨by decide, by decide⟩) hrun
  exact ⟨_, s₂, hrun, by decide +kernel, by decide +kernel, hrun₂, hsame⟩

end ArrayHandle

end ChunkedArray
