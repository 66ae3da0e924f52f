import ChunkedArray.Proofs.Array.EmptyChunks
import ChunkedArray.Proofs.Array.StepRuns

/-!
# Parts taken in any order

The parts of a region lie in different chunks and hold different cells of it. So it does not matter in
which order a call takes them: it succeeds exactly if it does in row-major order, and then reads the
same cells or leaves the same entries.
-/

namespace ChunkedArray

namespace ArrayHandle

variable {t : DataType} {σ : Type} [Store σ] {h : ArrayHandle t} {s s' : σ} {region : Region}
  {parts : ChunkParts} {order : List ChunkPart} {call : RegionCall t} {out : NdArray t.Element}

/-- Reads a region with its parts taken in the given order. -/
def readInOrder (h : ArrayHandle t) (order : List ChunkPart) (region : Region) (s : σ) :
    Checked ArrayError (NdArray t.Element) := do
  let out ← h.filled region.shape
  h.readParts order out s

/-- Makes a call with the parts of its region taken in the given order. -/
def callInOrder (h : ArrayHandle t) (order : List ChunkPart) : RegionCall t → ArrayAction σ Unit
  | .write region data => do
    if data.shape ≠ region.shape then throw (.error (.shapeMismatch region.shape data.shape))
    h.mergeParts (mergeData data) order
  | .fill _ value => h.mergeParts (mergeValue value) order

/-! ### Reading -/

theorem readRegion_eq (hparts : h.partsOf region = .ok parts) :
    h.readRegion region s = h.readInOrder parts.toList region s := by
  rw [readRegion, hparts, Outcome.ok_bind]
  rfl

theorem exists_storedChunk?_of_readParts {start : NdArray t.Element}
    (hread : h.readParts order start s = .ok out) :
    ∀ p ∈ order, ∃ stored, h.storedChunk? p.chunk s = .ok stored := by
  induction order generalizing start with
  | nil => exact fun _ hp => absurd hp List.not_mem_nil
  | cons p order ih =>
    rw [readParts, List.foldlM_cons] at hread
    obtain ⟨next, hpart, hrest⟩ := Outcome.bind_eq_ok_iff.1 hread
    obtain ⟨stored, hstored, -⟩ := Outcome.bind_eq_ok_iff.1 hpart
    exact List.forall_mem_cons.2 ⟨⟨stored, hstored⟩, ih hrest⟩

section

variable (hwf : h.WellFormed) (hfits : region.Fits h.shape)
  (horder : order.Perm (h.grid.regionParts region))

include hwf hfits horder

theorem readInOrder_shown (hstored : ∀ p ∈ order, ∃ stored, h.storedChunk? p.chunk s = .ok stored)
    (hroom : t.HasRoomFor region.shape) :
    ∃ out, h.readInOrder order region s = .ok out ∧ out.shape = region.shape ∧
      ∀ j : Index, j.Inside region.shape → out.cell j = h.shown s (region.index j) := by
  obtain ⟨start, hstart⟩ := NdArray.exists_filled hroom h.fillValue
  obtain ⟨hshape, hfill⟩ := NdArray.filled_spec hstart
  have hshows (p : ChunkPart) (hp : p ∈ order) : ∃ stored, h.storedChunk? p.chunk s = .ok stored ∧
      h.ShowsChunk (h.shown s) p.chunk stored := by
    obtain ⟨stored, hstored⟩ := hstored p hp
    have hends := ends_storedChunk? hwf DataType.lacks_overflow p.chunk s
    rw [hstored] at hends
    have hchunk := isChunk_part hwf hfits (horder.mem_iff.1 hp)
    exact ⟨stored, hstored, showsChunk_shown hwf hchunk hstored hends⟩
  obtain ⟨out, hout, houtShape, hread⟩ :=
    readParts_spec hwf hfits (fun p hp => horder.mem_iff.1 hp) hshows
      ⟨hshape, fun j hj => .inl (hfill j hj)⟩
  refine ⟨out, ?_, houtShape, fun j hj => hread j hj (.inl ?_)⟩
  · rw [readInOrder, filled, hstart, Checked.guarded_ok, Outcome.ok_bind, hout]
  · obtain ⟨p, hp, hpj⟩ := RegularGrid.exists_part hwf.cuts hfits hj
    exact ⟨p, horder.mem_iff.2 hp, hpj⟩

/-- What is read depends on the chunks of the parts alone and not on their order. -/
theorem readInOrder_eq_ok_iff :
    h.readInOrder order region s = .ok out ↔ t.HasRoomFor region.shape ∧
      (∀ p ∈ h.grid.regionParts region, ∃ stored, h.storedChunk? p.chunk s = .ok stored) ∧
      out.shape = region.shape ∧
      ∀ j : Index, j.Inside region.shape → out.cell j = h.shown s (region.index j) := by
  constructor
  · intro hread
    obtain ⟨start, hstart, hparts⟩ := Outcome.bind_eq_ok_iff.1 hread
    have hroom := NdArray.hasRoomFor_of_filled (Checked.guarded_eq_ok_iff.1 hstart)
    have hstored := exists_storedChunk?_of_readParts hparts
    obtain ⟨out', hout', hshape, hcell⟩ := readInOrder_shown hwf hfits horder hstored hroom
    obtain rfl := Except.ok.inj (hout'.symm.trans hread)
    exact ⟨hroom, fun p hp => hstored p (horder.mem_iff.2 hp), hshape, hcell⟩
  · rintro ⟨hroom, hstored, hshape, hcell⟩
    obtain ⟨out', hout', hshape', hcell'⟩ :=
      readInOrder_shown hwf hfits horder (fun p hp => hstored p (horder.mem_iff.1 hp)) hroom
    have heq : out' = out := NdArray.ext_cell (hshape'.trans hshape.symm) fun j hj => by
      rw [hshape'] at hj
      rw [hcell' j hj, hcell j hj]
    rw [hout', heq]

end

/-! ### Writing -/

theorem callInOrder_eq_ok_iff (hbounds : call.region.checkBounds h.shape = .ok ())
    (hwords : h.grid.CountsInWords call.region) :
    h.callInOrder order call s = (.ok (), s') ↔
      h.Accepts call ∧ h.runSteps (order.map fun p => .merge ⟨call, p⟩) s = (.ok (), s') := by
  have haccepts : h.Accepts call ↔ call.FillsRegion := ⟨(·.fills), fun hfills => ⟨hbounds, hwords, hfills⟩⟩
  rw [← mergeParts_eq, haccepts]
  cases call with
  | write region data =>
    exact StoreAction.guard_eq_ok_iff.trans (and_congr_left fun _ => not_not)
  | fill region value => exact (and_iff_right trivial).symm

theorem change_eq_callInOrder (hparts : h.partsOf call.region = .ok parts) (s : σ) :
    h.change call.change s = h.callInOrder parts.toList call s := by
  have hmerge : h.mergeRegion call.region call.merge s = h.mergeParts call.merge parts.toList s := by
    rw [mergeRegion, StoreAction.reading_bind_apply, hparts]
  cases call with
  | write region data =>
    show h.writeRegion region data s = _
    rw [writeRegion, callInOrder]
    split
    · rfl
    · exact hmerge
  | fill region value => exact hmerge

/-- The parts of a region make steps on different chunks, in whatever order they are taken. -/
theorem isStep_of_perm (hwf : h.WellFormed) (haccepts : h.Accepts call)
    (horder : order.Perm (h.grid.regionParts call.region)) :
    (∀ step ∈ order.map fun p => ChunkStep.merge ⟨call, p⟩, h.IsStep step) ∧
      (order.map fun p => ChunkStep.merge ⟨call, p⟩).Pairwise fun x y => x.chunk ≠ y.chunk := by
  constructor
  · intro step hstep
    obtain ⟨p, hp, rfl⟩ := List.mem_map.1 hstep
    exact ⟨haccepts, horder.mem_iff.1 hp⟩
  · have hnodup := RegularGrid.nodup_chunks hwf.cuts (haccepts.fits hwf)
    exact List.pairwise_map.2 (List.pairwise_map.1 ((horder.map _).nodup_iff.2 hnodup))

/-! ### Any order -/

/-- Reads and calls of a region end in the same way in this order as in row-major order. -/
structure OrderFree (h : ArrayHandle t) (v : StoreView σ) (region : Region) (order : List ChunkPart)
    (s : σ) : Prop where
  read : ∀ out, h.readInOrder order region s = .ok out ↔ h.readRegion region s = .ok out
  succeeds : ∀ call : RegionCall t, call.region = region →
    ((∃ s', h.callInOrder order call s = (.ok (), s')) ↔
      ∃ s', h.change call.change s = (.ok (), s'))
  entries : ∀ call : RegionCall t, call.region = region → ∀ s₁ s₂,
    h.callInOrder order call s = (.ok (), s₁) → h.change call.change s = (.ok (), s₂) →
    ∀ k, v.keys k → v.entry k s₁ = v.entry k s₂

/-- On a store that does not fail, the parts of a region may be taken in any order. -/
theorem orderFree_of_perm (hobtained : h.Obtained (σ := σ)) {v : StoreView σ}
    (hkeeps : KeepsEntries v) (hnever : NeverFails v)
    (hkeys : ∀ chunk, h.IsChunk chunk → v.keys (h.chunkKey chunk)) (hs : v.good s)
    (hparts : h.partsOf region = .ok parts) (horder : order.Perm parts.toList) :
    h.OrderFree v region order s := by
  have hwf := hobtained.wellFormed
  obtain ⟨hfits, hwords, -⟩ := (partsOf_eq_ok_iff hwf).1 hparts
  obtain ⟨-, htoList⟩ := partsOf_spec hwf hparts
  have hbounds := (Region.checkBounds_eq_ok_iff hwf.lt_wordLimit).2 hfits
  have hrows : parts.toList.Perm (h.grid.regionParts region) := .of_eq htoList
  have horder' := horder.trans hrows
  constructor
  · intro out
    rw [readRegion_eq hparts, readInOrder_eq_ok_iff hwf hfits horder',
      readInOrder_eq_ok_iff hwf hfits hrows]
  · rintro call rfl
    rw [change_eq_callInOrder hparts]
    simp only [callInOrder_eq_ok_iff hbounds hwords, exists_and_left]
    refine and_congr_right fun haccepts => ?_
    obtain ⟨hsteps, hpairs⟩ := isStep_of_perm hwf haccepts horder'
    obtain ⟨hsteps', hpairs'⟩ := isStep_of_perm hwf haccepts hrows
    rw [exists_runSteps_iff hwf hkeeps hnever hkeys hsteps hpairs hs,
      exists_runSteps_iff hwf hkeeps hnever hkeys hsteps' hpairs' hs]
    simp only [List.forall_mem_map, horder.mem_iff]
  · rintro call rfl s₁ s₂ hrun hrun'
    rw [change_eq_callInOrder hparts] at hrun'
    obtain ⟨haccepts, hrun⟩ := (callInOrder_eq_ok_iff hbounds hwords).1 hrun
    obtain ⟨-, hrun'⟩ := (callInOrder_eq_ok_iff hbounds hwords).1 hrun'
    obtain ⟨hsteps, hpairs⟩ := isStep_of_perm hwf haccepts horder'
    obtain ⟨hsteps', hpairs'⟩ := isStep_of_perm hwf haccepts hrows
    have hdone := stepsDone_of_runSteps hwf hkeeps hkeys hsteps hpairs hs hrun
    have hdone' := stepsDone_of_runSteps hwf hkeeps hkeys hsteps' hpairs' hs hrun'
    exact fun k hk => hdone.entry_eq hdone' (fun step => (horder.map _).mem_iff) hk

/-- The last two rows of a small array, which lie in four chunks. -/
def lastRowsRegion : Region := [⟨1, 2, 1⟩, ⟨0, 4, 1⟩]

theorem orderFree_of_perm_reversed :
    ∃ parts, maskedHandle.partsOf lastRowsRegion = .ok parts ∧
      maskedHandle.OrderFree (.ofValues (fun _ => True) fun _ => True) lastRowsRegion
        parts.toList.reverse maskedStore := by
  have hobtained : maskedHandle.Obtained (σ := MemoryStore) := .create (by decide) create_masked
  have hwf := hobtained.wellFormed
  have hfits := (Region.checkBounds_eq_ok_iff hwf.lt_wordLimit).1
    (rfl : lastRowsRegion.checkBounds maskedHandle.shape = .ok ())
  have hparts := partsOf_of_fits hwf hfits
    (RegularGrid.countsInWords_of_isAddressable hwf.cuts hfits rfl (by decide))
  exact ⟨_, hparts, orderFree_of_perm hobtained (MemoryStore.keepsEntries _)
    (MemoryStore.neverFails _) (fun _ _ => trivial) trivial hparts (List.reverse_perm _)⟩

end ArrayHandle

end ChunkedArray
