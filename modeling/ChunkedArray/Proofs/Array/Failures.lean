import ChunkedArray.Proofs.Array.StepRuns

/-!
# Changes that fail

A change that fails was refused and did nothing, or it stopped at one of the chunks that it meets. The
chunks before that one, in row-major order, then hold what the change makes of them; that chunk, the
later ones and everything else hold what they held before.
-/

namespace ChunkedArray

namespace ArrayHandle

variable {t : DataType} {σ : Type} {h : ArrayHandle t} {v : StoreView σ}
  {c : ArrayChange t} {call : RegionCall t} {s s' : σ} {chunk : Index} {entry : Option Bytes}
  {region : Region} {p : ChunkPart} {place : Index} {f : Failure ArrayError}

/-! ### What a change makes of a chunk -/

/-- The cell at a place of a chunk of which this is stored, as far as it can be read. -/
def heldCell (h : ArrayHandle t) (chunk : Index) (entry : Option Bytes) (place : Index) : t.Element :=
  match h.foundChunk chunk (.ok entry) with
  | .ok (some cells) => cells.cell place
  | _ => h.fillValue

/-- The cells that the entries of a store hold, as far as they can be read. -/
def held (h : ArrayHandle t) (v : StoreView σ) (s : σ) (i : Index) : t.Element :=
  let chunk := h.grid.chunkOf i
  h.heldCell chunk (v.entry (h.chunkKey chunk) s) (h.grid.placeOf i)

/-- The change sets every cell that the array has in this chunk. -/
def SetsAll (h : ArrayHandle t) (c : ArrayChange t) (chunk : Index) : Prop :=
  ∀ i : Index, i.Inside h.shape → h.grid.chunkOf i = chunk → h.Sets c i

/-- The cells that a change of a region makes of a chunk. Inside the array they are those of the
changed plain array. Past its end they are left, or have the fill value if nothing of the chunk inside
the array is left. -/
structure FullyMerged (h : ArrayHandle t) (v : StoreView σ) (c : ArrayChange t) (chunk : Index) (s : σ)
    (cells : NdArray t.Element) : Prop where
  shape_eq : cells.shape = h.grid.chunkShape
  cell_inside : ∀ place : Index, place.Inside (h.grid.chunkExtent chunk h.shape) →
    cells.cell place = h.changePlain (h.held v s) c (h.grid.cellAt chunk place)
  cell_past_of_setsAll : h.SetsAll c chunk → ∀ place : Index, place.Inside h.grid.chunkShape →
    ¬ place.Inside (h.grid.chunkExtent chunk h.shape) → cells.cell place = h.fillValue
  cell_past : ¬ h.SetsAll c chunk → ∀ place : Index, place.Inside h.grid.chunkShape →
    ¬ place.Inside (h.grid.chunkExtent chunk h.shape) →
    cells.cell place = h.heldCell chunk (v.entry (h.chunkKey chunk) s) place
  readable : ¬ h.SetsAll c chunk →
    ∃ stored, h.foundChunk chunk (.ok (v.entry (h.chunkKey chunk) s)) = .ok stored

theorem foundChunk_heldCell {stored : Option (NdArray t.Element)}
    (hstored : h.foundChunk chunk (.ok entry) = .ok stored) (place : Index) :
    h.heldCell chunk entry place = stored.elim h.fillValue (·.cell place) := by
  rw [heldCell, hstored]
  cases stored <;> rfl

theorem held_cellAt (hwf : h.WellFormed) (hchunk : h.IsChunk chunk)
    (hplace : place.Inside (h.grid.chunkExtent chunk h.shape)) :
    h.held v s (h.grid.cellAt chunk place) =
      h.heldCell chunk (v.entry (h.chunkKey chunk) s) place := by
  obtain ⟨-, hof, hat⟩ := cellAt_spec hwf hchunk hplace
  rw [held, hof, hat]

/-- The cells of the region in the chunk of a part are those of the part. -/
theorem exists_part_index (hwf : h.WellFormed) (hfits : region.Fits h.shape)
    (hp : p ∈ h.grid.regionParts region) {j : Index} (hj : j.Inside region.shape)
    (hof : h.grid.chunkOf (region.index j) = p.chunk) :
    ∃ k : Index, k.Inside p.inChunk.shape ∧ p.inRegion.index k = j ∧
      p.inChunk.index k = h.grid.placeOf (region.index j) := by
  obtain ⟨q, hq, k, hk, rfl⟩ := RegularGrid.exists_part hwf.cuts hfits hj
  have hchunk : q.chunk = p.chunk := (part_chunkOf hwf hfits hq hk).symm.trans hof
  obtain rfl := List.inj_on_of_nodup_map (RegularGrid.nodup_chunks hwf.cuts hfits) hq hp hchunk
  exact ⟨k, (isPartOf_of_mem hwf hfits hq).shape_eq ▸ hk, rfl, (part_placeOf hwf hfits hq hk).symm⟩

theorem exists_inChunk_index_eq (hwf : h.WellFormed) (hfits : region.Fits h.shape)
    (hp : p ∈ h.grid.regionParts region)
    (hplace : place.Inside (h.grid.chunkExtent p.chunk h.shape)) {j : Index}
    (hj : j.Inside region.shape) (he : region.index j = h.grid.cellAt p.chunk place) :
    ∃ k : Index, k.Inside p.inChunk.shape ∧ p.inChunk.index k = place := by
  obtain ⟨-, hof, hat⟩ := cellAt_spec hwf (isChunk_part hwf hfits hp) hplace
  rw [← he] at hof hat
  obtain ⟨k, hk, -, hplaceOf⟩ := exists_part_index hwf hfits hp hj hof
  exact ⟨k, hk, hplaceOf.trans hat⟩

theorem replacesChunk_iff (hwf : h.WellFormed) (hperforms : h.Performs c call)
    (hp : p ∈ h.grid.regionParts call.region) :
    h.replacesChunk p = .ok true ↔ h.SetsAll c p.chunk := by
  have hfits := hperforms.accepts.fits hwf
  have hchunk := isChunk_part hwf hfits hp
  have hpart := isPartOf_of_mem hwf hfits hp
  rw [replacesChunk_eq_ok hwf hfits hp, Except.ok.injEq]
  constructor
  · rintro hwhole i hi hof
    have hplace := RegularGrid.placeOf_inside hwf.cuts hi
    rw [hof] at hplace
    obtain ⟨hk, he⟩ := Region.index_of_isWholeOf hwhole hplace
    rw [hpart.shape_eq] at hk
    refine (hperforms.sets_iff i).2 ⟨_, hpart.index_inside hk, ?_⟩
    rw [← part_cellAt hwf hfits hp hk, he, ← hof]
    exact RegularGrid.cellAt_chunkOf_placeOf (hi.length_eq.trans hwf.cuts.length_eq.symm)
  · intro hall
    have hextent := hpart.inChunk_fits hwf.cuts.pos hfits
    refine Region.isWholeOf_of_index hextent ?_ fun place hplace => ?_
    · exact RegularGrid.exists_inside_chunkExtent hwf.cuts hchunk
    · obtain ⟨hinside, hof, -⟩ := cellAt_spec hwf hchunk hplace
      obtain ⟨j, hj, he⟩ := (hperforms.sets_iff _).1 (hall _ hinside hof)
      exact exists_inChunk_index_eq hwf hfits hp hplace hj he

/-- What a part is merged into: the fill value, or what is held if that can be read. -/
theorem baseFrom_cell {base : NdArray t.Element} (hbase : h.baseFrom p (.ok entry) = .ok base) :
    (h.replacesChunk p = .ok true ∧
      ∀ place : Index, place.Inside h.grid.chunkShape → base.cell place = h.fillValue) ∨
    (h.replacesChunk p = .ok false ∧ (∃ stored, h.foundChunk p.chunk (.ok entry) = .ok stored) ∧
      ∀ place : Index, place.Inside h.grid.chunkShape →
        base.cell place = h.heldCell p.chunk entry place) := by
  obtain ⟨whole, hguarded, hbase⟩ := Outcome.bind_eq_ok_iff.1 hbase
  have hwhole := Checked.guarded_eq_ok_iff.1 hguarded
  cases whole with
  | true => exact .inl ⟨hwhole, (NdArray.filled_spec (Checked.guarded_eq_ok_iff.1 hbase)).2⟩
  | false =>
    obtain ⟨stored, hstored, hbase⟩ := Outcome.bind_eq_ok_iff.1 hbase
    refine .inr ⟨hwhole, ⟨stored, hstored⟩, fun place hplace => ?_⟩
    rw [foundChunk_heldCell hstored]
    cases stored with
    | none => exact (NdArray.filled_spec (Checked.guarded_eq_ok_iff.1 hbase)).2 place hplace
    | some cells =>
      obtain rfl := Except.ok.inj hbase
      rfl

/-- Where a part was merged into a chunk that shows a plain array, as far as the part leaves it, the
chunk shows the plain array with the region replaced. -/
theorem replaced_cell (hwf : h.WellFormed) (hfits : region.Fits h.shape)
    (hp : p ∈ h.grid.regionParts region) {g plain : Index → t.Element} {base cells : NdArray t.Element}
    (hshape : base.shape = h.grid.chunkShape)
    (hreplaced : NdArray.Replaced p.inChunk (fun k => g (p.inRegion.index k)) base cells)
    (hplace : place.Inside (h.grid.chunkExtent p.chunk h.shape))
    (hleft : (∀ k : Index, k.Inside p.inChunk.shape → p.inChunk.index k ≠ place) →
      base.cell place = plain (h.grid.cellAt p.chunk place)) :
    cells.cell place = overwrite region.shape region.index g plain (h.grid.cellAt p.chunk place) := by
  have hpart := isPartOf_of_mem hwf hfits hp
  by_cases hhit : ∃ k : Index, k.Inside p.inChunk.shape ∧ p.inChunk.index k = place
  · obtain ⟨k, hk, rfl⟩ := hhit
    have hk' : k.Inside p.inRegion.shape := hpart.shape_eq ▸ hk
    rw [hreplaced.cell_index k hk, part_cellAt hwf hfits hp hk']
    exact (overwrite_index (fun i j hi hj he => hfits.index_injective hi hj he)
      (hpart.index_inside hk')).symm
  · have hmiss : ∀ k : Index, k.Inside p.inChunk.shape → p.inChunk.index k ≠ place :=
      fun k hk he => hhit ⟨k, hk, he⟩
    have hin := inside_chunkShape hwf (isChunk_part hwf hfits hp) hplace
    rw [hreplaced.cell_of_ne place (hshape ▸ hin) hmiss, hleft hmiss]
    refine (overwrite_of_ne fun j hj he => hhit ?_).symm
    exact exists_inChunk_index_eq hwf hfits hp hplace hj he

/-- Past the end of the array no cell is set. -/
theorem replaced_past (hwf : h.WellFormed) (hfits : region.Fits h.shape)
    (hp : p ∈ h.grid.regionParts region) {g : Index → t.Element} {base cells : NdArray t.Element}
    (hshape : base.shape = h.grid.chunkShape)
    (hreplaced : NdArray.Replaced p.inChunk (fun k => g (p.inRegion.index k)) base cells)
    (hplace : place.Inside h.grid.chunkShape)
    (hout : ¬ place.Inside (h.grid.chunkExtent p.chunk h.shape)) :
    cells.cell place = base.cell place := by
  have hextent := (isPartOf_of_mem hwf hfits hp).inChunk_fits hwf.cuts.pos hfits
  refine hreplaced.cell_of_ne place (hshape ▸ hplace) ?_
  rintro k hk rfl
  exact hout (hextent.index_inside hk)

/-- A step of a region makes the fully merged chunk. -/
theorem fullyMerged_of_newEntry (hwf : h.WellFormed) (hperforms : h.Performs c call)
    (hp : p ∈ h.grid.regionParts call.region)
    (hentry : h.newEntry (.ok (v.entry (h.chunkKey p.chunk) s)) (.merge ⟨call, p⟩) = .ok entry) :
    ∃ cells, h.FullyMerged v c p.chunk s cells ∧ h.entryOf p.chunk cells = .ok entry := by
  have hfits := hperforms.accepts.fits hwf
  have htask : h.HasTask ⟨call, p⟩ := ⟨hperforms.accepts, hp⟩
  have hchunk := isChunk_part hwf hfits hp
  have hwhole := replacesChunk_iff hwf hperforms hp
  obtain ⟨base, cells, hbase, hcells, hentry⟩ := newEntry_merge_eq_ok_iff.1 hentry
  have hshape : base.shape = h.grid.chunkShape := shape_baseFrom hwf hbase
  have hreplaced : NdArray.Replaced p.inChunk (fun k => call.value (p.inRegion.index k)) base cells :=
    htask.replaced hwf hshape hcells
  have hbaseCell := baseFrom_cell hbase
  have hinside (place : Index) (hplace : place.Inside (h.grid.chunkExtent p.chunk h.shape)) :
      cells.cell place = h.changePlain (h.held v s) c (h.grid.cellAt p.chunk place) := by
    rw [hperforms.changePlain_eq]
    refine replaced_cell hwf hfits hp hshape hreplaced hplace fun hmiss => ?_
    rcases hbaseCell with ⟨hall, -⟩ | ⟨-, -, hheld⟩
    · rw [replacesChunk_eq_ok hwf hfits hp] at hall
      obtain ⟨hk, he⟩ := Region.index_of_isWholeOf (Except.ok.inj hall) hplace
      exact absurd he (hmiss place hk)
    · rw [held_cellAt hwf hchunk hplace]
      exact hheld place (inside_chunkShape hwf hchunk hplace)
  refine ⟨cells, ⟨hreplaced.shape_eq.trans hshape, hinside, ?_, ?_, ?_⟩, hentry⟩
  · intro hsets place hplace hout
    rcases hbaseCell with ⟨-, hfill⟩ | ⟨hsome, -, -⟩
    · rw [replaced_past hwf hfits hp hshape hreplaced hplace hout, hfill place hplace]
    · cases hsome.symm.trans (hwhole.2 hsets)
  · intro hleft place hplace hout
    rcases hbaseCell with ⟨hall, -⟩ | ⟨-, -, hheld⟩
    · exact absurd (hwhole.1 hall) hleft
    · rw [replaced_past hwf hfits hp hshape hreplaced hplace hout, hheld place hplace]
  · intro hleft
    rcases hbaseCell with ⟨hall, -⟩ | ⟨-, hstored, -⟩
    · exact absurd (hwhole.1 hall) hleft
    · exact hstored

/-- The same of any step before another one; a change of a whole chunk has only one. -/
theorem Plans.fullyMerged (hwf : h.WellFormed) {steps : List (ChunkStep t)}
    (hplans : h.Plans c steps) {step later : ChunkStep t} (hstep : step ∈ steps)
    (hlater : later ∈ steps) (hlt : step.chunk < later.chunk)
    (hentry : h.newEntry (.ok (v.entry (h.chunkKey step.chunk) s)) step = .ok entry) :
    ∃ cells, h.FullyMerged v c step.chunk s cells ∧ h.entryOf step.chunk cells = .ok entry := by
  have hsingle {only : ChunkStep t} (hstep : step ∈ [only]) (hlater : later ∈ [only]) : False := by
    obtain rfl := List.mem_singleton.1 hstep
    obtain rfl := List.mem_singleton.1 hlater
    exact List.lt_irrefl _ hlt
  cases hplans with
  | store => exact (hsingle hstep hlater).elim
  | erase => exact (hsingle hstep hlater).elim
  | merge hperforms =>
    obtain ⟨x, hx, rfl⟩ := List.mem_map.1 hstep
    obtain ⟨p, hp, rfl⟩ := List.mem_map.1 hx
    exact fullyMerged_of_newEntry hwf hperforms hp hentry

/-! ### Where a change stops -/

variable [Store σ]

/-- A change took the store from `s` to `s'` and stopped at a chunk with the failure `f`. -/
structure StoppedAt (h : ArrayHandle t) (v : StoreView σ) (c : ArrayChange t) (chunk : Index)
    (f : Failure ArrayError) (s s' : σ) : Prop where
  meets : h.Meets c chunk
  chunk?_eq : ∀ e : ArrayError, f = .error e → e.chunk? = some chunk
  fails : ∃ s₁, v.Same s₁ s' ∧ h.FailsOn chunk s₁ f
  merged : ∀ before, h.Meets c before → before < chunk → ∃ cells,
    h.FullyMerged v c before s cells ∧
      h.entryOf before cells = .ok (v.entry (h.chunkKey before) s')
  later : ∀ other, h.IsChunk other → ¬ other < chunk →
    v.entry (h.chunkKey other) s' = v.entry (h.chunkKey other) s
  kept : ∀ k, v.keys k → (∀ before, h.Meets c before → before < chunk → k ≠ h.chunkKey before) →
    v.entry k s' = v.entry k s

omit [Store σ] in
/-- The chunks that a change meets before that of a step are those of the steps before it. -/
theorem Plans.meets_before_iff (hwf : h.WellFormed) {before after : List (ChunkStep t)}
    {step : ChunkStep t} (hplans : h.Plans c (before ++ step :: after)) :
    h.Meets c chunk ∧ chunk < step.chunk ↔ ∃ x ∈ before, x.chunk = chunk := by
  obtain ⟨-, hpairs, hcross⟩ := List.pairwise_append.1 (hplans.pairwise_chunk hwf)
  constructor
  · rintro ⟨hmeets, hlt⟩
    obtain ⟨x, hx, rfl⟩ := (hplans.meets_iff hwf).1 hmeets
    rcases List.mem_append.1 hx with hx | hx
    · exact ⟨x, hx, rfl⟩
    · rcases List.mem_cons.1 hx with rfl | hx
      · exact absurd hlt (List.lt_irrefl _)
      · exact absurd hlt (List.lt_asymm ((List.pairwise_cons.1 hpairs).1 x hx))
  · rintro ⟨x, hx, rfl⟩
    refine ⟨(hplans.meets_iff hwf).2 ⟨x, List.mem_append_left _ hx, rfl⟩, ?_⟩
    exact hcross x hx step List.mem_cons_self

/-- Where the steps before one were done and this one failed, the change stopped at its chunk. -/
theorem stoppedAt_of_split (hwf : h.WellFormed) (hkeeps : KeepsEntries v)
    (hkeys : ∀ chunk, h.IsChunk chunk → v.keys (h.chunkKey chunk)) (hs : v.good s)
    {before after : List (ChunkStep t)} {step : ChunkStep t}
    (hplans : h.Plans c (before ++ step :: after)) {s₁ : σ}
    (hbefore : h.runSteps before s = (.ok (), s₁)) (hstep : h.runStep step s₁ = (.error f, s')) :
    h.StoppedAt v c step.chunk f s s' := by
  have hall := hplans.isStep
  rw [List.forall_mem_append, List.forall_mem_cons] at hall
  have hmem : step ∈ before ++ step :: after := List.mem_append_right _ List.mem_cons_self
  have hdone := stepsDone_of_runSteps hwf hkeeps hkeys hall.1
    (List.pairwise_append.1 (hplans.pairwise_ne hwf)).1 hs hbefore
  obtain ⟨hsame, hfails⟩ :=
    runStep_error hkeeps hdone.isGood hwf hall.2.1 (hkeys _ (hall.2.1.isChunk hwf)) hstep
  have hkept {k : Key} (hk : v.keys k) (hmiss : ∀ x ∈ before, k ≠ h.chunkKey x.chunk) :
      v.entry k s' = v.entry k s := (hsame.entry_eq k hk).trans (hdone.kept k hk hmiss)
  have hearlier {x : ChunkStep t} (hx : x ∈ before) : h.Meets c x.chunk ∧ x.chunk < step.chunk :=
    (hplans.meets_before_iff hwf).2 ⟨x, hx, rfl⟩
  refine ⟨(hplans.meets_iff hwf).2 ⟨step, hmem, rfl⟩, ?_, ⟨s₁, hsame, hfails⟩,
    fun chunk hmeets hlt => ?_, fun other hother hlt => ?_, fun k hk hmiss => ?_⟩
  · rintro e rfl
    exact hfails.chunk?_eq
  · obtain ⟨x, hx, rfl⟩ := (hplans.meets_before_iff hwf).1 ⟨hmeets, hlt⟩
    rw [hsame.entry_eq _ (hkeys _ ((hall.1 x hx).isChunk hwf))]
    exact hplans.fullyMerged hwf (List.mem_append_left _ hx) hmem hlt (hdone.made x hx)
  · refine hkept (hkeys _ hother) fun x hx => chunkKey_ne hwf ((hall.1 x hx).isChunk hwf) hother ?_
    rintro rfl
    exact hlt (hearlier hx).2
  · exact hkept hk fun x hx => hmiss x.chunk (hearlier hx).1 (hearlier hx).2

/-- A change that fails was refused, and did nothing, or it stopped at a chunk. It is refused if it
fails a check, and if the parts of its region have numbers that are no words. -/
theorem refused_or_stoppedAt (hobtained : h.Obtained (σ := σ)) (hkeeps : KeepsEntries v)
    (hkeys : ∀ chunk, h.IsChunk chunk → v.keys (h.chunkKey chunk)) (hs : v.good s)
    (hrun : h.change c s = (.error f, s')) :
    (Refuses (h.PlanLacks c) f ∧ s' = s) ∨ ∃ chunk, h.StoppedAt v c chunk f s s' := by
  have hwf := hobtained.wellFormed
  rcases change_cases hwf c s with ⟨f', hf', hrefused⟩ | ⟨steps, hplans, hsteps⟩
  · obtain ⟨hf, rfl⟩ := Prod.mk.inj (hrefused.symm.trans hrun)
    obtain rfl := Except.error.inj hf
    exact .inl ⟨hf', rfl⟩
  · obtain ⟨before, step, after, s₁, rfl, hbefore, hstep⟩ :=
      StoreAction.forM_eq_error (hsteps.symm.trans hrun)
    exact .inr ⟨_, stoppedAt_of_split hwf hkeeps hkeys hs hplans hbefore hstep⟩

/-- The store of a small array, in which one chunk can be neither read nor changed. -/
def faultyStore : FaultyStore MemoryStore :=
  ⟨maskedStore, fun k => k = maskedHandle.chunkKey [1, 0], .readOnly⟩

def faultyView : StoreView (FaultyStore MemoryStore) :=
  FaultyStore.view (.ofValues (fun _ => True) fun _ => True)

/-- A change of the last two rows, which lie in four chunks. -/
def lastRows : ArrayChange (.uint .bits16) :=
  .fillSelection [.slice 1 none 1, .full] (DataType.ofPattern _ 9)

/-- The chunk that a failure names. -/
def failedChunk? : Checked ArrayError Unit → Option Index
  | .error (.error e) => e.chunk?
  | _ => none

/-- The change stops at the third chunk. -/
theorem refused_or_stoppedAt_faulty :
    ∃ f s', maskedHandle.change lastRows faultyStore = (.error f, s') ∧
      maskedHandle.StoppedAt faultyView lastRows [1, 0] f faultyStore s' := by
  have hmade : create _ .root maskedMetadata maskRegistry (.default 1)
      (⟨.empty, fun _ => false, .readOnly⟩ : FaultyStore MemoryStore) =
        (.ok maskedHandle, ⟨maskedStore, fun _ => false, .readOnly⟩) := rfl
  have hkeeps : KeepsEntries faultyView := FaultyStore.keepsEntries (MemoryStore.keepsEntries _)
  have hchunk : failedChunk? (maskedHandle.change lastRows faultyStore).1 = some [1, 0] := by
    decide +kernel
  rcases hrun : maskedHandle.change lastRows faultyStore with ⟨f | _, s'⟩
  · rw [hrun] at hchunk
    refine ⟨f, s', rfl, ?_⟩
    rcases refused_or_stoppedAt (.create (by decide) hmade) hkeeps (fun _ _ => trivial) trivial hrun
      with ⟨hf, -⟩ | ⟨chunk, hstopped⟩
    · cases hf with
      | check he => cases he <;> cases hchunk
      | missing => cases hchunk
    · cases f with
      | violation v => cases hchunk
      | error e =>
        obtain rfl : chunk = [1, 0] :=
          Option.some.inj ((hstopped.chunk?_eq e rfl).symm.trans hchunk)
        exact hstopped
  · rw [hrun] at hchunk
    cases hchunk

end ArrayHandle

end ChunkedArray
