import ChunkedArray.Proofs.Array.Tasks

/-!
# Changes as steps on chunks

A change that passes its checks comes to one step for each chunk that it meets, in row-major order.
A step reads the entry of its chunk, makes the new entry from it and puts that into the store; so all
that a change does to a store is done by steps.
-/

namespace ChunkedArray

/-- What a change does to one chunk. -/
inductive ChunkStep (t : DataType) where
  | store (chunk : Index) (cells : NdArray t.Element)
  | erase (chunk : Index)
  | merge (x : Task t)

def ChunkStep.chunk {t : DataType} : ChunkStep t → Index
  | .store chunk _ | .erase chunk => chunk
  | .merge x => x.chunk

/-- Errors of a change that fails one of its checks. -/
inductive ArrayError.IsRefusal : ArrayError → Prop where
  | outOfBounds (e : IndexError) : IsRefusal (.outOfBounds e)
  | shapeMismatch (expected actual : Shape) : IsRefusal (.shapeMismatch expected actual)

namespace ArrayHandle

variable {t : DataType} {σ : Type} [Store σ] {h : ArrayHandle t} {c : ArrayChange t}
  {steps : List (ChunkStep t)} {step : ChunkStep t} {s : σ} {chunk : Index}
  {found : Except StoreError (Option Bytes)} {entry : Option Bytes}

/-! ### Entries of chunks -/

/-- What is stored for a chunk with these cells: nothing if the chunk is dropped. -/
def entryOf (h : ArrayHandle t) (chunk : Index) (cells : NdArray t.Element) :
    Checked ArrayError (Option Bytes) :=
  if !h.options.storeEmptyChunks && h.isEmptyChunk cells then .ok none
  else do return some (← Checked.mapError (.encode h.key chunk) (h.codecs.encode cells))

/-- The chunk that a reader found. -/
def foundChunk (h : ArrayHandle t) (chunk : Index) :
    Except StoreError (Option Bytes) → Checked ArrayError (Option (NdArray t.Element))
  | .error e => Checked.fail (.store h.key (some chunk) e)
  | .ok none => .ok none
  | .ok (some bytes) => do return some (← h.decodeChunk chunk bytes)

/-- The cells of a chunk of which this was found, all with the fill value if nothing is stored. -/
def previous (h : ArrayHandle t) (chunk : Index) (found : Except StoreError (Option Bytes)) :
    Checked ArrayError (NdArray t.Element) := do
  let stored ← h.foundChunk chunk found
  stored.elim (h.filled h.grid.chunkShape) .ok

/-- What a part is merged into if this was found of its chunk. -/
def baseFrom (h : ArrayHandle t) (part : ChunkPart) (found : Except StoreError (Option Bytes)) :
    Checked ArrayError (NdArray t.Element) := do
  if ← Checked.guarded (h.replacesChunk part) then h.filled h.grid.chunkShape
  else h.previous part.chunk found

/-- The entry that a step makes of what was found. -/
def newEntry (h : ArrayHandle t) (found : Except StoreError (Option Bytes)) :
    ChunkStep t → Checked ArrayError (Option Bytes)
  | .store chunk cells => h.entryOf chunk cells
  | .erase _ => .ok none
  | .merge x => do
    let base ← h.baseFrom x.part found
    let cells ← Checked.guarded (x.call.merge x.part base)
    h.entryOf x.chunk cells

def putEntry (h : ArrayHandle t) (chunk : Index) : Option Bytes → ArrayAction σ Unit
  | none => do let _ ← h.onChunk chunk (Store.erase (h.chunkKey chunk))
  | some bytes => h.onChunk chunk (Store.set (h.chunkKey chunk) bytes)

def runStep (h : ArrayHandle t) (step : ChunkStep t) : ArrayAction σ Unit := do
  let entry ← StoreAction.reading fun s => h.newEntry (Store.get (h.chunkKey step.chunk) s) step
  h.putEntry step.chunk entry

/-- Runs steps one after the other; the first failure ends it. -/
def runSteps (h : ArrayHandle t) (steps : List (ChunkStep t)) : ArrayAction σ Unit :=
  steps.forM h.runStep

theorem storedChunk?_eq (chunk : Index) (s : σ) :
    h.storedChunk? chunk s = h.foundChunk chunk (Store.get (h.chunkKey chunk) s) := by
  rw [storedChunk?]
  rcases Store.get (h.chunkKey chunk) s with _ | _ | _ <;> rfl

theorem baseFrom_eq_of_replaces {part : ChunkPart} {whole : Bool}
    (hwhole : h.replacesChunk part = .ok whole) (found : Except StoreError (Option Bytes)) :
    h.baseFrom part found =
      if whole then h.filled h.grid.chunkShape else h.previous part.chunk found := by
  rw [baseFrom, hwhole, Checked.guarded_ok, Outcome.ok_bind]

theorem chunkOrFill_eq (chunk : Index) (s : σ) :
    h.chunkOrFill chunk s = h.previous chunk (Store.get (h.chunkKey chunk) s) := by
  rw [chunkOrFill, storedChunk?_eq, previous]
  refine bind_congr fun stored => ?_
  cases stored <;> rfl

theorem mergeBase_eq (part : ChunkPart) (s : σ) :
    h.mergeBase part s = h.baseFrom part (Store.get (h.chunkKey part.chunk) s) := by
  rw [mergeBase, chunkOrFill_eq, baseFrom]

theorem storeChunk_eq (chunk : Index) (cells : NdArray t.Element) :
    (h.storeChunk chunk cells : ArrayAction σ Unit) = h.runStep (.store chunk cells) := by
  funext s
  rw [runStep, StoreAction.reading_bind_apply, newEntry, entryOf, storeChunk]
  split
  · rfl
  · rw [StoreAction.reading_bind_apply]
    cases Checked.mapError (ArrayError.encode h.key chunk) (h.codecs.encode cells) <;> rfl

theorem runTask_eq (x : Task t) : (h.runTask x : ArrayAction σ Unit) = h.runStep (.merge x) := by
  have hstore : (h.storeChunk x.part.chunk : _ → ArrayAction σ Unit) = fun cells =>
      StoreAction.reading (fun _ => h.entryOf x.chunk cells) >>= h.putEntry x.chunk :=
    funext (storeChunk_eq x.chunk)
  simp only [runTask, mergePart, hstore, StoreAction.reading_bind_reading, mergeBase_eq]
  rfl

/-! ### Steps of a change -/

def mergeSteps (h : ArrayHandle t) (call : RegionCall t) : Checked ArrayError (List (ChunkStep t)) := do
  let parts ← h.partsOf call.region
  return parts.toList.map fun p => .merge ⟨call, p⟩

def writeSteps (h : ArrayHandle t) (region : Region) (data : NdArray t.Element) :
    Checked ArrayError (List (ChunkStep t)) :=
  if data.shape ≠ region.shape then Checked.fail (.shapeMismatch region.shape data.shape)
  else h.mergeSteps (.write region data)

/-- The steps that a change comes to, unless one of its checks fails. -/
def stepsOf (h : ArrayHandle t) : ArrayChange t → Checked ArrayError (List (ChunkStep t))
  | .writeChunk chunk cells => do
    h.checkChunk chunk
    if cells.shape ≠ h.grid.chunkShape then
      Checked.fail (.shapeMismatch h.grid.chunkShape cells.shape)
    else return [.store chunk cells]
  | .eraseChunk chunk => do
    h.checkChunk chunk
    return [.erase chunk]
  | .writeRegion region data => h.writeSteps region data
  | .fillRegion region value => h.mergeSteps (.fill region value)
  | .writeSelection selection data => do
    let resolved ← Checked.report .outOfBounds (selection.resolve h.shape)
    let data ← dataForRegion resolved data
    h.writeSteps resolved.region data
  | .fillSelection selection value => do
    let resolved ← Checked.report .outOfBounds (selection.resolve h.shape)
    h.mergeSteps (.fill resolved.region value)

/-- Runs the steps of a change, if there are any to run. -/
def runPlan (h : ArrayHandle t) (plan : Checked ArrayError (List (ChunkStep t))) :
    ArrayAction σ Unit :=
  StoreAction.reading (fun _ => plan) >>= h.runSteps

theorem runPlan_bind {α : Type} (x : Checked ArrayError α)
    (f : α → Checked ArrayError (List (ChunkStep t))) :
    (h.runPlan (x >>= f) : ArrayAction σ Unit) =
      StoreAction.reading (fun _ => x) >>= fun a => h.runPlan (f a) :=
  (StoreAction.reading_bind_reading _ _ _).symm

theorem runPlan_single (step : ChunkStep t) :
    (h.runPlan (.ok [step]) : ArrayAction σ Unit) = h.runStep step :=
  bind_pure (h.runStep step)

theorem mergeParts_eq (call : RegionCall t) (parts : List ChunkPart) :
    (h.mergeParts call.merge parts : ArrayAction σ Unit) =
      h.runSteps (parts.map fun p => .merge ⟨call, p⟩) := by
  have hmerge (p : ChunkPart) :
      (h.mergePart call.merge p : ArrayAction σ Unit) = h.runStep (.merge ⟨call, p⟩) :=
    runTask_eq ⟨call, p⟩
  rw [mergeParts, funext hmerge]
  exact List.forM_map.symm

theorem mergeRegion_eq (call : RegionCall t) :
    (h.mergeRegion call.region call.merge : ArrayAction σ Unit) = h.runPlan (h.mergeSteps call) := by
  rw [mergeSteps, runPlan_bind, mergeRegion]
  exact bind_congr fun parts => mergeParts_eq call parts.toList

theorem writeRegion_eq (region : Region) (data : NdArray t.Element) :
    (h.writeRegion region data : ArrayAction σ Unit) = h.runPlan (h.writeSteps region data) := by
  rw [writeRegion, writeSteps]
  split
  · rfl
  · exact mergeRegion_eq (.write region data)

theorem change_eq (c : ArrayChange t) :
    (h.change c : ArrayAction σ Unit) = h.runPlan (h.stepsOf c) := by
  cases c with
  | writeChunk chunk cells =>
    rw [stepsOf, runPlan_bind]
    refine bind_congr fun _ => ?_
    split
    · rfl
    · exact (storeChunk_eq chunk cells).trans (runPlan_single _).symm
  | eraseChunk chunk =>
    rw [stepsOf, runPlan_bind, change, eraseChunk, bind_assoc]
    refine bind_congr fun _ => ?_
    exact (runPlan_single (.erase chunk)).symm
  | writeRegion region data => exact writeRegion_eq region data
  | fillRegion region value => exact mergeRegion_eq (.fill region value)
  | writeSelection selection data =>
    rw [stepsOf, runPlan_bind, change, writeSelection]
    refine bind_congr fun resolved => ?_
    rw [runPlan_bind]
    exact bind_congr fun full => writeRegion_eq resolved.region full
  | fillSelection selection value =>
    rw [stepsOf, runPlan_bind, change, fillSelection]
    exact bind_congr fun resolved => mergeRegion_eq (.fill resolved.region value)

/-- A change succeeds exactly if it has steps and these succeed. -/
theorem change_eq_ok_iff_exists_steps {c : ArrayChange t} {s s' : σ} : h.change c s = (.ok (), s') ↔
    ∃ steps, h.stepsOf c = .ok steps ∧ h.runSteps steps s = (.ok (), s') := by
  rw [change_eq, runPlan, StoreAction.bind_eq_ok_iff]
  simp only [StoreAction.reading_eq_ok_iff]
  constructor
  · rintro ⟨steps, _, ⟨hsteps, rfl⟩, hrun⟩
    exact ⟨steps, hsteps, hrun⟩
  · rintro ⟨steps, hsteps, hrun⟩
    exact ⟨steps, s, ⟨hsteps, rfl⟩, hrun⟩

/-! ### Changes that are refused -/

/-- What a change fails with before it does anything to a chunk: it fails a check, or something is
missing. -/
inductive Refuses (lacks : Violation → Prop) : Failure ArrayError → Prop where
  | check {e : ArrayError} : e.IsRefusal → Refuses lacks (.error e)
  | missing {v : Violation} : lacks v → Refuses lacks (.violation v)

/-- The region that a change writes or fills, if it comes to one. -/
def regionOf? (h : ArrayHandle t) : ArrayChange t → Option Region
  | .writeChunk .. | .eraseChunk _ => none
  | .writeRegion region _ | .fillRegion region _ => some region
  | .writeSelection selection _ | .fillSelection selection _ =>
    (selection.resolve h.shape).toOption.map (·.region)

/-- What may be missing to find the parts of the region of a change: words for their numbers. -/
def PlanLacks (h : ArrayHandle t) (c : ArrayChange t) (v : Violation) : Prop :=
  ∃ region ∈ h.regionOf? c, h.grid.Exceeds region v

/-- The computation can fail only by refusing what it was given. -/
def OnlyRefuses {α : Type} (lacks : Violation → Prop) (x : Checked ArrayError α) : Prop :=
  ∀ f, x = .error f → Refuses lacks f

section

variable {α β : Type} {lacks : Violation → Prop}

theorem OnlyRefuses.bind {x : Checked ArrayError α} {f : α → Checked ArrayError β}
    (hx : OnlyRefuses lacks x) (hf : ∀ a, x = .ok a → OnlyRefuses lacks (f a)) :
    OnlyRefuses lacks (x >>= f) := by
  intro e he
  cases x with
  | error e' =>
    obtain rfl : e' = e := Except.error.inj he
    exact hx e' rfl
  | ok a => exact hf a rfl e he

theorem onlyRefuses_pure (a : α) : OnlyRefuses lacks (pure a : Checked ArrayError α) :=
  fun _ he => by cases he

theorem onlyRefuses_shapeMismatch (expected actual : Shape) :
    OnlyRefuses lacks (Checked.fail (.shapeMismatch expected actual) : Checked ArrayError α) := by
  intro f hf
  cases hf
  exact .check (.shapeMismatch expected actual)

theorem onlyRefuses_report (x : Except IndexError α) :
    OnlyRefuses lacks (Checked.report .outOfBounds x) := by
  intro f hf
  cases x with
  | ok a => cases hf
  | error e =>
    cases hf
    exact .check (.outOfBounds e)

theorem onlyRefuses_mapError {x : Checked IndexError α} {post : α → Prop}
    (hx : Checked.Ends lacks post (Checked.mapError ArrayError.outOfBounds x)) :
    OnlyRefuses lacks (Checked.mapError .outOfBounds x) := by
  intro f hf
  match x with
  | .ok a => cases hf
  | .error (.error e) =>
    cases hf
    exact .check (.outOfBounds e)
  | .error (.violation v) =>
    cases hf
    exact .missing hx

theorem onlyRefuses_dataForRegion {selection : Selection} {r : ResolvedSelection}
    (hresolve : selection.resolve h.shape = .ok r) (data : NdArray t.Element) :
    OnlyRefuses lacks (dataForRegion r data) := by
  unfold dataForRegion
  split
  · exact onlyRefuses_pure data
  · split
    · exact onlyRefuses_shapeMismatch _ _
    · next houtput =>
      have hdropped := (not_not.1 houtput).trans (Selection.outputShape_eq hresolve)
      obtain ⟨full, hfull, -⟩ := Selection.restoreAxes_spec hresolve hdropped
      rw [hfull]
      exact onlyRefuses_pure full

variable (hwf : h.WellFormed)

include hwf

theorem onlyRefuses_mergeSteps {call : RegionCall t}
    (hlacks : ∀ v, h.grid.Exceeds call.region v → lacks v) : OnlyRefuses lacks (h.mergeSteps call) := by
  have hends := (ends_partsOf hwf call.region).allow hlacks
  exact (onlyRefuses_mapError hends).bind fun _ _ => onlyRefuses_pure _

theorem onlyRefuses_writeSteps {region : Region} (hlacks : ∀ v, h.grid.Exceeds region v → lacks v)
    (data : NdArray t.Element) : OnlyRefuses lacks (h.writeSteps region data) := by
  unfold writeSteps
  split
  · exact onlyRefuses_shapeMismatch _ _
  · exact onlyRefuses_mergeSteps hwf hlacks

/-- A change that comes to no steps is refused. -/
theorem onlyRefuses_stepsOf (c : ArrayChange t) : OnlyRefuses (h.PlanLacks c) (h.stepsOf c) := by
  cases c with
  | writeChunk chunk cells =>
    refine (onlyRefuses_mapError (ends_checkChunk hwf chunk)).bind fun _ _ => ?_
    split
    · exact onlyRefuses_shapeMismatch _ _
    · exact onlyRefuses_pure _
  | eraseChunk chunk =>
    exact (onlyRefuses_mapError (ends_checkChunk hwf chunk)).bind fun _ _ => onlyRefuses_pure _
  | writeRegion region data =>
    exact onlyRefuses_writeSteps hwf (fun v hv => ⟨region, rfl, hv⟩) data
  | fillRegion region value =>
    exact onlyRefuses_mergeSteps hwf fun v hv => ⟨region, rfl, hv⟩
  | writeSelection selection data =>
    refine (onlyRefuses_report _).bind fun r hr => ?_
    have hresolve := Checked.report_eq_ok_iff.1 hr
    have hregion : h.regionOf? (.writeSelection selection data) = some r.region := by
      rw [regionOf?, hresolve]
      rfl
    refine (onlyRefuses_dataForRegion hresolve data).bind fun full _ => ?_
    exact onlyRefuses_writeSteps hwf (fun v hv => ⟨r.region, hregion, hv⟩) full
  | fillSelection selection value =>
    refine (onlyRefuses_report _).bind fun r hr => ?_
    have hresolve := Checked.report_eq_ok_iff.1 hr
    have hregion : h.regionOf? (.fillSelection selection value) = some r.region := by
      rw [regionOf?, hresolve]
      rfl
    exact onlyRefuses_mergeSteps hwf fun v hv => ⟨r.region, hregion, hv⟩

end

/-! ### The cells that a change sets -/

/-- The change sets the cell at this index. -/
def Sets (h : ArrayHandle t) : ArrayChange t → Index → Prop
  | .writeChunk chunk _, i | .eraseChunk chunk, i => i.Inside h.shape ∧ h.grid.chunkOf i = chunk
  | .writeRegion region _, i | .fillRegion region _, i =>
    ∃ j : Index, j.Inside region.shape ∧ region.index j = i
  | .writeSelection selection _, i | .fillSelection selection _, i =>
    ∃ j : Index, j.Inside (selection.pickedShape h.shape) ∧ selection.pickedIndex h.shape j = i

/-- The change sets a cell of this chunk. -/
def Meets (h : ArrayHandle t) (c : ArrayChange t) (chunk : Index) : Prop :=
  ∃ i, h.Sets c i ∧ h.grid.chunkOf i = chunk

/-- The change comes to writing or filling a region. -/
structure Performs (h : ArrayHandle t) (c : ArrayChange t) (call : RegionCall t) : Prop where
  accepts : h.Accepts call
  sets_iff : ∀ i, h.Sets c i ↔
    ∃ j : Index, j.Inside call.region.shape ∧ call.region.index j = i
  changePlain_eq : ∀ (plain : Index → t.Element) (i : Index), h.changePlain plain c i =
    overwrite call.region.shape call.region.index call.value plain i

/-- The steps of a change that passed its checks. -/
inductive Plans (h : ArrayHandle t) : ArrayChange t → List (ChunkStep t) → Prop where
  | store {chunk : Index} {cells : NdArray t.Element} : h.IsChunk chunk →
    cells.shape = h.grid.chunkShape → Plans h (.writeChunk chunk cells) [.store chunk cells]
  | erase {chunk : Index} : h.IsChunk chunk → Plans h (.eraseChunk chunk) [.erase chunk]
  | merge {c : ArrayChange t} {call : RegionCall t} : h.Performs c call →
    Plans h c ((h.tasksOf call).map .merge)

section

variable (hwf : h.WellFormed)

include hwf

theorem mergeSteps_spec {call : RegionCall t} (hsteps : h.mergeSteps call = .ok steps) :
    call.region.checkBounds h.shape = .ok () ∧ h.grid.CountsInWords call.region ∧
      steps = (h.tasksOf call).map .merge := by
  obtain ⟨parts, hparts, hsteps⟩ := Outcome.bind_eq_ok_iff.1 hsteps
  obtain ⟨hfits, hwords, -⟩ := (partsOf_eq_ok_iff hwf).1 hparts
  obtain ⟨-, htoList⟩ := partsOf_spec hwf hparts
  refine ⟨(Region.checkBounds_eq_ok_iff hwf.lt_wordLimit).2 hfits, hwords, ?_⟩
  rw [← Except.ok.inj hsteps, htoList, tasksOf, List.map_map]
  rfl

theorem writeSteps_spec {region : Region} {data : NdArray t.Element}
    (hsteps : h.writeSteps region data = .ok steps) :
    h.Accepts (.write region data) ∧ steps = (h.tasksOf (.write region data)).map .merge := by
  unfold writeSteps at hsteps
  split at hsteps
  · cases hsteps
  · next hshape =>
    obtain ⟨hbounds, hwords, hsteps⟩ := mergeSteps_spec hwf hsteps
    exact ⟨⟨hbounds, hwords, not_not.1 hshape⟩, hsteps⟩

theorem plans_of_stepsOf (hsteps : h.stepsOf c = .ok steps) : h.Plans c steps := by
  cases c with
  | writeChunk chunk cells =>
    obtain ⟨_, hcheck, hsteps⟩ := Outcome.bind_eq_ok_iff.1 hsteps
    split at hsteps
    · cases hsteps
    · next hshape =>
      obtain rfl := Except.ok.inj hsteps
      exact .store ((checkChunk_eq_ok_iff hwf).1 hcheck) (not_not.1 hshape)
  | eraseChunk chunk =>
    obtain ⟨_, hcheck, hsteps⟩ := Outcome.bind_eq_ok_iff.1 hsteps
    obtain rfl := Except.ok.inj hsteps
    exact .erase ((checkChunk_eq_ok_iff hwf).1 hcheck)
  | writeRegion region data =>
    obtain ⟨haccepts, rfl⟩ := writeSteps_spec hwf hsteps
    exact .merge ⟨haccepts, fun _ => .rfl, fun _ _ => rfl⟩
  | fillRegion region value =>
    obtain ⟨hbounds, hwords, rfl⟩ := mergeSteps_spec hwf hsteps
    have hperforms : h.Performs (.fillRegion region value) (.fill region value) :=
      ⟨⟨hbounds, hwords, trivial⟩, fun _ => .rfl, fun _ _ => rfl⟩
    exact .merge hperforms
  | writeSelection selection data =>
    obtain ⟨r, hreport, hsteps⟩ := Outcome.bind_eq_ok_iff.1 hsteps
    obtain ⟨full, hfull, hsteps⟩ := Outcome.bind_eq_ok_iff.1 hsteps
    obtain ⟨haccepts, rfl⟩ := writeSteps_spec hwf hsteps
    have hresolve := Checked.report_eq_ok_iff.1 hreport
    obtain ⟨hresolves, -⟩ := Selection.resolve_spec hresolve
    exact .merge ⟨haccepts, fun _ => hresolves.exists_pickedIndex_iff,
      fun _ i => dataForRegion_spec hresolve hfull i⟩
  | fillSelection selection value =>
    obtain ⟨r, hreport, hsteps⟩ := Outcome.bind_eq_ok_iff.1 hsteps
    obtain ⟨hbounds, hwords, rfl⟩ := mergeSteps_spec hwf hsteps
    obtain ⟨hresolves, -⟩ := Selection.resolve_spec (Checked.report_eq_ok_iff.1 hreport)
    have haccepts : h.Accepts (.fill r.region value) := ⟨hbounds, hwords, trivial⟩
    have hperforms : h.Performs (.fillSelection selection value) (.fill r.region value) := by
      refine ⟨haccepts, fun _ => hresolves.exists_pickedIndex_iff, fun plain i => ?_⟩
      exact Selection.overwrite_eq_of_resolves (g := fun _ => value) hresolves (fun _ _ => rfl) i
    exact .merge hperforms

end

/-- A change is refused, with the store as it was, or runs its steps. -/
theorem change_cases (hwf : h.WellFormed) (c : ArrayChange t) (s : σ) :
    (∃ f, Refuses (h.PlanLacks c) f ∧ h.change c s = (.error f, s)) ∨
      ∃ steps, h.Plans c steps ∧ h.change c s = h.runSteps steps s := by
  rw [change_eq, runPlan, StoreAction.reading_bind_apply]
  cases hsteps : h.stepsOf c with
  | ok steps => exact .inr ⟨steps, plans_of_stepsOf hwf hsteps, rfl⟩
  | error f => exact .inl ⟨f, onlyRefuses_stepsOf hwf c f hsteps, rfl⟩

/-- The step is one of a change that passed its checks. -/
def IsStep (h : ArrayHandle t) : ChunkStep t → Prop
  | .store chunk cells => h.IsChunk chunk ∧ cells.shape = h.grid.chunkShape
  | .erase chunk => h.IsChunk chunk
  | .merge x => h.HasTask x

theorem Plans.isStep (hplans : h.Plans c steps) : ∀ step ∈ steps, h.IsStep step := by
  cases hplans with
  | store hchunk hshape =>
    rintro _ hstep
    obtain rfl := List.mem_singleton.1 hstep
    exact ⟨hchunk, hshape⟩
  | erase hchunk =>
    rintro _ hstep
    obtain rfl := List.mem_singleton.1 hstep
    exact hchunk
  | merge hperforms =>
    rintro _ hstep
    obtain ⟨x, hx, rfl⟩ := List.mem_map.1 hstep
    exact hperforms.accepts.hasTask hx

section

variable (hwf : h.WellFormed)

include hwf

theorem IsStep.isChunk (hstep : h.IsStep step) : h.IsChunk step.chunk := by
  cases step with
  | store chunk cells => exact hstep.1
  | erase chunk => exact hstep
  | merge x => exact HasTask.isChunk hwf hstep

theorem Plans.pairwise_chunk (hplans : h.Plans c steps) :
    steps.Pairwise fun x y => x.chunk < y.chunk := by
  cases hplans with
  | store => exact List.pairwise_singleton _ _
  | erase => exact List.pairwise_singleton _ _
  | merge hperforms =>
    refine List.pairwise_map.2 (List.pairwise_map.2 ?_)
    exact RegularGrid.pairwise_regionParts hwf.cuts (hperforms.accepts.fits hwf)

theorem Plans.pairwise_ne (hplans : h.Plans c steps) :
    steps.Pairwise fun x y => x.chunk ≠ y.chunk := by
  refine (hplans.pairwise_chunk hwf).imp fun hlt he => ?_
  rw [he] at hlt
  exact List.lt_irrefl _ hlt

/-- A chunk of the array has a cell in the array. -/
theorem exists_chunkOf_eq (hchunk : h.IsChunk chunk) :
    ∃ i : Index, i.Inside h.shape ∧ h.grid.chunkOf i = chunk := by
  obtain ⟨place, hplace⟩ := RegularGrid.exists_inside_chunkExtent hwf.cuts hchunk
  obtain ⟨hinside, hof, -⟩ := cellAt_spec hwf hchunk hplace
  exact ⟨_, hinside, hof⟩

/-- There is a step for each chunk of which a cell is set, and for no other. -/
theorem Plans.meets_iff (hplans : h.Plans c steps) :
    h.Meets c chunk ↔ ∃ step ∈ steps, step.chunk = chunk := by
  have hsingle {target : Index} (htarget : h.IsChunk target) :
      (∃ i : Index, (i.Inside h.shape ∧ h.grid.chunkOf i = target) ∧ h.grid.chunkOf i = chunk) ↔
        target = chunk := by
    constructor
    · rintro ⟨i, ⟨-, hi⟩, rfl⟩
      exact hi.symm
    · rintro rfl
      obtain ⟨i, hi, hof⟩ := exists_chunkOf_eq hwf htarget
      exact ⟨i, ⟨hi, hof⟩, hof⟩
  cases hplans with
  | store hchunk => exact (hsingle hchunk).trans (by simp [ChunkStep.chunk])
  | erase hchunk => exact (hsingle hchunk).trans (by simp [ChunkStep.chunk])
  | @merge _ call hperforms =>
    have hfits := hperforms.accepts.fits hwf
    constructor
    · rintro ⟨i, hi, rfl⟩
      obtain ⟨j, hj, rfl⟩ := (hperforms.sets_iff i).1 hi
      obtain ⟨p, hp, k, hk, rfl⟩ := RegularGrid.exists_part hwf.cuts hfits hj
      refine ⟨.merge ⟨call, p⟩, ?_, (part_chunkOf hwf hfits hp hk).symm⟩
      exact List.mem_map_of_mem (List.mem_map_of_mem hp)
    · rintro ⟨_, hstep, rfl⟩
      obtain ⟨x, hx, rfl⟩ := List.mem_map.1 hstep
      obtain ⟨p, hp, rfl⟩ := List.mem_map.1 hx
      have hpart := isPartOf_of_mem hwf hfits hp
      obtain ⟨k, hk⟩ := Index.exists_inside hpart.size_pos
      refine ⟨_, (hperforms.sets_iff _).2 ⟨_, hpart.index_inside hk, rfl⟩, ?_⟩
      exact part_chunkOf hwf hfits hp hk

end

end ArrayHandle

end ChunkedArray
