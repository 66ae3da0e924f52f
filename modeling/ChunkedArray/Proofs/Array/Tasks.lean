import ChunkedArray.Proofs.Array.Safety

/-!
# Parts written in any order

A call that writes a region is carried out as one task per chunk. Tasks that set different cells may
be done in any order: of every chunk the same bytes are stored in the end.
-/

namespace ChunkedArray

/-- A call that writes data to a region or sets it to one value. -/
inductive RegionCall (t : DataType) where
  | write (region : Region) (data : NdArray t.Element)
  | fill (region : Region) (value : t.Element)

namespace RegionCall

variable {t : DataType}

def region : RegionCall t → Region
  | write region _ | fill region _ => region

def merge : RegionCall t → ArrayHandle.Merge t
  | write _ data => ArrayHandle.mergeData data
  | fill _ value => ArrayHandle.mergeValue value

def value : RegionCall t → Index → t.Element
  | write _ data => data.cell
  | fill _ value => fun _ => value

def change : RegionCall t → ArrayChange t
  | write region data => .writeRegion region data
  | fill region value => .fillRegion region value

/-- The data have the shape of the region. -/
def FillsRegion : RegionCall t → Prop
  | write region data => data.shape = region.shape
  | fill _ _ => True

/-- The two regions have no cell in common. -/
def Apart (c d : RegionCall t) : Prop :=
  ∀ j k : Index, j.Inside c.region.shape → k.Inside d.region.shape →
    c.region.index j ≠ d.region.index k

theorem Apart.symm {c d : RegionCall t} (h : c.Apart d) : d.Apart c :=
  fun j k hj hk he => h k j hk hj he.symm

end RegionCall

/-- What a call does to one chunk. -/
structure Task (t : DataType) where
  call : RegionCall t
  part : ChunkPart

namespace Task

variable {t : DataType} {x y : Task t}

def chunk (x : Task t) : Index := x.part.chunk

def value (x : Task t) (k : Index) : t.Element := x.call.value (x.part.inRegion.index k)

/-- The task sets the cell at a place of its chunk. -/
def Sets (x : Task t) (place : Index) : Prop :=
  ∃ k : Index, k.Inside x.part.inChunk.shape ∧ x.part.inChunk.index k = place

/-- The tasks set no cell in common. -/
def Apart (x y : Task t) : Prop := x.chunk = y.chunk → ∀ place, x.Sets place → ¬ y.Sets place

theorem Apart.symm (h : x.Apart y) : y.Apart x :=
  fun he place hy hx => h he.symm place hx hy

end Task

namespace ArrayHandle

variable {t : DataType} {σ : Type} [Store σ] {h : ArrayHandle t} {good : σ → Prop} {s₀ s s' : σ}
  {x y : Task t} {tasks done : List (Task t)} {chunk : Index}

/-- The call comes to its tasks: it passes the checks that are made before any of them, and the parts
of its region are found. -/
structure Accepts (h : ArrayHandle t) (c : RegionCall t) : Prop where
  bounds : c.region.checkBounds h.shape = .ok ()
  words : h.grid.CountsInWords c.region
  fills : c.FillsRegion

def tasksOf (h : ArrayHandle t) (c : RegionCall t) : List (Task t) :=
  (h.grid.regionParts c.region).map (Task.mk c)

def runTask (h : ArrayHandle t) (x : Task t) : ArrayAction σ Unit := h.mergePart x.call.merge x.part

/-- Runs tasks one after the other; the first failure ends it. -/
def runTasks (h : ArrayHandle t) (tasks : List (Task t)) : ArrayAction σ Unit := tasks.forM h.runTask

/-- The task is one of a call that is accepted. -/
structure HasTask (h : ArrayHandle t) (x : Task t) : Prop where
  accepts : h.Accepts x.call
  mem_parts : x.part ∈ h.grid.regionParts x.call.region

/-! ### Calls and their tasks -/

theorem Accepts.fits (hwf : h.WellFormed) {c : RegionCall t} (hc : h.Accepts c) :
    c.region.Fits h.shape := (Region.checkBounds_eq_ok_iff hwf.lt_wordLimit).1 hc.bounds

/-- A region that memory holds has few enough parts. -/
theorem accepts_of_isAddressable (hwf : h.WellFormed) {c : RegionCall t}
    (hbounds : c.region.checkBounds h.shape = .ok ()) (hfills : c.FillsRegion)
    (hroom : c.region.shape.isAddressable) (hends : h.grid.EndsInWords c.region) : h.Accepts c := by
  have hfits := (Region.checkBounds_eq_ok_iff hwf.lt_wordLimit).1 hbounds
  exact ⟨hbounds, RegularGrid.countsInWords_of_isAddressable hwf.cuts hfits hroom hends, hfills⟩

theorem Accepts.hasTask {c : RegionCall t} (hc : h.Accepts c) (hx : x ∈ h.tasksOf c) :
    h.HasTask x := by
  obtain ⟨p, hp, rfl⟩ := List.mem_map.1 hx
  exact ⟨hc, hp⟩

theorem mergeRegion_eq_ok_iff (hwf : h.WellFormed) {c : RegionCall t} (hc : h.Accepts c) :
    h.mergeRegion c.region c.merge s = (.ok (), s') ↔
      h.runTasks (h.tasksOf c) s = (.ok (), s') := by
  have hpartsOf := partsOf_of_fits hwf (hc.fits hwf) hc.words
  have htasks : (h.runTasks (h.tasksOf c) : ArrayAction σ Unit) =
      h.mergeParts c.merge (h.grid.regionParts c.region) := List.forM_map
  rw [htasks, ← (partsOf_spec hwf hpartsOf).2, mergeRegion, StoreAction.bind_eq_ok_iff]
  constructor
  · rintro ⟨parts, _, hread, hrun⟩
    obtain ⟨hfound, rfl⟩ := StoreAction.reading_eq_ok_iff.1 hread
    obtain rfl := Except.ok.inj (hfound.symm.trans hpartsOf)
    exact hrun
  · exact fun hrun => ⟨_, s, StoreAction.reading_eq_ok_iff.2 ⟨hpartsOf, rfl⟩, hrun⟩

theorem change_eq_ok_iff (hwf : h.WellFormed) {c : RegionCall t} (hc : h.Accepts c) :
    h.change c.change s = (.ok (), s') ↔ h.runTasks (h.tasksOf c) s = (.ok (), s') := by
  refine Iff.trans ?_ (mergeRegion_eq_ok_iff hwf hc)
  cases c with
  | write region data => exact StoreAction.guard_eq_ok_iff.trans (and_iff_right (not_not.2 hc.fills))
  | fill region value => exact .rfl

/-- A call that is not accepted fails before it has any task. -/
theorem change_of_not_accepts (hwf : h.WellFormed) {c : RegionCall t} (hc : ¬ h.Accepts c) (s : σ) :
    ∃ e, h.change c.change s = (.error e, s) := by
  have hmerge (hfills : c.FillsRegion) : ∃ e, h.mergeRegion c.region c.merge s = (.error e, s) := by
    cases hparts : h.partsOf c.region with
    | ok parts =>
      obtain ⟨hfits, hwords, -⟩ := (partsOf_eq_ok_iff hwf).1 hparts
      exact absurd ⟨(Region.checkBounds_eq_ok_iff hwf.lt_wordLimit).2 hfits, hwords, hfills⟩ hc
    | error e =>
      have hread : StoreAction.reading (fun _ => h.partsOf c.region) s = (.error e, s) :=
        StoreAction.reading_eq_error_iff.2 ⟨hparts, rfl⟩
      exact ⟨e, StoreAction.bind_eq_error_iff.2 (.inl hread)⟩
  cases c with
  | write region data =>
    show ∃ e, h.writeRegion region data s = (.error e, s)
    rw [writeRegion]
    by_cases hshape : data.shape = region.shape
    · rw [if_neg (not_not.2 hshape)]
      exact hmerge hshape
    · rw [if_pos hshape]
      exact ⟨_, rfl⟩
  | fill region value => exact hmerge trivial

theorem changeAll_eq_ok_iff (hwf : h.WellFormed) {calls : List (RegionCall t)}
    (hcalls : ∀ c ∈ calls, h.Accepts c) :
    h.changeAll (calls.map RegionCall.change) s = (.ok (), s') ↔
      h.runTasks (calls.flatMap h.tasksOf) s = (.ok (), s') := by
  induction calls generalizing s with
  | nil => rfl
  | cons c calls ih =>
    rw [List.forall_mem_cons] at hcalls
    rw [changeAll, List.map_cons, StoreAction.forM_cons_eq_ok_iff, runTasks, List.flatMap_cons,
      StoreAction.forM_append_eq_ok_iff]
    constructor
    · rintro ⟨s₁, hfirst, hrest⟩
      exact ⟨s₁, (change_eq_ok_iff hwf hcalls.1).1 hfirst, (ih hcalls.2).1 hrest⟩
    · rintro ⟨s₁, hfirst, hrest⟩
      exact ⟨s₁, (change_eq_ok_iff hwf hcalls.1).2 hfirst, (ih hcalls.2).2 hrest⟩

theorem runTask_eq_ok_iff :
    h.runTask x s = (.ok (), s') ↔ ∃ base cells, h.mergeBase x.part s = .ok base ∧
      x.call.merge x.part base = .ok cells ∧ h.storeChunk x.chunk cells s = (.ok (), s') := by
  simp only [runTask, mergePart, StoreAction.bind_eq_ok_iff, StoreAction.reading_eq_ok_iff,
    Checked.guarded_eq_ok_iff]
  constructor
  · rintro ⟨base, _, ⟨hbase, rfl⟩, cells, _, ⟨hcells, rfl⟩, hstore⟩
    exact ⟨base, cells, hbase, hcells, hstore⟩
  · rintro ⟨base, cells, hbase, hcells, hstore⟩
    exact ⟨base, s, ⟨hbase, rfl⟩, cells, s, ⟨hcells, rfl⟩, hstore⟩

/-! ### The chunk of a task -/

section

variable (hwf : h.WellFormed) (hx : h.HasTask x)

include hwf hx

theorem HasTask.isPartOf : x.part.IsPartOf x.call.region h.grid.chunkShape :=
  isPartOf_of_mem hwf (hx.accepts.fits hwf) hx.mem_parts

theorem HasTask.isChunk : h.IsChunk x.chunk :=
  isChunk_part hwf (hx.accepts.fits hwf) hx.mem_parts

theorem HasTask.exists_sets : ∃ place, x.Sets place := by
  obtain ⟨k, hk⟩ := Index.exists_inside (hx.isPartOf hwf).size_pos
  exact ⟨_, k, (hx.isPartOf hwf).shape_eq ▸ hk, rfl⟩

theorem HasTask.inside_extent {place : Index} (hplace : x.Sets place) :
    place.Inside (h.grid.chunkExtent x.chunk h.shape) := by
  obtain ⟨k, hk, rfl⟩ := hplace
  exact ((hx.isPartOf hwf).inChunk_fits hwf.cuts.pos (hx.accepts.fits hwf)).index_inside hk

theorem HasTask.inside_chunkShape {place : Index} (hplace : x.Sets place) :
    place.Inside h.grid.chunkShape :=
  ArrayHandle.inside_chunkShape hwf (hx.isChunk hwf) (hx.inside_extent hwf hplace)

theorem HasTask.merge_spec {base : NdArray t.Element} (hbase : base.shape = h.grid.chunkShape) :
    ∃ cells, x.call.merge x.part base = .ok cells ∧
      NdArray.Replaced x.part.inChunk x.value base cells := by
  have hfits := hx.accepts.fits hwf
  obtain ⟨c, p⟩ := x
  cases c with
  | write region data => exact writes_data hwf hfits hx.accepts.fills p hx.mem_parts base hbase
  | fill region value => exact writes_value hwf hfits value p hx.mem_parts base hbase

theorem HasTask.replaced {base cells : NdArray t.Element} (hbase : base.shape = h.grid.chunkShape)
    (hcells : x.call.merge x.part base = .ok cells) :
    NdArray.Replaced x.part.inChunk x.value base cells := by
  obtain ⟨b, hb, hreplaced⟩ := hx.merge_spec hwf hbase
  obtain rfl := Except.ok.inj (hb.symm.trans hcells)
  exact hreplaced

end

theorem mergeBase_of_apart (hwf : h.WellFormed) (hx : h.HasTask x) (hy : h.HasTask y)
    (hapart : x.Apart y) (hchunk : x.chunk = y.chunk) (s : σ) :
    h.mergeBase x.part s = h.chunkOrFill x.chunk s := by
  -- A task that replaced the whole chunk would set the cells of the other one too.
  refine (mergeBase_of_mem hwf (hx.accepts.fits hwf) hx.mem_parts s).trans (if_neg fun hwhole => ?_)
  obtain ⟨place, hplace⟩ := hy.exists_sets hwf
  have hinside := hy.inside_extent hwf hplace
  rw [← hchunk] at hinside
  obtain ⟨hin, he⟩ := Region.index_of_isWholeOf hwhole hinside
  exact hapart hchunk place ⟨place, hin, he⟩ hplace

theorem shape_mergeBase (hwf : h.WellFormed) (hx : h.HasTask x) {base : NdArray t.Element}
    (hbase : h.mergeBase x.part s = .ok base) : base.shape = h.grid.chunkShape := by
  have hends := ends_mergeBase hwf (hx.accepts.fits hwf) hx.mem_parts s
  rw [hbase] at hends
  exact hends

theorem mergeBase_congr {p : ChunkPart} (he : h.storedChunk? p.chunk s' = h.storedChunk? p.chunk s) :
    h.mergeBase p s' = h.mergeBase p s := by
  rw [mergeBase, mergeBase, chunkOrFill_congr he]

/-! ### Tasks that were merged into a chunk -/

/-- The chunk `base` with the cells of some tasks set. -/
structure Merged (tasks : List (Task t)) (base cells : NdArray t.Element) : Prop where
  shape_eq : cells.shape = base.shape
  cell_set : ∀ x ∈ tasks, ∀ k : Index, k.Inside x.part.inChunk.shape →
    cells.cell (x.part.inChunk.index k) = x.value k
  cell_kept : ∀ place : Index, place.Inside base.shape → (∀ x ∈ tasks, ¬ x.Sets place) →
    cells.cell place = base.cell place

theorem merged_nil (base : NdArray t.Element) : Merged [] base base :=
  ⟨rfl, fun _ hx => absurd hx List.not_mem_nil, fun _ _ _ => rfl⟩

theorem Merged.cons {base cells cells' : NdArray t.Element} (hm : Merged tasks base cells)
    (hreplaced : NdArray.Replaced x.part.inChunk x.value cells cells')
    (hinside : ∀ y ∈ tasks, ∀ place, y.Sets place → place.Inside base.shape)
    (hapart : ∀ y ∈ tasks, ∀ place, y.Sets place → ¬ x.Sets place) :
    Merged (x :: tasks) base cells' := by
  have hkept (place : Index) (hplace : place.Inside base.shape) (hx : ¬ x.Sets place) :
      cells'.cell place = cells.cell place :=
    hreplaced.cell_of_ne place (hm.shape_eq ▸ hplace) fun k hk he => hx ⟨k, hk, he⟩
  refine ⟨hreplaced.shape_eq.trans hm.shape_eq, ?_, fun place hplace hmiss => ?_⟩
  · refine List.forall_mem_cons.2 ⟨hreplaced.cell_index, fun y hy k hk => ?_⟩
    have hsets : y.Sets (y.part.inChunk.index k) := ⟨k, hk, rfl⟩
    rw [hkept _ (hinside y hy _ hsets) (hapart y hy _ hsets), hm.cell_set y hy k hk]
  · rw [List.forall_mem_cons] at hmiss
    rw [hkept place hplace hmiss.1, hm.cell_kept place hplace hmiss.2]

theorem Merged.unique {base cells cells' : NdArray t.Element} (hm : Merged tasks base cells)
    (hm' : Merged done base cells') (hmem : ∀ x, x ∈ tasks ↔ x ∈ done) : cells = cells' := by
  refine NdArray.ext_cell (hm.shape_eq.trans hm'.shape_eq.symm) fun place hplace => ?_
  by_cases hset : ∃ x ∈ tasks, x.Sets place
  · obtain ⟨x, hx, k, hk, rfl⟩ := hset
    rw [hm.cell_set x hx k hk, hm'.cell_set x ((hmem x).1 hx) k hk]
  · have hmiss : ∀ x ∈ tasks, ¬ x.Sets place := fun x hx hsets => hset ⟨x, hx, hsets⟩
    have hmiss' : ∀ x ∈ done, ¬ x.Sets place := fun x hx => hmiss x ((hmem x).2 hx)
    have hin : place.Inside base.shape := hm.shape_eq ▸ hplace
    rw [hm.cell_kept place hin hmiss, hm'.cell_kept place hin hmiss']

/-! ### What a run leaves -/

def tasksOn (tasks : List (Task t)) (chunk : Index) : List (Task t) :=
  tasks.filter fun x => x.chunk = chunk

theorem mem_tasksOn : x ∈ tasksOn tasks chunk ↔ x ∈ tasks ∧ x.chunk = chunk := by
  rw [tasksOn, List.mem_filter, decide_eq_true_eq]

theorem tasksOn_cons_of_eq (hx : x.chunk = chunk) :
    tasksOn (x :: tasks) chunk = x :: tasksOn tasks chunk :=
  List.filter_cons_of_pos (decide_eq_true hx)

theorem tasksOn_cons_of_ne (hx : x.chunk ≠ chunk) :
    tasksOn (x :: tasks) chunk = tasksOn tasks chunk :=
  List.filter_cons_of_neg (by simpa using hx)

/-- The bytes of a chunk are those of its cells with tasks merged into what was there before. -/
structure Written (h : ArrayHandle t) (tasks : List (Task t)) (base : NdArray t.Element)
    (chunk : Index) (s : σ) (cells : NdArray t.Element) (bytes : Bytes) : Prop where
  merged : Merged tasks base cells
  encode_eq : h.codecs.encode cells = .ok bytes
  get_eq : Store.get (h.chunkKey chunk) s = .ok (some bytes)

/-- The store `s` is `s₀` after some tasks were done. -/
structure Done (h : ArrayHandle t) (good : σ → Prop) (s₀ : σ) (done : List (Task t)) (s : σ) :
    Prop where
  isGood : good s
  kept : ∀ chunk, h.IsChunk chunk → (∀ x ∈ done, x.chunk ≠ chunk) →
    Store.get (h.chunkKey chunk) s = Store.get (h.chunkKey chunk) s₀
  written : ∀ x ∈ done, ∃ base cells bytes, h.mergeBase x.part s₀ = .ok base ∧
    h.Written (tasksOn done x.chunk) base x.chunk s cells bytes

theorem done_nil (hgood : good s) : h.Done good s [] s :=
  ⟨hgood, fun _ _ _ => rfl, fun _ hx => absurd hx List.not_mem_nil⟩

theorem Done.get_eq (hd : h.Done good s₀ tasks s) (hd' : h.Done good s₀ done s')
    (hmem : ∀ x, x ∈ tasks ↔ x ∈ done) (hchunk : h.IsChunk chunk) :
    Store.get (h.chunkKey chunk) s = Store.get (h.chunkKey chunk) s' := by
  by_cases hon : ∃ x ∈ tasks, x.chunk = chunk
  · obtain ⟨x, hx, rfl⟩ := hon
    obtain ⟨base, cells, bytes, hbase, hw⟩ := hd.written x hx
    obtain ⟨base', cells', bytes', hbase', hw'⟩ := hd'.written x ((hmem x).1 hx)
    obtain rfl := Except.ok.inj (hbase.symm.trans hbase')
    obtain rfl := hw.merged.unique hw'.merged fun y => by rw [mem_tasksOn, mem_tasksOn, hmem]
    obtain rfl := Except.ok.inj (hw.encode_eq.symm.trans hw'.encode_eq)
    rw [hw.get_eq, hw'.get_eq]
  · have hoff : ∀ x ∈ tasks, x.chunk ≠ chunk := fun x hx he => hon ⟨x, hx, he⟩
    rw [hd.kept chunk hchunk hoff, hd'.kept chunk hchunk fun x hx => hoff x ((hmem x).2 hx)]

section

variable (hr : h.Reliable good) (hd : h.Done good s₀ done s) (hx : h.HasTask x)
  (hdone : ∀ y ∈ done, h.HasTask y ∧ x.Apart y)

include hr hd hx hdone

/-- What a task is merged into: what was there at first, with the tasks of its chunk that were done. -/
theorem Done.mergeBase_spec :
    (h.mergeBase x.part s = h.mergeBase x.part s₀ ∧ tasksOn done x.chunk = []) ∨
      ∃ base cells, h.mergeBase x.part s₀ = .ok base ∧ h.mergeBase x.part s = .ok cells ∧
        Merged (tasksOn done x.chunk) base cells := by
  have hwf := hr.wellFormed
  by_cases hon : ∃ y ∈ done, y.chunk = x.chunk
  · obtain ⟨y, hy, hyx⟩ := hon
    obtain ⟨hytask, hapart⟩ := hdone y hy
    obtain ⟨base, cells, bytes, hbase, hw⟩ := hd.written y hy
    rw [hyx] at hw
    have hpart := mergeBase_of_apart (σ := σ) hwf hx hytask hapart hyx.symm
    have hpart' := mergeBase_of_apart (σ := σ) hwf hytask hx hapart.symm hyx
    have hshape := hw.merged.shape_eq.trans (shape_mergeBase hwf hytask hbase)
    have hstored := storedChunk?_of_encode hr hshape hw.encode_eq hw.get_eq
    refine .inr ⟨base, cells, ?_, ?_, hw.merged⟩
    · rw [hpart, ← hyx, ← hpart', hbase]
    · rw [hpart, chunkOrFill, hstored]
      rfl
  · have hoff : ∀ y ∈ done, y.chunk ≠ x.chunk := fun y hy he => hon ⟨y, hy, he⟩
    have hget := hd.kept x.chunk (hx.isChunk hwf) hoff
    refine .inl ⟨mergeBase_congr (storedChunk?_congr hget), List.filter_eq_nil_iff.2 fun y hy => ?_⟩
    simpa using hoff y hy

theorem Done.exists_base {cells : NdArray t.Element} (hcells : h.mergeBase x.part s = .ok cells) :
    ∃ base, h.mergeBase x.part s₀ = .ok base ∧ Merged (tasksOn done x.chunk) base cells := by
  rcases hd.mergeBase_spec hr hx hdone with ⟨hsame, hnone⟩ | ⟨base, cells', hbase, hcells', hmerged⟩
  · rw [hnone]
    exact ⟨cells, hsame ▸ hcells, merged_nil cells⟩
  · obtain rfl := Except.ok.inj (hcells'.symm.trans hcells)
    exact ⟨base, hbase, hmerged⟩

theorem Done.exists_mergeBase {base : NdArray t.Element} (hbase : h.mergeBase x.part s₀ = .ok base) :
    ∃ cells, h.mergeBase x.part s = .ok cells := by
  rcases hd.mergeBase_spec hr hx hdone with ⟨hsame, -⟩ | ⟨-, cells, -, hcells, -⟩
  · exact ⟨base, hsame.trans hbase⟩
  · exact ⟨cells, hcells⟩

theorem Done.runTask (hrun : h.runTask x s = (.ok (), s')) : h.Done good s₀ (x :: done) s' := by
  have hwf := hr.wellFormed
  have hchunk := hx.isChunk hwf
  obtain ⟨cells, cells', hcells, hcells', hstore⟩ := runTask_eq_ok_iff.1 hrun
  obtain ⟨base, hbase, hmerged⟩ := hd.exists_base hr hx hdone hcells
  obtain ⟨bytes, hencode, hgood, hget, hothers⟩ := storeChunk_spec hr hd.isGood hchunk hstore
  have hshape := shape_mergeBase hwf hx hbase
  have hmerged' : Merged (x :: tasksOn done x.chunk) base cells' := by
    refine hmerged.cons (hx.replaced hwf (shape_mergeBase hwf hx hcells) hcells') ?_ ?_
    · intro y hy place hplace
      rw [hshape]
      exact (hdone y (mem_tasksOn.1 hy).1).1.inside_chunkShape hwf hplace
    · intro y hy place hplace hxplace
      obtain ⟨hy, hyx⟩ := mem_tasksOn.1 hy
      exact (hdone y hy).2 hyx.symm place hxplace hplace
  have hbaseOf (y : Task t) (hy : y ∈ done) (hyx : y.chunk = x.chunk) :
      h.mergeBase y.part s₀ = .ok base := by
    obtain ⟨hytask, hapart⟩ := hdone y hy
    rw [mergeBase_of_apart hwf hytask hx hapart.symm hyx, hyx,
      ← mergeBase_of_apart hwf hx hytask hapart hyx.symm, hbase]
  refine ⟨hgood, fun chunk hc hoff => ?_, List.forall_mem_cons.2 ⟨?_, fun y hy => ?_⟩⟩
  · rw [List.forall_mem_cons] at hoff
    rw [hothers chunk hc hoff.1.symm, hd.kept chunk hc hoff.2]
  · rw [tasksOn_cons_of_eq rfl]
    exact ⟨base, cells', bytes, hbase, hmerged', hencode, hget⟩
  · by_cases hyx : y.chunk = x.chunk
    · rw [hyx, tasksOn_cons_of_eq rfl]
      exact ⟨base, cells', bytes, hbaseOf y hy hyx, hmerged', hencode, hget⟩
    · obtain ⟨base, cells, bytes, hbase, hw⟩ := hd.written y hy
      rw [tasksOn_cons_of_ne (Ne.symm hyx)]
      refine ⟨base, cells, bytes, hbase, hw.merged, hw.encode_eq, ?_⟩
      rw [hothers y.chunk ((hdone y hy).1.isChunk hwf) hyx, hw.get_eq]

theorem Done.exists_runTask (haccepts : AcceptsValues σ h.IsChunkKey good)
    (hencodes : ∀ cells : NdArray t.Element, cells.shape = h.grid.chunkShape →
      ∃ bytes, h.codecs.encode cells = .ok bytes)
    (hbase : ∃ base, h.mergeBase x.part s₀ = .ok base) :
    ∃ s', h.runTask x s = (.ok (), s') := by
  have hwf := hr.wellFormed
  obtain ⟨base, hbase⟩ := hbase
  obtain ⟨cells, hcells⟩ := hd.exists_mergeBase hr hx hdone hbase
  have hshape := shape_mergeBase hwf hx hcells
  obtain ⟨cells', hcells', hreplaced⟩ := hx.merge_spec hwf hshape
  obtain ⟨bytes, hbytes⟩ := hencodes cells' (hreplaced.shape_eq.trans hshape)
  obtain ⟨s', hset⟩ := haccepts.set bytes hd.isGood ⟨x.chunk, hx.isChunk hwf, rfl⟩
  exact ⟨s', runTask_eq_ok_iff.2 ⟨cells, cells', hcells, hcells',
    storeChunk_eq_ok hr.storeEmptyChunks hbytes hset⟩⟩

end

/-! ### Runs -/

/-- The tasks that were done set no cell of those that are still to be done. -/
def Clear (h : ArrayHandle t) (tasks done : List (Task t)) : Prop :=
  ∀ y ∈ done, h.HasTask y ∧ ∀ x ∈ tasks, x.Apart y

theorem clear_nil : h.Clear tasks [] := fun _ hy => absurd hy List.not_mem_nil

theorem Clear.head (hclear : h.Clear (x :: tasks) done) : ∀ y ∈ done, h.HasTask y ∧ x.Apart y :=
  fun y hy => ⟨(hclear y hy).1, (hclear y hy).2 x List.mem_cons_self⟩

theorem Clear.next (hclear : h.Clear (x :: tasks) done) (hx : h.HasTask x)
    (hxtasks : ∀ z ∈ tasks, x.Apart z) : h.Clear tasks (x :: done) := by
  refine List.forall_mem_cons.2 ⟨⟨hx, fun z hz => (hxtasks z hz).symm⟩, fun y hy => ?_⟩
  exact ⟨(hclear y hy).1, fun z hz => (hclear y hy).2 z (List.mem_cons_of_mem x hz)⟩

section

variable (hr : h.Reliable good) (htasks : ∀ x ∈ tasks, h.HasTask x)
  (hpairs : tasks.Pairwise Task.Apart)

include hr htasks hpairs

theorem Done.runTasks (hd : h.Done good s₀ done s) (hclear : h.Clear tasks done)
    (hrun : h.runTasks tasks s = (.ok (), s')) : h.Done good s₀ (tasks.reverse ++ done) s' := by
  induction tasks generalizing done s with
  | nil =>
    obtain rfl := StoreAction.forM_nil_eq_ok_iff.1 hrun
    exact hd
  | cons x tasks ih =>
    obtain ⟨s₁, hfirst, hrest⟩ := StoreAction.forM_cons_eq_ok_iff.1 hrun
    rw [List.forall_mem_cons] at htasks
    obtain ⟨hxtasks, hpairs⟩ := List.pairwise_cons.1 hpairs
    have hd₁ := hd.runTask hr htasks.1 hclear.head hfirst
    rw [List.reverse_cons, List.append_assoc]
    exact ih htasks.2 hpairs hd₁ (hclear.next htasks.1 hxtasks) hrest

theorem done_of_runTasks (hgood : good s) (hrun : h.runTasks tasks s = (.ok (), s')) :
    h.Done good s (tasks.reverse ++ []) s' :=
  (done_nil hgood).runTasks hr htasks hpairs clear_nil hrun

theorem exists_base_of_runTasks (hgood : good s) (hrun : h.runTasks tasks s = (.ok (), s'))
    (hx : x ∈ tasks) : (∃ base, h.mergeBase x.part s = .ok base) ∧
      h.grid.chunkShape.size * t.byteCount < wordLimit := by
  have hd := done_of_runTasks hr htasks hpairs hgood hrun
  obtain ⟨base, cells, bytes, hbase, hw⟩ := hd.written x (by simpa using hx)
  have hshape := hw.merged.shape_eq.trans (shape_mergeBase hr.wellFormed (htasks x hx) hbase)
  exact ⟨⟨base, hbase⟩, hshape ▸ CodecChain.lt_of_encode hw.encode_eq⟩

/-- The order of the tasks does not matter for what is stored. -/
theorem get_eq_of_perm {order : List (Task t)} (horder : order.Perm tasks) (hgood : good s₀)
    (hrun : h.runTasks tasks s₀ = (.ok (), s)) (hrun' : h.runTasks order s₀ = (.ok (), s'))
    (hchunk : h.IsChunk chunk) :
    Store.get (h.chunkKey chunk) s = Store.get (h.chunkKey chunk) s' := by
  have hd := done_of_runTasks hr htasks hpairs hgood hrun
  have hd' := done_of_runTasks hr (fun x hx => htasks x (horder.mem_iff.1 hx))
    (hpairs.perm horder.symm Task.Apart.symm) hgood hrun'
  exact hd.get_eq hd' (fun x => by simp [horder.mem_iff]) hchunk

/-- Nor does it matter for whether the tasks succeed. -/
theorem exists_runTasks (haccepts : AcceptsValues σ h.IsChunkKey good)
    (hencodes : ∀ x ∈ tasks, ∀ cells : NdArray t.Element, cells.shape = h.grid.chunkShape →
      ∃ bytes, h.codecs.encode cells = .ok bytes)
    (hbase : ∀ x ∈ tasks, ∃ base, h.mergeBase x.part s₀ = .ok base) (hd : h.Done good s₀ done s)
    (hclear : h.Clear tasks done) : ∃ s', h.runTasks tasks s = (.ok (), s') := by
  induction tasks generalizing done s with
  | nil => exact ⟨s, rfl⟩
  | cons x tasks ih =>
    rw [List.forall_mem_cons] at htasks hencodes hbase
    obtain ⟨hxtasks, hpairs⟩ := List.pairwise_cons.1 hpairs
    obtain ⟨s₁, hfirst⟩ := hd.exists_runTask hr htasks.1 hclear.head haccepts hencodes.1 hbase.1
    have hd₁ := hd.runTask hr htasks.1 hclear.head hfirst
    obtain ⟨s', hrest⟩ := ih htasks.2 hpairs hencodes.2 hbase.2 hd₁ (hclear.next htasks.1 hxtasks)
    exact ⟨s', StoreAction.forM_cons_eq_ok_iff.2 ⟨s₁, hfirst, hrest⟩⟩

end

/-! ### Calls on different cells -/

theorem Accepts.apart (hwf : h.WellFormed) {c d : RegionCall t} (hc : h.Accepts c)
    (hd : h.Accepts d) (hapart : c.Apart d) (hx : x ∈ h.tasksOf c) (hy : y ∈ h.tasksOf d) :
    x.Apart y := by
  obtain ⟨p, hp, rfl⟩ := List.mem_map.1 hx
  obtain ⟨q, hq, rfl⟩ := List.mem_map.1 hy
  have hppart := isPartOf_of_mem hwf (hc.fits hwf) hp
  have hqpart := isPartOf_of_mem hwf (hd.fits hwf) hq
  intro hchunk place hpset hqset
  obtain ⟨j, hj, rfl⟩ := hpset
  obtain ⟨k, hk, he⟩ := hqset
  -- One place of one chunk is one cell of the array.
  have hj' : j.Inside p.inRegion.shape := hppart.shape_eq ▸ hj
  have hk' : k.Inside q.inRegion.shape := hqpart.shape_eq ▸ hk
  refine hapart _ _ (hppart.index_inside hj') (hqpart.index_inside hk') ?_
  rw [← part_cellAt hwf (hc.fits hwf) hp hj', ← part_cellAt hwf (hd.fits hwf) hq hk']
  exact congrArg₂ h.grid.cellAt hchunk he.symm

theorem pairwise_tasksOf (hwf : h.WellFormed) {c : RegionCall t} (hc : h.Accepts c) :
    (h.tasksOf c).Pairwise Task.Apart := by
  have hnodup := RegularGrid.nodup_chunks hwf.cuts (hc.fits hwf)
  refine List.pairwise_map.2 ((List.pairwise_map.1 hnodup).imp ?_)
  exact fun hne he => absurd he hne

theorem pairwise_tasks (hwf : h.WellFormed) {calls : List (RegionCall t)}
    (hcalls : ∀ c ∈ calls, h.Accepts c) (hapart : calls.Pairwise RegionCall.Apart) :
    (calls.flatMap h.tasksOf).Pairwise Task.Apart := by
  refine List.pairwise_flatMap.2 ⟨fun c hc => pairwise_tasksOf hwf (hcalls c hc), ?_⟩
  refine hapart.imp_of_mem fun hc hd hcd x hx y hy => ?_
  exact (hcalls _ hc).apart hwf (hcalls _ hd) hcd hx hy

theorem hasTask_of_mem {calls : List (RegionCall t)} (hcalls : ∀ c ∈ calls, h.Accepts c)
    (hx : x ∈ calls.flatMap h.tasksOf) : h.HasTask x := by
  obtain ⟨c, hc, hx⟩ := List.mem_flatMap.1 hx
  exact (hcalls c hc).hasTask hx

end ArrayHandle

end ChunkedArray
