import ChunkedArray.Proofs.Array.Reads

/-!
# Arrays behave as plain ones

A handle makes changes on its store, and each of them is a change of a plain array. After any
changes that succeed, starting from a store without chunks, all that is read has the values of the
plain array. A region whose last chunk along some axis ends beyond all words is not read.
-/

namespace ChunkedArray

inductive ArrayChange (t : DataType) where
  | writeChunk (chunk : Index) (cells : NdArray t.Element)
  | eraseChunk (chunk : Index)
  | writeRegion (region : Region) (data : NdArray t.Element)
  | fillRegion (region : Region) (value : t.Element)
  | writeSelection (selection : Selection) (data : NdArray t.Element)
  | fillSelection (selection : Selection) (value : t.Element)

namespace ArrayHandle

variable {t : DataType}

/-- Data for a selection have all axes, or lack those along which one index is selected. -/
def overwriteSelection (h : ArrayHandle t) (selection : Selection) (data : NdArray t.Element) :
    (Index → t.Element) → Index → t.Element :=
  if data.shape = selection.keepAxes.pickedShape h.shape then
    selection.keepAxes.overwrite h.shape data.cell
  else selection.overwrite h.shape data.cell

/-- What a change does to a plain array. -/
def changePlain (h : ArrayHandle t) (plain : Index → t.Element) :
    ArrayChange t → Index → t.Element
  | .writeChunk chunk cells => h.overwriteChunk chunk cells.cell plain
  | .eraseChunk chunk => h.overwriteChunk chunk (fun _ => h.fillValue) plain
  | .writeRegion region data => overwrite region.shape region.index data.cell plain
  | .fillRegion region value => overwrite region.shape region.index (fun _ => value) plain
  | .writeSelection selection data => h.overwriteSelection selection data plain
  | .fillSelection selection value => selection.overwrite h.shape (fun _ => value) plain

/-- The plain array after some changes of one that holds the fill value alone. -/
def plainAfter (h : ArrayHandle t) (changes : List (ArrayChange t)) : Index → t.Element :=
  changes.foldl h.changePlain fun _ => h.fillValue

variable {σ : Type} [Store σ]

/-- Makes a change on the store. -/
def change (h : ArrayHandle t) : ArrayChange t → ArrayAction σ Unit
  | .writeChunk chunk cells => h.writeChunk chunk cells
  | .eraseChunk chunk => do let _ ← h.eraseChunk chunk
  | .writeRegion region data => h.writeRegion region data
  | .fillRegion region value => h.fillRegion region value
  | .writeSelection selection data => h.writeSelection selection data
  | .fillSelection selection value => h.fillSelection selection value

/-- Makes changes one after the other; the first failure ends it. -/
def changeAll (h : ArrayHandle t) (changes : List (ArrayChange t)) : ArrayAction σ Unit :=
  changes.forM h.change

variable {h : ArrayHandle t} {good : σ → Prop} {s s' : σ} {plain : Index → t.Element}
  {selection : Selection}

/-! ### Selections -/

/-- Data with all axes of the region, or with those that are not dropped, go to the region. -/
theorem dataForRegion_spec {r : ResolvedSelection} (hresolve : selection.resolve h.shape = .ok r)
    {data full : NdArray t.Element} (hdata : dataForRegion r data = .ok full) (i : Index) :
    h.overwriteSelection selection data plain i =
      overwrite r.region.shape r.region.index full.cell plain i := by
  obtain ⟨hresolves, -⟩ := Selection.resolve_spec hresolve
  have hkept : selection.keepAxes.pickedShape h.shape = r.region.shape :=
    hresolves.keepAxes.pickedShape_eq.trans hresolves.dropIndexed_keepAxes
  rw [overwriteSelection, hkept]
  unfold dataForRegion at hdata
  split at hdata
  · next hshape =>
    obtain rfl := Except.ok.inj hdata
    rw [if_pos hshape]
    refine Selection.overwrite_eq_of_resolves hresolves.keepAxes (fun j hj => ?_) i
    rw [hresolves.dropIndexed_keepAxes] at hj
    rw [hresolves.restoreIndexed_keepAxes hj]
  · next hshape =>
    split at hdata
    · cases hdata
    · next houtput =>
      rw [if_neg hshape]
      have hdropped := (not_not.1 houtput).trans (Selection.outputShape_eq hresolve)
      obtain ⟨restored, hrestored, -, hcell⟩ := Selection.restoreAxes_spec hresolve hdropped
      obtain rfl := Except.ok.inj (hrestored.symm.trans (Checked.guarded_eq_ok_iff.1 hdata))
      refine Selection.overwrite_eq_of_resolves hresolves (fun j hj => ?_) i
      rw [hcell _ (hresolves.restoreIndexed_inside hj), hresolves.dropIndexed_restoreIndexed hj]

theorem Represents.writeSelection (hr : h.Reliable good) (hrep : h.Represents good plain s)
    {data : NdArray t.Element} (hrun : h.writeSelection selection data s = (.ok (), s')) :
    h.Represents good (h.overwriteSelection selection data plain) s' := by
  unfold ArrayHandle.writeSelection at hrun
  obtain ⟨r, s₁, hread, hrest⟩ := StoreAction.bind_eq_ok_iff.1 hrun
  obtain ⟨hreport, rfl⟩ := StoreAction.reading_eq_ok_iff.1 hread
  have hresolve := Checked.report_eq_ok_iff.1 hreport
  obtain ⟨full, s₂, hread, hwrite⟩ := StoreAction.bind_eq_ok_iff.1 hrest
  obtain ⟨hdata, rfl⟩ := StoreAction.reading_eq_ok_iff.1 hread
  refine (hrep.writeRegion hr hwrite).2.congr hr.wellFormed fun i _ => ?_
  exact dataForRegion_spec hresolve hdata i

theorem Represents.fillSelection (hr : h.Reliable good) (hrep : h.Represents good plain s)
    {value : t.Element} (hrun : h.fillSelection selection value s = (.ok (), s')) :
    h.Represents good (selection.overwrite h.shape (fun _ => value) plain) s' := by
  unfold ArrayHandle.fillSelection at hrun
  obtain ⟨r, s₁, hread, hfill⟩ := StoreAction.bind_eq_ok_iff.1 hrun
  obtain ⟨hreport, rfl⟩ := StoreAction.reading_eq_ok_iff.1 hread
  obtain ⟨hresolves, -⟩ := Selection.resolve_spec (Checked.report_eq_ok_iff.1 hreport)
  refine (hrep.fillRegion hr hfill).congr hr.wellFormed fun i _ => ?_
  exact Selection.overwrite_eq_of_resolves (g := fun _ => value) hresolves (fun _ _ => rfl) i

/-! ### Changes -/

theorem Represents.change_step (hr : h.Reliable good) (hrep : h.Represents good plain s)
    {c : ArrayChange t} (hrun : h.change c s = (.ok (), s')) :
    h.Represents good (h.changePlain plain c) s' := by
  cases c with
  | writeChunk chunk cells => exact hrep.writeChunk hr hrun
  | eraseChunk chunk =>
    obtain ⟨found, s₁, herase, hrest⟩ := StoreAction.bind_eq_ok_iff.1 hrun
    obtain ⟨-, rfl⟩ := StoreAction.pure_eq_ok_iff.1 hrest
    exact hrep.eraseChunk hr herase
  | writeRegion region data => exact (hrep.writeRegion hr hrun).2
  | fillRegion region value => exact hrep.fillRegion hr hrun
  | writeSelection selection data => exact hrep.writeSelection hr hrun
  | fillSelection selection value => exact hrep.fillSelection hr hrun

theorem Represents.changes (hr : h.Reliable good) (hrep : h.Represents good plain s)
    {changes : List (ArrayChange t)} (hrun : h.changeAll changes s = (.ok (), s')) :
    h.Represents good (changes.foldl h.changePlain plain) s' := by
  induction changes generalizing plain s with
  | nil =>
    obtain rfl := StoreAction.forM_nil_eq_ok_iff.1 hrun
    exact hrep
  | cons c changes ih =>
    obtain ⟨s₁, hfirst, hrest⟩ := StoreAction.forM_cons_eq_ok_iff.1 hrun
    exact ih (hrep.change_step hr hfirst) hrest

/-! ### What is read -/

/-- All that can be read has the values of a plain array. Nothing is read of a region if the last of its
chunks along some axis does not end in a word. -/
structure ReadsAs (h : ArrayHandle t) (plain : Index → t.Element) (s : σ) : Prop where
  chunk : ∀ chunk, h.checkChunk chunk = .ok () → t.HasRoomFor h.grid.chunkShape →
    ∃ cells, h.readChunk chunk s = .ok cells ∧ cells.shape = h.grid.chunkShape ∧
      ∀ place : Index, place.Inside (h.grid.chunkExtent chunk h.shape) →
        cells.cell place = plain (h.grid.cellAt chunk place)
  region : ∀ region : Region, region.checkBounds h.shape = .ok () → t.HasRoomFor region.shape →
    h.grid.EndsInWords region →
    ∃ out, h.readRegion region s = .ok out ∧ out.shape = region.shape ∧
      ∀ j : Index, j.Inside region.shape → out.cell j = plain (region.index j)
  selection : ∀ (selection : Selection) (r : ResolvedSelection),
    selection.resolve h.shape = .ok r → t.HasRoomFor r.region.shape → h.grid.EndsInWords r.region →
    ∃ out, h.readSelection selection s = .ok out ∧ out.shape = selection.pickedShape h.shape ∧
      ∀ j : Index, j.Inside (selection.pickedShape h.shape) →
        out.cell j = plain (selection.pickedIndex h.shape j)
  region_overflow : ∀ region : Region, region.checkBounds h.shape = .ok () →
    ¬ h.grid.EndsInWords region → h.readRegion region s = .error (.violation .overflow)
  selection_overflow : ∀ (selection : Selection) (r : ResolvedSelection),
    selection.resolve h.shape = .ok r → ¬ h.grid.EndsInWords r.region →
    h.readSelection selection s = .error (.violation .overflow)

theorem Represents.readsAs (hwf : h.WellFormed) (hrep : h.Represents good plain s) :
    h.ReadsAs plain s := by
  have hfits {region : Region} (hbounds : region.checkBounds h.shape = .ok ()) :
      region.Fits h.shape := (Region.checkBounds_eq_ok_iff hwf.lt_wordLimit).1 hbounds
  constructor
  · exact fun chunk hcheck hroom => hrep.readChunk hwf hcheck hroom
  · exact fun region hbounds hroom hends => hrep.readRegion hwf (hfits hbounds) hroom hends
  · exact fun selection r hresolve hroom hends => hrep.readSelection hwf hresolve hroom hends
  · exact fun region hbounds hends => readRegion_eq_overflow hwf (hfits hbounds) hends s
  · exact fun selection r hresolve hends => readSelection_eq_overflow hwf hresolve hends s

/-- Starting from a store that keeps values and has no chunk of the array, any changes that succeed
leave a store from which all is read as from the plain array after the same changes. -/
theorem readsAs_plainAfter (hobtained : h.Obtained (σ := σ))
    (hlossless : ∀ c, .custom c ∈ h.codecs.onBytes → c.Lossless)
    (hstore : h.options.storeEmptyChunks = true) (hkeeps : KeepsValues σ h.IsChunkKey good)
    (hgood : good s)
    (hempty : ∀ chunk, h.IsChunk chunk → Store.get (h.chunkKey chunk) s = .ok none)
    {changes : List (ArrayChange t)} (hrun : h.changeAll changes s = (.ok (), s')) :
    h.ReadsAs (h.plainAfter changes) s' := by
  have hr : h.Reliable good := ⟨hobtained.wellFormed, hlossless, hkeeps, hstore⟩
  exact ((represents_fill hgood hempty).changes hr hrun).readsAs hr.wellFormed

/-- A small array: the last chunks along both axes stick out of it, and chunks are stored transposed,
masked and with a checksum. -/
def maskedMetadata : ArrayMetadata where
  zarrFormat := 3
  nodeType := "array"
  shape := [3, 4]
  dataType := .uint .bits16
  chunkGrid := ⟨[2, 3]⟩
  chunkKeyEncoding := .standard
  fillValue := .int 7
  codecs := [⟨"transpose", some (.obj [("order", .arr [.int 1, .int 0])])⟩,
    ⟨"bytes", some (.obj [("endian", .str "big")])⟩, ⟨"mask", none⟩, ⟨"crc32c", none⟩]
  attributes := []
  dimensionNames := none

def maskRegistry : CodecRegistry :=
  .register .default "mask" fun _ => .ok (.onBytes (.custom (.mask 0x5a)))

def maskedHandle : ArrayHandle (.uint .bits16) :=
  let chain : CodecChain := ⟨[⟨[1, 0]⟩], ⟨some .big⟩, [.custom (.mask 0x5a), .crc32c]⟩
  ⟨.root, { maskedMetadata with codecs := chain.specs }, chain, DataType.ofPattern _ 7, .default 1⟩

def maskedStore : MemoryStore :=
  MemoryStore.empty.insert maskedHandle.metadataKey maskedHandle.metadata.toBytes

theorem create_masked :
    create _ .root maskedMetadata maskRegistry (.default 1) MemoryStore.empty =
      (.ok maskedHandle, maskedStore) := rfl

theorem custom_masked {c : CustomCodec} (hc : .custom c ∈ maskedHandle.codecs.onBytes) :
    c.Lossless ∧ c.Encodes := by
  obtain rfl : c = .mask 0x5a := by simpa [maskedHandle] using hc
  exact ⟨CustomCodec.lossless_mask _, CustomCodec.encodes_mask _⟩

theorem get_chunkKey_masked {chunk : Index} (hchunk : maskedHandle.IsChunk chunk) :
    Store.get (maskedHandle.chunkKey chunk) maskedStore = .ok none := by
  have hnone : ∀ chunk ∈ (maskedHandle.grid.chunkCounts maskedHandle.shape).indices,
      maskedStore.get? (maskedHandle.chunkKey chunk) = none := by decide +kernel
  exact congrArg Except.ok (hnone chunk (Shape.mem_indices_iff.2 hchunk))

/-- Every kind of change, some with steps longer than one. -/
def mixedChanges : List (ArrayChange (.uint .bits16)) :=
  let cells (shape : Shape) (h : shape.isAddressable) : NdArray (DataType.uint .bits16).Element :=
    .ofFn shape h fun i => DataType.ofPattern _ (10 * i.headD 0 + i.getLastD 0)
  [.writeChunk [0, 0] (cells [2, 3] rfl), .writeRegion [⟨0, 2, 2⟩, ⟨1, 2, 2⟩] (cells [2, 2] rfl),
    .fillSelection [.slice 1 none 1, .full] (DataType.ofPattern _ 9), .eraseChunk [1, 1],
    .fillRegion [⟨0, 1, 1⟩, ⟨3, 1, 1⟩] (DataType.ofPattern _ 0),
    .writeSelection [.index 2, .slice 0 none 3] (cells [2] rfl)]

theorem readsAs_plainAfter_mixed :
    create _ .root maskedMetadata maskRegistry (.default 1) MemoryStore.empty =
        (.ok maskedHandle, maskedStore) ∧
      ∃ s' : MemoryStore, maskedHandle.changeAll mixedChanges maskedStore = (.ok (), s') ∧
        maskedHandle.ReadsAs (maskedHandle.plainAfter mixedChanges) s' := by
  have hmade : create _ .root maskedMetadata maskRegistry (.default 1) MemoryStore.empty =
      (.ok maskedHandle, maskedStore) := rfl
  have hlossless : ∀ c, .custom c ∈ maskedHandle.codecs.onBytes → c.Lossless := by
    intro c hc
    obtain rfl : c = .mask 0x5a := by simpa [maskedHandle] using hc
    exact CustomCodec.lossless_mask _
  have hempty : ∀ chunk ∈ (maskedHandle.grid.chunkCounts maskedHandle.shape).indices,
      maskedStore.get? (maskedHandle.chunkKey chunk) = none := by decide +kernel
  have hrun := StoreAction.eq_ok_of_isOk (a := maskedHandle.changeAll mixedChanges)
    (s := maskedStore) (by decide +kernel)
  exact ⟨hmade, _, hrun, readsAs_plainAfter (.create (by decide) hmade)
    hlossless rfl (MemoryStore.keepsValues _) trivial
    (fun chunk hchunk => congrArg Except.ok (hempty chunk (Shape.mem_indices_iff.2 hchunk))) hrun⟩

/-- An array of the greatest length, in chunks of two: the end of the last chunk is no word. -/
def longMetadata : ArrayMetadata where
  zarrFormat := 3
  nodeType := "array"
  shape := [wordLimit - 1]
  dataType := .uint .bits8
  chunkGrid := ⟨[2]⟩
  chunkKeyEncoding := .standard
  fillValue := .int 7
  codecs := []
  attributes := []
  dimensionNames := none

def longHandle : ArrayHandle (.uint .bits8) :=
  ⟨.root, { longMetadata with codecs := CodecChain.default.specs }, .default,
    DataType.ofPattern _ 7, .default 1⟩

def longStore : MemoryStore :=
  MemoryStore.empty.insert longHandle.metadataKey longHandle.metadata.toBytes

theorem create_long :
    create _ .root longMetadata .default (.default 1) MemoryStore.empty =
      (.ok longHandle, longStore) := rfl

/-- The last cell, which lies inside the array. -/
def lastCell : Region := [⟨wordLimit - 2, 1, 1⟩]

theorem fits_lastCell : lastCell.Fits longHandle.shape :=
  (Region.checkBounds_eq_ok_iff (by decide)).1 (by decide)

theorem wellFormed_long : longHandle.WellFormed :=
  (Obtained.create (by decide) create_long).wellFormed

theorem readRegion_lastCell :
    create _ .root longMetadata .default (.default 1) MemoryStore.empty =
        (.ok longHandle, longStore) ∧
      lastCell.checkBounds longHandle.shape = .ok () ∧
      (DataType.uint .bits8).HasRoomFor lastCell.shape ∧
      longHandle.readRegion lastCell longStore = .error (.violation .overflow) :=
  ⟨create_long, by decide, ⟨rfl, by decide⟩,
    readRegion_eq_overflow wellFormed_long fits_lastCell (by decide) _⟩

end ArrayHandle

end ChunkedArray
