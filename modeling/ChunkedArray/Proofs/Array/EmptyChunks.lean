import ChunkedArray.Proofs.Array.Refinement
import ChunkedArray.Proofs.Codec.Endings

/-!
# Chunks that are not stored

Two handles make the same changes, each on a store of its own: one stores every chunk, the other
erases a chunk in which every element passes for the fill value. The stores then agree on every chunk
up to elements that pass for the fill value, and so does all that is read from them. Only a zero of a
float type passes for another element, so with any other fill value the same is read, bit for bit.
-/

namespace ChunkedArray

/-! ### Elements -/

namespace Element

variable {t : DataType}

/-- A zero of a float type, of either sign. -/
def isFloatZero (x : t.Element) : Bool :=
  match t with
  | .float s => s.format.magnitude x.val == 0
  | _ => false

/-- Only a float zero passes for another element. -/
theorem eq_of_sameValue {x y : t.Element} (h : sameValue x y = true)
    (hy : isFloatZero y = false) : x = y := by
  cases t with
  | float s =>
    simp only [sameValue, Bool.and_eq_true, Bool.or_eq_true, beq_iff_eq] at h
    simp only [isFloatZero, beq_eq_false_iff_ne] at hy
    obtain ⟨-, hpattern | ⟨-, hzero⟩⟩ := h
    · exact Fin.ext hpattern
    · exact absurd hzero hy
  | bool => exact beq_iff_eq.1 h
  | int s => exact beq_iff_eq.1 h
  | uint s => exact beq_iff_eq.1 h

end Element

/-- Both give a value, with the same relation between them, or both stop alike. -/
def Checked.Alike {ε α : Type} (rel : α → α → Prop) : Checked ε α → Checked ε α → Prop
  | .ok a, .ok b => rel a b
  | .error e, .error e' => e = e'
  | _, _ => False

theorem Checked.Alike.eq {ε α : Type} {rel : α → α → Prop} (hrel : ∀ a b, rel a b → a = b)
    {x y : Checked ε α} (h : Alike rel x y) : x = y := by
  match x, y, h with
  | .ok _, .ok _, h => exact congrArg Except.ok (hrel _ _ h)
  | .error _, .error _, h => exact congrArg Except.error h

theorem Checked.Alike.mono {ε α : Type} {rel rel' : α → α → Prop} {x y : Checked ε α}
    (h : Alike rel x y) (hrel : ∀ a b, rel a b → rel' a b) : Alike rel' x y := by
  match x, y, h with
  | .ok _, .ok _, h => exact hrel _ _ h
  | .error _, .error _, h => exact h

theorem Checked.Alike.bind {ε α β : Type} {rel : α → α → Prop} {rel' : β → β → Prop}
    {x y : Checked ε α} {f g : α → Checked ε β} (h : Alike rel x y)
    (hfg : ∀ a b, rel a b → Alike rel' (f a) (g b)) : Alike rel' (x >>= f) (y >>= g) := by
  match x, y, h with
  | .ok _, .ok _, h => exact hfg _ _ h
  | .error _, .error _, h => exact h

structure NdArray.CellsAgree {α : Type} [Inhabited α] (rel : α → α → Prop) (a b : NdArray α) :
    Prop where
  shape_eq : a.shape = b.shape
  cell : ∀ i : Index, i.Inside a.shape → rel (a.cell i) (b.cell i)

namespace ArrayHandle

variable {t : DataType} {σ : Type} [Store σ] {h : ArrayHandle t} {good : σ → Prop}
  {s s' s₁ s₁' : σ} {chunk : Index} {region : Region} {p : ChunkPart}

/-- The same handle, which erases chunks of the fill value alone. -/
def dropping (h : ArrayHandle t) : ArrayHandle t :=
  { h with options := { h.options with storeEmptyChunks := false } }

/-- The second element is the first, or the fill value for which the first passes. -/
def UpToFill (h : ArrayHandle t) (x y : t.Element) : Prop :=
  y = x ∨ Element.sameValue x h.fillValue = true ∧ y = h.fillValue

/-- Two states of a chunk, stored or not, agree in every cell, also past the end of the array. -/
structure ChunksAgree (h : ArrayHandle t) (stored stored' : Option (NdArray t.Element)) : Prop where
  shape_eq : ∀ cells ∈ stored, cells.shape = h.grid.chunkShape
  shape_eq' : ∀ cells ∈ stored', cells.shape = h.grid.chunkShape
  cell : ∀ place : Index, place.Inside h.grid.chunkShape →
    h.UpToFill (stored.elim h.fillValue (·.cell place)) (stored'.elim h.fillValue (·.cell place))

/-- Two stores agree on every chunk. -/
structure StoresAgree (h : ArrayHandle t) (good : σ → Prop) (s s' : σ) : Prop where
  isGood : good s
  isGood' : good s'
  chunk : ∀ chunk, h.IsChunk chunk → ∃ stored stored', h.storedChunk? chunk s = .ok stored ∧
    h.storedChunk? chunk s' = .ok stored' ∧ h.ChunksAgree stored stored'

/-- The handle is reliable and nothing keeps a chunk from being stored. -/
structure Dependable (h : ArrayHandle t) (good : σ → Prop) : Prop extends Reliable h good where
  accepts : AcceptsValues σ h.IsChunkKey good
  encodes : ∀ cells : NdArray t.Element, cells.shape = h.grid.chunkShape →
    ∃ bytes, h.codecs.encode cells = .ok bytes
  hasRoom : t.HasRoomFor h.grid.chunkShape

/-! ### Storing a chunk in both stores -/

theorem StoresAgree.change (ha : h.StoresAgree good s s') {stored stored' : Option (NdArray t.Element)}
    (hchange : h.ChunkChanged good chunk stored s s₁)
    (hchange' : h.ChunkChanged good chunk stored' s' s₁') (hagree : h.ChunksAgree stored stored') :
    h.StoresAgree good s₁ s₁' := by
  refine ⟨hchange.isGood, hchange'.isGood, fun other hother => ?_⟩
  by_cases hne : other = chunk
  · subst hne
    exact ⟨stored, stored', hchange.stored_eq, hchange'.stored_eq, hagree⟩
  · obtain ⟨kept, kept', hkept, hkept', hagree⟩ := ha.chunk other hother
    exact ⟨kept, kept', (hchange.others other hother hne).trans hkept,
      (hchange'.others other hother hne).trans hkept', hagree⟩

theorem exists_storeChunk (hd : h.Dependable good) (hs : good s) (hchunk : h.IsChunk chunk)
    {cells : NdArray t.Element} (hshape : cells.shape = h.grid.chunkShape) :
    ∃ s₁, h.storeChunk chunk cells s = (.ok (), s₁) ∧
      h.ChunkChanged good chunk (some cells) s s₁ := by
  obtain ⟨bytes, hbytes⟩ := hd.encodes cells hshape
  obtain ⟨s₁, hset⟩ := hd.accepts.set bytes hs ⟨chunk, hchunk, rfl⟩
  have hrun := storeChunk_eq_ok hd.storeEmptyChunks hbytes hset
  exact ⟨s₁, hrun, chunkChanged_storeChunk hd.toReliable hs hchunk hshape hrun⟩

theorem exists_erase (hd : h.Dependable good) (hs : good s) (hchunk : h.IsChunk chunk) :
    ∃ found s₁, h.onChunk chunk (Store.erase (h.chunkKey chunk)) s = (.ok found, s₁) ∧
      h.ChunkChanged good chunk none s s₁ := by
  obtain ⟨found, s₁, herase⟩ := hd.accepts.erase hs ⟨chunk, hchunk, rfl⟩
  have hrun : h.onChunk chunk (Store.erase (h.chunkKey chunk)) s = (.ok found, s₁) :=
    StoreAction.rename_eq_ok_iff.2 herase
  exact ⟨found, s₁, hrun, chunkChanged_erase hd.toReliable hs hchunk hrun⟩

theorem exists_storeChunk_dropping (hd : h.Dependable good) (hs : good s) (hchunk : h.IsChunk chunk)
    {cells : NdArray t.Element} (hshape : cells.shape = h.grid.chunkShape) :
    ∃ s₁, h.dropping.storeChunk chunk cells s = (.ok (), s₁) ∧
      h.ChunkChanged good chunk (if h.isEmptyChunk cells then none else some cells) s s₁ := by
  by_cases hempty : h.isEmptyChunk cells = true
  · obtain ⟨found, s₁, hrun, hchange⟩ := exists_erase hd hs hchunk
    have hdrop : (!h.dropping.options.storeEmptyChunks && h.dropping.isEmptyChunk cells) = true :=
      hempty
    rw [if_pos hempty]
    refine ⟨s₁, ?_, hchange⟩
    rw [storeChunk, if_pos hdrop]
    exact StoreAction.bind_apply hrun _
  · obtain ⟨s₁, hrun, hchange⟩ := exists_storeChunk hd hs hchunk hshape
    have hkeep : ¬ (!h.dropping.options.storeEmptyChunks && h.dropping.isEmptyChunk cells) = true :=
      hempty
    rw [if_neg hempty]
    refine ⟨s₁, ?_, hchange⟩
    rw [storeChunk, if_neg (by simp [hd.storeEmptyChunks])] at hrun
    rw [storeChunk, if_neg hkeep]
    exact hrun

theorem isEmptyChunk_iff {cells : NdArray t.Element} :
    h.isEmptyChunk cells = true ↔ ∀ i : Index, i.Inside cells.shape →
      Element.sameValue (cells.cell i) h.fillValue = true := by
  rw [isEmptyChunk, List.all_eq_true]
  constructor
  · exact fun hall i hi => hall _ (NdArray.mem_cells_iff.2 ⟨i, hi, rfl⟩)
  · intro hall x hx
    obtain ⟨i, hi, rfl⟩ := NdArray.mem_cells_iff.1 hx
    exact hall i hi

/-- Storing chunks with agreeing cells keeps the stores in agreement, also where one is erased. -/
theorem ChunksAgree.drop_empty {cells cells' : NdArray t.Element}
    (hagree : h.ChunksAgree (some cells) (some cells')) :
    h.ChunksAgree (some cells) (if h.isEmptyChunk cells' then none else some cells') := by
  split
  · next hempty =>
    refine ⟨hagree.shape_eq, nofun, fun place hplace => .inr ⟨?_, rfl⟩⟩
    have hshape' := hagree.shape_eq' cells' rfl
    have hsame := isEmptyChunk_iff.1 hempty place (hshape'.symm ▸ hplace)
    rcases hagree.cell place hplace with heq | ⟨hfill, -⟩
    · exact heq ▸ hsame
    · exact hfill
  · exact hagree

/-! ### Operations in both runs -/

/-- From agreeing stores both operations end alike, and the stores agree again. -/
def Paired (h : ArrayHandle t) (good : σ → Prop) {α : Type} (a a' : ArrayAction σ α) : Prop :=
  ∀ s s', h.StoresAgree good s s' →
    (a s).1.map (fun _ => ()) = (a' s').1.map (fun _ => ()) ∧
      h.StoresAgree good (a s).2 (a' s').2

theorem Paired.bind {α β : Type} {a a' : ArrayAction σ α} {b b' : ArrayAction σ β}
    (ha : h.Paired good a a') (hb : h.Paired good b b') :
    h.Paired good (a >>= fun _ => b) (a' >>= fun _ => b') := by
  intro s s' hs
  obtain ⟨hend, hagree⟩ := ha s s' hs
  rcases hrun : a s with ⟨_ | x, s₁⟩ <;> rcases hrun' : a' s' with ⟨_ | x', s₁'⟩ <;>
    rw [hrun, hrun'] at hend hagree
  · rw [StoreAction.bind_apply_error hrun, StoreAction.bind_apply_error hrun']
    exact ⟨congrArg Except.error (Except.error.inj hend), hagree⟩
  · cases hend
  · cases hend
  · rw [StoreAction.bind_apply hrun, StoreAction.bind_apply hrun']
    exact hb s₁ s₁' hagree

theorem paired_reading_bind {α β : Type} (x : Checked ArrayError α) {f f' : α → ArrayAction σ β}
    (hf : ∀ a, x = .ok a → h.Paired good (f a) (f' a)) :
    h.Paired good (StoreAction.reading (fun _ => x) >>= f)
      (StoreAction.reading (fun _ => x) >>= f') := by
  intro s s' hs
  cases x with
  | error e => exact ⟨rfl, hs⟩
  | ok a => exact hf a rfl s s' hs

theorem paired_guard {α : Type} {c : Prop} [Decidable c] {e : Failure ArrayError}
    {a a' b b' : ArrayAction σ α} (ha : ¬ c → h.Paired good a a') :
    h.Paired good (if c then (throw e : ArrayAction σ PUnit) >>= fun _ => b else a)
      (if c then (throw e : ArrayAction σ PUnit) >>= fun _ => b' else a') := by
  by_cases hc : c
  · rw [if_pos hc, if_pos hc]
    exact fun s s' hs => ⟨rfl, hs⟩
  · rw [if_neg hc, if_neg hc]
    exact ha hc

theorem paired_pure {α : Type} (a : α) : h.Paired good (pure a) (pure a) :=
  fun _ _ hs => ⟨rfl, hs⟩

theorem paired_forM {ι : Type} {f f' : ι → ArrayAction σ Unit} {l : List ι}
    (hf : ∀ i ∈ l, h.Paired good (f i) (f' i)) : h.Paired good (l.forM f) (l.forM f') := by
  induction l with
  | nil => exact paired_pure ()
  | cons i l ih =>
    rw [List.forall_mem_cons] at hf
    exact hf.1.bind (ih hf.2)

section

variable (hd : h.Dependable good)

include hd

theorem paired_storeChunk (hchunk : h.IsChunk chunk) {cells cells' : NdArray t.Element}
    (hagree : h.ChunksAgree (some cells) (some cells')) :
    h.Paired good (h.storeChunk chunk cells) (h.dropping.storeChunk chunk cells') := by
  intro s s' hs
  obtain ⟨s₁, hrun, hchange⟩ := exists_storeChunk hd hs.isGood hchunk (hagree.shape_eq cells rfl)
  obtain ⟨s₁', hrun', hchange'⟩ :=
    exists_storeChunk_dropping hd hs.isGood' hchunk (hagree.shape_eq' cells' rfl)
  rw [hrun, hrun']
  exact ⟨rfl, hs.change hchange hchange' hagree.drop_empty⟩

theorem paired_eraseChunk (chunk : Index) :
    h.Paired good (h.eraseChunk chunk) (h.dropping.eraseChunk chunk) := by
  refine paired_reading_bind _ fun _ hcheck => ?_
  have hchunk := (checkChunk_eq_ok_iff hd.wellFormed).1 hcheck
  intro s s' hs
  obtain ⟨found, s₁, hrun, hchange⟩ := exists_erase hd hs.isGood hchunk
  obtain ⟨found', s₁', hrun', hchange'⟩ := exists_erase hd hs.isGood' hchunk
  have hnone : h.ChunksAgree none none := ⟨nofun, nofun, fun _ _ => .inl rfl⟩
  have hdropped : h.dropping.onChunk chunk (Store.erase (h.dropping.chunkKey chunk)) s' =
      (.ok found', s₁') := hrun'
  rw [hrun, hdropped]
  exact ⟨rfl, hs.change hchange hchange' hnone⟩

theorem exists_chunkOrFill (hs : h.StoresAgree good s s') (hchunk : h.IsChunk chunk) :
    ∃ cells cells', h.chunkOrFill chunk s = .ok cells ∧ h.chunkOrFill chunk s' = .ok cells' ∧
      h.ChunksAgree (some cells) (some cells') := by
  obtain ⟨filled, hfilled⟩ := NdArray.exists_filled hd.hasRoom h.fillValue
  obtain ⟨hshape, hcell⟩ := NdArray.filled_spec hfilled
  have hread (s : σ) (stored : Option (NdArray t.Element))
      (hstored : h.storedChunk? chunk s = .ok stored) :
      h.chunkOrFill chunk s = .ok (stored.getD filled) := by
    rw [chunkOrFill, hstored, Outcome.ok_bind]
    cases stored with
    | none => rw [ArrayHandle.filled, hfilled]; rfl
    | some cells => rfl
  have hgetShape (stored : Option (NdArray t.Element))
      (hstored : ∀ cells ∈ stored, cells.shape = h.grid.chunkShape) :
      (stored.getD filled).shape = h.grid.chunkShape := by
    cases stored with
    | none => exact hshape
    | some cells => exact hstored cells rfl
  have hgetCell (stored : Option (NdArray t.Element)) (place : Index)
      (hplace : place.Inside h.grid.chunkShape) :
      (stored.getD filled).cell place = stored.elim h.fillValue (·.cell place) := by
    cases stored with
    | none => exact hcell place hplace
    | some cells => rfl
  obtain ⟨stored, stored', hstored, hstored', hagree⟩ := hs.chunk chunk hchunk
  refine ⟨_, _, hread s stored hstored, hread s' stored' hstored', ?_, ?_, fun place hplace => ?_⟩
  · rintro _ ⟨⟩
    exact hgetShape stored hagree.shape_eq
  · rintro _ ⟨⟩
    exact hgetShape stored' hagree.shape_eq'
  · have hcells := hagree.cell place hplace
    rw [← hgetCell stored place hplace, ← hgetCell stored' place hplace] at hcells
    exact hcells

theorem exists_mergeBase (hs : h.StoresAgree good s s') (hfits : region.Fits h.shape)
    (hp : p ∈ h.grid.regionParts region) :
    ∃ base base', h.mergeBase p s = .ok base ∧ h.dropping.mergeBase p s' = .ok base' ∧
      h.ChunksAgree (some base) (some base') := by
  have hdropping : h.dropping.mergeBase p s' = h.mergeBase p s' := rfl
  rw [hdropping, mergeBase_of_mem hd.wellFormed hfits hp, mergeBase_of_mem hd.wellFormed hfits hp]
  split
  · obtain ⟨filled, hfilled⟩ := NdArray.exists_filled hd.hasRoom h.fillValue
    have hshape := (NdArray.filled_spec hfilled).1
    have hbase : h.filled h.grid.chunkShape = .ok filled := by
      rw [ArrayHandle.filled, hfilled]
      rfl
    refine ⟨filled, filled, hbase, hbase, ?_, ?_, fun _ _ => .inl rfl⟩
    · rintro _ ⟨⟩
      exact hshape
    · rintro _ ⟨⟩
      exact hshape
  · exact exists_chunkOrFill hd hs (isChunk_part hd.wellFormed hfits hp)

theorem paired_mergePart (hfits : region.Fits h.shape) (hp : p ∈ h.grid.regionParts region)
    {merge : Merge t} {f : Index → t.Element} (hmerge : h.Writes region merge f) :
    h.Paired good (h.mergePart merge p) (h.dropping.mergePart merge p) := by
  intro s s' hs
  have hchunk := isChunk_part hd.wellFormed hfits hp
  obtain ⟨base, base', hbase, hbase', hagree⟩ := exists_mergeBase hd hs hfits hp
  have hshape := hagree.shape_eq base rfl
  have hshape' := hagree.shape_eq' base' rfl
  obtain ⟨merged, hmerged, hreplaced⟩ := hmerge p hp base hshape
  obtain ⟨merged', hmerged', hreplaced'⟩ := hmerge p hp base' hshape'
  have hcells : h.ChunksAgree (some merged) (some merged') := by
    refine ⟨?_, ?_, fun place hplace => ?_⟩
    · rintro _ ⟨⟩
      exact hreplaced.shape_eq.trans hshape
    · rintro _ ⟨⟩
      exact hreplaced'.shape_eq.trans hshape'
    · show h.UpToFill (merged.cell place) (merged'.cell place)
      by_cases hhit : ∃ k : Index, k.Inside p.inChunk.shape ∧ p.inChunk.index k = place
      · obtain ⟨k, hk, rfl⟩ := hhit
        rw [hreplaced.cell_index k hk, hreplaced'.cell_index k hk]
        exact .inl rfl
      · have hmiss : ∀ k : Index, k.Inside p.inChunk.shape → p.inChunk.index k ≠ place :=
          fun k hk he => hhit ⟨k, hk, he⟩
        rw [hreplaced.cell_of_ne place (hshape.symm ▸ hplace) hmiss,
          hreplaced'.cell_of_ne place (hshape'.symm ▸ hplace) hmiss]
        exact hagree.cell place hplace
  have hrun : h.mergePart merge p s = h.storeChunk p.chunk merged s := by
    rw [mergePart, StoreAction.bind_apply (StoreAction.reading_eq_ok_iff.2 ⟨hbase, rfl⟩),
      hmerged]
    rfl
  have hrun' : h.dropping.mergePart merge p s' = h.dropping.storeChunk p.chunk merged' s' := by
    rw [mergePart, StoreAction.bind_apply (StoreAction.reading_eq_ok_iff.2 ⟨hbase', rfl⟩),
      hmerged']
    rfl
  rw [hrun, hrun']
  exact paired_storeChunk hd hchunk hcells s s' hs

theorem paired_mergeRegion (region : Region) {merge : Merge t} {f : Index → t.Element}
    (hmerge : region.Fits h.shape → h.Writes region merge f) :
    h.Paired good (h.mergeRegion region merge) (h.dropping.mergeRegion region merge) := by
  refine paired_reading_bind _ fun parts hparts => ?_
  obtain ⟨hfits, htoList⟩ := partsOf_spec hd.wellFormed hparts
  rw [htoList]
  exact paired_forM fun p hp => paired_mergePart hd hfits hp (hmerge hfits)

theorem paired_writeRegion (region : Region) (data : NdArray t.Element) :
    h.Paired good (h.writeRegion region data) (h.dropping.writeRegion region data) := by
  refine paired_guard fun hguard => paired_mergeRegion (f := data.cell) hd region fun hfits => ?_
  exact writes_data hd.wellFormed hfits (not_not.1 hguard)

theorem paired_fillRegion (region : Region) (x : t.Element) :
    h.Paired good (h.fillRegion region x) (h.dropping.fillRegion region x) :=
  paired_mergeRegion hd region fun hfits => writes_value hd.wellFormed hfits x

theorem paired_change (c : ArrayChange t) : h.Paired good (h.change c) (h.dropping.change c) := by
  cases c with
  | writeChunk chunk cells =>
    refine paired_reading_bind _ fun _ hcheck => paired_guard fun hguard => ?_
    have hchunk := (checkChunk_eq_ok_iff hd.wellFormed).1 hcheck
    have hshape : ∀ found ∈ some cells, found.shape = h.grid.chunkShape := by
      rintro _ ⟨⟩
      exact not_not.1 hguard
    exact paired_storeChunk hd hchunk ⟨hshape, hshape, fun _ _ => .inl rfl⟩
  | eraseChunk chunk => exact (paired_eraseChunk hd chunk).bind (paired_pure ())
  | writeRegion region data => exact paired_writeRegion hd region data
  | fillRegion region value => exact paired_fillRegion hd region value
  | writeSelection selection data =>
    refine paired_reading_bind _ fun r _ => paired_reading_bind _ fun full _ => ?_
    exact paired_writeRegion hd r.region full
  | fillSelection selection value =>
    exact paired_reading_bind _ fun r _ => paired_fillRegion hd r.region value

end

/-- The store after some changes, of which any may fail. -/
def after (h : ArrayHandle t) (changes : List (ArrayChange t)) (s : σ) : σ :=
  changes.foldl (fun s c => (h.change c s).2) s

theorem StoresAgree.after (hd : h.Dependable good) (hs : h.StoresAgree good s s')
    (changes : List (ArrayChange t)) :
    h.StoresAgree good (h.after changes s) (h.dropping.after changes s') := by
  induction changes generalizing s s' with
  | nil => exact hs
  | cons c changes ih => exact ih (paired_change hd c s s' hs).2

/-! ### Reading from agreeing stores -/

/-- What is stored of the cell's chunk, as far as it can be read. -/
def shown (h : ArrayHandle t) (s : σ) (i : Index) : t.Element :=
  match h.storedChunk? (h.grid.chunkOf i) s with
  | .ok (some cells) => cells.cell (h.grid.placeOf i)
  | _ => h.fillValue

theorem shown_of_storedChunk? {i : Index} {stored : Option (NdArray t.Element)}
    (hstored : h.storedChunk? (h.grid.chunkOf i) s = .ok stored) :
    h.shown s i = stored.elim h.fillValue (·.cell (h.grid.placeOf i)) := by
  rw [shown, hstored]
  cases stored <;> rfl

theorem showsChunk_shown (hwf : h.WellFormed) (hchunk : h.IsChunk chunk)
    {stored : Option (NdArray t.Element)} (hstored : h.storedChunk? chunk s = .ok stored)
    (hshape : ∀ cells ∈ stored, cells.shape = h.grid.chunkShape) :
    h.ShowsChunk (h.shown s) chunk stored := by
  refine ⟨hshape, fun place hplace => ?_⟩
  obtain ⟨-, hof, hat⟩ := cellAt_spec hwf hchunk hplace
  rw [shown_of_storedChunk? (hof.symm ▸ hstored), hat]

/-- A store of which every chunk can be read represents what is shown. -/
theorem represents_shown (hwf : h.WellFormed) (hs : good s)
    (hread : ∀ chunk, h.IsChunk chunk → ∃ stored, h.storedChunk? chunk s = .ok stored ∧
      ∀ cells ∈ stored, cells.shape = h.grid.chunkShape) : h.Represents good (h.shown s) s := by
  refine ⟨hs, fun chunk hchunk => ?_⟩
  obtain ⟨stored, hstored, hshape⟩ := hread chunk hchunk
  exact ⟨stored, hstored, showsChunk_shown hwf hchunk hstored hshape⟩

section

variable (hwf : h.WellFormed) (hs : h.StoresAgree good s s')

include hwf hs

theorem StoresAgree.represents :
    h.Represents good (h.shown s) s ∧ h.Represents good (h.shown s') s' := by
  constructor
  · refine represents_shown hwf hs.isGood fun chunk hchunk => ?_
    obtain ⟨stored, _, hstored, -, hagree⟩ := hs.chunk chunk hchunk
    exact ⟨stored, hstored, hagree.shape_eq⟩
  · refine represents_shown hwf hs.isGood' fun chunk hchunk => ?_
    obtain ⟨_, stored, -, hstored, hagree⟩ := hs.chunk chunk hchunk
    exact ⟨stored, hstored, hagree.shape_eq'⟩

theorem StoresAgree.shown {i : Index} (hi : i.Inside h.shape) :
    h.UpToFill (h.shown s i) (h.shown s' i) := by
  have hchunk := isChunk_chunkOf hwf hi
  obtain ⟨stored, stored', hstored, hstored', hagree⟩ := hs.chunk _ hchunk
  rw [shown_of_storedChunk? hstored, shown_of_storedChunk? hstored']
  have hplace := inside_chunkShape hwf hchunk (RegularGrid.placeOf_inside hwf.cuts hi)
  exact hagree.cell _ hplace

theorem StoresAgree.readRegion (region : Region) :
    Checked.Alike (fun a b => a.shape = region.shape ∧ NdArray.CellsAgree h.UpToFill a b)
      (h.readRegion region s) (h.dropping.readRegion region s') := by
  show Checked.Alike _ _ (h.readRegion region s')
  cases hparts : h.partsOf region with
  | error e => simp [ArrayHandle.readRegion, hparts, Checked.Alike]
  | ok parts =>
    cases hfilled : h.filled region.shape with
    | error e => simp [ArrayHandle.readRegion, hparts, hfilled, Checked.Alike]
    | ok start =>
      obtain ⟨hfits, hwords, -⟩ := (partsOf_eq_ok_iff hwf).1 hparts
      have hroom := NdArray.hasRoomFor_of_filled (Checked.guarded_eq_ok_iff.1 hfilled)
      obtain ⟨hrep, hrep'⟩ := hs.represents hwf
      obtain ⟨out, hout, hshape, hcell⟩ := hrep.readRegion hwf hfits hroom hwords.ends
      obtain ⟨out', hout', hshape', hcell'⟩ := hrep'.readRegion hwf hfits hroom hwords.ends
      rw [hout, hout']
      refine ⟨hshape, hshape.trans hshape'.symm, fun j hj => ?_⟩
      rw [hshape] at hj
      rw [hcell j hj, hcell' j hj]
      exact hs.shown hwf (hfits.index_inside hj)

theorem StoresAgree.readSelection (selection : Selection) :
    Checked.Alike (NdArray.CellsAgree h.UpToFill) (h.readSelection selection s)
      (h.dropping.readSelection selection s') := by
  show Checked.Alike _ _ (h.readSelection selection s')
  cases hresolve : selection.resolve h.shape with
  | error e => simp [ArrayHandle.readSelection, hresolve, Checked.report, Checked.Alike]
  | ok r =>
    have hthen (s : σ) : h.readSelection selection s =
        h.readRegion r.region s >>= fun cells => Checked.guarded (r.dropAxes cells) := by
      rw [ArrayHandle.readSelection, hresolve]
      rfl
    rw [hthen, hthen]
    refine (hs.readRegion hwf r.region).bind fun cells cells' hread => ?_
    obtain ⟨hshape, hagree⟩ := hread
    obtain ⟨hresolves, -⟩ := Selection.resolve_spec hresolve
    obtain ⟨out, hout, houtShape, hcell⟩ := Selection.dropAxes_spec hresolve hshape
    obtain ⟨out', hout', houtShape', hcell'⟩ :=
      Selection.dropAxes_spec hresolve (hagree.shape_eq.symm.trans hshape)
    rw [hout, hout']
    refine ⟨houtShape.trans houtShape'.symm, fun j hj => ?_⟩
    rw [houtShape] at hj
    rw [hcell j hj, hcell' j hj]
    exact hagree.cell _ (hshape.symm ▸ hresolves.restoreIndexed_inside hj)

end

theorem StoresAgree.readChunk (hd : h.Dependable good) (hs : h.StoresAgree good s s')
    (chunk : Index) :
    Checked.Alike (NdArray.CellsAgree h.UpToFill) (h.readChunk chunk s)
      (h.dropping.readChunk chunk s') := by
  show Checked.Alike _ _ (h.readChunk chunk s')
  cases hcheck : h.checkChunk chunk with
  | error e => simp [ArrayHandle.readChunk, hcheck, Checked.Alike]
  | ok _ =>
    have hchunk := (checkChunk_eq_ok_iff hd.wellFormed).1 hcheck
    obtain ⟨cells, cells', hcells, hcells', hagree⟩ := exists_chunkOrFill hd hs hchunk
    have hshape := hagree.shape_eq cells rfl
    rw [ArrayHandle.readChunk, ArrayHandle.readChunk, hcheck, Outcome.ok_bind, Outcome.ok_bind,
      hcells, hcells']
    refine ⟨hshape.trans (hagree.shape_eq' cells' rfl).symm, fun place hplace => ?_⟩
    exact hagree.cell place (hshape ▸ hplace)

/-! ### What readers see -/

/-- Everything that is read through the two handles from two stores is alike. -/
structure ReadsAlike (h h' : ArrayHandle t) (rel : NdArray t.Element → NdArray t.Element → Prop)
    (s s' : σ) : Prop where
  chunk : ∀ chunk, Checked.Alike rel (h.readChunk chunk s) (h'.readChunk chunk s')
  region : ∀ region, Checked.Alike rel (h.readRegion region s) (h'.readRegion region s')
  selection : ∀ selection,
    Checked.Alike rel (h.readSelection selection s) (h'.readSelection selection s')

section

variable (hobtained : h.Obtained (σ := σ)) (hstore : h.options.storeEmptyChunks = true)
  (hcustom : ∀ c, .custom c ∈ h.codecs.onBytes → c.Lossless ∧ c.Encodes)
  (hroom : t.HasRoomFor h.grid.chunkShape) (hkeeps : KeepsValues σ h.IsChunkKey good)
  (haccepts : AcceptsValues σ h.IsChunkKey good) (hgood : good s) (hgood' : good s')
  (hempty : ∀ chunk, h.IsChunk chunk → Store.get (h.chunkKey chunk) s = .ok none)
  (hempty' : ∀ chunk, h.IsChunk chunk → Store.get (h.chunkKey chunk) s' = .ok none)

include hobtained hstore hcustom hroom hkeeps haccepts hgood hgood' hempty hempty'

/-- After any changes, of which any may fail, the two handles read alike from stores that had no chunk
at first: an element that passes for the fill value may have become the fill value. -/
theorem readsAlike_after (changes : List (ArrayChange t)) :
    h.ReadsAlike h.dropping (NdArray.CellsAgree h.UpToFill) (h.after changes s)
      (h.dropping.after changes s') := by
  have hwf := hobtained.wellFormed
  have hd : h.Dependable good := by
    refine ⟨⟨hwf, fun c hc => (hcustom c hc).1, hkeeps, hstore⟩, haccepts, ?_, hroom⟩
    exact fun cells hshape =>
      hobtained.exists_encode hroom.countsBytes.bytes (fun c hc => (hcustom c hc).2) hshape
  have hstart : h.StoresAgree good s s' := by
    refine ⟨hgood, hgood', fun chunk hchunk => ⟨none, none, ?_, ?_, ?_⟩⟩
    · exact storedChunk?_eq_none (hempty chunk hchunk)
    · exact storedChunk?_eq_none (hempty' chunk hchunk)
    · exact ⟨(by rintro _ ⟨⟩), (by rintro _ ⟨⟩), fun _ _ => .inl rfl⟩
  have hagree := hstart.after hd changes
  constructor
  · exact hagree.readChunk hd
  · exact fun region => (hagree.readRegion hwf region).mono fun _ _ hread => hread.2
  · exact hagree.readSelection hwf

/-- After any changes, of which any may fail, the two handles read the same, bit for bit, unless the
fill value is a float zero. -/
theorem readsSame_after (hfill : Element.isFloatZero h.fillValue = false)
    (changes : List (ArrayChange t)) :
    h.ReadsSame h.dropping (h.after changes s) (h.dropping.after changes s') := by
  have heq (a b : NdArray t.Element) (hab : NdArray.CellsAgree h.UpToFill a b) : a = b := by
    refine NdArray.ext_cell hab.shape_eq fun i hi => ?_
    rcases hab.cell i hi with heq | ⟨hsame, heq⟩
    · exact heq.symm
    · rw [heq]
      exact Element.eq_of_sameValue hsame hfill
  have halike := readsAlike_after hobtained hstore hcustom hroom hkeeps haccepts hgood hgood' hempty
    hempty' changes
  constructor
  · exact fun chunk => (halike.chunk chunk).eq heq
  · exact fun region => (halike.region region).eq heq
  · exact fun selection => (halike.selection selection).eq heq

end

/-- Changes that first fill the array with its fill value, so that every chunk is dropped. -/
def refillChanges : List (ArrayChange (.uint .bits16)) :=
  .fillSelection [.full, .full] maskedHandle.fillValue :: mixedChanges

theorem readsSame_after_refill :
    maskedHandle.ReadsSame maskedHandle.dropping (maskedHandle.after refillChanges maskedStore)
      (maskedHandle.dropping.after refillChanges maskedStore) :=
  readsSame_after (.create (by decide) create_masked) rfl (fun _ => custom_masked)
    ⟨by decide, by decide⟩
    (MemoryStore.keepsValues _) (MemoryStore.acceptsValues _) trivial trivial
    (fun _ => get_chunkKey_masked) (fun _ => get_chunkKey_masked) (by decide) refillChanges

/-! ### A fill value of zero -/

/-- An array of floats, whose fill value is the positive zero. -/
def zeroMetadata : ArrayMetadata where
  zarrFormat := 3
  nodeType := "array"
  shape := [2]
  dataType := .float .bits32
  chunkGrid := ⟨[2]⟩
  chunkKeyEncoding := .standard
  fillValue := .float 0
  codecs := []
  attributes := []
  dimensionNames := none

def zeroHandle : ArrayHandle (.float .bits32) :=
  ⟨.root, { zeroMetadata with codecs := CodecChain.default.specs }, .default,
    DataType.ofPattern _ 0, .default 1⟩

def zeroStore : MemoryStore :=
  MemoryStore.empty.insert zeroHandle.metadataKey zeroHandle.metadata.toBytes

theorem isAddressable_zero : zeroMetadata.shape.isAddressable := rfl

/-- A chunk whose first cell is the negative zero. -/
def negativeZero : ArrayChange (.float .bits32) :=
  .writeChunk [0] (.ofFn zeroMetadata.shape isAddressable_zero fun i =>
    DataType.ofPattern _ (if i = [0] then 0x80000000 else 0))

/-- The sign of a zero is lost with a chunk that is not stored. -/
theorem readChunk_dropping_ne :
    create _ .root zeroMetadata .default (.default 1) MemoryStore.empty =
        (.ok zeroHandle, zeroStore) ∧
      zeroHandle.readChunk [0] (zeroHandle.after [negativeZero] zeroStore) ≠
        zeroHandle.dropping.readChunk [0] (zeroHandle.dropping.after [negativeZero] zeroStore) := by
  refine ⟨rfl, fun he => ?_⟩
  have hcells := congrArg (fun read => read.toOption.map NdArray.cells) he
  revert hcells
  decide +kernel

end ArrayHandle

end ChunkedArray
