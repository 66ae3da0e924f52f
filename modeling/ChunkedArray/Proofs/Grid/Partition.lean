import ChunkedArray.Proofs.Grid.Words
import Mathlib.Data.List.Nodup

/-!
# The parts of a region

The parts of a region are all choices of one part per axis. Each cell of the region is in exactly one
of them, in the chunk and at the place that the grid gives that cell, and the chunks come in row-major
order. Taken one after the other, they are as many as announced. All this holds where the parts are
found, which is exactly where the ends of the chunks and the number of parts are words.
-/

namespace ChunkedArray

/-! ### Taking parts one after the other -/

namespace ChunkParts

theorem length_rest_lt {parts after : ChunkParts} {p : ChunkPart}
    (h : parts.next? = some (p, after)) : after.rest.length < parts.rest.length := by
  obtain ⟨announced, rest⟩ := parts
  rw [next?] at h
  split at h
  · cases h
  · cases rest with
    | nil => cases h
    | cons q rest => cases h; exact Nat.lt_succ_self _

/-- The parts that are given one after the other. -/
def collect (parts : ChunkParts) : List ChunkPart :=
  match h : parts.next? with
  | none => []
  | some (p, after) =>
    have := length_rest_lt h
    p :: after.collect
termination_by parts.rest.length

/-- What is left after asking `n` times for the next part. -/
def advance : Nat → ChunkParts → ChunkParts
  | 0, parts => parts
  | n + 1, parts =>
    match parts.next? with
    | none => parts
    | some (_, after) => after.advance n

/-- As many parts are announced as there are. -/
def Exact (parts : ChunkParts) : Prop := parts.announced = parts.rest.length

theorem collect_eq (parts : ChunkParts) :
    parts.collect = parts.next?.elim [] fun (p, after) => p :: after.collect := by
  rw [collect]
  split
  · next h => simp [h]
  · next h => simp [h]

theorem Exact.collect_eq {parts : ChunkParts} (h : parts.Exact) : parts.collect = parts.rest := by
  obtain ⟨announced, rest⟩ := parts
  obtain rfl : announced = rest.length := h
  induction rest with
  | nil => rw [ChunkParts.collect_eq]; rfl
  | cons p rest ih =>
    rw [ChunkParts.collect_eq]
    exact congrArg (p :: ·) ih

theorem Exact.advance_eq {parts : ChunkParts} (h : parts.Exact) (n : Nat) :
    advance n parts = ⟨parts.announced - n, parts.rest.drop n⟩ := by
  obtain ⟨announced, rest⟩ := parts
  obtain rfl : announced = rest.length := h
  induction n generalizing rest with
  | zero => rfl
  | succ n ih =>
    cases rest with
    | nil => simp [advance, next?]
    | cons p rest =>
      refine (ih rest).trans ?_
      simp

theorem Exact.advance {parts : ChunkParts} (h : parts.Exact) (n : Nat) :
    (parts.advance n).Exact := by
  have hannounced : parts.announced = parts.rest.length := h
  rw [h.advance_eq]
  simp [Exact, hannounced]

theorem length_product (axes : List (List AxisPart)) :
    (product axes).length = Shape.size (axes.map List.length) := by
  induction axes with
  | nil => rfl
  | cons axis axes ih =>
    rw [product, List.map_cons, Shape.size, ← ih]
    induction axis with
    | nil => simp
    | cons a axis ih => simp [ih, Nat.succ_mul, Nat.add_comm]

/-- All parts of these axes, as many as there are. -/
def whole (axes : List (List AxisPart)) : ChunkParts :=
  ⟨Shape.size (axes.map List.length), if axes = [] then [] else product axes⟩

theorem ofAxes_eq_ok_iff {axes : List (List AxisPart)} {parts : ChunkParts} :
    ofAxes axes = .ok parts ↔ Word.Multiplies (axes.map List.length) ∧ parts = whole axes := by
  simp only [ofAxes, Outcome.bind_eq_ok_iff, Word.product_eq_ok_iff, Outcome.pure_eq_ok,
    Except.ok.injEq]
  constructor
  · rintro ⟨_, ⟨hwords, rfl⟩, rfl⟩
    exact ⟨hwords, rfl⟩
  · rintro ⟨hwords, rfl⟩
    exact ⟨_, ⟨hwords, rfl⟩, rfl⟩

theorem onlyOverflows_ofAxes (axes : List (List AxisPart)) : Word.OnlyOverflows (ofAxes axes) :=
  (Word.onlyOverflows_product _).bind fun _ => Word.onlyOverflows_ok _

theorem exact_whole {axes : List (List AxisPart)} (h : axes ≠ []) : (whole axes).Exact := by
  unfold Exact whole
  rw [if_neg h, length_product]

end ChunkParts

/-! ### Parts along every axis -/

namespace ChunkPart

/-- A part along the first axis and one along the others. -/
def cons (a : AxisPart) (p : ChunkPart) : ChunkPart :=
  ⟨a.chunk :: p.chunk, a.inChunk :: p.inChunk, a.inRegion :: p.inRegion⟩

/-- Along every axis the part is one of the run of that axis. -/
inductive IsPartOf : ChunkPart → Region → Shape → Prop where
  | nil : IsPartOf ⟨[], [], []⟩ [] []
  | cons {a : AxisPart} {p : ChunkPart} {r : Run} {region : Region} {n : Nat} {lengths : Shape} :
    a.IsPartOf r n → IsPartOf p region lengths → IsPartOf (cons a p) (r :: region) (n :: lengths)

/-- The cell of the region is one of those in the part. -/
def Holds (p : ChunkPart) (j : Index) : Prop :=
  ∃ k : Index, k.Inside p.inRegion.shape ∧ p.inRegion.index k = j

theorem holds_cons_iff {a : AxisPart} {p : ChunkPart} {i : Nat} {j : Index} :
    (cons a p).Holds (i :: j) ↔ a.Holds i ∧ p.Holds j := by
  constructor
  · rintro ⟨k, hk, he⟩
    cases hk with
    | cons hlt hk =>
      obtain ⟨h₁, h₂⟩ := List.cons.inj he
      exact ⟨⟨_, hlt, h₁⟩, _, hk, h₂⟩
  · rintro ⟨⟨i, hi, rfl⟩, k, hk, rfl⟩
    exact ⟨i :: k, .cons hi hk, rfl⟩

variable {p : ChunkPart} {region : Region} {lengths shape : Shape} {k : Index}

theorem IsPartOf.shape_eq (h : p.IsPartOf region lengths) : p.inChunk.shape = p.inRegion.shape := by
  induction h with
  | nil => rfl
  | cons ha _ ih => exact congrArg₂ List.cons ha.count_eq ih

theorem IsPartOf.size_pos (h : p.IsPartOf region lengths) : 0 < p.inRegion.shape.size := by
  induction h with
  | nil => exact Nat.one_pos
  | cons ha _ ih => exact Nat.mul_pos ha.count_pos ih

theorem IsPartOf.index_inside (h : p.IsPartOf region lengths) (hk : k.Inside p.inRegion.shape) :
    (p.inRegion.index k).Inside region.shape := by
  induction h generalizing k with
  | nil =>
    cases hk
    exact .nil
  | cons ha _ ih =>
    cases hk with
    | cons hlt hk => exact .cons (ha.index_lt _ hlt) (ih hk)

theorem IsPartOf.chunkOf_eq (h : p.IsPartOf region lengths) (hk : k.Inside p.inRegion.shape) :
    (RegularGrid.mk lengths).chunkOf (region.index (p.inRegion.index k)) = p.chunk := by
  induction h generalizing k with
  | nil => rfl
  | cons ha _ ih =>
    cases hk with
    | cons hlt hk => exact congrArg₂ _ (ha.div_eq _ hlt) (ih hk)

theorem IsPartOf.placeOf_eq (h : p.IsPartOf region lengths) (hk : k.Inside p.inRegion.shape) :
    (RegularGrid.mk lengths).placeOf (region.index (p.inRegion.index k)) = p.inChunk.index k := by
  induction h generalizing k with
  | nil =>
    cases hk
    rfl
  | cons ha _ ih =>
    cases hk with
    | cons hlt hk => exact congrArg₂ _ (ha.mod_eq _ hlt) (ih hk)

theorem IsPartOf.inRegion_fits (h : p.IsPartOf region lengths) : p.inRegion.Fits region.shape := by
  induction h with
  | nil => exact .nil
  | cons ha _ ih => exact .cons ha.inRegion_fits ih

theorem IsPartOf.inChunk_fits (h : p.IsPartOf region lengths) (hpos : ∀ n ∈ lengths, 0 < n)
    (hr : region.Fits shape) :
    p.inChunk.Fits ((RegularGrid.mk lengths).chunkExtent p.chunk shape) := by
  induction h generalizing shape with
  | nil => cases hr; exact .nil
  | cons ha _ ih =>
    rw [List.forall_mem_cons] at hpos
    cases hr with
    | cons hr hregion => exact .cons (ha.inChunk_fits hpos.1 hr) (ih hpos.2 hregion)

end ChunkPart

/-! ### The product -/

namespace ChunkParts

theorem mem_product_cons_iff {axis : List AxisPart} {axes : List (List AxisPart)} {p : ChunkPart} :
    p ∈ product (axis :: axes) ↔ ∃ a ∈ axis, ∃ q ∈ product axes, ChunkPart.cons a q = p := by
  simp only [product, List.mem_flatMap, List.mem_map, ChunkPart.cons]

/-- If the chunks of every axis increase, those of the product do so in row-major order. -/
theorem pairwise_product {axes : List (List AxisPart)}
    (h : ∀ axis ∈ axes, axis.Pairwise fun a b => a.chunk < b.chunk) :
    (product axes).Pairwise fun p q => p.chunk < q.chunk := by
  induction axes with
  | nil => exact List.pairwise_singleton _ _
  | cons axis axes ih =>
    rw [List.forall_mem_cons] at h
    rw [product, List.pairwise_flatMap]
    -- Parts of one first chunk differ later; otherwise their first chunks decide.
    constructor
    · intro a _
      rw [List.pairwise_map]
      exact (ih h.2).imp fun hlt => List.cons_lt_cons_iff.2 (.inr ⟨rfl, hlt⟩)
    · refine h.1.imp fun hlt p hp q hq => ?_
      obtain ⟨_, _, rfl⟩ := List.mem_map.1 hp
      obtain ⟨_, _, rfl⟩ := List.mem_map.1 hq
      exact List.cons_lt_cons_iff.2 (.inl hlt)

end ChunkParts

namespace RegularGrid

variable {g : RegularGrid} {shape : Shape} {region : Region}

def axisParts (g : RegularGrid) (region : Region) : List (List AxisPart) :=
  List.zipWith (fun r n => r.partsFrom n 0) region g.chunkShape

def regionParts (g : RegularGrid) (region : Region) : List ChunkPart :=
  ChunkParts.product (g.axisParts region)

/-- The ends of the chunks that the region meets and the number of its parts are words. -/
structure CountsInWords (g : RegularGrid) (region : Region) : Prop where
  ends : g.EndsInWords region
  counts : Word.Multiplies ((g.axisParts region).map List.length)

/-- The parts along every axis are found exactly if the chunks end in words. -/
theorem mapM_wordPartsFrom_eq_ok_iff (h : g.Cuts shape) (hr : region.Fits shape)
    {axes : List (List AxisPart)} :
    (region.zip g.chunkShape).mapM (fun p => p.1.wordPartsFrom p.2 0) = .ok axes ↔
      g.EndsInWords region ∧ axes = g.axisParts region := by
  obtain ⟨lengths⟩ := g
  induction hr generalizing lengths axes with
  | nil => simp [axisParts, EndsInWords, eq_comm]
  | @cons r m region shape hr _ ih =>
    cases lengths with
    | nil => simp [axisParts, EndsInWords, eq_comm]
    | cons n lengths =>
      obtain ⟨hn, h⟩ := cuts_cons_iff.1 h
      simp only [axisParts, EndsInWords, List.zip_cons_cons, List.mapM_cons,
        Outcome.bind_eq_ok_iff, Run.wordPartsFrom_zero_eq_ok_iff hn hr.step_pos, ih lengths h,
        List.zipWith_cons_cons, List.forall_mem_cons, Outcome.pure_eq_ok, Except.ok.injEq]
      constructor
      · rintro ⟨_, ⟨hfirst, rfl⟩, _, ⟨hothers, rfl⟩, rfl⟩
        exact ⟨⟨hfirst, hothers⟩, rfl⟩
      · rintro ⟨⟨hfirst, hothers⟩, rfl⟩
        exact ⟨_, ⟨hfirst, rfl⟩, _, ⟨hothers, rfl⟩, rfl⟩

theorem partsOf_eq_ok_iff (h : g.Cuts shape) (hr : region.Fits shape) {parts : ChunkParts} :
    g.partsOf region = .ok parts ↔
      g.CountsInWords region ∧ parts = .whole (g.axisParts region) := by
  simp only [partsOf, Outcome.bind_eq_ok_iff, mapM_wordPartsFrom_eq_ok_iff h hr,
    ChunkParts.ofAxes_eq_ok_iff]
  constructor
  · rintro ⟨_, ⟨hends, rfl⟩, hcounts, rfl⟩
    exact ⟨⟨hends, hcounts⟩, rfl⟩
  · rintro ⟨⟨hends, hcounts⟩, rfl⟩
    exact ⟨_, ⟨hends, rfl⟩, hcounts, rfl⟩

theorem partsOf_eq_overflow (h : g.Cuts shape) (hr : region.Fits shape)
    (hwords : ¬ g.CountsInWords region) : g.partsOf region = .error .overflow := by
  have hrun (p : Run × Nat) (hp : p ∈ region.zip g.chunkShape) :
      Word.OnlyOverflows (p.1.wordPartsFrom p.2 0) :=
    Run.onlyOverflows_wordPartsFrom (h.pos _ (List.of_mem_zip hp).2)
      (Region.Fits.step_pos hr _ (List.of_mem_zip hp).1) 0
  have honly : Word.OnlyOverflows (g.partsOf region) :=
    (Word.onlyOverflows_mapM hrun).bind fun _ => ChunkParts.onlyOverflows_ofAxes _
  exact honly.eq_overflow fun parts hparts => hwords ((partsOf_eq_ok_iff h hr).1 hparts).1

/-- The parts of a region in memory are few enough. -/
theorem countsInWords_of_isAddressable (h : g.Cuts shape) (hr : region.Fits shape)
    (hroom : region.shape.isAddressable) (hends : g.EndsInWords region) :
    g.CountsInWords region := by
  refine ⟨hends, .of_le ?_ (Word.multiplies_of_isAddressable hroom)⟩
  clear hroom hends
  obtain ⟨lengths⟩ := g
  induction hr generalizing lengths with
  | nil => exact .nil
  | cons hr _ ih =>
    cases lengths with
    | nil => exact absurd h.length_eq (by simp)
    | cons n lengths =>
      obtain ⟨hn, h⟩ := cuts_cons_iff.1 h
      exact .cons (Run.length_partsFrom_le hn hr.step_pos 0) (ih lengths h)

theorem isPartOf_of_mem (h : g.Cuts shape) (hr : region.Fits shape) :
    ∀ p ∈ g.regionParts region, p.IsPartOf region g.chunkShape := by
  obtain ⟨lengths⟩ := g
  induction hr generalizing lengths with
  | nil =>
    cases lengths with
    | nil => simp [regionParts, axisParts, ChunkParts.product, ChunkPart.IsPartOf.nil]
    | cons => exact absurd h.length_eq (by simp)
  | cons hr _ ih =>
    cases lengths with
    | nil => exact absurd h.length_eq (by simp)
    | cons n lengths =>
      obtain ⟨hn, h⟩ := cuts_cons_iff.1 h
      intro p hp
      obtain ⟨a, ha, q, hq, rfl⟩ := ChunkParts.mem_product_cons_iff.1 hp
      exact .cons (Run.isPartOf_of_mem hn hr.step_pos 0 a ha) (ih lengths h q hq)

theorem exists_part (h : g.Cuts shape) (hr : region.Fits shape) {j : Index}
    (hj : j.Inside region.shape) : ∃ p ∈ g.regionParts region, p.Holds j := by
  obtain ⟨lengths⟩ := g
  induction hr generalizing lengths j with
  | nil =>
    cases lengths with
    | nil => exact ⟨_, List.mem_singleton.2 rfl, j, hj, by cases hj; rfl⟩
    | cons => exact absurd h.length_eq (by simp)
  | cons hr _ ih =>
    cases lengths with
    | nil => exact absurd h.length_eq (by simp)
    | cons n lengths =>
      obtain ⟨hn, h⟩ := cuts_cons_iff.1 h
      cases hj with
      | cons hi hj =>
        obtain ⟨a, ha, hai⟩ := Run.exists_holds_of_le hn hr.step_pos 0 _ (Nat.zero_le _) hi
        obtain ⟨q, hq, hqj⟩ := ih hj lengths h
        exact ⟨.cons a q, ChunkParts.mem_product_cons_iff.2 ⟨a, ha, q, hq, rfl⟩,
          ChunkPart.holds_cons_iff.2 ⟨hai, hqj⟩⟩

theorem pairwise_regionParts (h : g.Cuts shape) (hr : region.Fits shape) :
    (g.regionParts region).Pairwise fun p q => p.chunk < q.chunk := by
  refine ChunkParts.pairwise_product ?_
  obtain ⟨lengths⟩ := g
  induction hr generalizing lengths with
  | nil => intro axis haxis; cases haxis
  | cons hr _ ih =>
    cases lengths with
    | nil => intro axis haxis; cases haxis
    | cons n lengths =>
      obtain ⟨hn, h⟩ := cuts_cons_iff.1 h
      exact List.forall_mem_cons.2 ⟨Run.pairwise_partsFrom hn hr.step_pos 0, ih lengths h⟩

theorem chunksInRegion_eq (h : g.Cuts shape) (hbounds : region.checkBounds shape = .ok ()) :
    g.chunksInRegion shape region = Checked.guarded (g.partsOf region) := by
  have hrank : shape.length = g.rank := h.length_eq.symm
  rw [chunksInRegion, RankMismatch.check_eq_ok_iff.2 hrank, hbounds]
  rfl

theorem axisParts_ne_nil (h : g.Cuts shape) (hr : region.Fits shape) (hrank : 0 < g.rank) :
    g.axisParts region ≠ [] := by
  intro hnil
  have hlength := congrArg List.length hnil
  rw [axisParts, List.length_zipWith, hr.length_eq, ← h.length_eq, Nat.min_self] at hlength
  exact Nat.ne_of_gt hrank hlength

theorem collect_whole (h : g.Cuts shape) (hr : region.Fits shape) (hrank : 0 < g.rank) :
    (ChunkParts.whole (g.axisParts region)).collect = g.regionParts region := by
  have hne := axisParts_ne_nil h hr hrank
  rw [(ChunkParts.exact_whole hne).collect_eq]
  exact if_neg hne

/-- The part is what the array has in its chunk of some cells of the region: it is not empty, its
cells lie in the region and in the array, and the grid gives them the chunk and the places in it that
the part names. -/
structure Agrees (g : RegularGrid) (shape : Shape) (region : Region) (p : ChunkPart) : Prop where
  shape_eq : p.inChunk.shape = p.inRegion.shape
  size_pos : 0 < p.inChunk.shape.size
  inRegion_inside : ∀ k : Index, k.Inside p.inRegion.shape →
    (p.inRegion.index k).Inside region.shape
  inChunk_inside : ∀ k : Index, k.Inside p.inChunk.shape →
    (p.inChunk.index k).Inside (g.chunkExtent p.chunk shape)
  voxelChunk_eq : ∀ k : Index, k.Inside p.inRegion.shape →
    g.voxelChunk (region.index (p.inRegion.index k)) = .ok (p.chunk, p.inChunk.index k)
  checkChunk_eq : g.checkChunk p.chunk shape = .ok ()

theorem agrees_of_mem (h : g.Cuts shape) (hr : region.Fits shape) {p : ChunkPart}
    (hp : p ∈ g.regionParts region) : g.Agrees shape region p := by
  have hpart := isPartOf_of_mem h hr p hp
  have hinside {k : Index} (hk : k.Inside p.inRegion.shape) :
      (region.index (p.inRegion.index k)).Inside shape := hr.index_inside (hpart.index_inside hk)
  constructor
  · exact hpart.shape_eq
  · rw [hpart.shape_eq]
    exact hpart.size_pos
  · exact fun k hk => hpart.index_inside hk
  · exact fun k hk => (hpart.inChunk_fits h.pos hr).index_inside hk
  · intro k hk
    rw [voxelChunk_eq_ok h.pos ((hinside hk).length_eq.trans h.length_eq.symm)]
    exact congrArg Except.ok (Prod.ext (hpart.chunkOf_eq hk) (hpart.placeOf_eq hk))
  · obtain ⟨k, hk⟩ := Index.exists_inside hpart.size_pos
    rw [checkChunk_eq_ok_iff h, ← hpart.chunkOf_eq hk]
    exact inside_chunkCounts h (hinside hk)

theorem nodup_chunks (h : g.Cuts shape) (hr : region.Fits shape) :
    ((g.regionParts region).map ChunkPart.chunk).Nodup := by
  refine List.pairwise_map.2 ((pairwise_regionParts h hr).imp ?_)
  intro p q hlt he
  rw [he] at hlt
  exact List.lt_irrefl _ hlt

theorem part_unique (h : g.Cuts shape) (hr : region.Fits shape) {p q : ChunkPart} {j : Index}
    (hp : p ∈ g.regionParts region) (hq : q ∈ g.regionParts region) (hpj : p.Holds j)
    (hqj : q.Holds j) : p = q := by
  obtain ⟨k, hk, hkj⟩ := hpj
  obtain ⟨l, hl, rfl⟩ := hqj
  have hchunk : p.chunk = q.chunk := by
    rw [← (isPartOf_of_mem h hr p hp).chunkOf_eq hk, ← (isPartOf_of_mem h hr q hq).chunkOf_eq hl,
      hkj]
  exact List.inj_on_of_nodup_map (nodup_chunks h hr) hp hq hchunk

/-- Every cell of the region is in exactly one part, the parts agree with the grid and come in
row-major order of their chunks, and as many are announced at any time as are still to come. -/
structure IsPartition (g : RegularGrid) (shape : Shape) (region : Region) (parts : ChunkParts) :
    Prop where
  existsUnique_holds : ∀ j : Index, j.Inside region.shape → ∃! p, p ∈ parts.collect ∧ p.Holds j
  agrees : ∀ p ∈ parts.collect, g.Agrees shape region p
  pairwise_chunk : parts.collect.Pairwise fun p q => p.chunk < q.chunk
  collect_advance : ∀ n, (parts.advance n).collect = parts.collect.drop n
  announced_advance : ∀ n, (parts.advance n).announced = (parts.advance n).collect.length

theorem isPartition_whole (h : g.Cuts shape) (hr : region.Fits shape) (hrank : 0 < g.rank) :
    g.IsPartition shape region (.whole (g.axisParts region)) := by
  have hexact := ChunkParts.exact_whole (axisParts_ne_nil h hr hrank)
  have hcollect := collect_whole h hr hrank
  constructor
  · intro j hj
    rw [hcollect]
    obtain ⟨p, hp, hpj⟩ := exists_part h hr hj
    exact ⟨p, ⟨hp, hpj⟩, fun q hq => part_unique h hr hq.1 hp hq.2 hpj⟩
  · rw [hcollect]
    exact fun p hp => agrees_of_mem h hr hp
  · rw [hcollect]
    exact pairwise_regionParts h hr
  · intro n
    rw [(hexact.advance n).collect_eq, hexact.advance_eq, hexact.collect_eq]
  · intro n
    rw [(hexact.advance n).collect_eq]
    exact hexact.advance n

/-- A region inside an array is partitioned by the chunks that it meets, unless the end of one of them
or the number of parts is no word: then the search for them stops. -/
theorem chunksInRegion_partition {g : RegularGrid} {shape : Shape} {region : Region}
    (hrank : 0 < g.rank) (hpos : ∀ n ∈ g.chunkShape, 0 < n) (hshape : shape.length = g.rank)
    (hword : ∀ n ∈ shape, n < wordLimit) (hbounds : region.checkBounds shape = .ok ()) :
    (g.CountsInWords region →
      ∃ parts, g.chunksInRegion shape region = .ok parts ∧ g.IsPartition shape region parts) ∧
    (¬ g.CountsInWords region →
      g.chunksInRegion shape region = .error (.violation .overflow)) := by
  have h : g.Cuts shape := ⟨hshape.symm, hpos⟩
  have hr : region.Fits shape := (Region.checkBounds_eq_ok_iff hword).1 hbounds
  rw [chunksInRegion_eq h hbounds]
  constructor
  · intro hwords
    rw [(partsOf_eq_ok_iff h hr).2 ⟨hwords, rfl⟩]
    exact ⟨_, rfl, isPartition_whole h hr hrank⟩
  · intro hwords
    rw [partsOf_eq_overflow h hr hwords]
    rfl

/-- A step longer than the chunks, along an axis that the chunks do not divide. -/
theorem chunksInRegion_partition_long_step :
    (⟨[3, 4]⟩ : RegularGrid).CountsInWords [⟨1, 5, 7⟩, ⟨0, 3, 3⟩] ∧
      ∃ parts, (⟨[3, 4]⟩ : RegularGrid).chunksInRegion [31, 9] [⟨1, 5, 7⟩, ⟨0, 3, 3⟩] = .ok parts ∧
        (⟨[3, 4]⟩ : RegularGrid).IsPartition [31, 9] [⟨1, 5, 7⟩, ⟨0, 3, 3⟩] parts := by
  have h : Cuts ⟨[3, 4]⟩ [31, 9] := ⟨rfl, by decide⟩
  have hbounds : Region.checkBounds [⟨1, 5, 7⟩, ⟨0, 3, 3⟩] [31, 9] = .ok () := rfl
  have hr := (Region.checkBounds_eq_ok_iff (by decide)).1 hbounds
  have hwords := countsInWords_of_isAddressable h hr rfl (by decide)
  have hpartition := chunksInRegion_partition (by decide) h.pos (by rfl) (by decide) hbounds
  exact ⟨hwords, hpartition.1 hwords⟩

/-- The last cell of the longest axis, in chunks of two, is in no part that is found. -/
theorem chunksInRegion_lastCell :
    Region.checkBounds [⟨wordLimit - 2, 1, 1⟩] [wordLimit - 1] = .ok () ∧
      (⟨[2]⟩ : RegularGrid).chunksInRegion [wordLimit - 1] [⟨wordLimit - 2, 1, 1⟩] =
        .error (.violation .overflow) := by
  have h : Cuts ⟨[2]⟩ [wordLimit - 1] := ⟨rfl, by decide⟩
  have hbounds : Region.checkBounds [⟨wordLimit - 2, 1, 1⟩] [wordLimit - 1] = .ok () := by decide
  refine ⟨hbounds, ?_⟩
  rw [chunksInRegion_eq h hbounds, partsOf_eq_overflow h]
  · rfl
  · exact (Region.checkBounds_eq_ok_iff (by decide)).1 hbounds
  · intro hwords
    exact absurd hwords.ends (by decide)

end RegularGrid

end ChunkedArray
