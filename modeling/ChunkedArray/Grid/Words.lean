import ChunkedArray.Grid

/-!
# The parts of a region

A region is cut into parts axis by axis: each round of the loop over a run finds the chunk of one
index and the position at which the run leaves that chunk. All of it is computed in words, and a
result that is no word stops it.
-/

namespace ChunkedArray

namespace Run

/-- The first position after `k` at which the run has left the chunk of position `k`, or its end. -/
def nextChunk (r : Run) (length k : Nat) : Nat :=
  let chunkEnd := (r.index k / length + 1) * length
  min r.count (ceilDiv (chunkEnd - r.offset) r.step)

theorem lt_nextChunk {r : Run} {length k : Nat} (hk : k < r.count) (hlen : 0 < length)
    (hstep : 0 < r.step) : k < r.nextChunk length k := by
  have h : r.index k < (r.index k / length + 1) * length := by
    have := Nat.div_add_mod (r.index k) length
    have := Nat.mod_lt (r.index k) hlen
    rw [Nat.add_mul, Nat.one_mul, Nat.mul_comm (r.index k / length)]
    omega
  refine Nat.lt_min.2 ⟨hk, (lt_ceilDiv_iff hstep).2 ?_⟩
  unfold index at h ⊢
  omega

def wordIndex (r : Run) (k : Nat) : Except Violation Nat := do
  Word.add r.offset (← Word.mul k r.step)

def wordLast? (r : Run) : Except Violation (Option Nat) :=
  if r.count = 0 then .ok none else (r.wordIndex (r.count - 1)).map some

def wordStop (r : Run) : Except Violation Nat := do
  match ← r.wordLast? with
  | some last => Word.add last 1
  | none => return r.offset

/-- The part of a run from position `k` to the next chunk, and the position there. -/
def wordPart (r : Run) (length k : Nat) : Except Violation (AxisPart × Nat) := do
  let index ← r.wordIndex k
  let chunk ← Word.div index length
  let chunkEnd ← Word.mul (← Word.add chunk 1) length
  let next := min r.count (← Word.ceilDiv (← Word.sub chunkEnd r.offset) r.step)
  let place ← Word.sub index (← Word.mul chunk length)
  let count ← Word.sub next k
  return (⟨chunk, ⟨place, count, r.step⟩, .contiguous k count⟩, next)

end Run

theorem Word.ceilDiv_eq_ok {num den n : Nat} (h : Word.ceilDiv num den = .ok n) :
    0 < den ∧ n = ChunkedArray.ceilDiv num den := by
  simp only [ceilDiv, Outcome.bind_eq_ok_iff, div_eq_ok_iff, add_eq_ok_iff] at h
  obtain ⟨_, ⟨hden, rfl⟩, -, hn⟩ := h
  exact ⟨hden, hn⟩

namespace Run

/-- What a part is if no step of its computation stops. -/
theorem of_wordPart {r : Run} {length k : Nat} {part : AxisPart} {next : Nat}
    (h : r.wordPart length k = .ok (part, next)) :
    0 < length ∧ 0 < r.step ∧ (r.index k / length + 1) * length < wordLimit ∧
      next = r.nextChunk length k ∧
      part = ⟨r.index k / length, ⟨r.index k - r.index k / length * length, next - k, r.step⟩,
        .contiguous k (next - k)⟩ := by
  simp only [wordPart, wordIndex, Outcome.bind_eq_ok_iff, Word.mul_eq_ok_iff, Word.add_eq_ok_iff,
    Word.div_eq_ok_iff, Word.sub_eq_ok_iff] at h
  obtain ⟨_, ⟨_, ⟨-, rfl⟩, -, rfl⟩, _, ⟨hlen, rfl⟩, _, ⟨-, rfl⟩, _, ⟨hend, rfl⟩, _, ⟨-, rfl⟩,
    _, hceil, _, ⟨-, rfl⟩, _, ⟨-, rfl⟩, _, ⟨-, rfl⟩, hok⟩ := h
  obtain ⟨hstep, rfl⟩ := Word.ceilDiv_eq_ok hceil
  obtain ⟨rfl, rfl⟩ := Prod.mk.inj (Except.ok.inj hok)
  exact ⟨hlen, hstep, hend, rfl, rfl⟩

/-- The parts of a run from position `k` on. -/
def wordPartsFrom (r : Run) (length k : Nat) : Except Violation (List AxisPart) :=
  if hk : k < r.count then
    match h : r.wordPart length k with
    | .error v => .error v
    | .ok (part, next) =>
      have : r.count - next < r.count - k := by
        obtain ⟨hlen, hstep, -, rfl, -⟩ := of_wordPart h
        have := lt_nextChunk hk hlen hstep
        omega
      (r.wordPartsFrom length next).map (part :: ·)
  else .ok []
termination_by r.count - k

end Run

namespace RegularGrid

/-- The shape of the part of a chunk that lies inside the array. -/
def wordExtent (g : RegularGrid) (idx : Index) (arrayShape : Shape) : Except Violation Shape :=
  ((idx.zip g.chunkShape).zip arrayShape).mapM fun ((i, n), length) => do
    return min n (length - (← Word.mul i n))

/-- The chunks that a region meets, without checks: as many axes as both have. -/
def partsOf (g : RegularGrid) (region : Region) : Except Violation ChunkParts := do
  ChunkParts.ofAxes (← (region.zip g.chunkShape).mapM fun (r, n) => r.wordPartsFrom n 0)

/-- The chunks of an array of this shape that a region meets. -/
def chunksInRegion (g : RegularGrid) (arrayShape : Shape) (region : Region) :
    Checked IndexError ChunkParts := do
  Checked.report .rank (RankMismatch.check arrayShape.length g.rank)
  Checked.report id (region.checkBounds arrayShape)
  Checked.guarded (g.partsOf region)

end RegularGrid

end ChunkedArray
