import ChunkedArray.Grid.Words
import ChunkedArray.Proofs.Grid.Bounds
import Mathlib.Data.List.Pairwise

/-!
# The parts of a run

Along one axis a run is cut where it passes from one chunk to the next. Every position of the run is
in one part, the positions of a part lie in the chunk of the part at the places that it gives, and
the chunks of the parts increase. All of it is about the exact parts, no number of which is cut off
to a word.
-/

namespace ChunkedArray

namespace Run

variable {r : Run} {length j k : Nat}

theorem lt_nextChunk_iff (hstep : 0 < r.step) :
    j < r.nextChunk length k ↔ j < r.count ∧ r.index j < (r.index k / length + 1) * length := by
  refine Nat.lt_min.trans (and_congr_right fun _ => (lt_ceilDiv_iff hstep).trans ?_)
  simp only [index]
  omega

theorem nextChunk_le_count (r : Run) (length k : Nat) : r.nextChunk length k ≤ r.count :=
  Nat.min_le_left ..

/-- Up to the next chunk the run stays in the chunk of position `k`. -/
theorem index_div_eq (hlen : 0 < length) (hstep : 0 < r.step) (hkj : k ≤ j)
    (hj : j < r.nextChunk length k) : r.index j / length = r.index k / length := by
  have hlt := ((lt_nextChunk_iff hstep).1 hj).2
  have hle := Nat.div_le_div_right (c := length) (r.index_le_index hkj)
  have := (Nat.div_lt_iff_lt_mul hlen).2 hlt
  omega

/-- From the next chunk on it is past the chunk of position `k`. -/
theorem div_lt_index_div (hlen : 0 < length) (hstep : 0 < r.step) (hj : j < r.count)
    (h : r.nextChunk length k ≤ j) : r.index k / length < r.index j / length := by
  have hnot : ¬ r.index j < (r.index k / length + 1) * length := fun hlt =>
    Nat.not_lt.2 h ((lt_nextChunk_iff hstep).2 ⟨hj, hlt⟩)
  exact (Nat.le_div_iff_mul_le hlen).2 (Nat.not_lt.1 hnot)

end Run

namespace AxisPart

/-- The part holds some positions of a run, one after the other, all of them in its chunk and at the
places in the chunk that it gives. -/
structure IsPartOf (p : AxisPart) (r : Run) (length : Nat) : Prop where
  count_pos : 0 < p.inRegion.count
  count_eq : p.inChunk.count = p.inRegion.count
  step_inChunk : 0 < p.inChunk.step
  step_inRegion : p.inRegion.step = 1
  index_lt : ∀ j < p.inRegion.count, p.inRegion.index j < r.count
  div_eq : ∀ j < p.inRegion.count, r.index (p.inRegion.index j) / length = p.chunk
  mod_eq : ∀ j < p.inRegion.count, r.index (p.inRegion.index j) % length = p.inChunk.index j

/-- The position is one of those that the part holds. -/
def Holds (p : AxisPart) (k : Nat) : Prop := ∃ j < p.inRegion.count, p.inRegion.index j = k

theorem IsPartOf.chunk_eq {p : AxisPart} {r : Run} {length k : Nat} (hp : p.IsPartOf r length)
    (h : p.Holds k) : p.chunk = r.index k / length := by
  obtain ⟨j, hj, rfl⟩ := h
  exact (hp.div_eq j hj).symm

theorem IsPartOf.inRegion_fits {p : AxisPart} {r : Run} {length : Nat} (hp : p.IsPartOf r length) :
    p.inRegion.FitsAxis r.count := by
  have hlast := hp.index_lt _ (Nat.sub_one_lt_of_lt hp.count_pos)
  exact Run.fitsAxis_of_last (by rw [hp.step_inRegion]; exact Nat.one_pos) hp.count_pos hlast

theorem IsPartOf.inChunk_fits {p : AxisPart} {r : Run} {length n : Nat} (hp : p.IsPartOf r length)
    (hlen : 0 < length) (hr : r.FitsAxis n) :
    p.inChunk.FitsAxis (min length (n - p.chunk * length)) := by
  have hcount := hp.count_pos
  have heq := hp.count_eq
  refine Run.fitsAxis_of_last hp.step_inChunk (by omega) ?_
  have hlast : p.inChunk.count - 1 < p.inRegion.count := by omega
  have hlt := hr.index_lt _ (hp.index_lt _ hlast)
  have hmod := Nat.div_add_mod' (r.index (p.inRegion.index (p.inChunk.count - 1))) length
  have hplace := Nat.mod_lt (r.index (p.inRegion.index (p.inChunk.count - 1))) hlen
  rw [hp.div_eq _ hlast, hp.mod_eq _ hlast] at hmod
  rw [hp.mod_eq _ hlast] at hplace
  omega

/-- The part from position `k` to the next chunk. -/
def upToNext (r : Run) (length k : Nat) : AxisPart :=
  ⟨r.index k / length, ⟨r.index k - r.index k / length * length, r.nextChunk length k - k, r.step⟩,
    .contiguous k (r.nextChunk length k - k)⟩

theorem index_upToNext (r : Run) (length k j : Nat) :
    (upToNext r length k).inRegion.index j = k + j := by
  simp [upToNext, Run.contiguous, Run.index]

theorem isPartOf_upToNext {r : Run} {length k : Nat} (hk : k < r.count) (hlen : 0 < length)
    (hstep : 0 < r.step) : (upToNext r length k).IsPartOf r length := by
  have hnext := Run.lt_nextChunk hk hlen hstep
  have hcount : (upToNext r length k).inRegion.count = r.nextChunk length k - k := rfl
  -- Before the next chunk all quotients are that of position `k`.
  have hdiv : ∀ j < r.nextChunk length k - k, r.index (k + j) / length = r.index k / length :=
    fun j hj => Run.index_div_eq hlen hstep (Nat.le_add_right k j) (by omega)
  constructor
  · omega
  · rfl
  · exact hstep
  · rfl
  · intro j hj
    have := r.nextChunk_le_count length k
    rw [index_upToNext]
    omega
  · intro j hj
    rw [index_upToNext]
    exact hdiv j hj
  · intro j hj
    rw [index_upToNext]
    have hmod := Nat.div_add_mod' (r.index (k + j)) length
    have hle := Nat.div_mul_le_self (r.index k) length
    have hadd : r.index (k + j) = r.index k + j * r.step := by
      simp only [Run.index, Nat.add_mul]
      omega
    rw [hdiv j hj] at hmod
    simp only [upToNext, Run.index] at hmod hle hadd ⊢
    omega

end AxisPart

namespace Run

variable {r : Run} {length : Nat}

/-- The parts of a run from position `k` on, their numbers as large as they come. -/
def partsFrom (r : Run) (length k : Nat) : List AxisPart :=
  if h : k < r.count ∧ 0 < length ∧ 0 < r.step then
    have : r.count - r.nextChunk length k < r.count - k := by
      have := lt_nextChunk h.1 h.2.1 h.2.2
      omega
    AxisPart.upToNext r length k :: r.partsFrom length (r.nextChunk length k)
  else []
termination_by r.count - k

theorem partsFrom_of_lt {k : Nat} (hk : k < r.count) (hlen : 0 < length) (hstep : 0 < r.step) :
    r.partsFrom length k =
      AxisPart.upToNext r length k :: r.partsFrom length (r.nextChunk length k) := by
  rw [partsFrom, dif_pos ⟨hk, hlen, hstep⟩]

theorem partsFrom_of_le {k : Nat} (hk : r.count ≤ k) : r.partsFrom length k = [] := by
  rw [partsFrom, dif_neg fun h => Nat.not_lt.2 hk h.1]

/-- Induction on the positions at which parts start. -/
theorem partStart_induction (hlen : 0 < length) (hstep : 0 < r.step) {motive : Nat → Prop}
    (done : ∀ k, r.count ≤ k → motive k)
    (next : ∀ k, k < r.count → k < r.nextChunk length k → motive (r.nextChunk length k) → motive k)
    (k : Nat) : motive k := by
  by_cases hk : k < r.count
  · have hlt := lt_nextChunk hk hlen hstep
    exact next k hk hlt (partStart_induction hlen hstep done next _)
  · exact done k (Nat.not_lt.1 hk)
termination_by r.count - k

theorem isPartOf_of_mem (hlen : 0 < length) (hstep : 0 < r.step) (k : Nat) :
    ∀ p ∈ r.partsFrom length k, p.IsPartOf r length := by
  induction k using partStart_induction hlen hstep with
  | done k hk => simp [partsFrom_of_le hk]
  | next k hk hlt ih =>
    rw [partsFrom_of_lt hk hlen hstep, List.forall_mem_cons]
    exact ⟨AxisPart.isPartOf_upToNext hk hlen hstep, ih⟩

theorem le_of_mem_partsFrom (hlen : 0 < length) (hstep : 0 < r.step) (k : Nat) :
    ∀ p ∈ r.partsFrom length k, ∀ j, p.Holds j → k ≤ j := by
  induction k using partStart_induction hlen hstep with
  | done k hk => simp [partsFrom_of_le hk]
  | next k hk hlt ih =>
    rw [partsFrom_of_lt hk hlen hstep, List.forall_mem_cons]
    constructor
    · rintro j ⟨i, -, rfl⟩
      rw [AxisPart.index_upToNext]
      exact Nat.le_add_right k i
    · intro p hp j hj
      exact Nat.le_trans (Nat.le_of_lt hlt) (ih p hp j hj)

theorem exists_holds_of_le (hlen : 0 < length) (hstep : 0 < r.step) (k : Nat) :
    ∀ j, k ≤ j → j < r.count → ∃ p ∈ r.partsFrom length k, p.Holds j := by
  induction k using partStart_induction hlen hstep with
  | done k hk => intro j hkj hj; omega
  | next k hk hlt ih =>
    intro j hkj hj
    rw [partsFrom_of_lt hk hlen hstep]
    by_cases h : j < r.nextChunk length k
    · refine ⟨_, List.mem_cons_self, j - k, ?_, ?_⟩
      · show j - k < r.nextChunk length k - k
        omega
      · rw [AxisPart.index_upToNext]
        omega
    · obtain ⟨p, hp, hold⟩ := ih j (Nat.not_lt.1 h) hj
      exact ⟨p, List.mem_cons_of_mem _ hp, hold⟩

theorem pairwise_partsFrom (hlen : 0 < length) (hstep : 0 < r.step) (k : Nat) :
    (r.partsFrom length k).Pairwise fun p q => p.chunk < q.chunk := by
  induction k using partStart_induction hlen hstep with
  | done k hk => simp [partsFrom_of_le hk]
  | next k hk hlt ih =>
    rw [partsFrom_of_lt hk hlen hstep, List.pairwise_cons]
    refine ⟨fun q hq => ?_, ih⟩
    have hpart := isPartOf_of_mem hlen hstep _ q hq
    -- The chunk of a later part is that of its first position.
    have hfirst : q.Holds (q.inRegion.index 0) := ⟨0, hpart.count_pos, rfl⟩
    have hle := le_of_mem_partsFrom hlen hstep _ q hq _ hfirst
    rw [hpart.chunk_eq hfirst]
    exact div_lt_index_div hlen hstep (hpart.index_lt 0 hpart.count_pos) hle

/-- A run has at most as many parts as positions. -/
theorem length_partsFrom_le (hlen : 0 < length) (hstep : 0 < r.step) (k : Nat) :
    (r.partsFrom length k).length ≤ r.count - k := by
  induction k using partStart_induction hlen hstep with
  | done k hk => simp [partsFrom_of_le hk]
  | next k hk hlt ih =>
    have := r.nextChunk_le_count length k
    rw [partsFrom_of_lt hk hlen hstep, List.length_cons]
    omega

end Run

end ChunkedArray
