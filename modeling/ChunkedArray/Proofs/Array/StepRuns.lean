import ChunkedArray.Proofs.Array.Steps
import ChunkedArray.Proofs.Store.Entries

/-!
# Running steps

What a step makes of the entry that it finds, why it can stop, and what it leaves in a store that
keeps its entries: a step that succeeds changes the entry of its chunk alone, one that fails changes
none.
-/

namespace ChunkedArray

namespace ArrayHandle

variable {t : DataType} {σ : Type} [Store σ] {h : ArrayHandle t} {steps : List (ChunkStep t)}
  {step : ChunkStep t} {s s' : σ} {chunk : Index} {found : Except StoreError (Option Bytes)}
  {entry : Option Bytes}

section

variable (hwf : h.WellFormed)

include hwf

/-! ### What a step makes -/

theorem ends_foundChunk {allowed : Violation → Prop}
    (hallowed : ¬ t.HasRoomFor h.grid.chunkShape → allowed .overflow) (chunk : Index)
    (found : Except StoreError (Option Bytes)) :
    Checked.Ends allowed (fun stored => ∀ cells ∈ stored, cells.shape = h.grid.chunkShape)
      (h.foundChunk chunk found) := by
  match found with
  | .error e => exact Checked.ends_fail _
  | .ok none => exact fun cells hcells => by cases hcells
  | .ok (some bytes) =>
    have hdecode : Checked.Ends allowed (fun a => a.shape = h.grid.chunkShape)
        (h.decodeChunk chunk bytes) :=
      (CodecChain.ends_decode hwf.isAxisOrder hallowed h.options.codecOptions bytes).mapError _
    refine hdecode.bind fun cells hshape => ?_
    rintro _ ⟨⟩
    exact hshape

theorem shape_previous {base : NdArray t.Element} (hbase : h.previous chunk found = .ok base) :
    base.shape = h.grid.chunkShape := by
  obtain ⟨stored, hstored, hbase⟩ := Outcome.bind_eq_ok_iff.1 hbase
  cases stored with
  | none => exact (NdArray.filled_spec (Checked.guarded_eq_ok_iff.1 hbase)).1
  | some cells =>
    have hends := ends_foundChunk hwf DataType.lacks_overflow chunk found
    rw [hstored] at hends
    obtain rfl := Except.ok.inj hbase
    exact hends cells rfl

theorem shape_baseFrom {part : ChunkPart} {base : NdArray t.Element}
    (hbase : h.baseFrom part found = .ok base) : base.shape = h.grid.chunkShape := by
  obtain ⟨whole, -, hbase⟩ := Outcome.bind_eq_ok_iff.1 hbase
  split at hbase
  · exact (NdArray.filled_spec (Checked.guarded_eq_ok_iff.1 hbase)).1
  · exact shape_previous hwf hbase

omit hwf in
theorem newEntry_merge_eq_ok_iff {x : Task t} :
    h.newEntry found (.merge x) = .ok entry ↔ ∃ base cells, h.baseFrom x.part found = .ok base ∧
      x.call.merge x.part base = .ok cells ∧ h.entryOf x.chunk cells = .ok entry := by
  simp only [newEntry, Outcome.bind_eq_ok_iff, Checked.guarded_eq_ok_iff]
  constructor
  · rintro ⟨base, hbase, cells, hcells, hentry⟩
    exact ⟨base, cells, hbase, hcells, hentry⟩
  · rintro ⟨base, cells, hbase, hcells, hentry⟩
    exact ⟨base, hbase, cells, hcells, hentry⟩

/-- A step erases its chunk or stores cells of the shape of chunks. -/
theorem exists_entryOf_of_newEntry (hstep : h.IsStep step)
    (hentry : h.newEntry found step = .ok entry) :
    entry = none ∨ ∃ cells : NdArray t.Element, cells.shape = h.grid.chunkShape ∧
      h.entryOf step.chunk cells = .ok entry := by
  cases step with
  | store chunk cells => exact .inr ⟨cells, hstep.2, hentry⟩
  | erase chunk => exact .inl (Except.ok.inj hentry).symm
  | merge x =>
    obtain ⟨base, cells, hbase, hcells, hentry⟩ := newEntry_merge_eq_ok_iff.1 hentry
    have hshape := shape_baseFrom hwf hbase
    have hreplaced := HasTask.replaced hwf hstep hshape hcells
    exact .inr ⟨cells, hreplaced.shape_eq.trans hshape, hentry⟩

end

/-- A step that makes an entry where reading fails does not need what is read. -/
theorem newEntry_of_read_error {e : StoreError} (hentry : h.newEntry (.error e) step = .ok entry)
    (found : Except StoreError (Option Bytes)) : h.newEntry found step = .ok entry := by
  cases step with
  | store chunk cells => exact hentry
  | erase chunk => exact hentry
  | merge x =>
    obtain ⟨base, cells, hbase, hcells, hentry⟩ := newEntry_merge_eq_ok_iff.1 hentry
    refine newEntry_merge_eq_ok_iff.2 ⟨base, cells, ?_, hcells, hentry⟩
    obtain ⟨whole, hwhole, hbase⟩ := Outcome.bind_eq_ok_iff.1 hbase
    rw [baseFrom_eq_of_replaces (Checked.guarded_eq_ok_iff.1 hwhole)]
    cases whole with
    | true => exact hbase
    | false => cases hbase

/-- Why a step can stop before it changes the store. -/
inductive StopsOn (h : ArrayHandle t) (chunk : Index) (found : Except StoreError (Option Bytes)) :
    Failure ArrayError → Prop where
  | read {e : StoreError} : found = .error e →
    StopsOn h chunk found (.error (.store h.key (some chunk) e))
  | decode {bytes : Bytes} {e : DecodeError} : found = .ok (some bytes) →
    h.codecs.decode h.options.codecOptions t h.grid.chunkShape bytes = .error (.error e) →
    StopsOn h chunk found (.error (.decode h.key chunk e))
  | encode {cells : NdArray t.Element} {e : EncodeError} : cells.shape = h.grid.chunkShape →
    h.codecs.encode cells = .error (.error e) →
    StopsOn h chunk found (.error (.encode h.key chunk e))
  | room {v : Violation} : t.Lacks h.grid.chunkShape v → StopsOn h chunk found (.violation v)

section

variable {f : Failure ArrayError}

theorem stopsOn_of_filled (hf : h.filled h.grid.chunkShape = .error f) : h.StopsOn chunk found f := by
  match f with
  | .violation v => exact .room ((ends_filled h h.grid.chunkShape).allowed_of_eq hf)
  | .error e =>
    rw [filled] at hf
    cases hroom : NdArray.filled t.byteCount h.grid.chunkShape h.fillValue <;>
      (rw [hroom] at hf; cases hf)

variable (hwf : h.WellFormed)

include hwf

theorem stopsOn_of_foundChunk (hf : h.foundChunk chunk found = .error f) :
    h.StopsOn chunk found f := by
  match found with
  | .error e =>
    obtain rfl := Except.error.inj hf
    exact .read rfl
  | .ok none => cases hf
  | .ok (some bytes) =>
    have hends : Checked.Ends (t.Lacks h.grid.chunkShape) _
        (h.codecs.decode h.options.codecOptions t h.grid.chunkShape bytes) :=
      CodecChain.ends_decode hwf.isAxisOrder DataType.lacks_overflow h.options.codecOptions bytes
    rcases Outcome.bind_eq_error_iff.1 hf with hdecode | ⟨_, _, hpure⟩
    · rw [decodeChunk] at hdecode
      cases hresult : h.codecs.decode h.options.codecOptions t h.grid.chunkShape bytes with
      | ok cells => rw [hresult] at hdecode; cases hdecode
      | error f' =>
        rw [hresult] at hdecode hends
        cases f' with
        | violation v =>
          obtain rfl := Except.error.inj hdecode
          exact .room hends
        | error e =>
          obtain rfl := Except.error.inj hdecode
          exact .decode rfl hresult
    · cases hpure

theorem stopsOn_of_baseFrom {x : Task t} (hx : h.HasTask x) (hf : h.baseFrom x.part found = .error f) :
    h.StopsOn x.chunk found f := by
  have hfits := hx.accepts.fits hwf
  rw [baseFrom_eq_of_replaces (replacesChunk_eq_ok hwf hfits hx.mem_parts)] at hf
  split at hf
  · exact stopsOn_of_filled hf
  · rcases Outcome.bind_eq_error_iff.1 hf with hfound | ⟨stored, -, hfill⟩
    · exact stopsOn_of_foundChunk hwf hfound
    · cases stored with
      | none => exact stopsOn_of_filled hfill
      | some cells => cases hfill

theorem stopsOn_of_entryOf {cells : NdArray t.Element} (hshape : cells.shape = h.grid.chunkShape)
    (hf : h.entryOf chunk cells = .error f) : h.StopsOn chunk found f := by
  have horder : ∀ c ∈ h.codecs.transposes, NdArray.IsAxisOrder cells.rank c.order := by
    rw [NdArray.rank, hshape]
    exact hwf.isAxisOrder
  have hends : Checked.Ends (t.Lacks h.grid.chunkShape) _ (h.codecs.encode cells) :=
    CodecChain.ends_encode horder (hshape ▸ DataType.lacks_overflow)
  rw [entryOf] at hf
  split at hf
  · cases hf
  · rcases Outcome.bind_eq_error_iff.1 hf with hencode | ⟨_, _, hpure⟩
    · cases hresult : h.codecs.encode cells with
      | ok bytes => rw [hresult] at hencode; cases hencode
      | error f' =>
        rw [hresult] at hencode hends
        cases f' with
        | violation v =>
          obtain rfl := Except.error.inj hencode
          exact .room hends
        | error e =>
          obtain rfl := Except.error.inj hencode
          exact .encode hshape hresult
    · cases hpure

theorem stopsOn_of_newEntry (hstep : h.IsStep step) (hf : h.newEntry found step = .error f) :
    h.StopsOn step.chunk found f := by
  cases step with
  | store chunk cells => exact stopsOn_of_entryOf hwf hstep.2 hf
  | erase chunk => cases hf
  | merge x =>
    rcases Outcome.bind_eq_error_iff.1 hf with hbase | ⟨base, hbase, hf⟩
    · exact stopsOn_of_baseFrom hwf hstep hbase
    · have hshape := shape_baseFrom hwf hbase
      obtain ⟨cells, hcells, hreplaced⟩ := HasTask.merge_spec hwf hstep hshape
      rw [hcells] at hf
      exact stopsOn_of_entryOf hwf (hreplaced.shape_eq.trans hshape) hf

end

/-! ### Steps on a store that keeps its entries -/

/-- Why a step can fail on a chunk of a store. -/
inductive FailsOn (h : ArrayHandle t) (chunk : Index) (s : σ) : Failure ArrayError → Prop where
  | stops {f : Failure ArrayError} : h.StopsOn chunk (Store.get (h.chunkKey chunk) s) f →
    FailsOn h chunk s f
  | set {s' : σ} {bytes : Bytes} {e : StoreError} :
    (Store.set (h.chunkKey chunk) bytes : StoreAction σ StoreError Unit) s = (.error e, s') →
    FailsOn h chunk s (.error (.store h.key (some chunk) e))
  | erase {s' : σ} {e : StoreError} :
    (Store.erase (h.chunkKey chunk) : StoreAction σ StoreError Bool) s = (.error e, s') →
    FailsOn h chunk s (.error (.store h.key (some chunk) e))

/-- The error names the chunk. -/
theorem FailsOn.chunk?_eq {e : ArrayError} (hfails : h.FailsOn chunk s (.error e)) :
    e.chunk? = some chunk := by
  cases hfails with
  | stops hstops => cases hstops <;> rfl
  | set => rfl
  | erase => rfl

omit [Store σ] in
theorem onChunk_eq_error {α : Type} {a : StoreAction σ StoreError α} {f : Failure ArrayError}
    (hrun : h.onChunk chunk a s = (.error f, s')) :
    ∃ e, a s = (.error e, s') ∧ f = .error (.store h.key (some chunk) e) := by
  obtain ⟨e, he⟩ := StoreAction.rename_eq_error hrun
  refine ⟨e, he, ?_⟩
  have hresult := congrArg Prod.fst hrun
  simp only [onChunk, StoreAction.rename, he] at hresult
  exact (Except.error.inj hresult).symm

section

variable {v : StoreView σ} (hkeeps : KeepsEntries v) (hs : v.good s)

include hkeeps hs

theorem putEntry_ok (hkey : v.keys (h.chunkKey chunk))
    (hrun : h.putEntry chunk entry s = (.ok (), s')) : v.Became (h.chunkKey chunk) entry s s' := by
  cases entry with
  | none =>
    obtain ⟨_, _, herase, hpure⟩ := StoreAction.bind_eq_ok_iff.1 hrun
    obtain ⟨-, rfl⟩ := StoreAction.pure_eq_ok_iff.1 hpure
    exact hkeeps.erase hs hkey (StoreAction.rename_eq_ok_iff.1 herase)
  | some bytes => exact hkeeps.set hs hkey (StoreAction.rename_eq_ok_iff.1 hrun)

theorem putEntry_error (hkey : v.keys (h.chunkKey chunk)) {f : Failure ArrayError}
    (hrun : h.putEntry chunk entry s = (.error f, s')) : v.Same s s' ∧ h.FailsOn chunk s f := by
  cases entry with
  | none =>
    rcases StoreAction.bind_eq_error_iff.1 hrun with herase | ⟨_, _, -, hpure⟩
    · obtain ⟨e, hfailed, rfl⟩ := onChunk_eq_error herase
      exact ⟨hkeeps.erase_error hs hkey hfailed, .erase hfailed⟩
    · cases congrArg Prod.fst hpure
  | some bytes =>
    obtain ⟨e, hfailed, rfl⟩ := onChunk_eq_error hrun
    exact ⟨hkeeps.set_error hs hkey hfailed, .set hfailed⟩

theorem runStep_ok (hkey : v.keys (h.chunkKey step.chunk))
    (hrun : h.runStep step s = (.ok (), s')) :
    ∃ entry, h.newEntry (.ok (v.entry (h.chunkKey step.chunk) s)) step = .ok entry ∧
      v.Became (h.chunkKey step.chunk) entry s s' := by
  obtain ⟨entry, s₁, hread, hput⟩ := StoreAction.bind_eq_ok_iff.1 hrun
  obtain ⟨hentry, rfl⟩ := StoreAction.reading_eq_ok_iff.1 hread
  refine ⟨entry, ?_, putEntry_ok hkeeps hs hkey hput⟩
  cases hget : Store.get (h.chunkKey step.chunk) s₁ with
  | ok found =>
    rw [hkeeps.get hs hkey hget, ← hget]
    exact hentry
  | error e =>
    rw [hget] at hentry
    exact newEntry_of_read_error hentry _

theorem runStep_error (hwf : h.WellFormed) (hstep : h.IsStep step)
    (hkey : v.keys (h.chunkKey step.chunk)) {f : Failure ArrayError}
    (hrun : h.runStep step s = (.error f, s')) : v.Same s s' ∧ h.FailsOn step.chunk s f := by
  rcases StoreAction.bind_eq_error_iff.1 hrun with hread | ⟨entry, s₁, hread, hput⟩
  · obtain ⟨hf, rfl⟩ := StoreAction.reading_eq_error_iff.1 hread
    exact ⟨.refl hs, .stops (stopsOn_of_newEntry hwf hstep hf)⟩
  · obtain ⟨-, rfl⟩ := StoreAction.reading_eq_ok_iff.1 hread
    exact putEntry_error hkeeps hs hkey hput

end

/-- A store that does not fail takes every entry that a step makes. -/
theorem exists_runStep {v : StoreView σ} (hnever : NeverFails v) (hs : v.good s)
    (hkey : v.keys (h.chunkKey step.chunk))
    (hentry : h.newEntry (.ok (v.entry (h.chunkKey step.chunk) s)) step = .ok entry) :
    ∃ s', h.runStep step s = (.ok (), s') := by
  rw [← hnever.get hs hkey] at hentry
  rw [runStep, StoreAction.reading_bind_apply, hentry]
  cases entry with
  | none =>
    obtain ⟨found, s', herase⟩ := hnever.erase hs hkey
    exact ⟨s', StoreAction.bind_apply (StoreAction.rename_eq_ok_iff.2 herase) _⟩
  | some bytes =>
    obtain ⟨s', hset⟩ := hnever.set bytes hs hkey
    exact ⟨s', StoreAction.rename_eq_ok_iff.2 hset⟩

/-- From `s` to `s'` each of these steps made the entry of its chunk, and no other entry changed. -/
structure StepsDone (h : ArrayHandle t) (v : StoreView σ) (steps : List (ChunkStep t)) (s s' : σ) :
    Prop where
  isGood : v.good s'
  made : ∀ step ∈ steps, h.newEntry (.ok (v.entry (h.chunkKey step.chunk) s)) step =
    .ok (v.entry (h.chunkKey step.chunk) s')
  kept : ∀ k, v.keys k → (∀ step ∈ steps, k ≠ h.chunkKey step.chunk) → v.entry k s' = v.entry k s

/-- Steps on different chunks do not disturb each other. -/
theorem stepsDone_of_runSteps (hwf : h.WellFormed) {v : StoreView σ} (hkeeps : KeepsEntries v)
    (hkeys : ∀ chunk, h.IsChunk chunk → v.keys (h.chunkKey chunk))
    (hsteps : ∀ step ∈ steps, h.IsStep step) (hpairs : steps.Pairwise fun x y => x.chunk ≠ y.chunk)
    (hs : v.good s) (hrun : h.runSteps steps s = (.ok (), s')) : h.StepsDone v steps s s' := by
  induction steps generalizing s with
  | nil =>
    obtain rfl := StoreAction.forM_nil_eq_ok_iff.1 hrun
    exact ⟨hs, fun _ hstep => absurd hstep List.not_mem_nil, fun _ _ _ => rfl⟩
  | cons step steps ih =>
    obtain ⟨s₁, hfirst, hrest⟩ := StoreAction.forM_cons_eq_ok_iff.1 hrun
    rw [List.forall_mem_cons] at hsteps
    obtain ⟨hne, hpairs⟩ := List.pairwise_cons.1 hpairs
    have hchunk := hsteps.1.isChunk hwf
    have hkey := hkeys step.chunk hchunk
    obtain ⟨entry, hentry, hbecame⟩ := runStep_ok hkeeps hs hkey hfirst
    have hdone := ih hsteps.2 hpairs hbecame.isGood hrest
    have hapart (other : ChunkStep t) (hother : other ∈ steps) :
        h.chunkKey other.chunk ≠ h.chunkKey step.chunk :=
      chunkKey_ne hwf hchunk ((hsteps.2 other hother).isChunk hwf) (hne other hother).symm
    refine ⟨hdone.isGood, List.forall_mem_cons.2 ⟨?_, fun other hother => ?_⟩, fun k hk hmiss => ?_⟩
    · rw [hentry, hdone.kept _ hkey fun other hother => (hapart other hother).symm, hbecame.entry_eq]
    · rw [← hdone.made other hother, hbecame.others _
        (hkeys _ ((hsteps.2 other hother).isChunk hwf)) (hapart other hother)]
    · rw [List.forall_mem_cons] at hmiss
      rw [hdone.kept k hk hmiss.2, hbecame.others k hk hmiss.1]

omit [Store σ] in
/-- The entries that steps leave do not depend on their order. -/
theorem StepsDone.entry_eq {v : StoreView σ} {order : List (ChunkStep t)} {s₁ s₂ : σ}
    (hdone : h.StepsDone v steps s s₁) (hdone' : h.StepsDone v order s s₂)
    (hmem : ∀ step, step ∈ steps ↔ step ∈ order) {k : Key} (hk : v.keys k) :
    v.entry k s₁ = v.entry k s₂ := by
  by_cases hon : ∃ step ∈ steps, k = h.chunkKey step.chunk
  · obtain ⟨step, hstep, rfl⟩ := hon
    have hmade := hdone.made step hstep
    rw [hdone'.made step ((hmem step).1 hstep)] at hmade
    exact (Except.ok.inj hmade).symm
  · have hoff : ∀ step ∈ steps, k ≠ h.chunkKey step.chunk := fun step hstep he => hon ⟨step, hstep, he⟩
    rw [hdone.kept k hk hoff, hdone'.kept k hk fun step hstep => hoff step ((hmem step).2 hstep)]

/-- On a store that does not fail, steps on different chunks succeed if each of them would at first. -/
theorem exists_runSteps_iff (hwf : h.WellFormed) {v : StoreView σ} (hkeeps : KeepsEntries v)
    (hnever : NeverFails v) (hkeys : ∀ chunk, h.IsChunk chunk → v.keys (h.chunkKey chunk))
    (hsteps : ∀ step ∈ steps, h.IsStep step) (hpairs : steps.Pairwise fun x y => x.chunk ≠ y.chunk)
    (hs : v.good s) :
    (∃ s', h.runSteps steps s = (.ok (), s')) ↔ ∀ step ∈ steps,
      ∃ entry, h.newEntry (.ok (v.entry (h.chunkKey step.chunk) s)) step = .ok entry := by
  constructor
  · rintro ⟨s', hrun⟩ step hstep
    exact ⟨_, (stepsDone_of_runSteps hwf hkeeps hkeys hsteps hpairs hs hrun).made step hstep⟩
  · intro hentries
    induction steps generalizing s with
    | nil => exact ⟨s, rfl⟩
    | cons step steps ih =>
      rw [List.forall_mem_cons] at hsteps hentries
      obtain ⟨hne, hpairs⟩ := List.pairwise_cons.1 hpairs
      obtain ⟨entry, hentry⟩ := hentries.1
      have hchunk := hsteps.1.isChunk hwf
      have hkey := hkeys step.chunk hchunk
      obtain ⟨s₁, hfirst⟩ := exists_runStep hnever hs hkey hentry
      obtain ⟨_, -, hbecame⟩ := runStep_ok hkeeps hs hkey hfirst
      obtain ⟨s', hrest⟩ := ih hsteps.2 hpairs hbecame.isGood fun other hother => by
        have hother' := (hsteps.2 other hother).isChunk hwf
        rw [hbecame.others _ (hkeys _ hother')
          (chunkKey_ne hwf hchunk hother' (hne other hother).symm)]
        exact hentries.2 other hother
      exact ⟨s', StoreAction.forM_cons_eq_ok_iff.2 ⟨s₁, hfirst, hrest⟩⟩

end ArrayHandle

end ChunkedArray
