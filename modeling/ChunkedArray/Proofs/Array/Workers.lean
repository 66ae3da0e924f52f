import ChunkedArray.Proofs.Array.Tasks
import ChunkedArray.Proofs.LockTable

/-!
# Workers that share a handle

Workers carry out tasks at the same time. Each takes a handle of the lock of its chunk from the table,
acquires the lock, reads the chunk, merges its part into it, stores it, releases the lock and drops
the handle. A schedule says whose turn it is. Whatever the schedule, the store is one that the tasks
leave when they are done one after the other, in the order in which they stored their chunks.
-/

namespace ChunkedArray

/-- How far a worker is. -/
inductive Phase (t : DataType) where
  | start
  | handed (lock : LockId)
  | locked (lock : LockId)
  | loaded (lock : LockId) (base : NdArray t.Element)
  | merged (lock : LockId) (cells : NdArray t.Element)
  | stored (lock : LockId)
  | unlocked (lock : LockId)
  | finished

namespace Phase

variable {t : DataType}

/-- The lock of which the worker has a handle. -/
def handle? : Phase t → Option LockId
  | start | finished => none
  | handed lock | locked lock | loaded lock _ | merged lock _ | stored lock | unlocked lock => lock

/-- The lock that the worker has acquired. -/
def mutex? : Phase t → Option LockId
  | start | handed _ | unlocked _ | finished => none
  | locked lock | loaded lock _ | merged lock _ | stored lock => lock

def hasStored : Phase t → Bool
  | stored _ | unlocked _ | finished => true
  | start | handed _ | locked _ | loaded .. | merged .. => false

def isFinished : Phase t → Bool
  | finished => true
  | start | handed _ | locked _ | loaded .. | merged .. | stored _ | unlocked _ => false

theorem isFinished_iff {p : Phase t} : p.isFinished = true ↔ p = .finished := by
  cases p with
  | finished => exact iff_of_true rfl rfl
  | start | handed | locked | loaded | merged | stored | unlocked =>
    exact iff_of_false Bool.false_ne_true (by rintro ⟨⟩)

end Phase

/-- What workers share; `held` are the locks that are acquired. -/
structure Shared (σ : Type) where
  store : σ
  locks : LockTable
  held : List LockId

abbrev Worker (t : DataType) := Task t × Phase t

structure Pool (σ : Type) (t : DataType) where
  shared : Shared σ
  workers : List (Worker t)

namespace ArrayHandle

variable {t : DataType} {σ : Type} [Store σ]

/-- The next step of a worker. There is none if it has finished, while another one has acquired its
lock, and where it fails. -/
def advance (h : ArrayHandle t) (x : Task t) (m : Shared σ) : Phase t → Option (Shared σ × Phase t)
  | .start =>
    some ({ m with locks := (m.locks.get x.chunk).2 }, .handed (m.locks.get x.chunk).1)
  | .handed lock =>
    if lock ∈ m.held then none else some ({ m with held := lock :: m.held }, .locked lock)
  | .locked lock => (h.mergeBase x.part m.store).toOption.map fun base => (m, .loaded lock base)
  | .loaded lock base =>
    (x.call.merge x.part base).toOption.map fun cells => (m, .merged lock cells)
  | .merged lock cells =>
    match (h.storeChunk x.chunk cells : ArrayAction σ Unit) m.store with
    | (.ok (), store) => some ({ m with store }, .stored lock)
    | (.error _, _) => none
  | .stored lock => some ({ m with held := m.held.erase lock }, .unlocked lock)
  | .unlocked lock => some ({ m with locks := m.locks.drop lock }, .finished)
  | .finished => none

def stepPool (h : ArrayHandle t) (pool : Pool σ t) (i : Nat) : Option (Pool σ t) := do
  let (x, phase) ← pool.workers[i]?
  let (shared, phase) ← h.advance x pool.shared phase
  return ⟨shared, pool.workers.set i (x, phase)⟩

/-- The workers take steps in the order of a schedule. -/
def runPool (h : ArrayHandle t) (pool : Pool σ t) (schedule : List Nat) : Option (Pool σ t) :=
  schedule.foldlM h.stepPool pool

end ArrayHandle

namespace Pool

variable {t : DataType} {σ : Type}

def start (s : σ) (locks : LockTable) (tasks : List (Task t)) : Pool σ t :=
  ⟨⟨s, locks, []⟩, tasks.map fun x => (x, .start)⟩

def Finished (pool : Pool σ t) : Prop := ∀ w ∈ pool.workers, w.2 = .finished

instance (pool : Pool σ t) : Decidable pool.Finished :=
  decidable_of_iff (∀ w ∈ pool.workers, w.2.isFinished = true)
    (forall₂_congr fun _ _ => Phase.isFinished_iff)

/-- The handles that workers have, with the chunks whose locks they are of. -/
def live (workers : List (Worker t)) : List (Index × LockId) :=
  workers.filterMap fun w => w.2.handle?.map fun lock => (w.1.chunk, lock)

def acquired (workers : List (Worker t)) : List LockId := workers.filterMap fun w => w.2.mutex?

def stored (workers : List (Worker t)) : List (Task t) :=
  (workers.filter fun w => w.2.hasStored).map Prod.fst

end Pool

namespace ArrayHandle

open Pool

variable {t : DataType} {σ : Type} [Store σ] {h : ArrayHandle t} {good : σ → Prop} {s₀ s s' : σ}
  {x : Task t} {p p' : Phase t} {m m' : Shared σ} {workers others : List (Worker t)}
  {pool pool' : Pool σ t} {tasks : List (Task t)}

/-- What a worker has read and merged is still what it would read and merge now. -/
def Current (h : ArrayHandle t) (s : σ) : Worker t → Prop
  | (x, .loaded _ base) => h.mergeBase x.part s = .ok base
  | (x, .merged _ cells) =>
    ∃ base, h.mergeBase x.part s = .ok base ∧ x.call.merge x.part base = .ok cells
  | _ => True

/-- The state is one that is reached when the tasks are carried out from the store `s₀`. -/
structure Sound (h : ArrayHandle t) (good : σ → Prop) (s₀ : σ) (m : Shared σ)
    (workers : List (Worker t)) : Prop where
  isGood : good m.store
  isChunk : ∀ w ∈ workers, h.IsChunk w.1.chunk
  serves : m.locks.Serves (live workers)
  nodup_acquired : (acquired workers).Nodup
  held : ∀ lock ∈ acquired workers, lock ∈ m.held
  current : ∀ w ∈ workers, h.Current m.store w
  serial : ∃ done, done.Perm (stored workers) ∧ h.runTasks done s₀ = (.ok (), m.store)

theorem Sound.perm (hs : h.Sound good s₀ m workers) (hperm : others.Perm workers) :
    h.Sound good s₀ m others := by
  have hacquired : (acquired others).Perm (acquired workers) := hperm.filterMap _
  have hstored : (stored others).Perm (stored workers) := (hperm.filter _).map _
  obtain ⟨done, hdone, hrun⟩ := hs.serial
  exact ⟨hs.isGood, fun w hw => hs.isChunk w (hperm.mem_iff.1 hw), hs.serves.perm (hperm.filterMap _),
    hacquired.nodup_iff.2 hs.nodup_acquired, fun lock hl => hs.held lock (hacquired.mem_iff.1 hl),
    fun w hw => hs.current w (hperm.mem_iff.1 hw), done, hdone.trans hstored.symm, hrun⟩

theorem handle?_of_mutex? {lock : LockId} (hp : p.mutex? = some lock) : p.handle? = some lock := by
  cases p with
  | start | handed | unlocked | finished => cases hp
  | locked | loaded | merged | stored => exact hp

theorem Sound.chunk_ne (hs : h.Sound good s₀ m ((x, p) :: others)) {lock lock' : LockId}
    (hp : p.mutex? = some lock) {w : Worker t} (hw : w ∈ others) (hwp : w.2.mutex? = some lock') :
    w.1.chunk ≠ x.chunk := by
  intro hchunk
  have hlive : (x.chunk, lock) ∈ live ((x, p) :: others) :=
    List.mem_filterMap.2 ⟨_, List.mem_cons_self, by rw [handle?_of_mutex? hp]; rfl⟩
  have hlive' : (x.chunk, lock') ∈ live ((x, p) :: others) :=
    List.mem_filterMap.2 ⟨w, List.mem_cons_of_mem _ hw, by rw [handle?_of_mutex? hwp, hchunk]; rfl⟩
  -- One chunk has one lock, and a lock is acquired by one worker.
  obtain rfl := hs.serves.id_eq hlive hlive'
  have hcons : acquired ((x, p) :: others) = lock :: acquired others := by
    rw [acquired, List.filterMap_cons, hp]
    rfl
  have hnodup := hs.nodup_acquired
  rw [hcons] at hnodup
  exact (List.nodup_cons.1 hnodup).1 (List.mem_filterMap.2 ⟨w, hw, hwp⟩)

theorem Current.congr {w : Worker t} (hw : h.Current s w)
    (he : h.mergeBase w.1.part s' = h.mergeBase w.1.part s) : h.Current s' w := by
  obtain ⟨y, q⟩ := w
  cases q with
  | loaded lock base => exact he.trans hw
  | merged lock cells =>
    obtain ⟨base, hbase, hcells⟩ := hw
    exact ⟨base, he.trans hbase, hcells⟩
  | start | handed | locked | stored | unlocked | finished => trivial

/-- Storing a chunk changes nothing for the workers that have read another one. -/
theorem Sound.current_others (hs : h.Sound good s₀ m ((x, p) :: others)) {lock : LockId}
    (hp : p.mutex? = some lock)
    (hkept : ∀ chunk, h.IsChunk chunk → chunk ≠ x.chunk →
      Store.get (h.chunkKey chunk) s' = Store.get (h.chunkKey chunk) m.store) :
    ∀ w ∈ others, h.Current s' w := by
  intro w hw
  have hcurrent := hs.current w (List.mem_cons_of_mem _ hw)
  cases hmutex : w.2.mutex? with
  | some lock' =>
    have hne := hs.chunk_ne hp hw hmutex
    have hget := hkept _ (hs.isChunk w (List.mem_cons_of_mem _ hw)) hne
    exact hcurrent.congr (mergeBase_congr (storedChunk?_congr hget))
  | none =>
    obtain ⟨y, q⟩ := w
    cases q with
    | start | handed | unlocked | finished => trivial
    | locked | loaded | merged | stored => cases hmutex

/-! ### Steps -/

theorem Sound.tail_current (hs : h.Sound good s₀ m ((x, p) :: others)) :
    ∀ w ∈ others, h.Current m.store w := (List.forall_mem_cons.1 hs.current).2

theorem Sound.isChunk_cons (hs : h.Sound good s₀ m ((x, p) :: others)) (p' : Phase t) :
    ∀ w ∈ (x, p') :: others, h.IsChunk w.1.chunk :=
  List.forall_mem_cons.2 (List.forall_mem_cons.1 hs.isChunk)

theorem Sound.store (hr : h.Reliable good) {lock : LockId} {cells : NdArray t.Element}
    (hs : h.Sound good s₀ m ((x, .merged lock cells) :: others))
    (hstore : h.storeChunk x.chunk cells m.store = (.ok (), s')) :
    h.Sound good s₀ { m with store := s' } ((x, .stored lock) :: others) := by
  have hchunk : h.IsChunk x.chunk := hs.isChunk _ List.mem_cons_self
  obtain ⟨base, hbase, hcells⟩ : h.Current m.store (x, .merged lock cells) :=
    hs.current _ List.mem_cons_self
  obtain ⟨bytes, -, hgood, -, hothers⟩ := storeChunk_spec hr hs.isGood hchunk hstore
  -- Nobody has changed the chunk since it was read, so this is the whole task done at once.
  have htask : h.runTask x m.store = (.ok (), s') :=
    runTask_eq_ok_iff.2 ⟨base, cells, hbase, hcells, hstore⟩
  obtain ⟨done, hdone, hrun⟩ := hs.serial
  refine ⟨hgood, hs.isChunk_cons _, hs.serves, hs.nodup_acquired, hs.held, ?_, done ++ [x], ?_, ?_⟩
  · exact List.forall_mem_cons.2 ⟨trivial, hs.current_others rfl hothers⟩
  · exact (List.perm_append_singleton x done).trans (hdone.cons x)
  · refine StoreAction.forM_append_eq_ok_iff.2 ⟨m.store, hrun, ?_⟩
    exact StoreAction.forM_cons_eq_ok_iff.2 ⟨s', htask, StoreAction.forM_nil_eq_ok_iff.2 rfl⟩

theorem Sound.advance (hr : h.Reliable good) (hs : h.Sound good s₀ m ((x, p) :: others))
    (hstep : h.advance x m p = some (m', p')) : h.Sound good s₀ m' ((x, p') :: others) := by
  have hothers := hs.tail_current
  have hchunks := hs.isChunk_cons p'
  cases p with
  | start =>
    obtain ⟨rfl, rfl⟩ := Prod.mk.inj (Option.some.inj hstep)
    exact { hs with
      isChunk := hchunks
      serves := hs.serves.get x.chunk
      current := List.forall_mem_cons.2 ⟨trivial, hothers⟩ }
  | handed lock =>
    simp only [ArrayHandle.advance] at hstep
    split at hstep
    · cases hstep
    · next hfree =>
      obtain ⟨rfl, rfl⟩ := Prod.mk.inj (Option.some.inj hstep)
      have hnew : lock ∉ acquired others := fun hl => hfree (hs.held lock hl)
      exact { hs with
        isChunk := hchunks
        nodup_acquired := List.nodup_cons.2 ⟨hnew, hs.nodup_acquired⟩
        held := List.forall_mem_cons.2 ⟨List.mem_cons_self, fun l hl =>
          List.mem_cons_of_mem lock (hs.held l hl)⟩
        current := List.forall_mem_cons.2 ⟨trivial, hothers⟩ }
  | locked lock =>
    obtain ⟨base, hbase, he⟩ := Option.map_eq_some_iff.1 hstep
    obtain ⟨rfl, rfl⟩ := Prod.mk.inj he
    have hread : h.mergeBase x.part m.store = .ok base := Outcome.toOption_eq_some_iff.1 hbase
    exact { hs with
      isChunk := hchunks
      current := List.forall_mem_cons.2 ⟨hread, hothers⟩ }
  | loaded lock base =>
    obtain ⟨cells, hcells, he⟩ := Option.map_eq_some_iff.1 hstep
    obtain ⟨rfl, rfl⟩ := Prod.mk.inj he
    have hread : h.mergeBase x.part m.store = .ok base := hs.current _ List.mem_cons_self
    have hmerge : x.call.merge x.part base = .ok cells := Outcome.toOption_eq_some_iff.1 hcells
    exact { hs with
      isChunk := hchunks
      current := List.forall_mem_cons.2 ⟨⟨base, hread, hmerge⟩, hothers⟩ }
  | merged lock cells =>
    simp only [ArrayHandle.advance] at hstep
    split at hstep
    · next store hstore =>
      obtain ⟨rfl, rfl⟩ := Prod.mk.inj (Option.some.inj hstep)
      exact hs.store hr hstore
    · cases hstep
  | stored lock =>
    obtain ⟨rfl, rfl⟩ := Prod.mk.inj (Option.some.inj hstep)
    obtain ⟨hnotMem, hnodup⟩ := List.nodup_cons.1 hs.nodup_acquired
    exact { hs with
      isChunk := hchunks
      nodup_acquired := hnodup
      held := fun l hl => (List.mem_erase_of_ne (ne_of_mem_of_not_mem hl hnotMem)).2
        (hs.held l (List.mem_cons_of_mem lock hl))
      current := List.forall_mem_cons.2 ⟨trivial, hothers⟩ }
  | unlocked lock =>
    obtain ⟨rfl, rfl⟩ := Prod.mk.inj (Option.some.inj hstep)
    exact { hs with
      isChunk := hchunks
      serves := hs.serves.drop
      current := List.forall_mem_cons.2 ⟨trivial, hothers⟩ }
  | finished => cases hstep

theorem stepPool_spec {i : Nat} (hstep : h.stepPool pool i = some pool') :
    ∃ x p p' others, pool.workers.Perm ((x, p) :: others) ∧
      pool'.workers.Perm ((x, p') :: others) ∧
      h.advance x pool.shared p = some (pool'.shared, p') := by
  simp only [stepPool, Option.bind_eq_bind, Option.bind_eq_some_iff, Option.pure_def,
    Option.some.injEq] at hstep
  obtain ⟨⟨x, p⟩, hget, ⟨shared, p'⟩, hadvance, rfl⟩ := hstep
  obtain ⟨hi, hget⟩ := List.getElem?_eq_some_iff.1 hget
  refine ⟨x, p, p', pool.workers.take i ++ pool.workers.drop (i + 1), ?_, ?_, hadvance⟩
  · rw [← hget]
    refine List.Perm.trans ?_ List.perm_middle
    rw [List.getElem_cons_drop, List.take_append_drop]
  · rw [List.set_eq_take_append_cons_drop, if_pos hi]
    exact List.perm_middle

theorem Sound.step (hr : h.Reliable good) (hs : h.Sound good s₀ pool.shared pool.workers) {i : Nat}
    (hstep : h.stepPool pool i = some pool') : h.Sound good s₀ pool'.shared pool'.workers := by
  obtain ⟨x, p, p', others, hperm, hperm', hadvance⟩ := stepPool_spec hstep
  exact ((hs.perm hperm.symm).advance hr hadvance).perm hperm'

/-! ### Runs -/

theorem runPool_alone_cons {schedule : List Nat} (hstep : h.advance x m p = some (m', p')) :
    h.runPool ⟨m, [(x, p)]⟩ (0 :: schedule) = h.runPool ⟨m', [(x, p')]⟩ schedule := by
  have hpool : h.stepPool ⟨m, [(x, p)]⟩ 0 = some ⟨m', [(x, p')]⟩ := by simp [stepPool, hstep]
  rw [runPool, List.foldlM_cons, hpool]
  rfl

/-- A worker that is alone carries out its task like a call, under the lock of the chunk. -/
theorem runPool_alone {locks : LockTable} (hrun : h.runTask x s = (.ok (), s')) :
    h.runPool (start s locks [x]) (List.replicate 7 0) =
      some ⟨⟨s', (locks.withLock x.chunk fun _ => ()).2, []⟩, [(x, .finished)]⟩ := by
  obtain ⟨base, cells, hbase, hcells, hstore⟩ := runTask_eq_ok_iff.1 hrun
  obtain ⟨lock, locks', hget⟩ : ∃ lock locks', locks.get x.chunk = (lock, locks') := ⟨_, _, rfl⟩
  have hstart : h.advance x ⟨s, locks, []⟩ .start = some (⟨s, locks', []⟩, .handed lock) := by
    rw [ArrayHandle.advance, hget]
  have hlock : h.advance x ⟨s, locks', []⟩ (.handed lock) =
      some (⟨s, locks', [lock]⟩, .locked lock) := by
    rw [ArrayHandle.advance, if_neg List.not_mem_nil]
  have hload : h.advance x ⟨s, locks', [lock]⟩ (.locked lock) =
      some (⟨s, locks', [lock]⟩, .loaded lock base) := by
    rw [ArrayHandle.advance, hbase]
    rfl
  have hmerge : h.advance x ⟨s, locks', [lock]⟩ (.loaded lock base) =
      some (⟨s, locks', [lock]⟩, .merged lock cells) := by
    rw [ArrayHandle.advance, hcells]
    rfl
  have hset : h.advance x ⟨s, locks', [lock]⟩ (.merged lock cells) =
      some (⟨s', locks', [lock]⟩, .stored lock) := by
    rw [ArrayHandle.advance, hstore]
  have hunlock : h.advance x ⟨s', locks', [lock]⟩ (.stored lock) =
      some (⟨s', locks', []⟩, .unlocked lock) := by
    rw [ArrayHandle.advance, List.erase_cons_head]
  have hdrop : (locks.withLock x.chunk fun _ => ()).2 = locks'.drop lock := by
    rw [LockTable.withLock, hget]
  rw [hdrop]
  calc h.runPool ⟨⟨s, locks, []⟩, [(x, .start)]⟩ [0, 0, 0, 0, 0, 0, 0]
    _ = h.runPool ⟨⟨s, locks', [lock]⟩, [(x, .locked lock)]⟩ [0, 0, 0, 0, 0] :=
      (runPool_alone_cons hstart).trans (runPool_alone_cons hlock)
    _ = h.runPool ⟨⟨s, locks', [lock]⟩, [(x, .merged lock cells)]⟩ [0, 0, 0] :=
      (runPool_alone_cons hload).trans (runPool_alone_cons hmerge)
    _ = h.runPool ⟨⟨s', locks', []⟩, [(x, .unlocked lock)]⟩ [0] :=
      (runPool_alone_cons hset).trans (runPool_alone_cons hunlock)
    _ = some ⟨⟨s', locks'.drop lock, []⟩, [(x, .finished)]⟩ := runPool_alone_cons rfl

theorem Sound.run (hr : h.Reliable good) (hs : h.Sound good s₀ pool.shared pool.workers)
    {schedule : List Nat} (hrun : h.runPool pool schedule = some pool') :
    h.Sound good s₀ pool'.shared pool'.workers := by
  induction schedule generalizing pool with
  | nil =>
    obtain rfl := Option.some.inj hrun
    exact hs
  | cons i schedule ih =>
    obtain ⟨next, hstep, hrest⟩ := Option.bind_eq_some_iff.1 hrun
    exact ih (hs.step hr hstep) hrest

theorem map_fst_runPool {schedule : List Nat} (hrun : h.runPool pool schedule = some pool') :
    (pool'.workers.map Prod.fst).Perm (pool.workers.map Prod.fst) := by
  induction schedule generalizing pool with
  | nil =>
    obtain rfl := Option.some.inj hrun
    exact .refl _
  | cons i schedule ih =>
    obtain ⟨next, hstep, hrest⟩ := Option.bind_eq_some_iff.1 hrun
    obtain ⟨x, p, p', others, hperm, hperm', -⟩ := stepPool_spec hstep
    exact (ih hrest).trans ((hperm'.map Prod.fst).trans (hperm.map Prod.fst).symm)

theorem sound_start (hgood : good s) (hchunks : ∀ x ∈ tasks, h.IsChunk x.chunk) {locks : LockTable}
    (hlocks : locks.Serves []) :
    h.Sound good s (start s locks tasks).shared (start s locks tasks).workers := by
  have hwaits : ∀ w ∈ tasks.map fun x => (x, (Phase.start : Phase t)), w.1 ∈ tasks ∧ w.2 = .start := by
    intro w hw
    obtain ⟨x, hx, rfl⟩ := List.mem_map.1 hw
    exact ⟨hx, rfl⟩
  have hlive : live (tasks.map fun x => (x, (Phase.start : Phase t))) = [] := by
    refine List.filterMap_eq_nil_iff.2 fun w hw => ?_
    rw [(hwaits w hw).2]
    rfl
  have hacquired : acquired (tasks.map fun x => (x, (Phase.start : Phase t))) = [] := by
    refine List.filterMap_eq_nil_iff.2 fun w hw => ?_
    rw [(hwaits w hw).2]
    rfl
  have hstored : stored (tasks.map fun x => (x, (Phase.start : Phase t))) = [] := by
    refine List.map_eq_nil_iff.2 (List.filter_eq_nil_iff.2 fun w hw => ?_)
    rw [(hwaits w hw).2]
    exact Bool.false_ne_true
  refine ⟨hgood, fun w hw => hchunks _ (hwaits w hw).1, ?_, ?_, ?_, fun w hw => ?_, [], ?_, rfl⟩
  · exact hlive ▸ hlocks
  · exact hacquired ▸ List.nodup_nil
  · exact fun lock hl => absurd (hacquired ▸ hl) List.not_mem_nil
  · obtain ⟨x, q⟩ := w
    obtain rfl : q = .start := (hwaits _ hw).2
    trivial
  · exact hstored ▸ .nil

section

variable {locks : LockTable} {schedule : List Nat} (hr : h.Reliable good) (hgood : good s)
  (hchunks : ∀ x ∈ tasks, h.IsChunk x.chunk) (hlocks : locks.Serves [])
  (hrun : h.runPool (start s locks tasks) schedule = some pool) (hfinished : pool.Finished)

include hr hgood hchunks hlocks hrun hfinished

/-- When all workers have finished, the store is one that their tasks leave in some order. -/
theorem exists_order_of_runPool :
    ∃ order, order.Perm tasks ∧ h.runTasks order s = (.ok (), pool.shared.store) := by
  obtain ⟨done, hdone, hserial⟩ := ((sound_start hgood hchunks hlocks).run hr hrun).serial
  have hall : pool.workers.filter (fun w => w.2.hasStored) = pool.workers := by
    refine List.filter_eq_self.2 fun w hw => ?_
    rw [hfinished w hw]
    rfl
  have htasks := map_fst_runPool hrun
  rw [start, List.map_map] at htasks
  rw [stored, hall] at hdone
  exact ⟨done, (hdone.trans htasks).trans (.of_eq (List.map_id tasks)), hserial⟩

/-- Nobody has a handle of a lock then, so the table can be used again. -/
theorem serves_of_runPool : pool.shared.locks.Serves [] := by
  have hserves := ((sound_start hgood hchunks hlocks).run hr hrun).serves
  have hnone : live pool.workers = [] := by
    refine List.filterMap_eq_nil_iff.2 fun w hw => ?_
    rw [hfinished w hw]
    rfl
  exact hnone ▸ hserves

end

end ArrayHandle

end ChunkedArray
