import ChunkedArray.Proofs.Array.MemoryCalls

/-!
# Fresh arrays

Where nothing but metadata is stored of an array, only the fill value is read. A store is in this state
when an array is created, since creating fails where metadata are stored, and whatever erases the
metadata of an array erases its chunks. The exception are chunks that are left behind: a handle can
outlive its array, and may still store chunks when the array was erased.
-/

namespace ChunkedArray

/-! ### Reading what was never written -/

namespace ArrayHandle

variable {t : DataType} {σ : Type} [Store σ] {h : ArrayHandle t} {s : σ}

/-- All that can be read has the fill value, also past the end of the array. -/
structure ReadsFill (h : ArrayHandle t) (s : σ) : Prop
    extends h.ReadsAs (fun _ => h.fillValue) s where
  chunk_cell : ∀ chunk out, h.readChunk chunk s = .ok out →
    ∀ i : Index, i.Inside out.shape → out.cell i = h.fillValue
  region_cell : ∀ region out, h.readRegion region s = .ok out →
    ∀ i : Index, i.Inside out.shape → out.cell i = h.fillValue
  selection_cell : ∀ selection out, h.readSelection selection s = .ok out →
    ∀ i : Index, i.Inside out.shape → out.cell i = h.fillValue

theorem filled_eq_ok {shape : Shape} {out : NdArray t.Element} (hout : h.filled shape = .ok out) :
    t.HasRoomFor shape ∧ out.shape = shape ∧
      ∀ i : Index, i.Inside shape → out.cell i = h.fillValue := by
  have hfilled := Checked.guarded_eq_ok_iff.1 hout
  exact ⟨NdArray.hasRoomFor_of_filled hfilled, NdArray.filled_spec hfilled⟩

theorem readRegion_eq_ok (hwf : h.WellFormed) {region : Region} {out : NdArray t.Element}
    (hout : h.readRegion region s = .ok out) :
    region.Fits h.shape ∧ t.HasRoomFor region.shape ∧ h.grid.EndsInWords region := by
  obtain ⟨parts, hparts, hrest⟩ := Outcome.bind_eq_ok_iff.1 hout
  obtain ⟨start, hstart, -⟩ := Outcome.bind_eq_ok_iff.1 hrest
  obtain ⟨hfits, hwords, -⟩ := (partsOf_eq_ok_iff hwf).1 hparts
  exact ⟨hfits, (filled_eq_ok hstart).1, hwords.ends⟩

theorem readsFill_of_get (hwf : h.WellFormed)
    (hnone : ∀ chunk, h.IsChunk chunk → Store.get (h.chunkKey chunk) s = .ok none) :
    h.ReadsFill s := by
  have hrep : h.Represents (fun _ => True) (fun _ => h.fillValue) s := represents_fill trivial hnone
  refine ⟨hrep.readsAs hwf, ?_, ?_, ?_⟩
  · intro chunk out hout
    obtain ⟨hcheck, hread⟩ := Outcome.check_bind_eq_ok_iff.1 hout
    have hchunk := (checkChunk_eq_ok_iff hwf).1 hcheck
    rw [chunkOrFill, storedChunk?_eq_none (hnone chunk hchunk), Outcome.ok_bind] at hread
    obtain ⟨-, hshape, hcell⟩ := filled_eq_ok hread
    rw [hshape]
    exact hcell
  · intro region out hout
    obtain ⟨hfits, hroom, hends⟩ := readRegion_eq_ok hwf hout
    obtain ⟨out', hout', hshape, hcell⟩ := hrep.readRegion hwf hfits hroom hends
    obtain rfl : out' = out := Except.ok.inj (hout'.symm.trans hout)
    rw [hshape]
    exact hcell
  · intro selection out hout
    obtain ⟨r, hreport, hrest⟩ := Outcome.bind_eq_ok_iff.1 hout
    obtain ⟨cells, hcells, -⟩ := Outcome.bind_eq_ok_iff.1 hrest
    obtain ⟨-, hroom, hends⟩ := readRegion_eq_ok hwf hcells
    obtain ⟨out', hout', hshape, hcell⟩ :=
      hrep.readSelection hwf (Checked.report_eq_ok_iff.1 hreport) hroom hends
    obtain rfl : out' = out := Except.ok.inj (hout'.symm.trans hout)
    rw [hshape]
    exact hcell

end ArrayHandle

/-! ### Calls for one array -/

/-- The second store holds something of the array with this key, metadata apart, that the first does
not hold. -/
def MemoryStore.gainsChunks (key : Key) (s s' : MemoryStore) : Bool :=
  (Assoc.keys s'.entries).any fun k =>
    k.startsWith key && decide (k ≠ key.metadata) && decide (s'.get? k ≠ s.get? k)

/-- The operation may store chunks. -/
def ArrayOperation.writes {t : DataType} : ArrayOperation t → Bool
  | .change (.eraseChunk _) => false
  | .change _ => true
  | _ => false

namespace ArrayCall

/-- The call may store chunks. -/
def writes : ArrayCall → Bool
  | .perform _ o => o.writes
  | _ => false

/-- The call writes the array, and there are chunks that it stored. A call that was refused, or that
failed at the first chunk, stored none. -/
def stores (c : ArrayCall) (s : MemoryStore) : Bool :=
  c.writes && MemoryStore.gainsChunks c.key s (c.run s).2

/-- The call takes the array away. -/
def erases : ArrayCall → Bool
  | .perform _ o => o.erasesAll
  | _ => false

/-- The call gives a handle. -/
def obtains (c : ArrayCall) (s : MemoryStore) : Bool :=
  match (c.run s).1 with
  | .handle r => r.isOk
  | _ => false

/-- No chunk of the array with this key is stored by the calls, made one after the other. -/
def storeNone (key : Key) : List ArrayCall → MemoryStore → Bool
  | [], _ => true
  | c :: calls, s => (c.key ≠ key || !c.stores s) && storeNone key calls (c.run s).2

end ArrayCall

/-- What became of an array since it was last erased. -/
inductive Standing where
  /-- It was neither created nor opened, and no chunk of it was stored. -/
  | absent
  /-- It was created or opened. -/
  | present
  /-- Chunks were stored before it was created or opened, so through a handle from before it was
  erased. -/
  | leftBehind
deriving DecidableEq

namespace Standing

/-- The standing after a call for the array, made in this state of the store. -/
def next (x : Standing) (c : ArrayCall) (s : MemoryStore) : Standing :=
  if c.erases then .absent
  else if x = .absent then
    if c.obtains s then .present else if c.stores s then .leftBehind else .absent
  else x

/-- The standing of the array with this key after some calls. -/
def after (key : Key) (x : Standing) : List ArrayCall → MemoryStore → Standing
  | [], _ => x
  | c :: calls, s => after key (if c.key = key then x.next c s else x) calls (c.run s).2

end Standing

/-! ### What is stored of an array -/

namespace MemoryStore

/-- Nothing is stored under keys that start with the key, except metadata. -/
def HasNoChunks (key : Key) (s : MemoryStore) : Prop :=
  ∀ k : Key, k.startsWith key = true → k ≠ key.metadata → s.get? k = none

variable {key : Key} {s s' : MemoryStore}

theorem HasNoChunks.congr (hs : s.HasNoChunks key)
    (hget : ∀ k : Key, k.startsWith key = true → k ≠ key.metadata → s'.get? k = s.get? k) :
    s'.HasNoChunks key := by
  intro k hk hne
  rw [hget k hk hne]
  exact hs k hk hne

theorem HasNoChunks.of_gainsChunks (hs : s.HasNoChunks key) (hgains : gainsChunks key s s' = false) :
    s'.HasNoChunks key := by
  intro k hk hne
  by_contra hsome
  have hmem : k ∈ Assoc.keys s'.entries :=
    (Assoc.find?_isSome_iff k s'.entries).1 (Option.isSome_iff_ne_none.2 hsome)
  have hnew : gainsChunks key s s' = true :=
    List.any_eq_true.2 ⟨k, hmem, by simp [hk, hne, hs k hk hne, hsome]⟩
  exact absurd hnew (Bool.eq_false_iff.1 hgains)

theorem HasNoChunks.restrict (hs : s.HasNoChunks key) (keep : Key → Bool) :
    (s.restrict keep).HasNoChunks key := by
  intro k hk hne
  rw [get?_restrict, hs k hk hne, ite_self]

theorem HasNoChunks.insert (hs : s.HasNoChunks key) (value : Bytes) :
    (s.insert key.metadata value).HasNoChunks key := by
  refine hs.congr fun k _ hne => ?_
  rw [get?_insert, if_neg (Ne.symm hne)]

end MemoryStore

namespace ArrayHandle

open MemoryStore

variable {t : DataType} {h : ArrayHandle t} {s : MemoryStore} {chunk : Index} {o : ArrayOperation t}

theorem hasNoChunks_eraseChunk {key : Key} (hs : s.HasNoChunks key) (chunk : Index) :
    (h.eraseChunk chunk s).2.HasNoChunks key := by
  cases hcheck : h.checkChunk chunk with
  | error e =>
    rw [eraseChunk_stays hcheck]
    exact hs
  | ok _ =>
    rw [eraseChunk_put hcheck]
    exact hs.restrict _

/-- Without a write, no chunk comes into the store. -/
theorem hasNoChunks_perform (hs : s.HasNoChunks h.key) (hwrites : o.writes = false) :
    (h.perform o s).2.HasNoChunks h.key := by
  cases o with
  | readChunk | readRegion | readSelection | storedChunkKeys => exact hs
  | writeMetadata => exact hs.insert _
  | change c =>
    cases c with
    | eraseChunk chunk =>
      show (h.change (.eraseChunk chunk) s).2.HasNoChunks h.key
      rw [change_eraseChunk_snd]
      exact hasNoChunks_eraseChunk hs chunk
    | writeChunk | writeRegion | fillRegion | writeSelection | fillSelection => cases hwrites
  | eraseChunk chunk => exact hasNoChunks_eraseChunk hs chunk
  | eraseAll => exact hs.restrict _

/-- Nothing is stored under the key of an array that was erased. -/
theorem get?_eraseAll {k : Key} (hk : k.startsWith h.key = true) :
    (h.perform .eraseAll s).2.get? k = none := by
  show (s.restrict fun k => !k.startsWith h.key).get? k = none
  rw [get?_restrict, hk]
  rfl

/-- The metadata are erased only with the whole array. -/
theorem metadata_perform (hs : s.get? h.key.metadata ≠ none) (herases : o.erasesAll = false) :
    (h.perform o s).2.get? h.key.metadata ≠ none := by
  -- Of the other operations only writing metadata concerns their key.
  have hspared (hmiss : ∀ k, h.Alters o k → k ≠ h.key.metadata) :
      (h.perform o s).2.get? h.key.metadata ≠ none := by
    have hspares : Spares (fun k => decide (k = h.key.metadata)) (h.perform o) :=
      spares_perform fun k hk => decide_eq_false (hmiss k hk)
    rw [← (hspares s).get? (decide_eq_true rfl)]
    exact hs
  cases o with
  | writeMetadata =>
    show (s.insert h.key.metadata _).get? h.key.metadata ≠ none
    rw [get?_insert, if_pos rfl]
    exact Option.some_ne_none _
  | eraseAll => cases herases
  | readChunk | readRegion | readSelection | storedChunkKeys =>
    exact hspared fun k hk => by cases hk
  | change c =>
    refine hspared fun k hk => ?_
    cases hk with
    | step => exact ChunkKeyEncoding.chunkKey_ne_metadata _ _ _
  | eraseChunk chunk =>
    refine hspared fun k hk => ?_
    cases hk with
    | chunk => exact ChunkKeyEncoding.chunkKey_ne_metadata _ _ _

end ArrayHandle

/-! ### Runs -/

namespace ArrayCall

open MemoryStore

variable {key : Key} {c : ArrayCall} {calls : List ArrayCall} {s : MemoryStore}

/-- Calls for arrays apart from this one leave what is stored of it as it is. -/
theorem get?_run_of_apart (hapart : c.key.Apart key) {k : Key} (hk : k.startsWith key = true) :
    (c.run s).2.get? k = s.get? k := by
  have hspares : Spares (·.startsWith key) c.run := spares_run fun k hk => hapart.not_startsWith hk
  exact ((hspares s).get? hk).symm

theorem hasNoChunks_run_of_writes (hs : s.HasNoChunks c.key) (hwrites : c.writes = false) :
    (c.run s).2.HasNoChunks c.key := by
  cases c with
  | create t key metadata registry options =>
    show (ArrayHandle.create t key metadata registry options s).2.HasNoChunks key
    rcases ArrayHandle.create_snd s with he | ⟨value, he⟩
    · rw [he]
      exact hs
    · rw [he]
      exact hs.insert value
  | openStored => exact hs
  | perform h o => exact ArrayHandle.hasNoChunks_perform hs hwrites

/-- A call that writes may store nothing, as when it is refused. -/
theorem hasNoChunks_run (hs : s.HasNoChunks c.key) (hstores : c.stores s = false) :
    (c.run s).2.HasNoChunks c.key := by
  cases hwrites : c.writes with
  | false => exact hasNoChunks_run_of_writes hs hwrites
  | true =>
    rw [stores, hwrites, Bool.true_and] at hstores
    exact hs.of_gainsChunks hstores

theorem hasNoChunks_of_erases (herases : c.erases = true) : (c.run s).2.HasNoChunks c.key := by
  cases c with
  | create | openStored => cases herases
  | perform h o =>
    cases o with
    | eraseAll => exact fun k hk _ => ArrayHandle.get?_eraseAll hk
    | readChunk | readRegion | readSelection | storedChunkKeys | writeMetadata | change | eraseChunk =>
      cases herases

theorem metadata_run (hs : s.get? c.key.metadata ≠ none) (herases : c.erases = false) :
    (c.run s).2.get? c.key.metadata ≠ none := by
  cases c with
  | create t key metadata registry options =>
    show (ArrayHandle.create t key metadata registry options s).2.get? key.metadata ≠ none
    rcases ArrayHandle.create_snd s with he | ⟨value, he⟩
    · rw [he]
      exact hs
    · rw [he, get?_insert, if_pos rfl]
      exact Option.some_ne_none value
  | openStored => exact hs
  | perform h o => exact ArrayHandle.metadata_perform hs herases

/-- Where a handle was got, there are metadata. -/
theorem metadata_of_obtains (hobtains : c.obtains s = true) :
    (c.run s).2.get? c.key.metadata ≠ none := by
  cases c with
  | create t key metadata registry options =>
    show (ArrayHandle.create t key metadata registry options s).2.get? key.metadata ≠ none
    have hok : (ArrayHandle.create t key metadata registry options s).1.isOk = true := hobtains
    rcases hcreate : ArrayHandle.create t key metadata registry options s with ⟨e | h, s'⟩
    · rw [hcreate] at hok
      cases hok
    · obtain ⟨-, -, value, rfl⟩ := ArrayHandle.create_eq_ok hcreate
      rw [get?_insert, if_pos rfl]
      exact Option.some_ne_none value
  | openStored t key registry options =>
    show s.get? key.metadata ≠ none
    have hok : (ArrayHandle.openStored t key registry options s).isOk = true := hobtains
    cases hopen : ArrayHandle.openStored t key registry options s with
    | error e =>
      rw [hopen] at hok
      cases hok
    | ok h =>
      obtain ⟨bytes, -, hget, -⟩ := ArrayHandle.openStored_eq_ok_iff.1 hopen
      exact ne_of_eq_of_ne (Except.ok.inj hget) (Option.some_ne_none bytes)
  | perform h o => cases o <;> cases hobtains

theorem hasNoChunks_runAll (hcalls : ∀ c ∈ calls, c.key = key ∨ c.key.Apart key)
    (hstore : storeNone key calls s = true) (hs : s.HasNoChunks key) :
    (runAll calls s).HasNoChunks key := by
  induction calls generalizing s with
  | nil => exact hs
  | cons c calls ih =>
    rw [List.forall_mem_cons] at hcalls
    rw [storeNone, Bool.and_eq_true] at hstore
    refine ih hcalls.2 hstore.2 ?_
    rcases hcalls.1 with rfl | hapart
    · exact hasNoChunks_run hs (by simpa using hstore.1)
    · exact hs.congr fun k hk _ => get?_run_of_apart hapart hk

end ArrayCall

namespace Standing

open MemoryStore

variable {key : Key} {x : Standing} {c : ArrayCall} {calls : List ArrayCall} {s s' : MemoryStore}

/-- What a store holds of an array of this standing. -/
def Fits (key : Key) (s : MemoryStore) : Standing → Prop
  | .absent => s.HasNoChunks key
  | .present => s.get? key.metadata ≠ none
  | .leftBehind => True

theorem Fits.congr (hx : x.Fits key s)
    (hget : ∀ k : Key, k.startsWith key = true → s'.get? k = s.get? k) : x.Fits key s' := by
  cases x with
  | absent => exact HasNoChunks.congr hx fun k hk _ => hget k hk
  | present => exact ne_of_eq_of_ne (hget _ (Key.startsWith_metadata key)) hx
  | leftBehind => trivial

theorem Fits.next (hx : x.Fits c.key s) : (x.next c s).Fits c.key (c.run s).2 := by
  rw [Standing.next]
  split
  · next herases => exact ArrayCall.hasNoChunks_of_erases herases
  · next herases =>
    split
    · next habsent =>
      subst habsent
      split
      · next hobtains => exact ArrayCall.metadata_of_obtains hobtains
      · split
        · trivial
        · next hstores =>
          exact ArrayCall.hasNoChunks_run hx (Bool.eq_false_of_not_eq_true hstores)
    · next hne =>
      cases x with
      | absent => exact absurd rfl hne
      | present => exact ArrayCall.metadata_run hx (Bool.eq_false_of_not_eq_true herases)
      | leftBehind => trivial

theorem Fits.after (hcalls : ∀ c ∈ calls, c.key = key ∨ c.key.Apart key) (hx : x.Fits key s) :
    (x.after key calls s).Fits key (ArrayCall.runAll calls s) := by
  induction calls generalizing x s with
  | nil => exact hx
  | cons c calls ih =>
    rw [List.forall_mem_cons] at hcalls
    refine ih hcalls.2 ?_
    split
    · next hkey =>
      subst hkey
      exact hx.next
    · next hkey =>
      exact hx.congr fun k hk => ArrayCall.get?_run_of_apart (hcalls.1.resolve_left hkey) hk

end Standing

namespace ArrayHandle

variable {t : DataType} {h : ArrayHandle t}

/-- A new array reads as the fill value until chunks of it are stored, if none of an earlier array with
its key were left behind. -/
theorem readsFill_of_create {before after : List ArrayCall} {key : Key} {metadata : ArrayMetadata}
    {registry : CodecRegistry} {options : ArrayOptions} {s' : MemoryStore}
    (hbefore : ∀ c ∈ before, c.key = key ∨ c.key.Apart key)
    (hstanding : Standing.after key .absent before MemoryStore.empty ≠ .leftBehind)
    (hword : ∀ n ∈ metadata.shape, n < wordLimit)
    (hcreate : create t key metadata registry options (ArrayCall.runAll before .empty) = (.ok h, s'))
    (hafter : ∀ c ∈ after, c.key = key ∨ c.key.Apart key)
    (hstore : ArrayCall.storeNone key after s' = true) :
    h.ReadsFill (ArrayCall.runAll after s') := by
  obtain ⟨rfl, habsent, value, rfl⟩ := create_eq_ok hcreate
  have hempty : Standing.absent.Fits h.key MemoryStore.empty := fun _ _ _ => rfl
  have hfits := hempty.after hbefore
  -- An array that is present has metadata, so creating it again would fail.
  have hfresh : (ArrayCall.runAll before MemoryStore.empty).HasNoChunks h.key := by
    cases hx : Standing.after h.key .absent before MemoryStore.empty with
    | absent =>
      rw [hx] at hfits
      exact hfits
    | present =>
      rw [hx] at hfits
      exact absurd habsent hfits
    | leftBehind => exact absurd hx hstanding
  have hnone := ArrayCall.hasNoChunks_runAll hafter hstore (hfresh.insert value)
  refine readsFill_of_get (Obtained.create hword hcreate).wellFormed fun chunk _ => ?_
  exact congrArg Except.ok
    (hnone _ (startsWith_chunkKey chunk) (ChunkKeyEncoding.chunkKey_ne_metadata _ _ _))

/-- An array is written and erased, beside another one. After that one of its chunks is erased again,
which does nothing, and a write of a chunk that it did not have is refused. -/
def erasedCalls : List ArrayCall :=
  [.create (.uint .bits16) arrHandle.key maskedMetadata maskRegistry (.default 1),
    .create (.uint .bits16) arr2Handle.key { maskedMetadata with chunkKeyEncoding := .v2 .dot }
      maskRegistry (.default 1),
    .perform arrHandle (.change (.fillSelection [.full, .full] (DataType.ofPattern _ 1))),
    .perform arr2Handle (.change (.fillSelection [.index 2, .full] (DataType.ofPattern _ 2))),
    .perform arrHandle .eraseAll, .perform arrHandle (.eraseChunk [1, 1]),
    .perform arrHandle (.change (.fillRegion [⟨3, 1, 1⟩, ⟨0, 4, 1⟩] (DataType.ofPattern _ 1)))]

/-- Calls that store nothing of the array. -/
def besideWriteCalls : List ArrayCall :=
  [.perform arr2Handle (.change (.fillSelection [.full, .full] (DataType.ofPattern _ 3))),
    .perform arrHandle .writeMetadata, .perform arrHandle (.eraseChunk [0, 0])]

theorem readsFill_of_create_again :
    Standing.after arrHandle.key .absent erasedCalls MemoryStore.empty = .absent ∧
      ∃ s', create (.uint .bits16) arrHandle.key maskedMetadata maskRegistry (.default 1)
        (ArrayCall.runAll erasedCalls MemoryStore.empty) = (.ok arrHandle, s') ∧
        arrHandle.ReadsFill (ArrayCall.runAll besideWriteCalls s') := by
  have hstanding : Standing.after arrHandle.key .absent erasedCalls MemoryStore.empty = .absent := by
    decide +kernel
  have habsent : (ArrayCall.runAll erasedCalls MemoryStore.empty).get? arrHandle.key.metadata = none :=
    by decide +kernel
  have hcreate : create (.uint .bits16) arrHandle.key maskedMetadata maskRegistry (.default 1)
      (ArrayCall.runAll erasedCalls MemoryStore.empty) =
        (.ok arrHandle, (ArrayCall.runAll erasedCalls MemoryStore.empty).insert
          arrHandle.metadataKey arrHandle.metadata.toBytes) :=
    create_eq_ok_iff.2 ⟨congrArg (fun found => Except.ok found.isSome) habsent, _, rfl, rfl, rfl⟩
  exact ⟨hstanding, _, hcreate, readsFill_of_create (by decide +kernel) (by simp [hstanding])
    (by decide) hcreate (by decide +kernel) (by decide +kernel)⟩

theorem isAddressable_square : Shape.isAddressable [2, 2] := rfl

/-- A chunk that is not filled with the fill value. -/
def leftCells : NdArray (DataType.uint .bits16).Element :=
  .fill [2, 2] isAddressable_square (DataType.ofPattern _ 5)

/-- A handle is opened before the array is erased and used to write afterwards. -/
def leftBehindCalls : List ArrayCall :=
  [.create (.uint .bits16) .root briefMetadata .default (.default 1),
    .openStored (.uint .bits16) .root .default (.default 1), .perform briefHandle .eraseAll,
    .perform briefHandle (.change (.writeChunk [0, 0] leftCells))]

/-- What is in the store when the array was created anew. -/
def leftBehindStore : MemoryStore :=
  (ArrayCall.runAll leftBehindCalls MemoryStore.empty).insert briefHandle.metadataKey
    briefHandle.metadata.toBytes

/-- A new array has a chunk that was not written since it was created. -/
theorem not_readsFill_leftBehind :
    create (.uint .bits16) .root briefMetadata .default (.default 1) MemoryStore.empty =
        (.ok briefHandle, briefStore) ∧
      openStored (.uint .bits16) .root .default (.default 1) briefStore = .ok briefHandle ∧
      (∀ c ∈ leftBehindCalls, c.key = .root) ∧
      create (.uint .bits16) .root briefMetadata .default (.default 1)
          (ArrayCall.runAll leftBehindCalls MemoryStore.empty) = (.ok briefHandle, leftBehindStore) ∧
      ¬ briefHandle.ReadsFill leftBehindStore := by
  have hbare : { briefMetadata with codecs := [] }.Representable :=
    { ArrayMetadata.representable_of_ofRaw? ofRaw?_briefDocument with codecs := List.forall_mem_nil _ }
  have hcreated : Persisted (fun _ => True) .root briefMetadata MemoryStore.empty briefStore
      briefHandle :=
    .of_create (MemoryStore.keepsValues _) (MemoryStore.failsCleanly _) trivial trivial hbare rfl
  have habsent : (ArrayCall.runAll leftBehindCalls MemoryStore.empty).get? Key.root.metadata = none :=
    by decide +kernel
  refine ⟨rfl, hcreated.reopened readsBack_briefHandle _, by decide +kernel, ?_, fun hreads => ?_⟩
  · exact create_eq_ok_iff.2
      ⟨congrArg (fun found => Except.ok found.isSome) habsent, _, rfl, rfl, rfl⟩
  · have hleft : (briefHandle.readChunk [0, 0] leftBehindStore).toOption.map
        (fun out => (out.shape, out.cell [0, 0])) = some ([2, 2], DataType.ofPattern _ 5) := by
      decide +kernel
    obtain ⟨out, hout, hparts⟩ := Option.map_eq_some_iff.1 hleft
    obtain ⟨hshape, hfive⟩ := Prod.mk.inj hparts
    have hinside : Index.Inside [0, 0] out.shape := by
      rw [hshape]
      exact Shape.mem_indices_iff.1 (by decide)
    have hfill := hreads.chunk_cell _ _ (Outcome.toOption_eq_some_iff.1 hout) _ hinside
    exact absurd (hfive.symm.trans hfill) (by decide)

end ArrayHandle

end ChunkedArray
