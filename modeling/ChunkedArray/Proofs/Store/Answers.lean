import ChunkedArray.Proofs.Store.RootCalls

/-!
# Directories answer like stores in memory

A store is seen through what it answers to the calls that are made of it. A store opened in an empty
directory answers as an empty store in memory does, whatever calls are made, as long as no key of a
value starts with another. Only the root itself has no value in a directory: calls that would set or
erase one fail, and the other calls are answered as if those had not been made.
-/

namespace ChunkedArray

inductive StoreCall where
  | set (k : Key) (value : Bytes)
  | get (k : Key)
  | has (k : Key)
  | erase (k : Key)
  | eraseUnder (base : Key)
  | keysUnder (base : Key)
  | keys

inductive StoreAnswer where
  | done (r : Except StoreError Unit)
  | value (r : Except StoreError (Option Bytes))
  | flag (r : Except StoreError Bool)
  | keys (r : Except StoreError (List Key))

/-- The operating system refused what was asked of it. -/
inductive StoreAnswer.Refused : StoreAnswer → Prop where
  | done (e : FileError) : Refused (.done (.error (.file e)))
  | flag (e : FileError) : Refused (.flag (.error (.file e)))

namespace StoreCall

/-- Makes a call. Whether anything was there to be erased under a key is not part of the answer: a
directory may be there without a value. -/
def run {σ : Type} [Store σ] : StoreCall → σ → StoreAnswer × σ
  | .set k value, s =>
    let (r, s) := (Store.set k value : StoreAction σ StoreError Unit) s
    (.done r, s)
  | .get k, s => (.value (Store.get k s), s)
  | .has k, s => (.flag (Store.has k s), s)
  | .erase k, s =>
    let (r, s) := (Store.erase k : StoreAction σ StoreError Bool) s
    (.flag r, s)
  | .eraseUnder base, s =>
    let (r, s) := (Store.eraseUnder base : StoreAction σ StoreError Bool) s
    (.done (r.map fun _ => ()), s)
  | .keysUnder base, s => (.keys (Store.keysUnder base s), s)
  | .keys, s => (.keys (Store.keys s), s)

/-- The answers to calls that are made one after the other. -/
def answers {σ : Type} [Store σ] : List StoreCall → σ → List StoreAnswer
  | [], _ => []
  | c :: calls, s => (c.run s).1 :: answers calls (c.run s).2

/-- The keys of values that a call names are the root or among some keys. The keys that values are
erased or listed under are any. -/
def Uses (keys : Key → Prop) : StoreCall → Prop
  | .set k _ | .erase k | .get k | .has k => k = .root ∨ keys k
  | .eraseUnder _ | .keysUnder _ | .keys => True

/-- The call would set or erase a value of the root itself. -/
def changesRoot : StoreCall → Bool
  | .set k _ | .erase k => k.isRoot
  | _ => false

/-- The answers to those of the calls, made one after the other, that are picked. -/
def answersTo {σ : Type} [Store σ] (picked : StoreCall → Bool) : List StoreCall → σ → List StoreAnswer
  | [], _ => []
  | c :: calls, s =>
    if picked c then (c.run s).1 :: answersTo picked calls (c.run s).2
    else answersTo picked calls (c.run s).2

end StoreCall

namespace DirectoryStore

open FileTree StoreCall

variable {keys : Key → Prop} {d : DirectoryStore} {m : MemoryStore}

/-! ### Opening -/

theorem tidy_of_ensureRoot {text : String} {mode : AccessMode} {t t' : FileTree}
    (h : ensureRoot text mode t = (.ok (), t')) (ht : t.Tidy) : t'.Tidy := by
  obtain ⟨t₁, _, hget, h⟩ := StoreAction.bind_eq_ok_iff.1 h
  cases hget
  split at h
  · split at h
    · exact FileAction.keepsTidy_makeDirectories.tidy ht (StoreAction.rename_eq_ok_iff.1 h)
    · cases h
  · exact (StoreAction.pure_eq_ok_iff.1 h).2 ▸ ht

theorem openRoot_spec {n : Pathname} {mode : AccessMode} {t : FileTree}
    (h : openRoot n mode t = .ok d) :
    d.mode = mode ∧ d.tree = t ∧ d.root.IsShort ∧ t.look d.root = some none := by
  obtain ⟨root, hroot, h⟩ := Outcome.bind_eq_ok_iff.1 h
  obtain ⟨place, hplace, h⟩ := Outcome.bind_eq_ok_iff.1 h
  obtain ⟨hdir, h⟩ := Outcome.guard_eq_ok_iff.1 h
  obtain ⟨-, h⟩ := Outcome.guard_eq_ok_iff.1 h
  obtain rfl := Except.ok.inj h
  rw [Outcome.mapError_eq_ok_iff] at hroot hplace
  obtain ⟨s, hs, hroot⟩ := Outcome.bind_eq_ok_iff.1 hroot
  obtain ⟨hcheck, hroot⟩ := Outcome.check_bind_eq_ok_iff.1 hroot
  obtain rfl := Except.ok.inj (hs.symm.trans hplace)
  obtain rfl := Except.ok.inj hroot
  obtain ⟨hat, hnames⟩ := of_resolve hs
  have hcontents : s.node.contents? = none := by
    rw [← Node.isDirectory_iff]
    simpa [Node.isFile] using hdir
  have hmeans := means_of_checkPathname (Pathname.leadsTo_ofPath _) hcheck hnames
  exact ⟨rfl, rfl, ⟨hmeans.size_le, hmeans.isShortName⟩, look_eq_some_iff.2 ⟨_, hat, hcontents⟩⟩

theorem openAt_spec {text : String} {mode : AccessMode} {t t' : FileTree} (htidy : t.Tidy)
    (h : openAt text mode t = (.ok d, t')) :
    d.mode = mode ∧ d.tree.Tidy ∧ d.root.IsShort ∧ d.tree.look d.root = some none := by
  obtain ⟨_, t₁, hensure, hread⟩ := StoreAction.bind_eq_ok_iff.1 h
  obtain ⟨hroot, rfl⟩ := StoreAction.reading_eq_ok_iff.1 hread
  obtain ⟨hmode, rfl, hshort, hdir⟩ := openRoot_spec hroot
  exact ⟨hmode, tidy_of_ensureRoot hensure htidy, hshort, hdir⟩

/-! ### Calls -/

theorem mirrors_empty (hmode : d.mode ≠ .readOnly) (hroot : d.root.IsShort) (htidy : d.tree.Tidy)
    (hdir : d.tree.look d.root = some none)
    (hempty : ∀ p, d.tree.look (d.root ++ p) ≠ none → p = []) :
    Mirrors keys d MemoryStore.empty where
  mode_ne := hmode
  isShort_root := hroot
  tidy := htidy
  look_root := hdir
  nodup := List.nodup_nil
  keys_of_get? _ hk := absurd rfl hk
  file_iff p value := by
    constructor
    · intro hfile
      obtain rfl := hempty p (Option.ne_none_iff_exists'.2 ⟨_, hfile⟩)
      rw [List.append_nil, hdir] at hfile
      cases hfile
    · rintro ⟨k, -, hvalue⟩
      cases hvalue
  directory p hp := .inl (hempty p (Option.ne_none_iff_exists'.2 ⟨_, hp⟩))

theorem key_of_uses {k : Key} (hk : k = .root ∨ keys k) (hroot : k.isRoot = false) : keys k := by
  refine hk.resolve_left ?_
  rintro rfl
  cases hroot

/-- A call gets the same answer, and the directory still mirrors the store in memory. -/
theorem Mirrors.run (h : Mirrors keys d m) (hs : SuitsKeys d.root keys) {c : StoreCall}
    (hc : c.Uses keys) (hroot : c.changesRoot = false) :
    (c.run d).1 = (c.run m).1 ∧ (c.run d).2.root = d.root ∧
      Mirrors keys (c.run d).2 (c.run m).2 := by
  cases c with
  | set k value =>
    obtain ⟨t, hrun, hmirrors⟩ := h.set hs (key_of_uses hc hroot) value
    rw [StoreCall.run, hrun]
    exact ⟨rfl, rfl, hmirrors⟩
  | get k => exact ⟨congrArg StoreAnswer.value (h.get hs hc), rfl, h⟩
  | has k => exact ⟨congrArg StoreAnswer.flag (h.has hs hc), rfl, h⟩
  | erase k =>
    obtain ⟨t, hrun, hmirrors⟩ := h.erase hs (key_of_uses hc hroot)
    rw [StoreCall.run, hrun]
    exact ⟨rfl, rfl, hmirrors⟩
  | eraseUnder base =>
    obtain ⟨found, t, hrun, hmirrors⟩ := h.eraseUnder hs base
    rw [StoreCall.run, hrun]
    exact ⟨rfl, rfl, hmirrors⟩
  | keysUnder base => exact ⟨congrArg StoreAnswer.keys (h.keysUnder hs base), rfl, h⟩
  | keys => exact ⟨congrArg StoreAnswer.keys (h.keysUnder hs .root), rfl, h⟩

/-- A value of the root is refused, and the directory still mirrors what it did. -/
theorem Mirrors.run_changesRoot (h : Mirrors keys d m) (hs : SuitsKeys d.root keys) {c : StoreCall}
    (hroot : c.changesRoot = true) :
    (c.run d).1.Refused ∧ (c.run d).2.root = d.root ∧ Mirrors keys (c.run d).2 m := by
  cases c with
  | set k value =>
    obtain rfl : k = .root := congrArg Key.mk (List.isEmpty_iff.1 hroot)
    obtain ⟨e, t, hrun, hmirrors⟩ := h.set_root hs value
    rw [StoreCall.run, hrun]
    exact ⟨.done e, rfl, hmirrors⟩
  | erase k =>
    obtain rfl : k = .root := congrArg Key.mk (List.isEmpty_iff.1 hroot)
    rw [StoreCall.run, h.erase_root]
    exact ⟨.flag .isDirectory, rfl, h⟩
  | get | has | eraseUnder | keysUnder | keys => cases hroot

theorem Mirrors.answersTo (h : Mirrors keys d m) (hs : SuitsKeys d.root keys)
    {calls : List StoreCall} (hcalls : ∀ c ∈ calls, c.Uses keys) :
    answersTo (!·.changesRoot) calls d = answers (calls.filter (!·.changesRoot)) m ∧
      ∀ r ∈ answersTo (·.changesRoot) calls d, r.Refused := by
  induction calls generalizing d m with
  | nil => exact ⟨rfl, List.forall_mem_nil _⟩
  | cons c calls ih =>
    rw [List.forall_mem_cons] at hcalls
    rw [StoreCall.answersTo, StoreCall.answersTo, List.filter_cons]
    cases hroot : c.changesRoot with
    | true =>
      obtain ⟨hrefused, hsame, hmirrors⟩ := h.run_changesRoot hs hroot
      obtain ⟨hanswers, hothers⟩ := ih hmirrors (hsame ▸ hs) hcalls.2
      exact ⟨hanswers, List.forall_mem_cons.2 ⟨hrefused, hothers⟩⟩
    | false =>
      obtain ⟨hanswer, hsame, hmirrors⟩ := h.run hs hcalls.1 hroot
      obtain ⟨hanswers, hothers⟩ := ih hmirrors (hsame ▸ hs) hcalls.2
      exact ⟨congrArg₂ List.cons hanswer hanswers, hothers⟩

/-- A store opened for writing in an empty directory answers calls with keys that suit it like an empty
store in memory of which the root's value is never set or erased. To do that is refused. -/
theorem answers_eq_memory {text : String} {mode : AccessMode} {t t' : FileTree} {d : DirectoryStore}
    {keys : Key → Prop} {calls : List StoreCall} (htidy : t.Tidy)
    (hopen : openAt text mode t = (.ok d, t')) (hmode : mode ≠ .readOnly)
    (hempty : ∀ p, d.tree.look (d.root ++ p) ≠ none → p = []) (hkeys : SuitsKeys d.root keys)
    (hcalls : ∀ c ∈ calls, c.Uses keys) :
    answersTo (!·.changesRoot) calls d =
        answers (calls.filter (!·.changesRoot)) MemoryStore.empty ∧
      ∀ r ∈ answersTo (·.changesRoot) calls d, r.Refused := by
  obtain ⟨_, t₁, hensure, hread⟩ := StoreAction.bind_eq_ok_iff.1 hopen
  obtain ⟨hroot, rfl⟩ := StoreAction.reading_eq_ok_iff.1 hread
  obtain ⟨rfl, rfl, hshort, hdir⟩ := openRoot_spec hroot
  have htree := tidy_of_ensureRoot hensure htidy
  exact (mirrors_empty hmode hshort htree hdir hempty).answersTo hkeys hcalls

/-! ### A run with nested keys -/

def storeTree : FileTree :=
  (FileTree.empty ["home"]).modify ["home"] (·.setChild "store" .emptyDirectory)

/-- A store in the new directory `store` of a home that is empty otherwise. -/
def newStore : DirectoryStore := ⟨["home", "store"], .create, storeTree⟩

theorem openAt_newStore :
    openAt "store" .create (.empty ["home"]) = (.ok newStore, storeTree) := by
  have hname : Pathname.ofText "store" = ⟨false, [.down "store"], false, 5⟩ := by decide +kernel
  rw [openAt, ensureRoot, hname]
  rfl

theorem eq_nil_of_look_newStore (p : Path)
    (h : newStore.tree.look (newStore.root ++ p) ≠ none) : p = [] := by
  have hlook : newStore.tree.look (newStore.root ++ p) = Node.emptyDirectory.look p := rfl
  by_contra hp
  rw [hlook, Node.look_emptyDirectory, if_neg hp] at h
  exact h rfl

def keyOfNames (names : List String) : Key := ⟨names.map KeyComponent.mk⟩

def nestedKeys : List Key :=
  [keyOfNames ["a", "b"], keyOfNames ["a", "c", "d"], keyOfNames ["e"]]

theorem suitsKeys_nestedKeys : SuitsKeys newStore.root (· ∈ nestedKeys) where
  ne_root := by decide +kernel
  eq_of_startsWith k k' hk hk' := by
    have hfree : ∀ k ∈ nestedKeys, ∀ k' ∈ nestedKeys, k'.startsWith k = true → k = k' := by
      decide +kernel
    exact hfree k hk k' hk'
  valid := by
    show ∀ k ∈ nestedKeys, ∀ c ∈ k.components, c.Valid
    decide +kernel
  isShortName := by decide +kernel
  size_le := by decide +kernel
  partial_size_le := by decide +kernel

/-- The directory `a` outlives its values, and is erased and made again. Between this a value of the
root is to be set and erased. -/
def nestedCalls : List StoreCall :=
  [.set (keyOfNames ["a", "c", "d"]) [1], .set .root [5], .set (keyOfNames ["a", "b"]) [2],
    .erase (keyOfNames ["a", "c", "d"]), .keysUnder (keyOfNames ["a", "c"]),
    .has (keyOfNames ["a", "c", "d"]), .set (keyOfNames ["e"]) [3], .keys,
    .eraseUnder (keyOfNames ["a", "c"]), .set (keyOfNames ["a", "c", "d"]) [4],
    .eraseUnder (keyOfNames ["a"]), .erase .root, .get .root, .get (keyOfNames ["e"]), .eraseUnder .root, .keys]

theorem answers_eq_memory_nested :
    answersTo (!·.changesRoot) nestedCalls newStore =
        answers (nestedCalls.filter (!·.changesRoot)) MemoryStore.empty ∧
      ∀ r ∈ answersTo (·.changesRoot) nestedCalls newStore, r.Refused := by
  refine answers_eq_memory (FileTree.tidy_empty _) openAt_newStore (by decide)
    eq_nil_of_look_newStore suitsKeys_nestedKeys ?_
  simp [StoreCall.Uses, nestedCalls, nestedKeys]

/-- With no keys but the root, a store in memory has nothing to erase, and a directory refuses. -/
theorem erase_root_refused :
    openAt "store" .create (.empty ["home"]) = (.ok newStore, storeTree) ∧
      (∀ p, newStore.tree.look (newStore.root ++ p) ≠ none → p = []) ∧
      answers [.erase .root] newStore = [.flag (.error (.file .isDirectory))] ∧
      answers [.erase .root] MemoryStore.empty = [.flag (.ok false)] :=
  ⟨openAt_newStore, eq_nil_of_look_newStore, rfl, rfl⟩

end DirectoryStore

end ChunkedArray
