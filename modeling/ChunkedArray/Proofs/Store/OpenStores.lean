import ChunkedArray.Proofs.Store.AtomicSet

/-!
# Stores stay open

The root of a store that was opened is a directory, and stays one whatever calls are made.
-/

namespace ChunkedArray

namespace DirectoryStore

open FileTree

variable {d d' : DirectoryStore} {t t' : FileTree} {p : Path} {name : String}

/-- The tree is tidy and has a directory at the path. -/
structure HasRoot (p : Path) (t : FileTree) : Prop where
  tidy : t.Tidy
  look_root : t.look p = some none

theorem HasRoot.prune (h : HasRoot p t) {q : Path} (hq : ¬ q <+: p) : HasRoot p (t.prune q) := by
  refine ⟨h.tidy.prune, ?_⟩
  have hne : q ≠ [] := fun he => hq (he ▸ List.nil_prefix)
  rw [look_prune hne, if_neg hq, h.look_root]

theorem HasRoot.removeEntry (h : HasRoot p t) : HasRoot p (removeEntry p name t).2 := by
  rw [DirectoryStore.removeEntry, FileAction.change_apply]
  cases hs : t.resolve (.ofPath (p ++ [name])) with
  | error e => exact h
  | ok s =>
    show HasRoot p (t.prune s.path)
    rw [(of_resolve_ofPath hs).2]
    exact h.prune fun hpre => absurd hpre.length_le (by simp)

theorem HasRoot.clearDirectory (h : HasRoot p t) : HasRoot p (clearDirectory p t).2 := by
  rw [DirectoryStore.clearDirectory, StoreAction.get_bind_apply]
  cases t.resolve (.ofPath p) with
  | error e => exact h
  | ok s =>
    obtain ⟨node, above⟩ := s
    cases node with
    | file => exact h
    | directory children w =>
      refine StoreAction.bind_keeps (fun h => ?_) (fun _ _ h => h) h
      exact StoreAction.forM_keeps (fun _ _ _ h => h.removeEntry) h

theorem HasRoot.removeTree (h : HasRoot p t) {q : Path} (hq : ¬ q <+: p) :
    HasRoot p (removeTree q t).2 := by
  rw [DirectoryStore.removeTree, StoreAction.get_bind_apply]
  split
  · exact h.prune hq
  · exact h

/-- A file that is taken away is not the root, nor above it. -/
theorem HasRoot.removeValue (h : HasRoot p t) {q : Path} : HasRoot p (removeValue (.ofPath q) t).2 := by
  rw [DirectoryStore.removeValue, StoreAction.get_bind_apply]
  cases hremoved : t.removeFile (.ofPath q) with
  | error e => cases e <;> exact h
  | ok t' =>
    obtain ⟨s, hs, hremoved⟩ := Outcome.bind_eq_ok_iff.1 hremoved
    obtain ⟨hfile, hremoved⟩ := Outcome.guard_eq_ok_iff.1 hremoved
    obtain ⟨hat, hpath⟩ := of_resolve_ofPath hs
    obtain rfl := Except.ok.inj hremoved
    show HasRoot p (t.prune s.path)
    rw [hpath]
    refine h.prune fun hpre => ?_
    obtain ⟨n, hn, hdir⟩ := look_eq_some_iff.1 (look_directory_above h.look_root hpre)
    obtain rfl := Option.some.inj (hat.symm.trans hn)
    exact hfile (Node.isDirectory_iff.2 hdir)

/-! ### Calls -/

/-- The store is open and its root is there. -/
structure IsReady (d : DirectoryStore) : Prop where
  isShort_root : d.root.IsShort
  hasRoot : HasRoot d.root d.tree

theorem IsReady.isOpen (h : d.IsReady) : d.IsOpen := ⟨h.isShort_root, h.hasRoot.tidy⟩

theorem requireWritable_snd (d : DirectoryStore) : (requireWritable d).2 = d := by
  rw [requireWritable, StoreAction.get_bind_apply]
  split <;> rfl

theorem IsReady.onTree {α : Type} {a : FileAction α} (h : d.IsReady)
    (ha : HasRoot d.root (a d.tree).2) : (onTree a d).2.IsReady := ⟨h.isShort_root, ha⟩

theorem IsReady.set {k : Key} (h : d.IsReady) (hk : k.Valid) (value : Bytes) :
    ((Store.set k value : StoreAction DirectoryStore StoreError Unit) d).2.IsReady := by
  have hlook := h.hasRoot.look_root
  have hreaches := FileProgram.reaches_run (d.setProgram freshName [] k value) d.tree
  have hkeeps := (h.isOpen.keeps_setProgram hk (.inr hlook) startsReserved_freshName).reaches hreaches
  rw [run_setProgram]
  by_cases hdone : ((d.setProgram freshName [] k value).run d.tree).1 = .ok ()
  · rw [hdone] at hkeeps
    exact ⟨h.isShort_root, hkeeps.tidy, (hkeeps.replaced.directory_iff _).2 (.inr hlook)⟩
  · have hway := hkeeps.of_unfinished fun hc => hdone (FileProgram.finish.inj hc)
    exact ⟨h.isShort_root, hway.tidy, hway.grown.kept _ hlook⟩

theorem IsReady.run {c : StoreCall} (h : d.IsReady) (hc : c.Uses Key.Valid) : (c.run d).2.IsReady := by
  have hwritable (h : d.IsReady) : (requireWritable d).2.IsReady := (requireWritable_snd d).symm ▸ h
  cases c with
  | set k value =>
    refine h.set ?_ value
    rcases hc with rfl | hk
    · exact List.forall_mem_nil _
    · exact hk
  | erase k => exact StoreAction.bind_keeps hwritable (fun _ d h => h.onTree h.hasRoot.removeValue) h
  | eraseUnder base =>
    refine StoreAction.bind_keeps hwritable (fun _ d h => ?_) h
    rw [StoreAction.get_bind_apply]
    split
    · exact h.onTree h.hasRoot.clearDirectory
    · next hroot =>
      refine h.onTree (h.hasRoot.removeTree fun hpre => hroot ?_)
      have hnil : base.names = [] := by simpa [pathOf_eq] using hpre.length_le
      simpa [Key.names, Key.isRoot] using hnil
  | get | has | keysUnder | keys => exact h

/-- The store after calls that are made one after the other. -/
def afterCalls (calls : List StoreCall) (d : DirectoryStore) : DirectoryStore :=
  calls.foldl (fun d c => (c.run d).2) d

/-- A store that was opened is open after any calls, and its root is there. -/
theorem isReady_afterCalls {text : String} {mode : AccessMode} {calls : List StoreCall}
    (htidy : t.Tidy) (hopen : openAt text mode t = (.ok d, t'))
    (hcalls : ∀ c ∈ calls, c.Uses Key.Valid) : (afterCalls calls d).IsReady := by
  have hstart : d.IsReady := by
    obtain ⟨-, htree, hshort, hdir⟩ := openAt_spec htidy hopen
    exact ⟨hshort, htree, hdir⟩
  clear hopen
  induction calls generalizing d with
  | nil => exact hstart
  | cons c calls ih =>
    rw [List.forall_mem_cons] at hcalls
    exact ih hcalls.2 (hstart.run hcalls.1)

end DirectoryStore

end ChunkedArray
