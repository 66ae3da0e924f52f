import ChunkedArray.Proofs.Store.Answers
import ChunkedArray.Proofs.Store.Growth
import ChunkedArray.Proofs.Store.KeyText
import ChunkedArray.Proofs.Store.WriteProgram

/-!
# Setting a value is atomic

All the time until the value is moved to its place, readers of the store get the answers they got
before, and so they do after the operation has failed, wherever that was. From then on they get those
of the whole operation. The one exception are keys that cannot be those of files.
-/

namespace ChunkedArray

open FileTree

/-! ### Trees on the way -/

namespace FileTree

variable {root dir p q : Path} {t t₁ t₂ : FileTree}

theorem look_ne_directory_below (h : t.look p ≠ some none) (hq : p <+: q) : t.look q ≠ some none := by
  obtain ⟨r, rfl⟩ := hq
  intro hdir
  by_cases hr : r = []
  · rw [hr, List.append_nil] at hdir
    exact h hdir
  · exact h (look_of_append hdir hr)

theorem look_directory_above (h : t.look p = some none) (hq : q <+: p) : t.look q = some none := by
  by_contra hne
  exact look_ne_directory_below hne hq h

/-- A directory is made. -/
theorem Grown.makeDirectory (h : Grown root dir t t₁) (hdir : dir.SeenFrom root) (hp : p <+: dir)
    (hshort : p.IsShort) (hnew : t₁.look p = none)
    (hlook : ∀ q, t₂.look q = if q = p then some none else t₁.look q) : Grown root dir t t₂ := by
  have hnone : t.look p = none := by
    have hgrows := h.grows p (hdir.of_prefix hp)
    rw [hnew] at hgrows
    by_contra hne
    exact hne (hgrows.eq hne).symm
  refine ⟨fun q hq => ?_, fun q hq => ?_, fun q hq => ?_⟩
  · rw [hlook]
    split
    · next he => exact .inr ⟨he ▸ hnone, rfl⟩
    · exact h.grows q hq
  · rw [hlook, h.kept q hq, ite_self]
  · rw [hlook] at hq
    split at hq
    · next he => exact .inr ⟨he ▸ hnone, he ▸ hp, he ▸ hshort⟩
    · exact h.made q hq

/-- Something changes at a path that no key leads to, where there is no directory. -/
theorem Grown.beside (h : Grown root dir t t₁) (hunseen : ¬ p.SeenFrom root)
    (hsame : ∀ q, ¬ p <+: q → t₂.look q = t₁.look q) (h₁ : t₁.look p ≠ some none)
    (h₂ : t₂.look p ≠ some none) : Grown root dir t t₂ := by
  refine ⟨fun q hq => ?_, fun q hq => ?_, fun q hq => ?_⟩
  · rw [hsame q fun hpre => hunseen (hq.of_prefix hpre)]
    exact h.grows q hq
  · have hkept := h.kept q hq
    rwa [hsame q fun hpre => look_ne_directory_below h₁ hpre hkept]
  · rw [hsame q fun hpre => look_ne_directory_below h₂ hpre hq] at hq
    exact h.made q hq

/-- At a path there is now a file, and above it are directories; where keys lead all else is as it
was. -/
structure Replaced (root p : Path) (value : Bytes) (t t' : FileTree) : Prop where
  isShort : p.IsShort
  seen : ∀ q : Path, q.SeenFrom root → t'.look q =
    if q = p then some (some value) else if q <+: p.dropLast then some none else t.look q
  directory_iff : ∀ q, t'.look q = some none ↔ q <+: p.dropLast ∨ t.look q = some none

/-- All trees in which the value was put look the same where keys lead. -/
theorem Replaced.grown {value : Bytes} (h₁ : Replaced root p value t t₁)
    (h₂ : Replaced root p value t t₂) (dir : Path) : Grown root dir t₁ t₂ where
  grows q hq := .inl ((h₂.seen q hq).trans (h₁.seen q hq).symm)
  kept q hq := (h₂.directory_iff q).2 ((h₁.directory_iff q).1 hq)
  made q hq := .inl ((h₁.directory_iff q).2 ((h₂.directory_iff q).1 hq))

/-- A file that no key leads to is moved to where a key leads. -/
theorem Grown.moveFile {value : Bytes} {source : Pathname} {name : String}
    (h : Grown root p.dropLast t t₁) (hsource : source.Means (p.dropLast ++ [name]))
    (hfile : t₁.look (p.dropLast ++ [name]) = some (some value))
    (hunseen : ¬ Path.SeenFrom (p.dropLast ++ [name]) root) (hp : p.SeenFrom root)
    (hmoved : t₁.moveFile source (.ofPath p) = .ok t₂) : Replaced root p value t t₂ := by
  obtain ⟨hne, hmeans, hold⟩ := of_moveFile (Pathname.leadsTo_ofPath p) hmoved
  obtain ⟨dir, last, rfl⟩ := (List.eq_nil_or_concat' p).resolve_left hne
  rw [List.dropLast_concat] at h hsource hfile hunseen
  have habove : t₁.look dir = some none := look_of_append hfile (by simp)
  obtain ⟨t', ht', hlook⟩ := moveFile_ok hsource hmeans hfile hold
  obtain rfl := Except.ok.inj (hmoved.symm.trans ht')
  -- Nothing that is looked at is where the file was.
  have hseen (q : Path) (hq : q.SeenFrom root) : ¬ dir ++ [name] <+: q :=
    fun hpre => hunseen (hq.of_prefix hpre)
  have hdirectory (q : Path) (hq : t₁.look q = some none) : t₂.look q = some none := by
    have hnot : ¬ dir ++ [name] <+: q :=
      fun hpre => look_ne_directory_below (by simp [hfile]) hpre hq
    rw [hlook, if_neg (fun he : q = dir ++ [last] => hold (he ▸ hq)), if_neg hnot, hq]
  have hmade (q : Path) (hq : t₁.look q = some none) :
      q <+: dir ∨ t.look q = some none := (h.made q hq).symm.imp_left fun hnew => hnew.2.1
  refine ⟨⟨hmeans.size_le, hmeans.isShortName⟩, fun q hq => ?_, fun q => ?_⟩ <;>
    rw [List.dropLast_concat]
  · rw [hlook, if_neg (hseen q hq)]
    refine if_congr Iff.rfl rfl ?_
    split
    · next hpre => exact look_directory_above habove hpre
    · next hpre =>
      rcases h.grows q hq with hsame | ⟨hnone, hdir⟩
      · exact hsame
      · rw [(hmade q hdir).resolve_left hpre] at hnone
        cases hnone
  · constructor
    · intro hq
      rw [hlook] at hq
      split at hq
      · cases hq
      · split at hq
        · cases hq
        · exact hmade q hq
    · rintro (hpre | hq)
      · exact hdirectory q (look_directory_above habove hpre)
      · exact hdirectory q (h.kept q hq)

end FileTree

/-! ### Along the program -/

namespace FileProgram

variable {during done : FileTree → Prop} {t : FileTree} {n source : Pathname}

theorem keeps_settle (h : during t) (r : Except FileError Unit) :
    (settle n r).Keeps during during t := by
  cases r with
  | ok => exact h
  | error e =>
    refine ⟨h, ?_⟩
    show (finish (if t.isDirectory n then .ok () else .error (.file e))).Keeps during during t
    split <;> exact h

section

variable (hmake : ∀ t t', during t → t.makeDirectory n = .ok t' → during t')

include hmake

theorem keeps_ensureDirectory (h : during t) : (ensureDirectory n).Keeps during during t :=
  ⟨h, fun t' ht' => keeps_settle (hmake t t' h ht') _, fun _ => keeps_settle h _⟩

theorem keeps_ensureBelow {above : FileProgram}
    (habove : ∀ t, during t → above.Keeps during during t) (h : during t) :
    (ensureBelow n above).Keeps during during t := by
  refine ⟨h, fun t' ht' => keeps_settle (hmake t t' h ht') _, fun e => ?_⟩
  cases e with
  | noEntry => exact (habove t h).andThen fun t' h' => keeps_ensureDirectory hmake h'
  | _ => exact keeps_settle h _

end

/-- If every directory on the way to a path can be made, so can all of them. -/
theorem keeps_ensureSteps {dir p : Path} (hp : p <+: dir)
    (hmake : ∀ (n' : Pathname) p t t', n'.LeadsTo p → n'.size = n.size → p <+: dir → during t →
      t.makeDirectory n' = .ok t' → during t') (habsolute : n.absolute = true) (h : during t) :
    (ensureSteps n (p.map Step.down).reverse).Keeps during during t := by
  induction p using List.reverseRecOn generalizing t with
  | nil => exact h
  | append_singleton p name ih =>
    rw [List.map_append, List.reverse_append, List.map_singleton, List.reverse_singleton,
      List.singleton_append, ensureSteps, List.reverse_cons, List.reverse_reverse,
      ← List.map_singleton, ← List.map_append]
    · refine keeps_ensureBelow (fun t t' h ht' => ?_)
        (fun t h => ih ((List.prefix_append p [name]).trans hp) h) h
      exact hmake { n with steps := (p ++ [name]).map .down, trailingSlash := false } _ t t'
        ⟨habsolute, rfl, rfl⟩ rfl hp h ht'
    · simp

theorem keeps_makeDirectories {dir : Path}
    (hmake : ∀ (n : Pathname) p t t', n.LeadsTo p → n.size = (Pathname.ofPath dir).size →
      p <+: dir → during t → t.makeDirectory n = .ok t' → during t') (h : during t) :
    (makeDirectories (.ofPath dir)).Keeps during during t := by
  have hparent : (Pathname.ofPath dir).parentSteps.reverse = (dir.dropLast.map Step.down).reverse := by
    rcases List.eq_nil_or_concat' dir with rfl | ⟨above, name, rfl⟩
    · rfl
    · simp [Pathname.parentSteps, Pathname.ofPath]
  rw [makeDirectories, if_neg (by simp [Pathname.isEmpty, Pathname.ofPath]), hparent]
  refine keeps_ensureBelow (fun t t' h ht' => ?_) (fun t h => ?_) h
  · exact hmake _ dir t t' (Pathname.leadsTo_ofPath dir) rfl (List.prefix_refl _) h ht'
  · exact keeps_ensureSteps (List.dropLast_prefix dir) hmake rfl h

/-- The file under way can be taken away at any time. -/
theorem keeps_orGiveUp {f : FileTree → Except FileError FileTree} {next : FileProgram}
    (h : during t) (hremove : ∀ t', t.removeFile source = .ok t' → during t')
    (hnext : ∀ t', f t = .ok t' → next.Keeps during done t') :
    (orGiveUp source f next).Keeps during done t :=
  ⟨h, hnext, fun _ => ⟨h, hremove, fun _ => h⟩⟩

end FileProgram

namespace DirectoryStore

open FileProgram

variable {d d' : DirectoryStore} {k : Key} {dir p : Path} {name : String} {t t' : FileTree}
  {value contents : Bytes} {pick : List String → String} {sizes : List Nat}

/-- The tree of the store while a file of a directory is to be written. -/
structure OnTheWay (d : DirectoryStore) (dir : Path) (t : FileTree) : Prop where
  tidy : t.Tidy
  grown : Grown d.root dir d.tree t

/-- The tree of the store once the file is in its place. -/
structure InPlace (d : DirectoryStore) (p : Path) (value : Bytes) (t : FileTree) : Prop where
  tidy : t.Tidy
  replaced : Replaced d.root p value d.tree t

/-- The key leads below the root, or the root is there. -/
def CanHold (d : DirectoryStore) (k : Key) : Prop := k ≠ .root ∨ d.tree.look d.root = some none

theorem CanHold.root (h : d.CanHold k) :
    d.root <+: (d.pathOf k).dropLast ∨ d.tree.look d.root = some none := by
  refine h.imp_left fun hne => ?_
  rw [pathOf_eq, List.dropLast_append_of_ne_nil (Key.names_ne_nil hne)]
  exact List.prefix_append _ _

/-- No key leads to a reserved name below the root, nor to what is above the root and no directory. -/
theorem not_seenFrom_root (hroot : d.root <+: dir ∨ d.tree.look d.root = some none)
    (hreserved : KeyComponent.startsReserved name.toList = true)
    (hold : d.tree.look (dir ++ [name]) ≠ some none) : ¬ Path.SeenFrom (dir ++ [name]) d.root := by
  have habove : ¬ dir ++ [name] <+: d.root := by
    intro hpre
    rcases hroot with hroot | hroot
    · exact absurd (hpre.trans hroot).length_le (by simp)
    · exact hold (look_directory_above hroot hpre)
  rintro ⟨k, hk, hpre⟩
  obtain ⟨names, hnames⟩ :=
    (List.prefix_or_prefix_of_prefix hpre (List.prefix_append d.root k.names)).resolve_left habove
  rcases List.eq_nil_or_concat' names with rfl | ⟨above, last, rfl⟩
  · rw [List.append_nil] at hnames
    exact habove (hnames ▸ List.prefix_refl _)
  · obtain rfl : last = name := by simpa using congrArg List.getLast? hnames
    rw [← hnames, List.prefix_append_right_inj] at hpre
    obtain ⟨c, hc, rfl⟩ := List.mem_map.1 (hpre.subset (List.mem_append_right above List.mem_cons_self))
    have hvalid := KeyComponent.valid_iff.1 (hk c hc)
    exact hvalid.2.1 (KeyComponent.startsReserved_iff.1 hreserved)

theorem OnTheWay.makeDirectory {n : Pathname} (h : d.OnTheWay dir t) (hdir : dir.SeenFrom d.root)
    (hn : n.LeadsTo p) (hsize : n.size = (Pathname.ofPath dir).size) (hp : p <+: dir)
    (ht : t.makeDirectory n = .ok t') : d.OnTheWay dir t' := by
  obtain ⟨hmeans, hnew, hlook⟩ := of_makeDirectory hn ht
  have hshort : p.IsShort := by
    obtain ⟨r, rfl⟩ := hp
    have hle := hsize ▸ hmeans.size_le
    rw [Path.size_ofPath_append] at hle
    exact ⟨by omega, hmeans.isShortName⟩
  exact ⟨h.tidy.makeDirectory ht, h.grown.makeDirectory hdir hp hshort hnew hlook⟩

theorem OnTheWay.writeFile (h : d.OnTheWay dir t)
    (hunseen : ¬ Path.SeenFrom (dir ++ [name]) d.root)
    (ht : t.writeFile (.ofPath (dir ++ [name])) contents = .ok t') :
    d.OnTheWay dir t' ∧ t'.look (dir ++ [name]) = some (some contents) := by
  obtain ⟨-, -, hold, hlook⟩ := of_writeFile (Pathname.leadsTo_ofPath _) ht
  have hfile : t'.look (dir ++ [name]) = some (some contents) := (hlook _).trans (if_pos rfl)
  refine ⟨⟨h.tidy.writeFile ht, h.grown.beside hunseen (fun q hq => ?_) hold (by simp [hfile])⟩, hfile⟩
  rw [hlook, if_neg (fun he : q = dir ++ [name] => hq (he ▸ List.prefix_refl _))]

theorem OnTheWay.removeFile (h : d.OnTheWay dir t)
    (hunseen : ¬ Path.SeenFrom (dir ++ [name]) d.root) (hold : t.look (dir ++ [name]) ≠ some none)
    (ht : t.removeFile (.ofPath (dir ++ [name])) = .ok t') : d.OnTheWay dir t' := by
  have hlook := of_removeFile (Pathname.leadsTo_ofPath (dir ++ [name])) ht
  refine ⟨h.tidy.removeFile ht, h.grown.beside hunseen (fun q hq => ?_) hold ?_⟩
  · rw [hlook, if_neg hq]
  · rw [hlook, if_pos (List.prefix_refl _)]
    exact (Option.some_ne_none _).symm

theorem OnTheWay.moveFile (h : d.OnTheWay p.dropLast t)
    (hunseen : ¬ Path.SeenFrom (p.dropLast ++ [name]) d.root) (hp : p.SeenFrom d.root)
    (hfile : t.look (p.dropLast ++ [name]) = some (some value))
    (ht : t.moveFile (.ofPath (p.dropLast ++ [name])) (.ofPath p) = .ok t') : d.InPlace p value t' := by
  obtain ⟨-, hmoved⟩ := Outcome.guard_eq_ok_iff.1 ht
  obtain ⟨file, hsource, -⟩ := Outcome.bind_eq_ok_iff.1 hmoved
  have hmeans := means_of_resolve (Pathname.leadsTo_ofPath _) hsource
  exact ⟨h.tidy.moveFile ht, h.grown.moveFile hmeans hfile hunseen hp ht⟩

theorem OnTheWay.keeps_fill (hunseen : ¬ Path.SeenFrom (p.dropLast ++ [name]) d.root)
    (hp : p.SeenFrom d.root) (h : d.OnTheWay p.dropLast t)
    (hold : t.look (p.dropLast ++ [name]) ≠ some none) :
    (fill (.ofPath (p.dropLast ++ [name])) (.ofPath p) value sizes).Keeps (d.OnTheWay p.dropLast)
      (d.InPlace p value) t := by
  -- From one piece to the next all that stays is that the file is there and nobody sees it.
  induction sizes generalizing t with
  | nil =>
    refine keeps_orGiveUp h (fun t' => h.removeFile hunseen hold) fun t₁ ht₁ => ?_
    obtain ⟨h₁, hfile⟩ := h.writeFile hunseen ht₁
    have hremove (t' : FileTree) (ht' : t₁.removeFile (.ofPath (p.dropLast ++ [name])) = .ok t') :
        d.OnTheWay p.dropLast t' := h₁.removeFile hunseen (by simp [hfile]) ht'
    refine keeps_orGiveUp h₁ hremove fun t₂ ht₂ => ?_
    obtain rfl := Except.ok.inj ht₂
    exact keeps_orGiveUp h₁ hremove fun t' => h₁.moveFile hunseen hp hfile
  | cons size sizes ih =>
    refine keeps_orGiveUp h (fun t' => h.removeFile hunseen hold) fun t₁ ht₁ => ?_
    obtain ⟨h₁, hfile⟩ := h.writeFile hunseen ht₁
    exact ih h₁ (by simp [hfile])

theorem OnTheWay.keeps_replaceFile
    (hroot : d.root <+: p.dropLast ∨ d.tree.look d.root = some none)
    (hpick : ∀ names, KeyComponent.startsReserved (pick names).toList = true)
    (hp : p.SeenFrom d.root) (h : d.OnTheWay p.dropLast t) :
    (FileProgram.replaceFile pick sizes p.dropLast (.ofPath p) value).Keeps (d.OnTheWay p.dropLast)
      (d.InPlace p value) t := by
  refine ⟨h, h, fun t₁ ht₁ => ?_, fun _ => h⟩
  have hcreated := Outcome.mapError_eq_ok_iff.1 ht₁
  obtain ⟨-, -, hold, -⟩ := of_writeFile (Pathname.leadsTo_ofPath _) hcreated
  have hunseen := not_seenFrom_root hroot (hpick _) (mt (h.grown.kept _) hold)
  obtain ⟨h₁, hfile⟩ := h.writeFile hunseen hcreated
  exact h₁.keeps_fill hunseen hp (by simp [hfile])

theorem IsOpen.keeps_setProgram (hd : d.IsOpen) (hk : k.Valid) (hhold : d.CanHold k)
    (hpick : ∀ names, KeyComponent.startsReserved (pick names).toList = true) :
    (d.setProgram pick sizes k value).Keeps (d.OnTheWay (d.pathOf k).dropLast)
      (d.InPlace (d.pathOf k) value) d.tree := by
  have h : d.OnTheWay (d.pathOf k).dropLast d.tree := ⟨hd.tidy, .refl _ _ _⟩
  have hp : (d.pathOf k).SeenFrom d.root := ⟨k, hk, List.prefix_refl _⟩
  rw [setProgram]
  split
  · exact h
  · refine Keeps.andThen (keeps_makeDirectories (fun n q t t' hn hsize hq h ht' => ?_) h)
      fun t h => h.keeps_replaceFile hhold.root hpick hp
    exact h.makeDirectory (hp.of_prefix (List.dropLast_prefix _)) hn hsize hq ht'

/-! ### What readers see -/

/-- Whoever reads the second store instead of the first gets the same answers. -/
structure SameAnswers (d d' : DirectoryStore) : Prop where
  get : ∀ k : Key, k.Valid → Store.get k d' = Store.get k d
  has : ∀ k : Key, k.Valid → Store.has k d' = Store.has k d
  keysUnder : ∀ base : Key, base.Valid → Store.keysUnder base d' = Store.keysUnder base d
  keys : Store.keys d' = Store.keys d

/-- The second store has the value under the key, and all its answers are those after the value was set
in the first store. -/
structure HasSet (k : Key) (value : Bytes) (d d' : DirectoryStore) : Prop where
  get_self : Store.get k d' = .ok (some value)
  has_self : Store.has k d' = .ok true
  sameAnswers : ∀ d'', (Store.set k value : StoreAction DirectoryStore StoreError Unit) d =
    (.ok (), d'') → SameAnswers d'' d'

theorem startsReserved_freshName (names : List String) :
    KeyComponent.startsReserved (freshName names).toList = true := by
  rw [freshName, numberedName, String.toList_append]
  rfl

theorem InPlace.isOpen (hd : d.IsOpen) (h : d.InPlace p value t) : IsOpen { d with tree := t } :=
  ⟨hd.isShort_root, h.tidy⟩

theorem InPlace.sameAnswers (hd : d.IsOpen) (h : d.InPlace p value t) (h' : d.InPlace p value t') :
    SameAnswers { d with tree := t } { d with tree := t' } := by
  have hthere : Unchanged { d with tree := t } { d with tree := t' } :=
    (h.isOpen hd).unchanged rfl (h.replaced.grown h'.replaced p) h'.tidy
  have hback : Unchanged { d with tree := t' } { d with tree := t } :=
    (h'.isOpen hd).unchanged rfl (h'.replaced.grown h.replaced p) h.tidy
  exact ⟨fun _ hk => hthere.antisymm hback hk, hthere.has, hthere.keysUnder, hthere.keys⟩

theorem IsOpen.hasSet (hd : d.IsOpen) (hk : k.Valid) (hhold : d.CanHold k)
    (h : d.InPlace (d.pathOf k) value t) :
    HasSet k value d { d with tree := t } := by
  have hlook : t.look (d.pathOf k) = some (some value) :=
    (h.replaced.seen _ ⟨k, hk, List.prefix_refl _⟩).trans (if_pos rfl)
  refine ⟨?_, ?_, fun d'' hset => ?_⟩
  · have hread : DirectoryStore.read { d with tree := t } k = .ok (t.look (d.pathOf k)).join :=
      read_eq h.replaced.isShort fun hnone => by cases hlook.symm.trans hnone
    exact hread.trans (congrArg (fun x => Except.ok x.join) hlook)
  · refine congrArg Except.ok ((isFile_eq h.replaced.isShort.means).trans ?_)
    rw [hlook]
    rfl
  · have hrun := (d.run_setProgram k value).symm.trans hset
    obtain ⟨hr, rfl⟩ := Prod.mk.inj hrun
    have hreaches := reaches_run (d.setProgram freshName [] k value) d.tree
    rw [hr] at hreaches
    exact InPlace.sameAnswers hd ((hd.keeps_setProgram hk hhold startsReserved_freshName).reaches hreaches) h

/-- Wherever the setting of a value is or has ended, whatever was refused on the way: as long as it has
not succeeded readers get the answers they got before, and then those of the whole operation. -/
theorem atomic_set {c : FileProgram} (hd : d.IsOpen) (hk : k.Valid) (hhold : d.CanHold k)
    (hpick : ∀ names, KeyComponent.startsReserved (pick names).toList = true)
    (h : Reaches (d.setProgram pick sizes k value, d.tree) (c, t)) :
    (c ≠ .finish (.ok ()) → Unchanged d { d with tree := t }) ∧
      (c = .finish (.ok ()) → HasSet k value d { d with tree := t }) := by
  have hkeeps := (hd.keeps_setProgram hk hhold hpick).reaches h
  constructor
  · intro hc
    have hway := hkeeps.of_unfinished hc
    exact hd.unchanged rfl hway.grown hway.tidy
  · rintro rfl
    exact hd.hasSet hk hhold hkeeps

theorem isOpen_newStore : newStore.IsOpen where
  isShort_root := ⟨by decide +kernel, by decide +kernel⟩
  tidy := (FileTree.tidy_empty ["home"]).setChild Node.tidy_emptyDirectory

/-- The store is seen while the first byte of three is written, and after the end. -/
theorem atomic_set_midway : ∃ program c t t',
    program = newStore.setProgram freshName [1] (keyOfNames ["a", "b"]) [1, 2, 3] ∧
    Reaches (program, newStore.tree) (c, t) ∧
    t.look ["home", "store", "a", numberedName 0] = some (some [1]) ∧
    Unchanged newStore { newStore with tree := t } ∧
    Reaches (program, newStore.tree) (.finish (.ok ()), t') ∧
    HasSet (keyOfNames ["a", "b"]) [1, 2, 3] newStore { newStore with tree := t' } := by
  have hk : (keyOfNames ["a", "b"]).Valid := by
    show ∀ c ∈ (keyOfNames ["a", "b"]).components, c.Valid
    decide +kernel
  -- The directory is made, its names are looked at, the file is made, and the byte is written.
  have hmidway : Reaches (newStore.setProgram freshName [1] (keyOfNames ["a", "b"]) [1, 2, 3],
      newStore.tree) _ :=
    .head (.made rfl) (.head .look (.head (.made rfl) (.head (.made rfl) .refl)))
  have hend := reaches_run (newStore.setProgram freshName [1] (keyOfNames ["a", "b"]) [1, 2, 3])
    newStore.tree
  refine ⟨_, _, _, _, rfl, hmidway, by decide +kernel, ?_, hend, ?_⟩
  · exact (atomic_set isOpen_newStore hk (.inr rfl) startsReserved_freshName hmidway).1 nofun
  · exact (atomic_set isOpen_newStore hk (.inr rfl) startsReserved_freshName hend).2 rfl

/-- Below a directory that is not there yet, a component that has a character more than a name may. -/
def overlongKey : Key := keyOfNames ["a", String.ofList (List.replicate 256 'x')]

theorem valid_overlongKey : overlongKey.Valid := by
  have hname : KeyComponent.Valid ⟨String.ofList (List.replicate 256 'x')⟩ := by
    rw [KeyComponent.Valid, String.toList_ofList]
    decide
  intro c hc
  simp only [overlongKey, keyOfNames, List.map_cons, List.map_nil, List.mem_cons,
    List.not_mem_nil, or_false] at hc
  rcases hc with rfl | rfl
  · decide
  · exact hname

/-- Setting its value fails. It had no value, and now asking for it is an error. -/
theorem get_overlongKey_changes :
    overlongKey.Valid ∧ Store.keys newStore = .ok [] ∧ Store.get overlongKey newStore = .ok none ∧
    ∃ r d', (Store.set overlongKey [0] : StoreAction DirectoryStore StoreError Unit) newStore =
        (r, d') ∧ r = .error (.file .nameTooLong) ∧
      Store.get overlongKey d' = .error (.file .nameTooLong) := by
  have hrun : Store.get overlongKey newStore = .ok none ∧
      ((Store.set overlongKey [0] : StoreAction DirectoryStore StoreError Unit) newStore).1 =
        .error (.file .nameTooLong) ∧
      Store.get overlongKey
        ((Store.set overlongKey [0] : StoreAction DirectoryStore StoreError Unit) newStore).2 =
        .error (.file .nameTooLong) := by
    decide +kernel
  exact ⟨valid_overlongKey, congrArg Except.ok List.mergeSort_nil, hrun.1, _, _, Prod.mk.eta.symm,
    hrun.2⟩

end DirectoryStore

end ChunkedArray
