import ChunkedArray.Proofs.Store.Successes

/-!
# Erasing under a key, whatever was done before

After any successful changes of an empty store all values under a key can be erased, and no others
are lost. A store in memory tells whether there was a value. A directory tells whether there was
anything at all: directories that were made for values stay when the values are erased one by one, and
erasing under a key then tells of them as well.
-/

namespace ChunkedArray

namespace Store

variable {σ : Type} [Store σ]

/-- What successful changes lead to, the last change first. -/
inductive Leads : List StoreCall → σ → σ → Prop
  | nil {s : σ} : Leads [] s s
  | set {calls : List StoreCall} {s s₁ s₂ : σ} {k : Key} {value : Bytes} : Leads calls s s₁ →
    k.Valid → (Store.set k value : StoreAction σ StoreError Unit) s₁ = (.ok (), s₂) →
    Leads (.set k value :: calls) s s₂
  | erase {calls : List StoreCall} {s s₁ s₂ : σ} {k : Key} {found : Bool} : Leads calls s s₁ →
    (Store.erase k : StoreAction σ StoreError Bool) s₁ = (.ok found, s₂) →
    Leads (.erase k :: calls) s s₂
  | eraseUnder {calls : List StoreCall} {s s₁ s₂ : σ} {base : Key} {found : Bool} :
    Leads calls s s₁ →
    (Store.eraseUnder base : StoreAction σ StoreError Bool) s₁ = (.ok found, s₂) →
    Leads (.eraseUnder base :: calls) s s₂

/-- Some key that starts with `base` has a value. -/
def HasUnder (base : Key) (s : σ) : Prop :=
  ∃ k value, k.startsWith base = true ∧ Store.get k s = .ok (some value)

/-- All under a key can be erased. The answer is whether `reported` holds, and the keys under it are
listed before and after. -/
structure ErasesUnder (base : Key) (reported : Prop) (s : σ) : Prop where
  listed : ∃ keys, Store.keysUnder base s = .ok keys ∧ (keys ≠ [] ↔ HasUnder base s)
  erased : ∃ found s', (Store.eraseUnder base : StoreAction σ StoreError Bool) s = (.ok found, s') ∧
    (found = true ↔ reported) ∧ Store.keysUnder base s' = .ok [] ∧
    ∀ k : Key, k.startsWith base = false → Store.get k s' = Store.get k s

end Store

/-! ### In memory -/

namespace MemoryStore

variable {m : MemoryStore} {base : Key}

theorem hasUnder_iff : Store.HasUnder base m ↔ ∃ k, k ∈ m.keysUnder base := by
  simp only [mem_keysUnder_iff, Option.ne_none_iff_exists']
  constructor
  · rintro ⟨k, value, hk, hvalue⟩
    exact ⟨k, hk, value, Except.ok.inj hvalue⟩
  · rintro ⟨k, hk, value, hvalue⟩
    exact ⟨k, value, hk, congrArg Except.ok hvalue⟩

theorem size_restrict_ne_iff {keep : Key → Bool} :
    (m.restrict keep).size ≠ m.size ↔ ∃ k, keep k = false ∧ m.get? k ≠ none := by
  have hkeys (k : Key) : m.get? k ≠ none ↔ ∃ e ∈ m.entries, e.1 = k := by
    rw [← Option.isSome_iff_ne_none, get?, Assoc.find?_isSome_iff, Assoc.keys, List.mem_map]
  rw [size, size, restrict, Assoc.restrict, ne_eq, List.length_filter_eq_length_iff]
  simp only [hkeys, not_forall, Bool.not_eq_true]
  constructor
  · rintro ⟨e, he, hkeep⟩
    exact ⟨e.1, hkeep, e, he, rfl⟩
  · rintro ⟨_, hkeep, e, he, rfl⟩
    exact ⟨e, he, hkeep⟩

theorem erasesUnder (base : Key) (m : MemoryStore) :
    Store.ErasesUnder base (Store.HasUnder base m) m := by
  refine ⟨⟨_, rfl, ?_⟩, _, _, rfl, ?_, ?_, fun k hk => congrArg Except.ok ?_⟩
  · rw [hasUnder_iff]
    exact ⟨List.exists_mem_of_ne_nil _, fun ⟨_, hk⟩ => List.ne_nil_of_mem hk⟩
  · rw [bne_iff_ne, size_restrict_ne_iff, hasUnder_iff]
    simp only [Bool.not_eq_false', mem_keysUnder_iff]
  · refine congrArg Except.ok (List.eq_nil_iff_forall_not_mem.2 fun k hk => ?_)
    obtain ⟨hstarts, hvalue⟩ := mem_keysUnder_iff.1 hk
    rw [get?_restrict, hstarts] at hvalue
    exact hvalue rfl
  · rw [get?_restrict, hk]
    rfl

end MemoryStore

/-! ### In a directory -/

/-- What is above the end of a path is what leads to it and is not the path. -/
theorem Path.prefix_dropLast_iff {p q : Path} (hq : q ≠ []) :
    p <+: q.dropLast ↔ p <+: q ∧ p ≠ q := by
  obtain ⟨dir, name, rfl⟩ := (List.eq_nil_or_concat' q).resolve_left hq
  rw [List.dropLast_concat, List.prefix_concat_iff]
  constructor
  · intro hpre
    refine ⟨.inr hpre, ?_⟩
    rintro rfl
    exact absurd hpre.length_le (by simp)
  · rintro ⟨he | hpre, hne⟩
    · exact absurd he hne
    · exact hpre

/-- What leads to the value of a valid key is the path of a valid key. -/
theorem Key.exists_of_prefix {k : Key} {p : Path} (hk : k.Valid) (hp : p <+: k.names) :
    ∃ k' : Key, k'.Valid ∧ p = k'.names := by
  refine ⟨⟨k.components.take p.length⟩, fun c hc => hk c (List.mem_of_mem_take hc), ?_⟩
  rw [names, List.map_take]
  exact List.prefix_iff_eq_take.1 hp

namespace DirectoryStore

open FileTree

/-- The directories below the root that were made for values and were not erased since, the last change
first. -/
def Raised : List StoreCall → Path → Prop
  | .set k _ :: calls, p => (p <+: k.names ∧ p ≠ k.names) ∨ Raised calls p
  | .eraseUnder base :: calls, p => ¬ base.names <+: p ∧ Raised calls p
  | _ :: calls, p => Raised calls p
  | [], _ => False

/-- A directory was made for a value at or below a key, and was not erased since. -/
def LeftBehind (calls : List StoreCall) (base : Key) : Prop :=
  ∃ p, p ≠ [] ∧ base.names <+: p ∧ Raised calls p

/-- A store that was empty before some changes. Its files are values, and its directories those that the
changes have raised. -/
structure HasHistory (calls : List StoreCall) (d : DirectoryStore) : Prop extends d.InOrder where
  seen : ∀ p, d.tree.look (d.root ++ p) ≠ none → ∃ k : Key, k.Valid ∧ p = k.names
  directory_iff : ∀ p, p ≠ [] → (d.tree.look (d.root ++ p) = some none ↔ Raised calls p)

variable {calls : List StoreCall} {d d' : DirectoryStore} {k base : Key} {p : Path} {value : Bytes}

theorem of_onTree {α : Type} {a : FileAction α} {x : α} (h : onTree a d = (.ok x, d')) :
    a d.tree = (.ok x, d'.tree) ∧ d' = { d with tree := d'.tree } := by
  have hresult : (a d.tree).1.mapError StoreError.file = .ok x := congrArg Prod.fst h
  have hstate : { d with tree := (a d.tree).2 } = d' := congrArg Prod.snd h
  subst hstate
  exact ⟨Prod.ext (Outcome.mapError_eq_ok_iff.1 hresult) rfl, rfl⟩

/-- The root is a directory. -/
theorem InOrder.names_ne_nil (h : d.InOrder) (hold : d.tree.look (d.pathOf k) ≠ some none) :
    k.names ≠ [] := by
  intro hnil
  rw [pathOf_eq, hnil, List.append_nil] at hold
  exact hold h.look_root

theorem hasHistory_nil (hmode : d.mode ≠ .readOnly) (hroot : d.root.IsShort) (htidy : d.tree.Tidy)
    (hdir : d.tree.look d.root = some none)
    (hempty : ∀ p, d.tree.look (d.root ++ p) ≠ none → p = []) : HasHistory [] d where
  mode_ne := hmode
  tidy := htidy
  look_root := hdir
  isShort p hp := by
    rw [hempty p hp, List.append_nil]
    exact hroot
  seen p hp := by
    have hvalid : Key.root.Valid := fun _ hc => absurd hc List.not_mem_nil
    exact ⟨.root, hvalid, hempty p hp⟩
  directory_iff p hp := by
    refine ⟨fun hthere => ?_, fun hraised => hraised.elim⟩
    exact absurd (hempty p (by simp [hthere])) hp

/-- In the directory of a value the name of the file under way is free. -/
theorem HasHistory.look_partial (h : HasHistory calls d) (dir : Path) :
    d.tree.look (d.root ++ (dir ++ [numberedName 0])) = none := by
  by_contra hthere
  obtain ⟨k, hk, hnames⟩ := h.seen _ hthere
  exact numberedName_notMem hk (hnames ▸ List.mem_append_right dir List.mem_cons_self)

/-- Setting a value adds a file, in the place of a file or of nothing, and directories above it. -/
theorem HasHistory.of_set (h : HasHistory calls d)
    (hset : (Store.set k value : StoreAction DirectoryStore StoreError Unit) d = (.ok (), d')) :
    k.names ≠ [] ∧ d' = { d with tree := d'.tree } ∧ d'.tree.Tidy ∧ (d.pathOf k).IsShort ∧
      d.tree.look (d.pathOf k) ≠ some none ∧ ∀ p, d'.tree.look (d.root ++ p) =
        if p = k.names then some (some value)
        else if p <+: k.names.dropLast then some none else d.tree.look (d.root ++ p) := by
  rw [set_eq h.mode_ne] at hset
  obtain ⟨hrun, hd'⟩ := of_onTree hset
  obtain ⟨-, hshort, hold, hlook⟩ := of_writeValue hrun
  have hne := h.names_ne_nil hold
  have hdir : (d.pathOf k).dropLast = d.root ++ k.names.dropLast :=
    List.dropLast_append_of_ne_nil hne
  rw [hdir, List.append_assoc] at hlook
  refine ⟨hne, hd', keepsTidy_writeValue.tidy h.tidy hrun, hshort, hold, fun p => ?_⟩
  rw [hlook (h.look_partial _), pathOf_eq]
  simp only [List.append_cancel_left_eq, List.prefix_append_right_inj]

theorem HasHistory.grow {t : FileTree} (h : HasHistory calls d) (hk : k.Valid) (hne : k.names ≠ [])
    (htidy : t.Tidy) (hshort : (d.pathOf k).IsShort) (hold : d.tree.look (d.pathOf k) ≠ some none)
    (hlook : ∀ p, t.look (d.root ++ p) = if p = k.names then some (some value)
      else if p <+: k.names.dropLast then some none else d.tree.look (d.root ++ p)) :
    HasHistory (.set k value :: calls) { d with tree := t } := by
  have hkept {p : Path} (hpre : ¬ p <+: k.names) :
      t.look (d.root ++ p) = d.tree.look (d.root ++ p) := by
    have hnames : p ≠ k.names := fun he => hpre (he ▸ List.prefix_refl _)
    have habove : ¬ p <+: k.names.dropLast := fun h => hpre (h.trans (List.dropLast_prefix _))
    rw [hlook, if_neg hnames, if_neg habove]
  refine ⟨⟨h.mode_ne, htidy, ?_, fun p hp => ?_⟩, fun p hp => ?_, fun p hp => ?_⟩
  · have hroot := hlook []
    rwa [if_neg hne.symm, if_pos List.nil_prefix, List.append_nil] at hroot
  · by_cases hpre : p <+: k.names
    · obtain ⟨rest, hrest⟩ := hpre
      rw [pathOf_eq, ← hrest, ← List.append_assoc] at hshort
      exact hshort.of_append
    · exact h.isShort p (hkept hpre ▸ hp)
  · by_cases hpre : p <+: k.names
    · exact Key.exists_of_prefix hk hpre
    · exact h.seen p (hkept hpre ▸ hp)
  · show t.look (d.root ++ p) = some none ↔ (p <+: k.names ∧ p ≠ k.names) ∨ Raised calls p
    rw [hlook, ← Path.prefix_dropLast_iff hne, ← h.directory_iff p hp]
    by_cases hnames : p = k.names
    · have habove : ¬ p <+: k.names.dropLast := fun hpre =>
        ((Path.prefix_dropLast_iff hne).1 hpre).2 hnames
      subst hnames
      simp only [if_true, habove, false_or]
      exact ⟨nofun, fun hdir => absurd hdir hold⟩
    · by_cases habove : p <+: k.names.dropLast <;> simp [hnames, habove]

theorem HasHistory.set (h : HasHistory calls d) (hk : k.Valid)
    (hset : (Store.set k value : StoreAction DirectoryStore StoreError Unit) d = (.ok (), d')) :
    HasHistory (.set k value :: calls) d' := by
  obtain ⟨hne, hd', htidy, hshort, hold, hlook⟩ := h.of_set hset
  rw [hd']
  exact h.grow hk hne htidy hshort hold hlook

/-- Taking away what is at and below some paths, but not the root, leaves a store with a history. -/
theorem HasHistory.shrink {t : FileTree} {gone : Path → Prop} [DecidablePred gone]
    {calls' : List StoreCall} (h : HasHistory calls d) (htidy : t.Tidy) (hroot : ¬ gone [])
    (hlook : ∀ p, t.look (d.root ++ p) = if gone p then none else d.tree.look (d.root ++ p))
    (hraised : ∀ p, p ≠ [] → (Raised calls' p ↔ ¬ gone p ∧ Raised calls p)) :
    HasHistory calls' { d with tree := t } := by
  have hthere {p : Path} (hp : t.look (d.root ++ p) ≠ none) :
      d.tree.look (d.root ++ p) ≠ none := by
    rw [hlook, ite_ne_left_iff] at hp
    exact hp.2.symm
  refine ⟨⟨h.mode_ne, htidy, ?_, fun p hp => ?_⟩, fun p hp => ?_, fun p hp => ?_⟩
  · have hkept := hlook []
    rwa [if_neg hroot, List.append_nil, h.look_root] at hkept
  · exact h.isShort p (hthere hp)
  · exact h.seen p (hthere hp)
  · rw [hraised p hp, ← h.directory_iff p hp, hlook]
    by_cases hgone : gone p <;> simp [hgone]

theorem HasHistory.erase {found : Bool} (h : HasHistory calls d)
    (herase : (Store.erase k : StoreAction DirectoryStore StoreError Bool) d = (.ok found, d')) :
    HasHistory (.erase k :: calls) d' := by
  rw [erase_eq h.mode_ne] at herase
  obtain ⟨hrun, hd'⟩ := of_onTree herase
  rw [hd']
  rcases of_removeValue hrun with hsame | ⟨⟨contents, hfile⟩, hpruned⟩
  · rw [hsame]
    exact ⟨h.toInOrder, h.seen, h.directory_iff⟩
  · have hne : k.names ≠ [] := h.names_ne_nil (hfile ▸ nofun)
    have hpath : d.pathOf k ≠ [] := by simp [pathOf_eq, hne]
    have htidy := keepsTidy_removeValue.tidy h.tidy hrun
    have hbelow (p : Path) : d'.tree.look (d.root ++ p) =
        if k.names <+: p then none else d.tree.look (d.root ++ p) := by
      rw [hpruned, look_prune hpath]
      simp only [pathOf_eq, List.prefix_append_right_inj]
    refine h.shrink htidy (fun hpre => hne (List.prefix_nil.1 hpre)) hbelow fun p hp => ?_
    refine ⟨fun hraised => ⟨fun hpre => ?_, hraised⟩, And.right⟩
    -- Below a file there are no directories.
    have hdir := look_directory_above ((h.directory_iff p hp).2 hraised)
      ((List.prefix_append_right_inj d.root).2 hpre)
    rw [← pathOf_eq, hfile] at hdir
    cases hdir

theorem HasHistory.eraseUnder {found : Bool} (h : HasHistory calls d)
    (herase : (Store.eraseUnder base : StoreAction DirectoryStore StoreError Bool) d =
      (.ok found, d')) : HasHistory (.eraseUnder base :: calls) d' := by
  obtain ⟨_, t, hrun, htidy, -, hlook⟩ := h.eraseUnder_ok base
  obtain rfl : _ = d' := congrArg Prod.snd (hrun.symm.trans herase)
  refine h.shrink htidy (fun hnil => hnil.2 rfl) hlook fun p hp => ?_
  rw [and_iff_left hp]
  rfl

theorem hasHistory_of_leads {d₀ : DirectoryStore} (h₀ : HasHistory [] d₀)
    (h : Store.Leads calls d₀ d) : HasHistory calls d := by
  induction h with
  | nil => exact h₀
  | set _ hk hset ih => exact (ih h₀).set hk hset
  | erase _ herase ih => exact (ih h₀).erase herase
  | eraseUnder _ herase ih => exact (ih h₀).eraseUnder herase

/-! ### Erasing under a key -/

theorem InOrder.get_eq_some_iff (h : d.InOrder) :
    Store.get k d = .ok (some value) ↔ d.tree.look (d.pathOf k) = some (some value) := by
  constructor
  · intro hget
    have hread : valueAt (d.tree.resolve (d.pathnameOf k)) = .ok (some value) :=
      read_eq_valueAt.symm.trans hget
    cases hs : d.tree.resolve (d.pathnameOf k) with
    | error e =>
      rw [hs] at hread
      cases e <;> cases hread
    | ok s =>
      rw [hs] at hread
      exact look_eq_some_iff.2 ⟨_, (of_resolve_ofPath hs).1, Except.ok.inj hread⟩
  · intro hfile
    have hthere : d.tree.look (d.pathOf k) ≠ none := by simp [hfile]
    refine (read_eq (h.isShort k.names hthere) fun hnone => absurd hnone hthere).trans ?_
    rw [hfile]
    rfl

/-- A value is read along its path. -/
theorem get_congr {t : FileTree} (h : ∀ q, q <+: d.pathOf k → t.look q = d.tree.look q) :
    Store.get k { d with tree := t } = Store.get k d := by
  have hread : DirectoryStore.read { d with tree := t } k = d.read k := by
    rw [read_eq_valueAt, read_eq_valueAt]
    rcases valueAt_follows (follows_resolve fun q hq => .inl (h q hq)) with hsame | ⟨-, -, hlong⟩
    · exact hsame
    · rcases valueAt_follows (follows_resolve fun q hq => .inl (h q hq).symm) with hsame | ⟨-, hnone, -⟩
      · exact hsame.symm
      · rw [hlong] at hnone
        cases hnone
  exact hread

theorem HasHistory.keysUnder_ok (h : HasHistory calls d) (base : Key) :
    ∃ l : List Key, Store.keysUnder base d = .ok l ∧
      ∀ k, k ∈ l ↔ k.startsWith base = true ∧ ∃ value, Store.get k d = .ok (some value) := by
  obtain ⟨l, hl, -, hmem⟩ := DirectoryStore.keysUnder_ok h.tidy
    (fun p hp => (h.isShort p hp).size_le) (h.isShort base.names)
  refine ⟨Key.sort l, hl, fun k => ?_⟩
  simp only [Key.mem_sort, hmem, h.get_eq_some_iff]
  refine and_congr_right fun _ => ⟨And.right, fun ⟨value, hfile⟩ => ⟨?_, value, hfile⟩⟩
  obtain ⟨k', hk', hnames⟩ := h.seen k.names (by rw [← pathOf_eq, hfile]; nofun)
  exact Key.names_injective hnames ▸ hk'

/-- There is something at or below the path of a key if there is a value, or if a directory was left
there. -/
theorem HasHistory.exists_look_iff (h : HasHistory calls d) (base : Key) :
    (∃ p, p ≠ [] ∧ base.names <+: p ∧ d.tree.look (d.root ++ p) ≠ none) ↔
      Store.HasUnder base d ∨ LeftBehind calls base := by
  constructor
  · rintro ⟨p, hp, hpre, hthere⟩
    obtain ⟨x, hx⟩ := Option.ne_none_iff_exists'.1 hthere
    cases x with
    | none => exact .inr ⟨p, hp, hpre, (h.directory_iff p hp).1 hx⟩
    | some value =>
      obtain ⟨k, -, rfl⟩ := h.seen p hthere
      exact .inl ⟨k, value, Key.startsWith_iff.2 hpre, h.get_eq_some_iff.2 hx⟩
  · rintro (⟨k, value, hstarts, hvalue⟩ | ⟨p, hp, hpre, hraised⟩)
    · have hfile := h.get_eq_some_iff.1 hvalue
      refine ⟨k.names, h.names_ne_nil (hfile ▸ nofun), Key.startsWith_iff.1 hstarts, ?_⟩
      rw [← pathOf_eq, hfile]
      nofun
    · refine ⟨p, hp, hpre, ?_⟩
      rw [(h.directory_iff p hp).2 hraised]
      nofun

theorem HasHistory.erasesUnder (h : HasHistory calls d) (base : Key) :
    Store.ErasesUnder base (Store.HasUnder base d ∨ LeftBehind calls base) d := by
  obtain ⟨found, t, hrun, -, hfound, hlook⟩ := h.eraseUnder_ok base
  have h' := h.eraseUnder hrun
  obtain ⟨l, hl, hmem⟩ := h.keysUnder_ok base
  obtain ⟨l', hl', hmem'⟩ := h'.keysUnder_ok base
  have hnone : l' = [] := by
    refine List.eq_nil_iff_forall_not_mem.2 fun k hk => ?_
    obtain ⟨hstarts, value, hvalue⟩ := (hmem' k).1 hk
    have hfile : t.look (d.root ++ k.names) = some (some value) := h'.get_eq_some_iff.1 hvalue
    have hne : k.names ≠ [] := h'.names_ne_nil (hfile ▸ nofun)
    rw [hlook, if_pos ⟨Key.startsWith_iff.1 hstarts, hne⟩] at hfile
    cases hfile
  refine ⟨⟨l, hl, ?_⟩, found, _, hrun, hfound.trans (h.exists_look_iff base), hnone ▸ hl',
    fun k hk => get_congr fun q hq => ?_⟩
  · simp only [Store.HasUnder, exists_and_left, ← hmem]
    exact ⟨List.exists_mem_of_ne_nil l, fun ⟨_, hk⟩ => List.ne_nil_of_mem hk⟩
  · rcases List.prefix_or_prefix_of_prefix hq (List.prefix_append d.root k.names) with habove | hbelow
    · rw [look_directory_above h.look_root habove, look_directory_above h'.look_root habove]
    · obtain ⟨r, rfl⟩ := hbelow
      have hr : r <+: k.names := (List.prefix_append_right_inj d.root).1 hq
      have hkept : ¬ (base.names <+: r ∧ r ≠ []) := by
        rintro ⟨hpre, -⟩
        rw [Key.startsWith_iff.2 (hpre.trans hr)] at hk
        cases hk
      rw [hlook, if_neg hkept]

/-- All under a key can be erased in any store in memory, and in a directory that was empty and has
changed since. A store in memory tells whether there was a value, and a directory also tells of
directories that were left behind. -/
theorem erasesUnder_of_leads (base : Key) :
    (∀ m : MemoryStore, Store.ErasesUnder base (Store.HasUnder base m) m) ∧
      ∀ {text : String} {mode : AccessMode} {t t' : FileTree} {d₀ d : DirectoryStore}
        {calls : List StoreCall}, t.Tidy → openAt text mode t = (.ok d₀, t') → mode ≠ .readOnly →
        (∀ p, d₀.tree.look (d₀.root ++ p) ≠ none → p = []) → Store.Leads calls d₀ d →
        Store.ErasesUnder base (Store.HasUnder base d ∨ LeftBehind calls base) d := by
  refine ⟨MemoryStore.erasesUnder base, ?_⟩
  intro text mode t t' d₀ d calls htidy hopen hmode hempty hleads
  obtain ⟨rfl, htree, hshort, hdir⟩ := openAt_spec htidy hopen
  have hnew := hasHistory_nil hmode hshort htree hdir hempty
  exact (hasHistory_of_leads hnew hleads).erasesUnder base

def heldStore : DirectoryStore :=
  ((Store.set (keyOfNames ["a", "b"]) [0] : StoreAction DirectoryStore StoreError Unit) newStore).2

/-- The new store after a value was set and erased again. -/
def emptiedStore : DirectoryStore :=
  { newStore with tree := storeTree.modify newStore.root (·.setChild "a" .emptyDirectory) }

theorem leads_emptiedStore : Store.Leads
    [.erase (keyOfNames ["a", "b"]), .set (keyOfNames ["a", "b"]) [0]] newStore emptiedStore := by
  have hvalid : (keyOfNames ["a", "b"]).Valid := by
    show ∀ c ∈ (keyOfNames ["a", "b"]).components, c.Valid
    decide +kernel
  have hset : (Store.set (keyOfNames ["a", "b"]) [0] : StoreAction DirectoryStore StoreError Unit)
      newStore = (.ok (), heldStore) := Prod.ext (by decide +kernel) rfl
  have herase : (Store.erase (keyOfNames ["a", "b"]) : StoreAction DirectoryStore StoreError Bool)
      heldStore = (.ok true, emptiedStore) := Prod.ext (by decide +kernel) rfl
  exact .erase (.set .nil hvalid hset) herase

theorem erasesUnder_of_leads_emptied :
    Store.ErasesUnder (keyOfNames ["e"]) (Store.HasUnder (keyOfNames ["e"]) MemoryStore.empty)
        MemoryStore.empty ∧
      Store.ErasesUnder (keyOfNames ["a"]) (Store.HasUnder (keyOfNames ["a"]) emptiedStore ∨
        LeftBehind [.erase (keyOfNames ["a", "b"]), .set (keyOfNames ["a", "b"]) [0]]
          (keyOfNames ["a"])) emptiedStore :=
  ⟨(erasesUnder_of_leads _).1 _,
    (erasesUnder_of_leads _).2 (FileTree.tidy_empty _) openAt_newStore (by decide)
      eq_nil_of_look_newStore leads_emptiedStore⟩

/-- No key starts with `a`, but erasing under it tells of the directory. -/
theorem not_erasesUnder_emptied :
    Store.Leads [.erase (keyOfNames ["a", "b"]), .set (keyOfNames ["a", "b"]) [0]] newStore
        emptiedStore ∧
      Store.keysUnder (keyOfNames ["a"]) emptiedStore = .ok [] ∧
      (Store.eraseUnder (keyOfNames ["a"]) : StoreAction DirectoryStore StoreError Bool)
        emptiedStore = (.ok true, newStore) ∧
      ¬ Store.ErasesUnder (keyOfNames ["a"]) (Store.HasUnder (keyOfNames ["a"]) emptiedStore)
        emptiedStore := by
  have hkeys : Store.keysUnder (keyOfNames ["a"]) emptiedStore = .ok [] := by decide +kernel
  have herase : (Store.eraseUnder (keyOfNames ["a"]) : StoreAction DirectoryStore StoreError Bool)
      emptiedStore = (.ok true, newStore) := Prod.ext (by decide +kernel) rfl
  refine ⟨leads_emptiedStore, hkeys, herase, fun h => ?_⟩
  obtain ⟨keys, hlisted, hnone⟩ := h.listed
  obtain ⟨found, d', hrun, hfound, -, -⟩ := h.erased
  obtain rfl := Except.ok.inj (hlisted.symm.trans hkeys)
  obtain rfl : true = found := Except.ok.inj (congrArg Prod.fst (herase.symm.trans hrun))
  exact hnone.2 (hfound.1 rfl) rfl

end DirectoryStore

end ChunkedArray
