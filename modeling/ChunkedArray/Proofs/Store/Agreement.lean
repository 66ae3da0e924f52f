import ChunkedArray.Proofs.Assoc
import ChunkedArray.Proofs.Outcome
import ChunkedArray.Store.Memory

/-!
# Stores in memory that agree on some keys

Two stores agree on some keys if they are the same as far as these go. An operation is local to the
keys if stores that agree on them answer it alike and still agree afterwards; it spares them if the
store afterwards agrees with the one before. Operations on keys that start with one of two keys are
local to these and spare the others, if neither of the two starts with the other.
-/

namespace ChunkedArray

/-! ### Keys below a key -/

namespace Key

theorem startsWith_append (k : Key) (cs : List KeyComponent) : (k.append cs).startsWith k = true :=
  List.isPrefixOf_iff_prefix.2 (List.prefix_append ..)

theorem startsWith_metadata (k : Key) : k.metadata.startsWith k = true := startsWith_append k [_]

/-- Neither key starts with the other. -/
def Apart (a b : Key) : Prop := a.startsWith b = false ∧ b.startsWith a = false

instance (a b : Key) : Decidable (a.Apart b) := inferInstanceAs (Decidable (_ ∧ _))

theorem Apart.symm {a b : Key} (h : a.Apart b) : b.Apart a := ⟨h.2, h.1⟩

theorem not_apart_self (k : Key) : ¬ k.Apart k :=
  fun h => Bool.eq_false_iff.1 h.1 (List.isPrefixOf_iff_prefix.2 List.prefix_rfl)

/-- Of two keys that a key starts with one starts with the other. -/
theorem Apart.not_startsWith {a b k : Key} (h : a.Apart b) (ha : k.startsWith a = true) :
    k.startsWith b = false := by
  rw [Bool.eq_false_iff]
  intro hb
  have ha' := List.isPrefixOf_iff_prefix.1 ha
  have hb' := List.isPrefixOf_iff_prefix.1 hb
  rcases List.prefix_or_prefix_of_prefix ha' hb' with hab | hba
  · exact absurd (List.isPrefixOf_iff_prefix.2 hab) (Bool.eq_false_iff.1 h.2)
  · exact absurd (List.isPrefixOf_iff_prefix.2 hba) (Bool.eq_false_iff.1 h.1)

end Key

namespace MemoryStore

variable {keep : Key → Bool} {s s' s'' : MemoryStore} {k base : Key}

def Agree (keep : Key → Bool) (s s' : MemoryStore) : Prop := s.restrict keep = s'.restrict keep

theorem Agree.refl (keep : Key → Bool) (s : MemoryStore) : Agree keep s s := rfl

theorem Agree.trans (h : Agree keep s s') (h' : Agree keep s' s'') : Agree keep s s'' :=
  Eq.trans h h'

theorem Agree.symm (h : Agree keep s s') : Agree keep s' s := Eq.symm h

/-! ### Reading -/

theorem Agree.get? (h : Agree keep s s') (hk : keep k = true) : s.get? k = s'.get? k := by
  have hget := congrArg (MemoryStore.get? · k) h
  simpa only [get?_restrict, hk, if_true] using hget

theorem Agree.keysUnder (h : Agree keep s s')
    (hbase : ∀ k, k.startsWith base = true → keep k = true) : s.keysUnder base = s'.keysUnder base := by
  have hentries : Assoc.restrict keep s.entries = Assoc.restrict keep s'.entries :=
    congrArg MemoryStore.entries h
  rw [MemoryStore.keysUnder, MemoryStore.keysUnder, Assoc.filter_keys, Assoc.filter_keys,
    ← Assoc.restrict_restrict hbase, hentries, Assoc.restrict_restrict hbase]

/-! ### Changes -/

theorem restrict_insert (keep : Key → Bool) (s : MemoryStore) (k : Key) (value : Bytes) :
    (s.insert k value).restrict keep =
      if keep k then (s.restrict keep).insert k value else s.restrict keep := by
  show MemoryStore.mk (Assoc.restrict keep (Assoc.set k value s.entries)) = _
  rw [Assoc.restrict_set]
  split <;> rfl

theorem Agree.insert (h : Agree keep s s') (k : Key) (value : Bytes) :
    Agree keep (s.insert k value) (s'.insert k value) := by
  rw [Agree, restrict_insert, restrict_insert, h]

theorem agree_insert (hk : keep k = false) (s : MemoryStore) (value : Bytes) :
    Agree keep s (s.insert k value) := by
  rw [Agree, restrict_insert, hk]
  rfl

theorem Agree.restrict (h : Agree keep s s') (keep' : Key → Bool) :
    Agree keep (s.restrict keep') (s'.restrict keep') := by
  have hentries : Assoc.restrict keep s.entries = Assoc.restrict keep s'.entries :=
    congrArg MemoryStore.entries h
  refine congrArg MemoryStore.mk ?_
  show Assoc.restrict keep (Assoc.restrict keep' s.entries) =
    Assoc.restrict keep (Assoc.restrict keep' s'.entries)
  rw [Assoc.restrict_comm, hentries, Assoc.restrict_comm]

theorem agree_restrict {keep' : Key → Bool} (h : ∀ k, keep k = true → keep' k = true)
    (s : MemoryStore) : Agree keep s (s.restrict keep') :=
  congrArg MemoryStore.mk (Assoc.restrict_restrict h s.entries).symm

/-- The store with this entry under a key. -/
def put (s : MemoryStore) (k : Key) : Option Bytes → MemoryStore
  | none => s.restrict (· ≠ k)
  | some value => s.insert k value

theorem Agree.put (h : Agree keep s s') (k : Key) (entry : Option Bytes) :
    Agree keep (s.put k entry) (s'.put k entry) := by
  cases entry with
  | none => exact h.restrict _
  | some value => exact h.insert k value

theorem agree_put (hk : keep k = false) (s : MemoryStore) (entry : Option Bytes) :
    Agree keep s (s.put k entry) := by
  cases entry with
  | some value => exact agree_insert hk s value
  | none =>
    refine agree_restrict (fun k' hk' => decide_eq_true ?_) s
    rintro rfl
    rw [hk] at hk'
    cases hk'

/-! ### Operations -/

/-- Stores that agree on the keys answer alike, and agree on them again afterwards. -/
def Local {α : Type} (keep : Key → Bool) (f : MemoryStore → α × MemoryStore) : Prop :=
  ∀ s s', Agree keep s s' → (f s).1 = (f s').1 ∧ Agree keep (f s).2 (f s').2

/-- Nothing is changed under the keys. -/
def Spares {α : Type} (keep : Key → Bool) (f : MemoryStore → α × MemoryStore) : Prop :=
  ∀ s, Agree keep s (f s).2

variable {α β ε : Type}

theorem local_read {f : MemoryStore → α} (hf : ∀ s s', Agree keep s s' → f s = f s') :
    Local keep fun s => (f s, s) := fun s s' h => ⟨hf s s' h, h⟩

theorem Local.map {f : MemoryStore → α × MemoryStore} (hf : Local keep f) (g : α → β) :
    Local keep fun s => (g (f s).1, (f s).2) :=
  fun s s' h => ⟨congrArg g (hf s s' h).1, (hf s s' h).2⟩

theorem Local.bind {a : StoreAction MemoryStore ε α} {f : α → StoreAction MemoryStore ε β}
    (ha : Local keep a) (hf : ∀ x, Local keep (f x)) : Local keep (a >>= f) := by
  intro s s' h
  obtain ⟨hresult, hagree⟩ := ha s s' h
  rcases hrun : a s with ⟨e | x, s₁⟩ <;> rcases hrun' : a s' with ⟨e' | x', s₁'⟩ <;>
    rw [hrun, hrun'] at hresult hagree
  · rw [StoreAction.bind_apply_error hrun, StoreAction.bind_apply_error hrun']
    exact ⟨congrArg Except.error (Except.error.inj hresult), hagree⟩
  · cases hresult
  · cases hresult
  · obtain rfl := Except.ok.inj hresult
    rw [StoreAction.bind_apply hrun, StoreAction.bind_apply hrun']
    exact hf x s₁ s₁' hagree

theorem local_reading_bind (x : Except ε α) {f : α → StoreAction MemoryStore ε β}
    (hf : ∀ a, x = .ok a → Local keep (f a)) :
    Local keep (StoreAction.reading (fun _ => x) >>= f) := by
  cases x with
  | error e => exact fun s s' h => ⟨rfl, h⟩
  | ok a => exact hf a rfl

theorem local_guard {p : Prop} [Decidable p] {e : ε} {a b : StoreAction MemoryStore ε α}
    (ha : Local keep a) :
    Local keep (if p then (throw e : StoreAction MemoryStore ε PUnit) >>= fun _ => b else a) := by
  split
  · exact fun s s' h => ⟨rfl, h⟩
  · exact ha

theorem local_forM {ι : Type} {f : ι → StoreAction MemoryStore ε Unit} {l : List ι}
    (hf : ∀ i ∈ l, Local keep (f i)) : Local keep (l.forM f) := by
  induction l with
  | nil => exact fun s s' h => ⟨rfl, h⟩
  | cons i l ih =>
    rw [List.forall_mem_cons] at hf
    exact hf.1.bind fun _ => ih hf.2

theorem spares_reading_bind {x : MemoryStore → Except ε α} {f : α → StoreAction MemoryStore ε β}
    (hf : ∀ s a, x s = .ok a → Spares keep (f a)) : Spares keep (StoreAction.reading x >>= f) := by
  intro s
  rw [StoreAction.reading_bind_apply]
  cases hx : x s with
  | error e => exact .refl keep s
  | ok a => exact hf s a hx s

theorem spares_guard {p : Prop} [Decidable p] {e : ε} {a b : StoreAction MemoryStore ε α}
    (ha : Spares keep a) :
    Spares keep (if p then (throw e : StoreAction MemoryStore ε PUnit) >>= fun _ => b else a) := by
  split
  · exact .refl keep
  · exact ha

theorem spares_forM {ι : Type} {f : ι → StoreAction MemoryStore ε Unit} {l : List ι}
    (hf : ∀ i ∈ l, Spares keep (f i)) : Spares keep (l.forM f) :=
  fun s => StoreAction.forM_keeps (fun i hi s' h => h.trans (hf i hi s')) (Agree.refl keep s)

end MemoryStore

end ChunkedArray
