import ChunkedArray.Codec.Chain
import ChunkedArray.Proofs.Outcome
import Mathlib.Data.Set.List

/-!
# Assembling chains

A list of codecs makes a chain exactly if it has any number of transpositions, then at most one codec
from arrays to bytes, then any number of codecs on bytes. Otherwise the first codec out of place is
reported. The chain has the codecs of the list, with one in the middle supplied if there was none.
-/

namespace ChunkedArray

/-! ### The order of codecs -/

namespace CodecChain

/-- Any number of transpositions, at most one codec from arrays to bytes, and any number of codecs on
bytes, in this order. -/
def InOrder (codecs : List Codec) : Prop :=
  ∃ front middle back : Nat, middle ≤ 1 ∧ codecs.map Codec.kind =
    List.replicate front .arrayToArray ++ List.replicate middle .arrayToBytes ++
      List.replicate back .bytesToBytes

/-- The error of a codec that is out of place after others. -/
def misplaced (before : List Codec) (c : Codec) : CodecConfigError :=
  if .arrayToBytes ∈ before.map Codec.kind then
    if c.kind = .arrayToBytes then .multipleArrayToBytes else .illegalOrder c.kind .arrayToBytes
  else .illegalOrder c.kind .bytesToBytes

/-- The codecs before one are in order and with it they are not, for this reason. -/
def FirstMisplaced (codecs : List Codec) (e : CodecConfigError) : Prop :=
  ∃ before c after, codecs = before ++ c :: after ∧ InOrder before ∧ ¬ InOrder (before ++ [c]) ∧
    e = misplaced before c

namespace Partial

variable {p p' : Partial} {c : Codec} {codecs : List Codec} {e : CodecConfigError}

/-- The codecs that were added, in this order. -/
def added (p : Partial) : List Codec :=
  p.transposes.map .transpose ++ p.elementBytes.toList.map .elementBytes ++ p.onBytes.map .onBytes

theorem kind_eq_arrayToArray_iff (c : Codec) : c.kind = .arrayToArray ↔ ∃ x, .transpose x = c := by
  cases c <;> simp [Codec.kind]

theorem kind_eq_arrayToBytes_iff (c : Codec) : c.kind = .arrayToBytes ↔ ∃ x, .elementBytes x = c := by
  cases c <;> simp [Codec.kind]

theorem kind_eq_bytesToBytes_iff (c : Codec) : c.kind = .bytesToBytes ↔ ∃ x, .onBytes x = c := by
  cases c <;> simp [Codec.kind]

theorem map_kind_eq_replicate_iff {α : Type} {f : α → Codec} {kind : CodecKind}
    (hf : ∀ c : Codec, c.kind = kind ↔ ∃ x, f x = c) {n : Nat} :
    codecs.map Codec.kind = List.replicate n kind ↔ ∃ xs, xs.length = n ∧ List.map f xs = codecs := by
  constructor
  · intro hkinds
    have hrange : codecs ∈ Set.range (List.map f) := by
      rw [Set.range_list_map]
      exact fun c hc => (hf c).1 (List.eq_of_mem_replicate (hkinds ▸ List.mem_map_of_mem hc))
    obtain ⟨xs, rfl⟩ := hrange
    refine ⟨xs, ?_, rfl⟩
    simpa only [List.length_map, List.length_replicate] using congrArg List.length hkinds
  · rintro ⟨xs, rfl, rfl⟩
    rw [List.map_map]
    exact List.map_eq_replicate_iff.2 fun x _ => (hf _).2 ⟨x, rfl⟩

/-- Codecs in order are those of a partial chain. -/
theorem inOrder_iff_exists_added : InOrder codecs ↔ ∃ p : Partial, p.added = codecs := by
  constructor
  · rintro ⟨front, middle, back, hmiddle, hkinds⟩
    obtain ⟨upper, onBytes, rfl, hupper, honBytes⟩ := List.map_eq_append_iff.1 hkinds
    obtain ⟨transposes, elements, rfl, htransposes, helements⟩ := List.map_eq_append_iff.1 hupper
    obtain ⟨ts, -, rfl⟩ := (map_kind_eq_replicate_iff kind_eq_arrayToArray_iff).1 htransposes
    obtain ⟨es, rfl, rfl⟩ := (map_kind_eq_replicate_iff kind_eq_arrayToBytes_iff).1 helements
    obtain ⟨bs, -, rfl⟩ := (map_kind_eq_replicate_iff kind_eq_bytesToBytes_iff).1 honBytes
    cases es with
    | nil => exact ⟨⟨ts, none, bs⟩, rfl⟩
    | cons c es =>
      rw [List.length_cons] at hmiddle
      obtain rfl : es = [] := List.eq_nil_of_length_eq_zero (by omega)
      exact ⟨⟨ts, some c, bs⟩, rfl⟩
  · rintro ⟨p, rfl⟩
    refine ⟨p.transposes.length, p.elementBytes.toList.length, p.onBytes.length, ?_, ?_⟩
    · cases p.elementBytes <;> simp
    · rw [added, List.map_append, List.map_append,
        (map_kind_eq_replicate_iff kind_eq_arrayToArray_iff).2 ⟨_, rfl, rfl⟩,
        (map_kind_eq_replicate_iff kind_eq_arrayToBytes_iff).2 ⟨_, rfl, rfl⟩,
        (map_kind_eq_replicate_iff kind_eq_bytesToBytes_iff).2 ⟨_, rfl, rfl⟩]

/-! ### Adding codecs -/

theorem arrayToBytes_mem_added : .arrayToBytes ∈ p.added.map Codec.kind ↔
    p.elementBytes.isSome = true := by
  cases hmiddle : p.elementBytes <;> simp [added, hmiddle, Codec.kind]

/-- Adding a codec puts it last, or reports that it is out of place. -/
theorem add_cases (p : Partial) (c : Codec) :
    (∃ p', p.add c = .ok p' ∧ p'.added = p.added ++ [c]) ∨
      p.add c = .error (misplaced p.added c) := by
  rw [misplaced, if_congr arrayToBytes_mem_added rfl rfl]
  obtain ⟨ts, middle, bs⟩ := p
  cases c with
  | onBytes c => exact .inl ⟨_, rfl, by simp [added]⟩
  | transpose c =>
    cases middle with
    | some d => exact .inr rfl
    | none =>
      cases bs with
      | nil => exact .inl ⟨_, rfl, by simp [added]⟩
      | cons d bs => exact .inr rfl
  | elementBytes c =>
    cases middle with
    | some d => exact .inr rfl
    | none =>
      cases bs with
      | nil => exact .inl ⟨_, rfl, by simp [added]⟩
      | cons d bs => exact .inr rfl

theorem added_of_foldlM (h : codecs.foldlM add p = .ok p') : p'.added = p.added ++ codecs := by
  induction codecs generalizing p with
  | nil =>
    obtain rfl := Except.ok.inj h
    rw [List.append_nil]
  | cons c codecs ih =>
    rw [List.foldlM_cons] at h
    obtain ⟨q, hq, hrest⟩ := Outcome.bind_eq_ok_iff.1 h
    obtain ⟨q', hq', hadded⟩ | herror := p.add_cases c
    · obtain rfl := Except.ok.inj (hq'.symm.trans hq)
      rw [ih hrest, hadded, List.append_assoc]
      rfl
    · rw [herror] at hq
      cases hq

theorem foldlM_add_transposes (l before : List Transpose) :
    (l.map Codec.transpose).foldlM add ⟨before, none, []⟩ =
      .ok ⟨before ++ l, none, []⟩ := by
  induction l generalizing before with
  | nil => rw [List.append_nil]; rfl
  | cons c l ih =>
    rw [List.map_cons, List.foldlM_cons]
    exact (ih (before ++ [c])).trans (by rw [List.append_assoc]; rfl)

theorem foldlM_add_onBytes (ts : List Transpose) (e : Option ElementBytes)
    (l before : List ByteCodec) :
    (l.map Codec.onBytes).foldlM add ⟨ts, e, before⟩ = .ok ⟨ts, e, before ++ l⟩ := by
  induction l generalizing before with
  | nil => rw [List.append_nil]; rfl
  | cons c l ih =>
    rw [List.map_cons, List.foldlM_cons]
    exact (ih (before ++ [c])).trans (by rw [List.append_assoc]; rfl)

/-- A partial chain is made of the codecs that it has. -/
theorem foldlM_added (p : Partial) : p.added.foldlM add ⟨[], none, []⟩ = .ok p := by
  obtain ⟨ts, middle, bs⟩ := p
  have hmiddle : (middle.toList.map Codec.elementBytes).foldlM add ⟨ts, none, []⟩ =
      .ok ⟨ts, middle, []⟩ := by cases middle <;> rfl
  rw [added, List.foldlM_append, List.foldlM_append, foldlM_add_transposes, Outcome.ok_bind,
    List.nil_append, hmiddle, Outcome.ok_bind, foldlM_add_onBytes]
  rfl

theorem foldlM_add_eq_ok_iff : codecs.foldlM add ⟨[], none, []⟩ = .ok p ↔ p.added = codecs := by
  constructor
  · exact added_of_foldlM
  · rintro rfl
    exact p.foldlM_added

theorem exists_foldlM_add_iff :
    (∃ p, codecs.foldlM add ⟨[], none, []⟩ = .ok p) ↔ InOrder codecs := by
  simp only [foldlM_add_eq_ok_iff, inOrder_iff_exists_added]

theorem foldlM_add_eq_error_iff :
    codecs.foldlM add ⟨[], none, []⟩ = .error e ↔ FirstMisplaced codecs e := by
  rw [Outcome.foldlM_eq_error_iff]
  have hlast {before : List Codec} {q : Partial}
      (hq : before.foldlM add ⟨[], none, []⟩ = .ok q) (c : Codec) :
      (before ++ [c]).foldlM add ⟨[], none, []⟩ = q.add c := by
    rw [List.foldlM_append, hq, Outcome.ok_bind, List.foldlM_cons]
    cases q.add c <;> rfl
  constructor
  · rintro ⟨before, c, after, q, rfl, hq, hc⟩
    refine ⟨before, c, after, rfl, exists_foldlM_add_iff.1 ⟨q, hq⟩, fun horder => ?_, ?_⟩
    · obtain ⟨p, hp⟩ := exists_foldlM_add_iff.2 horder
      rw [hlast hq, hc] at hp
      cases hp
    · obtain ⟨_, hok, -⟩ | herror := q.add_cases c
      · rw [hok] at hc
        cases hc
      · rw [herror, foldlM_add_eq_ok_iff.1 hq] at hc
        exact (Except.error.inj hc).symm
  · rintro ⟨before, c, after, rfl, hbefore, hbad, rfl⟩
    obtain ⟨q, hq⟩ := exists_foldlM_add_iff.2 hbefore
    refine ⟨before, c, after, q, rfl, hq, ?_⟩
    obtain ⟨q', hok, -⟩ | herror := q.add_cases c
    · exact absurd (exists_foldlM_add_iff.1 ⟨q', (hlast hq c).trans hok⟩) hbad
    · rw [herror, foldlM_add_eq_ok_iff.1 hq]

end Partial

theorem ofCodecs_eq_ok_iff {codecs : List Codec} {chain : CodecChain} :
    ofCodecs codecs = .ok chain ↔ ∃ p : Partial, p.added = codecs ∧
      chain = ⟨p.transposes, p.elementBytes.getD ⟨some .little⟩, p.onBytes⟩ := by
  rw [ofCodecs, Outcome.bind_eq_ok_iff]
  refine exists_congr fun p => and_congr Partial.foldlM_add_eq_ok_iff ?_
  exact ⟨fun h => (Except.ok.inj h).symm, fun h => congrArg Except.ok h.symm⟩

theorem exists_ofCodecs_iff {codecs : List Codec} :
    (∃ chain, ofCodecs codecs = .ok chain) ↔ InOrder codecs := by
  simp only [ofCodecs_eq_ok_iff, Partial.inOrder_iff_exists_added]
  constructor
  · rintro ⟨_, p, hp, -⟩
    exact ⟨p, hp⟩
  · rintro ⟨p, hp⟩
    exact ⟨_, p, hp, rfl⟩

theorem ofCodecs_eq_error_iff {codecs : List Codec} {e : CodecConfigError} :
    ofCodecs codecs = .error e ↔ FirstMisplaced codecs e := by
  rw [ofCodecs, Outcome.bind_eq_error_iff, Partial.foldlM_add_eq_error_iff]
  refine or_iff_left ?_
  rintro ⟨_, -, hpure⟩
  cases hpure

theorem ofCodecs_toCodecs (chain : CodecChain) : ofCodecs chain.toCodecs = .ok chain :=
  ofCodecs_eq_ok_iff.2 ⟨⟨chain.transposes, some chain.elementBytes, chain.onBytes⟩, rfl, rfl⟩

/-- A chain has no other codecs than those it is made of and the one that may be supplied. -/
theorem of_mem_toCodecs {codecs : List Codec} {chain : CodecChain} (h : ofCodecs codecs = .ok chain)
    {c : Codec} (hc : c ∈ chain.toCodecs) : c ∈ codecs ∨ c = .elementBytes .default := by
  obtain ⟨p, rfl, rfl⟩ := ofCodecs_eq_ok_iff.1 h
  simp only [toCodecs, Partial.added, List.mem_append, List.mem_singleton] at hc ⊢
  rcases hc with (hc | rfl) | hc
  · exact .inl (.inl (.inl hc))
  · cases p.elementBytes with
    | none => exact .inr rfl
    | some d => exact .inl (.inl (.inr (List.mem_singleton_self _)))
  · exact .inl (.inr hc)

end CodecChain

end ChunkedArray
