import ChunkedArray.Json.Record
import Mathlib.Data.String.Basic

/-!
# Values and the documents written from them

In a canonical value the members of every object are in increasing order of their names. Values that
are read from documents are canonical, and the document that is written from a canonical value has
that value.
-/

namespace ChunkedArray

namespace Json

/-! ### Sorted members -/

section

variable {α : Type} {name : String} {value : α} {members : List (String × α)}

def SortedMembers (members : List (String × α)) : Prop := members.Pairwise fun m n => m.1 < n.1

theorem insertMember_of_lt (value : α) (h : ∀ m ∈ members, m.1 < name) :
    insertMember name value members = members ++ [(name, value)] := by
  induction members with
  | nil => rfl
  | cons m members ih =>
    rw [List.forall_mem_cons] at h
    rw [insertMember, if_neg (lt_asymm h.1), if_neg h.1.ne', ih h.2]
    rfl

/-- Sorted members are put one after the other, each at the end. -/
theorem sortMembers_of_sorted (h : SortedMembers members) : sortMembers members = members := by
  have hfold : ∀ done : List (String × α), (∀ m ∈ done, ∀ n ∈ members, m.1 < n.1) →
      members.foldl (fun sorted m => insertMember m.1 m.2 sorted) done = done ++ members := by
    induction members with
    | nil => exact fun done _ => (List.append_nil done).symm
    | cons m members ih =>
      intro done hdone
      obtain ⟨hfirst, hrest⟩ := List.pairwise_cons.1 h
      have hinsert := insertMember_of_lt m.2 fun n hn => hdone n hn m List.mem_cons_self
      rw [List.foldl_cons, hinsert, ih hrest, List.append_assoc]
      · rfl
      · intro n hn k hk
        rcases List.mem_append.1 hn with hn | hn
        · exact hdone n hn k (List.mem_cons_of_mem _ hk)
        · rw [List.mem_singleton.1 hn]
          exact hfirst k hk
  exact hfold [] fun m hm => by cases hm

theorem forall_insertMember {p : String × α → Prop} (hnew : p (name, value))
    (h : ∀ m ∈ members, p m) : ∀ m ∈ insertMember name value members, p m := by
  induction members with
  | nil => exact List.forall_mem_cons.2 ⟨hnew, h⟩
  | cons m members ih =>
    rw [List.forall_mem_cons] at h
    rw [insertMember]
    split
    · exact List.forall_mem_cons.2 ⟨hnew, List.forall_mem_cons.2 h⟩
    · split
      · exact List.forall_mem_cons.2 ⟨hnew, h.2⟩
      · exact List.forall_mem_cons.2 ⟨h.1, ih h.2⟩

theorem SortedMembers.insertMember (h : SortedMembers members) (name : String) (value : α) :
    SortedMembers (insertMember name value members) := by
  induction members with
  | nil => exact List.pairwise_singleton _ _
  | cons m members ih =>
    obtain ⟨hfirst, hrest⟩ := List.pairwise_cons.1 h
    rw [Json.insertMember]
    split
    · next hlt =>
      refine List.pairwise_cons.2 ⟨List.forall_mem_cons.2 ⟨hlt, fun n hn => ?_⟩, h⟩
      exact hlt.trans (hfirst n hn)
    · next hle =>
      split
      · next he => exact List.pairwise_cons.2 ⟨fun n hn => he ▸ hfirst n hn, hrest⟩
      · next hne =>
        have hlt : m.1 < name := lt_of_le_of_ne (not_lt.1 hle) (Ne.symm hne)
        exact List.pairwise_cons.2 ⟨forall_insertMember hlt hfirst, ih hrest⟩

end

/-! ### Canonical values -/

mutual

/-- All objects have sorted members. -/
def Canonical : Json → Prop
  | .arr items => CanonicalItems items
  | .obj members => SortedMembers members ∧ CanonicalMembers members
  | _ => True

def CanonicalItems : List Json → Prop
  | [] => True
  | x :: rest => Canonical x ∧ CanonicalItems rest

def CanonicalMembers : List (String × Json) → Prop
  | [] => True
  | (_, x) :: rest => Canonical x ∧ CanonicalMembers rest

end

theorem canonicalMembers_iff {members : List (String × Json)} :
    CanonicalMembers members ↔ ∀ m ∈ members, Canonical m.2 := by
  induction members with
  | nil => simp [CanonicalMembers]
  | cons m members ih => rw [CanonicalMembers, ih, List.forall_mem_cons]

theorem canonical_ofMembers {members : List (String × Json)} (h : CanonicalMembers members) :
    Canonical (ofMembers members) := by
  have hfold : ∀ done : List (String × Json), SortedMembers done ∧ CanonicalMembers done →
      SortedMembers (members.foldl (fun sorted m => insertMember m.1 m.2 sorted) done) ∧
        CanonicalMembers (members.foldl (fun sorted m => insertMember m.1 m.2 sorted) done) := by
    induction members with
    | nil => exact fun done hdone => hdone
    | cons m members ih =>
      intro done hdone
      rw [CanonicalMembers] at h
      refine ih h.2 _ ⟨hdone.1.insertMember m.1 m.2, ?_⟩
      exact canonicalMembers_iff.2 (forall_insertMember h.1 (canonicalMembers_iff.1 hdone.2))
  exact hfold [] ⟨List.Pairwise.nil, trivial⟩

end Json

namespace RawJson

mutual

theorem canonical_of_value? {x : RawJson} {v : Json} (h : x.value? = some v) : v.Canonical := by
  match x with
  | .null | .bool _ | .int _ | .float _ | .str _ =>
    obtain rfl := Option.some.inj h
    trivial
  | .arr items =>
    obtain ⟨values, hvalues, rfl⟩ := Option.map_eq_some_iff.1 h
    exact canonical_of_items? hvalues
  | .obj members =>
    obtain ⟨values, hvalues, rfl⟩ := Option.map_eq_some_iff.1 h
    exact Json.canonical_ofMembers (canonical_of_members? hvalues)
  | .unreadable => cases h

theorem canonical_of_items? {items : List RawJson} {values : List Json}
    (h : items? items = some values) : Json.CanonicalItems values := by
  match items with
  | [] =>
    obtain rfl := Option.some.inj h
    trivial
  | x :: rest =>
    simp only [items?, Option.bind_eq_bind, Option.bind_eq_some_iff, Option.pure_def,
      Option.some.injEq] at h
    obtain ⟨v, hv, vs, hvs, rfl⟩ := h
    exact ⟨canonical_of_value? hv, canonical_of_items? hvs⟩

theorem canonical_of_members? {members : List (String × RawJson)} {values : List (String × Json)}
    (h : members? members = some values) : Json.CanonicalMembers values := by
  match members with
  | [] =>
    obtain rfl := Option.some.inj h
    trivial
  | (name, x) :: rest =>
    simp only [members?, Option.bind_eq_bind, Option.bind_eq_some_iff, Option.pure_def,
      Option.some.injEq] at h
    obtain ⟨v, hv, vs, hvs, rfl⟩ := h
    exact ⟨canonical_of_value? hv, canonical_of_members? hvs⟩

end

end RawJson

namespace Json

mutual

theorem value?_toRaw {v : Json} (h : v.Canonical) : v.toRaw.value? = some v := by
  match v with
  | .null | .bool _ | .int _ | .float _ | .str _ => rfl
  | .arr items =>
    rw [toRaw, RawJson.value?, items?_toRawItems h]
    rfl
  | .obj members =>
    rw [toRaw, RawJson.value?, members?_toRawMembers h.2]
    exact congrArg (some ∘ Json.obj) (sortMembers_of_sorted h.1)

theorem items?_toRawItems {items : List Json} (h : CanonicalItems items) :
    RawJson.items? (toRawItems items) = some items := by
  match items with
  | [] => rfl
  | x :: rest =>
    rw [toRawItems, RawJson.items?, value?_toRaw h.1, items?_toRawItems h.2]
    rfl

theorem members?_toRawMembers {members : List (String × Json)} (h : CanonicalMembers members) :
    RawJson.members? (toRawMembers members) = some members := by
  match members with
  | [] => rfl
  | (name, x) :: rest =>
    rw [toRawMembers, RawJson.members?, value?_toRaw h.1, members?_toRawMembers h.2]
    rfl

end

end Json

end ChunkedArray
