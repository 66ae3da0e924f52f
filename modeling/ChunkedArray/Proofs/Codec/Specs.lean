import ChunkedArray.Codec.Registry
import ChunkedArray.Proofs.Codec.Assembly
import ChunkedArray.Proofs.Metadata.Documents

/-!
# Built-in codecs and their entries

The default registry builds each of its codecs again from the entry that the codec writes into the
metadata, so also a whole chain, with the codec in the middle that may have been supplied. What it
makes of a list of entries is told by the first entry that it cannot resolve and by the order of the
kinds of codecs.
-/

namespace ChunkedArray

namespace Codec

/-- The default registry may have built the codec. -/
inductive BuiltIn : Codec → Prop where
  | transpose {c : Transpose} (hwords : ∀ n ∈ c.order, n < wordLimit) (hvalid : c.validate = .ok ()) :
    BuiltIn (.transpose c)
  | elementBytes (c : ElementBytes) : BuiltIn (.elementBytes c)
  | crc32c : BuiltIn (.onBytes .crc32c)
  | gzip (level : GzipLevel) : BuiltIn (.onBytes (.gzip level))

end Codec

/-! ### Configurations -/

theorem Json.toRaw_ofNats (l : List Nat) : (Json.ofNats l).toRaw = RawJson.ofNats l := by
  have hitems : Json.toRawItems (l.map fun (n : Nat) => Json.int n) =
      l.map fun (n : Nat) => RawJson.int n := by
    induction l with
    | nil => rfl
    | cons n l ih => exact congrArg (List.cons _) ih
  exact congrArg RawJson.arr hitems

theorem Json.canonical_ofNats (l : List Nat) : (Json.ofNats l).Canonical := by
  show Json.CanonicalItems (l.map fun (n : Nat) => Json.int n)
  induction l with
  | nil => trivial
  | cons n l ih => exact ⟨trivial, ih⟩

theorem Transpose.configure_spec {c : Transpose} (h : ∀ n ∈ c.order, n < wordLimit) :
    CodecSpec.configure c.spec.configuration ofRaw? = some c := by
  have hraw : (c.spec.configuration.getD CodecSpec.noConfiguration).toRaw =
      .obj [("order", .ofNats c.order)] :=
    congrArg (fun x => RawJson.obj [("order", x)]) (Json.toRaw_ofNats c.order)
  have hfields : (RawJson.obj [("order", .ofNats c.order)]).fields? ["order"] =
      some [("order", .ofNats c.order)] := RawJson.fields?_obj (by simp) (by simp)
  simp [CodecSpec.configure, hraw, ofRaw?, hfields, RawJson.required, RawJson.words?_ofNats h]

theorem Transpose.lt_of_ofRaw? {x : RawJson} {c : Transpose} (h : ofRaw? x = some c) :
    ∀ n ∈ c.order, n < wordLimit := by
  simp only [ofRaw?, Option.bind_eq_bind, Option.bind_eq_some_iff, Option.pure_def,
    Option.some.injEq, RawJson.required] at h
  obtain ⟨fields, -, order, ⟨_, -, horder⟩, rfl⟩ := h
  exact RawJson.lt_of_mem_words horder

theorem ElementBytes.configure_spec (c : ElementBytes) :
    CodecSpec.configure c.spec.configuration ofRaw? = some c := by
  obtain ⟨endian⟩ := c
  cases endian with
  | none => rfl
  | some e => cases e <;> rfl

theorem ByteCodec.configure_gzip (level : GzipLevel) :
    CodecSpec.configure (gzip level).spec.configuration gzipOfRaw? = some (gzip level) := by
  have hraw : ((gzip level).spec.configuration.getD CodecSpec.noConfiguration).toRaw =
      .obj [("level", .int level.val)] := rfl
  have hfields : (RawJson.obj [("level", .int level.val)]).fields? ["level"] =
      some [("level", .int level.val)] := RawJson.fields?_obj (by simp) (by simp)
  have hnat : (RawJson.int level.val).nat? 0x100000000 = some level.val :=
    RawJson.nat?_int (Nat.lt_trans level.isLt (by decide))
  simp [CodecSpec.configure, hraw, gzipOfRaw?, hfields, RawJson.defaulted, hnat, GzipLevel.ofNat,
    level.isLt, Except.toOption]

/-! ### Single codecs -/

namespace CodecRegistry

open Codec

theorem builders_default : default.builders =
    [("bytes", buildElementBytes), ("crc32c", byteCodecBuilder "crc32c" ByteCodec.crc32cOfRaw?),
      ("gzip", byteCodecBuilder "gzip" ByteCodec.gzipOfRaw?), ("transpose", buildTranspose)] := rfl

/-- What the default registry builds has the name of its entry. -/
theorem built_of_resolve {spec : CodecSpec} {c : Codec} (h : default.resolve spec = .ok c) :
    BuiltIn c ∧ c.spec.name = spec.name := by
  have hbuild : ∃ build, (spec.name, build) ∈ default.builders ∧
      build spec.configuration = .ok c := by
    unfold resolve at h
    split at h
    · next build hlookup =>
      obtain ⟨before, after, he, -⟩ := List.lookup_eq_some_iff.1 hlookup
      exact ⟨build, by simp [he], h⟩
    · cases h
  obtain ⟨build, hmem, hbuild⟩ := hbuild
  simp only [builders_default, List.mem_cons, List.not_mem_nil, or_false, Prod.mk.injEq] at hmem
  rcases hmem with ⟨hname, rfl⟩ | ⟨hname, rfl⟩ | ⟨hname, rfl⟩ | ⟨hname, rfl⟩
  · unfold buildElementBytes at hbuild
    split at hbuild
    · obtain rfl := Except.ok.inj hbuild
      exact ⟨.elementBytes _, hname.symm⟩
    · cases hbuild
  · unfold byteCodecBuilder at hbuild
    split at hbuild
    · next hread =>
      obtain ⟨_, -, rfl⟩ := Option.map_eq_some_iff.1 hread
      obtain rfl := Except.ok.inj hbuild
      exact ⟨.crc32c, hname.symm⟩
    · cases hbuild
  · unfold byteCodecBuilder at hbuild
    split at hbuild
    · next hread =>
      simp only [CodecSpec.configure, ByteCodec.gzipOfRaw?, Option.bind_eq_bind,
        Option.bind_eq_some_iff, Option.pure_def, Option.some.injEq] at hread
      obtain ⟨_, -, level, -, rfl⟩ := hread
      obtain rfl := Except.ok.inj hbuild
      exact ⟨.gzip level, hname.symm⟩
    · cases hbuild
  · unfold buildTranspose at hbuild
    split at hbuild
    · next found hread =>
      have hwords := Transpose.lt_of_ofRaw? hread
      cases hvalid : found.validate with
      | error e => rw [hvalid] at hbuild; cases hbuild
      | ok _ =>
        rw [hvalid] at hbuild
        obtain rfl := Except.ok.inj hbuild
        exact ⟨.transpose hwords hvalid, hname.symm⟩
    · cases hbuild

theorem resolve_spec {c : Codec} (h : BuiltIn c) : default.resolve c.spec = .ok c := by
  cases h with
  | transpose hwords hvalid =>
    next c =>
    have hlookup : default.builders.lookup c.spec.name = some buildTranspose := rfl
    simp only [resolve, Codec.spec, hlookup, buildTranspose, Transpose.configure_spec hwords, hvalid]
    rfl
  | elementBytes c =>
    have hlookup : default.builders.lookup c.spec.name = some buildElementBytes := rfl
    simp only [resolve, Codec.spec, hlookup, buildElementBytes, ElementBytes.configure_spec]
  | crc32c => rfl
  | gzip level =>
    have hlookup : default.builders.lookup (ByteCodec.gzip level).spec.name =
      some (byteCodecBuilder "gzip" ByteCodec.gzipOfRaw?) := rfl
    simp only [resolve, Codec.spec, hlookup, byteCodecBuilder, ByteCodec.configure_gzip]

/-! ### Lists of entries -/

variable {specs : List CodecSpec} {e : CodecConfigError}

/-- The codecs that a registry builds of entries. -/
def Builds (r : CodecRegistry) (specs : List CodecSpec) (codecs : List Codec) : Prop :=
  List.Forall₂ (fun spec c => r.resolve spec = .ok c) specs codecs

/-- The entries before one can be built and it cannot, for this reason. -/
def FirstUnresolved (r : CodecRegistry) (specs : List CodecSpec) (e : CodecConfigError) : Prop :=
  ∃ before spec after, specs = before ++ spec :: after ∧
    (∀ s ∈ before, ∃ c, r.resolve s = .ok c) ∧ r.resolve spec = .error e

/-- A codec has the name of the entry of which the default registry built it. -/
theorem Builds.map_name {codecs : List Codec} (h : default.Builds specs codecs) :
    codecs.map (·.spec.name) = specs.map CodecSpec.name := by
  induction h with
  | nil => rfl
  | cons hspec _ ih => rw [List.map_cons, List.map_cons, ih, (built_of_resolve hspec).2]

theorem resolveChain_eq_ok_iff {r : CodecRegistry} {chain : CodecChain} :
    r.resolveChain specs = .ok chain ↔
      ∃ codecs, r.Builds specs codecs ∧ CodecChain.ofCodecs codecs = .ok chain := by
  rw [resolveChain, Outcome.bind_eq_ok_iff]
  exact exists_congr fun codecs => and_congr_left fun _ => Outcome.mapM_eq_ok_iff

theorem resolveChain_eq_error_iff {r : CodecRegistry} :
    r.resolveChain specs = .error e ↔ r.FirstUnresolved specs e ∨
      ∃ codecs, r.Builds specs codecs ∧ CodecChain.FirstMisplaced codecs e := by
  rw [resolveChain, Outcome.bind_eq_error_iff, Outcome.mapM_eq_error_iff]
  refine or_congr .rfl (exists_congr fun codecs => and_congr Outcome.mapM_eq_ok_iff ?_)
  exact CodecChain.ofCodecs_eq_error_iff

theorem builtIn_of_resolveChain {chain : CodecChain}
    (h : default.resolveChain specs = .ok chain) : ∀ c ∈ chain.toCodecs, BuiltIn c := by
  intro c hc
  obtain ⟨codecs, hcodecs, hchain⟩ := Outcome.bind_eq_ok_iff.1 h
  obtain hc | rfl := CodecChain.of_mem_toCodecs hchain hc
  · obtain ⟨spec, -, hspec⟩ := Outcome.exists_of_mem_mapM hcodecs hc
    exact (built_of_resolve hspec).1
  · exact .elementBytes _

/-- The default registry gives back a chain of built-in codecs from their entries. -/
theorem resolveChain_specs_of_builtIn {chain : CodecChain} (h : ∀ c ∈ chain.toCodecs, BuiltIn c) :
    default.resolveChain chain.specs = .ok chain := by
  have hcodecs : chain.specs.mapM default.resolve = .ok chain.toCodecs :=
    Outcome.mapM_map_eq_ok fun c hc => resolve_spec (h c hc)
  rw [resolveChain, hcodecs, Outcome.ok_bind, CodecChain.ofCodecs_toCodecs]

theorem resolveChain_specs {chain : CodecChain} (h : default.resolveChain specs = .ok chain) :
    default.resolveChain chain.specs = .ok chain :=
  resolveChain_specs_of_builtIn (builtIn_of_resolveChain h)

/-- The entries of built-in codecs can be told apart from entries without a configuration. -/
theorem representable_specs {chain : CodecChain}
    (h : default.resolveChain specs = .ok chain) : ∀ spec ∈ chain.specs, spec.Representable := by
  intro spec hspec
  obtain ⟨c, hc, rfl⟩ := List.mem_map.1 hspec
  cases builtIn_of_resolveChain h c hc with
  | transpose hwords hvalid =>
    rintro _ ⟨⟩
    exact ⟨⟨List.pairwise_singleton _ _, Json.canonical_ofNats _, trivial⟩, nofun⟩
  | elementBytes c =>
    obtain ⟨endian⟩ := c
    rintro _ ⟨⟩
    cases endian with
    | none => exact ⟨⟨List.Pairwise.nil, trivial⟩, nofun⟩
    | some e => exact ⟨⟨List.pairwise_singleton _ _, trivial, trivial⟩, nofun⟩
  | crc32c => exact nofun
  | gzip level =>
    rintro _ ⟨⟩
    exact ⟨⟨List.pairwise_singleton _ _, trivial, trivial⟩, nofun⟩

/-- What the default registry makes of a list of entries. -/
structure AssemblesInOrder (specs : List CodecSpec) : Prop where
  ok_iff : (∃ chain, default.resolveChain specs = .ok chain) ↔
    ∃ codecs, default.Builds specs codecs ∧ CodecChain.InOrder codecs
  error_iff : ∀ e, default.resolveChain specs = .error e ↔ default.FirstUnresolved specs e ∨
    ∃ codecs, default.Builds specs codecs ∧ CodecChain.FirstMisplaced codecs e
  /-- The chain has the codecs of the entries, and one in the middle if there was none. -/
  specs_eq : ∀ chain, default.resolveChain specs = .ok chain →
    ∃ (front : List Transpose) (middle : Option ElementBytes) (back : List ByteCodec),
      let codecs := front.map .transpose ++ middle.toList.map .elementBytes ++ back.map .onBytes
      default.Builds specs codecs ∧ codecs.map (·.spec.name) = specs.map CodecSpec.name ∧
        chain.specs = front.map Transpose.spec ++ [(middle.getD ⟨some .little⟩).spec] ++
          back.map ByteCodec.spec
  resolveChain_specs : ∀ chain, default.resolveChain specs = .ok chain →
    default.resolveChain chain.specs = .ok chain

theorem assemblesInOrder (specs : List CodecSpec) : AssemblesInOrder specs := by
  constructor
  · simp only [resolveChain_eq_ok_iff, ← CodecChain.exists_ofCodecs_iff]
    constructor
    · rintro ⟨chain, codecs, hbuilds, hchain⟩
      exact ⟨codecs, hbuilds, chain, hchain⟩
    · rintro ⟨codecs, hbuilds, chain, hchain⟩
      exact ⟨chain, codecs, hbuilds, hchain⟩
  · exact fun e => resolveChain_eq_error_iff
  · intro chain hchain
    obtain ⟨_, hbuilds, hcodecs⟩ := resolveChain_eq_ok_iff.1 hchain
    obtain ⟨p, rfl, rfl⟩ := CodecChain.ofCodecs_eq_ok_iff.1 hcodecs
    refine ⟨p.transposes, p.elementBytes, p.onBytes, hbuilds, hbuilds.map_name, ?_⟩
    simp only [CodecChain.specs, CodecChain.toCodecs, List.map_append, List.map_map, List.map_cons,
      List.map_nil]
    rfl
  · exact fun chain hchain => resolveChain_specs hchain

end CodecRegistry

end ChunkedArray
