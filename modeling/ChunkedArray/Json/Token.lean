import ChunkedArray.Bytes
import ChunkedArray.Json.Basic
import ChunkedArray.Float.Text

/-!
# JSON tokens

The characters of a document are grouped into tokens: punctuation, words, strings and numbers.
Strings are cut at the quote that closes them and then decoded; numbers extend as far as characters
of numbers do and are then read as a whole. A document may hold bytes that belong to no character:
these may stand in a string, which then has no value, and nowhere else.
-/

namespace ChunkedArray

namespace Json

/-- The characters of a document; `none` is a byte that belongs to no character. -/
abbrev Source := List (Option Char)

namespace Source

def ofText (s : String) : Source := s.toList.map some

def ofBytes : Bytes → Source
  | [] => []
  | b :: bs =>
    match (ByteArray.mk (b :: bs.take 3).toArray).utf8DecodeChar? 0 with
    | some c => some c :: ofBytes (bs.drop (c.utf8Size - 1))
    | none => none :: ofBytes bs
termination_by bs => bs.length

/-- The characters at the beginning that are of a class, and what follows them. -/
def span (p : Char → Bool) : Source → List Char × Source
  | some c :: rest =>
    if p c then
      let (cs, rest) := span p rest
      (c :: cs, rest)
    else ([], some c :: rest)
  | rest => ([], rest)

theorem length_span_le (p : Char → Bool) (cs : Source) : (span p cs).2.length ≤ cs.length := by
  fun_induction span p cs with
  | case1 c rest _ cs' rest' h ih =>
    rw [h] at ih
    exact Nat.le_succ_of_le ih
  | case2 => exact Nat.le_refl _
  | case3 => exact Nat.le_refl _

end Source

inductive Token where
  | openArray
  | closeArray
  | openObject
  | closeObject
  | comma
  | colon
  /-- A string; `none` if it holds half of a surrogate pair or a byte of no character. -/
  | str (s : Option String)
  /-- A number or a word. -/
  | scalar (x : RawJson)

/-! ### Strings -/

/-- Splits at the first quote that no backslash escapes. Control characters are refused. -/
def splitString : Source → Option (Source × Source)
  | [] => none
  | some '"' :: rest => some ([], rest)
  | some '\\' :: c :: rest =>
    (splitString rest).map fun (body, rest) => (some '\\' :: c :: body, rest)
  | c :: rest =>
    if c.any (·.toNat < 32) then none
    else (splitString rest).map fun (body, rest) => (c :: body, rest)

theorem length_splitString {cs body rest : Source} (h : splitString cs = some (body, rest)) :
    rest.length < cs.length := by
  fun_induction splitString cs generalizing body with
  | case1 => simp at h
  | case2 r => simp at h; simp [h.2]
  | case3 c r ih =>
    obtain ⟨⟨b, t⟩, hb, he⟩ := Option.map_eq_some_iff.1 h
    obtain ⟨-, rfl⟩ := Prod.mk.inj he
    have := ih hb
    simp only [List.length_cons]; omega
  | case4 => simp at h
  | case5 c r _ _ _ ih =>
    obtain ⟨⟨b, t⟩, hb, he⟩ := Option.map_eq_some_iff.1 h
    obtain ⟨-, rfl⟩ := Prod.mk.inj he
    have := ih hb
    simp only [List.length_cons]; omega

def hexDigit? (c : Char) : Option Nat :=
  if '0' ≤ c ∧ c ≤ '9' then some (c.toNat - 48)
  else if 'a' ≤ c ∧ c ≤ 'f' then some (c.toNat - 87)
  else if 'A' ≤ c ∧ c ≤ 'F' then some (c.toNat - 55)
  else none

/-- The UTF-16 unit that four hexadecimal digits stand for. -/
def unit? (a b c d : Char) : Option Nat := do
  return (((← hexDigit? a) * 16 + (← hexDigit? b)) * 16 + (← hexDigit? c)) * 16 + (← hexDigit? d)

/-- What a one-letter escape stands for. -/
def escape? (c : Char) : Option Char :=
  if c = '"' ∨ c = '\\' ∨ c = '/' then some c
  else if c = 'b' then some '\x08'
  else if c = 'f' then some '\x0c'
  else if c = 'n' then some '\n'
  else if c = 'r' then some '\r'
  else if c = 't' then some '\t'
  else none

/-- The characters and units of a string body: `Sum.inr` is a unit written as an escape. -/
def stringUnits : Source → Option (List (Option Char ⊕ Nat))
  | [] => some []
  | some '\\' :: some 'u' :: some a :: some b :: some c :: some d :: rest => do
    return .inr (← unit? a b c d) :: (← stringUnits rest)
  | some '\\' :: some c :: rest => do return .inl (some (← escape? c)) :: (← stringUnits rest)
  | some '\\' :: _ => none
  | c :: rest => do return .inl c :: (← stringUnits rest)

def isLeading (unit : Nat) : Bool := 0xD800 ≤ unit && unit ≤ 0xDBFF

def isTrailing (unit : Nat) : Bool := 0xDC00 ≤ unit && unit ≤ 0xDFFF

/-- Joins surrogate pairs; `none` if half of a pair stands alone or a byte belongs to no
character. -/
def joinUnits : List (Option Char ⊕ Nat) → Option (List Char)
  | [] => some []
  | .inl c :: rest => do return (← c) :: (← joinUnits rest)
  | .inr u :: .inr v :: rest =>
    if isLeading u then
      if isTrailing v then
        (joinUnits rest).map (Char.ofNat (0x10000 + (u - 0xD800) * 0x400 + (v - 0xDC00)) :: ·)
      else none
    else if isTrailing u then none
    else (joinUnits (.inr v :: rest)).map (Char.ofNat u :: ·)
  | .inr u :: rest =>
    if isLeading u || isTrailing u then none
    else (joinUnits rest).map (Char.ofNat u :: ·)

/-- The string that a body stands for, if its escapes are well formed. -/
def decodeString (body : Source) : Option (Option String) :=
  (stringUnits body).map fun units => (joinUnits units).map String.ofList

/-! ### Numbers -/

def isDigit (c : Char) : Bool := '0' ≤ c && c ≤ '9'

def digitValues (cs : List Char) : List Nat := cs.map fun c => c.toNat - 48

/-- What follows the point of a number: at least one digit, or no point at all. -/
def splitFraction : List Char → Option (Option (List Char) × List Char)
  | '.' :: rest =>
    match rest.takeWhile isDigit with
    | [] => none
    | ds => some (some ds, rest.dropWhile isDigit)
  | rest => some (none, rest)

/-- A written exponent: its sign and its digits, at least one. -/
def splitExponent : List Char → Option (Option (Bool × List Char))
  | [] => some none
  | e :: rest =>
    if e = 'e' ∨ e = 'E' then
      let (negative, ds) := match rest with
        | '-' :: ds => (true, ds)
        | '+' :: ds => (false, ds)
        | ds => (false, ds)
      if ds ≠ [] ∧ ds.all isDigit then some (some (negative, ds)) else none
    else none

/-- The number written as a sign, integer digits, a fraction and an exponent. Without the last two
it is an integer if it fits 64 bits (with a sign: and is not zero); a float too large for a finite
binary64 magnitude has no value. -/
def numberValue (negative : Bool) (whole : List Char) (fraction : Option (List Char))
    (exponent : Option (Bool × List Char)) : RawJson :=
  let start := Scientific.readInteger ⟨0, 0⟩ (digitValues whole)
  let read := (fraction.map digitValues).elim start start.readFraction
  let scaled := exponent.elim (some read) fun (down, ds) => read.scale down (digitValues ds)
  let asFloat := match scaled.bind Scientific.magnitude with
    | some p => RawJson.float (FloatFormat.binary64.signed negative p)
    | none => .unreadable
  let integral := fraction.isNone && exponent.isNone && start.exponent == 0
  if integral && !negative then .int start.significand
  else if integral && 0 < start.significand && 2 * start.significand ≤ wordLimit then
    .int (-(start.significand : Int))
  else asFloat

/-- Reads a whole number token. A leading zero stands alone. -/
def number? (cs : List Char) : Option RawJson := do
  let (negative, cs) := match cs with
    | '-' :: rest => (true, rest)
    | cs => (false, cs)
  let whole := cs.takeWhile isDigit
  if whole = [] then none
  if whole.head? = some '0' ∧ whole ≠ ['0'] then none
  let (fraction, rest) ← splitFraction (cs.dropWhile isDigit)
  let exponent ← splitExponent rest
  return numberValue negative whole fraction exponent

/-! ### Tokens -/

def isBlank (c : Char) : Bool := c = ' ' || c = '\n' || c = '\t' || c = '\r'

def isWordChar (c : Char) : Bool := 'a' ≤ c && c ≤ 'z'

def isNumberChar (c : Char) : Bool :=
  isDigit c || c = '-' || c = '+' || c = '.' || c = 'e' || c = 'E'

def word? (cs : List Char) : Option RawJson :=
  if cs = ['t', 'r', 'u', 'e'] then some (.bool true)
  else if cs = ['f', 'a', 'l', 's', 'e'] then some (.bool false)
  else if cs = ['n', 'u', 'l', 'l'] then some .null
  else none

def punctuation? (c : Char) : Option Token :=
  if c = '[' then some .openArray
  else if c = ']' then some .closeArray
  else if c = '\x7b' then some .openObject
  else if c = '\x7d' then some .closeObject
  else if c = ',' then some .comma
  else if c = ':' then some .colon
  else none

def tokens? : Source → Option (List Token)
  | [] => some []
  | none :: _ => none
  | some c :: cs =>
    if isBlank c then tokens? cs
    else if c = '"' then
      match h : splitString cs with
      | none => none
      | some (body, rest) =>
        have := length_splitString h
        do return .str (← decodeString body) :: (← tokens? rest)
    else if isWordChar c then
      have := Source.length_span_le isWordChar cs
      do return .scalar (← word? (c :: (Source.span isWordChar cs).1)) ::
        (← tokens? (Source.span isWordChar cs).2)
    else if isNumberChar c then
      have := Source.length_span_le isNumberChar cs
      do return .scalar (← number? (c :: (Source.span isNumberChar cs).1)) ::
        (← tokens? (Source.span isNumberChar cs).2)
    else do return (← punctuation? c) :: (← tokens? cs)
termination_by cs => cs.length
decreasing_by all_goals simp_wf <;> omega

end Json

end ChunkedArray
