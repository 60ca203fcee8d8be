import Mathlib.Data.String.Basic

/-!
# Events of the store

The wire event, the tag accessors, the hex codec and the kind classes that both
backends share. A 32-byte array is the list of its bytes; an unsigned integer of
the source is a natural number, reduced where the source can wrap.
-/
namespace StoreEvent

abbrev EventId := List UInt8
abbrev PubKey := List UInt8
abbrev RelayUrl := String

def hexNibble (c : Char) : Option UInt8 :=
  if '0' ≤ c ∧ c ≤ '9' then some (UInt8.ofNat (c.toNat - '0'.toNat))
  else if 'a' ≤ c ∧ c ≤ 'f' then some (UInt8.ofNat (c.toNat - 'a'.toNat + 10))
  else if 'A' ≤ c ∧ c ≤ 'F' then some (UInt8.ofNat (c.toNat - 'A'.toNat + 10))
  else none

/-- Two digits a byte, most significant first. -/
def hexPairs : List Char → Option (List UInt8)
  | [] => some []
  | [_] => none
  | h :: l :: rest => do
    let hi ← hexNibble h
    let lo ← hexNibble l
    let bytes ← hexPairs rest
    return (hi <<< 4 ||| lo) :: bytes

/-- Decode 64 hex digits, upper or lower case, to 32 bytes. -/
def hexToBytes32 (s : String) : Option (List UInt8) :=
  if s.utf8ByteSize = 64 then hexPairs s.toList else none

def hexDigit (n : UInt8) : Char :=
  "0123456789abcdef".toList.getD n.toNat '0'

/-- Lower-case hex of a byte string. -/
def bytesToHex (bytes : List UInt8) : String :=
  String.ofList (bytes.flatMap fun (b : UInt8) => [hexDigit (b >>> 4), hexDigit (b &&& 15)])

/-- The placeholder the source writes where there is no id. -/
def zeroId : EventId := List.replicate 32 0

structure RawEvent where
  id : String
  pubkey : String
  createdAt : Nat
  kind : Nat
  tags : List (List String)
  content : String
  sig : String
  deriving DecidableEq, Repr

variable (kind : Nat)

def isReplaceableKind : Bool :=
  kind == 0 || kind == 3 || kind == 41 || (decide (10000 ≤ kind) && decide (kind < 20000))

def isAddressableKind : Bool := decide (30000 ≤ kind) && decide (kind < 40000)

def isEphemeralKind : Bool := decide (20000 ≤ kind) && decide (kind < 30000)

/-- Kinds whose relay of origin is never indexed. -/
def isRelayProvenancePrivate : Bool :=
  [4, 13, 14, 15, 1059, 1060].contains kind

def stripPlus : List Char → List Char
  | '+' :: rest => rest
  | cs => cs

/-- Decimal digits below `2 ^ bits`, an optional leading plus sign allowed. -/
def parseUInt (bits : Nat) (s : String) : Option Nat :=
  let digits := stripPlus s.toList
  if digits ≠ [] ∧ digits.all Char.isDigit ∧ Nat.ofDigitChars 10 digits 0 < 2 ^ bits then
    some (Nat.ofDigitChars 10 digits 0)
  else none

def parseU32 (s : String) : Option Nat := parseUInt 32 s
def parseU64 (s : String) : Option Nat := parseUInt 64 s

/-- First value of the first tag called `name`. -/
def firstTagValue (name : String) (tags : List (List String)) : Option String :=
  (tags.find? fun t => t.head? == some name).bind fun t => t[1]?

/-- First value of every tag called `name`. -/
def tagValues (name : String) (tags : List (List String)) : List String :=
  (tags.filter fun t => t.head? == some name).filterMap fun t => t[1]?

namespace RawEvent

variable (e : RawEvent)

def idBytes : Option EventId := hexToBytes32 e.id
def pubkeyBytes (e : RawEvent) : Option PubKey := hexToBytes32 e.pubkey

def isReplaceable : Bool := isReplaceableKind e.kind
def isParamReplaceable (e : RawEvent) : Bool := isAddressableKind e.kind
def isEphemeral (e : RawEvent) : Bool := isEphemeralKind e.kind

def dTag : Option String := firstTagValue "d" e.tags
def expiration (e : RawEvent) : Option Nat := (firstTagValue "expiration" e.tags).bind parseU64
def eTags (e : RawEvent) : List String := tagValues "e" e.tags
def aTags (e : RawEvent) : List String := tagValues "a" e.tags

def isStructurallyValid : Bool :=
  e.sig.utf8ByteSize == 128 && (hexToBytes32 e.id).isSome && (hexToBytes32 e.pubkey).isSome

/-- The id in bytes where the source has already checked that it decodes. -/
def id32 : EventId := e.idBytes.getD zeroId

/-- The first supersedes the second: later, or as late with the smaller id. -/
def outranks (a b : RawEvent) : Bool :=
  decide (b.createdAt < a.createdAt) || (a.createdAt == b.createdAt && decide (a.id < b.id))

/-- The NIP-40 deadline has passed when the event arrives. -/
def expiredAt (receivedAtMs : Nat) : Bool :=
  match e.expiration with
  | some exp => decide (exp ≤ receivedAtMs / 1000)
  | none => false

end RawEvent

/-- Split at the first colon. -/
def splitColon : List Char → Option (List Char × List Char)
  | [] => none
  | c :: cs => if c = ':' then some ([], cs) else (splitColon cs).map fun p => (c :: p.1, p.2)

/-- The three parts of an `a` tag value, the last one unsplit. -/
def splitAddr (addr : String) : Option (String × String × String) := do
  let (kind, rest) ← splitColon addr.toList
  let (pubkey, d) ← splitColon rest
  return (String.ofList kind, String.ofList pubkey, String.ofList d)

/-- The key of an address tombstone, the kind part as it is spelled. -/
def addrKey (kind pubkey d : String) : String := kind ++ ":" ++ pubkey ++ ":" ++ d

theorem splitColon_eq {cs before after : List Char} (h : splitColon cs = some (before, after)) :
    cs = before ++ ':' :: after ∧ ':' ∉ before := by
  induction cs generalizing before with
  | nil => simp [splitColon] at h
  | cons c _ ih =>
    by_cases hc : c = ':'
    · simp only [splitColon, hc, if_true, Option.some.injEq, Prod.mk.injEq] at h
      obtain ⟨rfl, rfl⟩ := h
      simp [hc]
    · simp only [splitColon, hc, if_false, Option.map_eq_some_iff, Prod.mk.injEq] at h
      obtain ⟨p, hp, rfl, rfl⟩ := h
      obtain ⟨heq, hmem⟩ := ih hp
      exact ⟨by rw [heq]; rfl, by simp [hmem, Ne.symm hc]⟩

theorem splitColon_append (before after : List Char) (h : ':' ∉ before) :
    splitColon (before ++ ':' :: after) = some (before, after) := by
  induction before with
  | nil => simp [splitColon]
  | cons _ _ ih =>
    rw [List.mem_cons, not_or] at h
    simp [splitColon, Ne.symm h.1, ih h.2]

theorem toList_addrKey (kind pubkey d : String) :
    (addrKey kind pubkey d).toList = kind.toList ++ ':' :: (pubkey.toList ++ ':' :: d.toList) := by
  simp [addrKey]

/-- Splitting an address and putting its parts together again gives it back. -/
theorem addrKey_of_splitAddr {addr kind pubkey d : String}
    (h : splitAddr addr = some (kind, pubkey, d)) : addrKey kind pubkey d = addr := by
  unfold splitAddr at h
  cases h₁ : splitColon addr.toList with
  | none => simp [h₁] at h
  | some p =>
    cases h₂ : splitColon p.2 with
    | none => simp [h₁, h₂] at h
    | some =>
      simp only [h₁, h₂, Option.bind_eq_bind, Option.bind_some, Option.pure_def, Option.some.injEq,
        Prod.mk.injEq] at h
      obtain ⟨rfl, rfl, rfl⟩ := h
      apply String.toList_injective
      rw [toList_addrKey, (splitColon_eq h₁).1, (splitColon_eq h₂).1]
      simp

theorem splitAddr_pubkey {addr kind pubkey d : String}
    (h : splitAddr addr = some (kind, pubkey, d)) : ':' ∉ pubkey.toList := by
  unfold splitAddr at h
  cases h₁ : splitColon addr.toList with
  | none => simp [h₁] at h
  | some p =>
    cases h₂ : splitColon p.2 with
    | none => simp [h₁, h₂] at h
    | some =>
      simp only [h₁, h₂, Option.bind_eq_bind, Option.bind_some, Option.pure_def, Option.some.injEq,
        Prod.mk.injEq] at h
      obtain ⟨-, rfl, -⟩ := h
      simpa using (splitColon_eq h₂).2

theorem splitAddr_addrKey (kind pubkey d : String) (hkind : ':' ∉ kind.toList)
    (hpubkey : ':' ∉ pubkey.toList) : splitAddr (addrKey kind pubkey d) = some (kind, pubkey, d) := by
  unfold splitAddr
  rw [toList_addrKey, splitColon_append _ _ hkind]
  simp [splitColon_append _ _ hpubkey]

theorem colon_notMem_toString (n : Nat) : ':' ∉ (toString n).toList := by
  intro h
  rw [Nat.toString_eq_repr, Nat.toList_repr] at h
  have hdigit := Nat.isDigit_of_mem_toDigits (by omega) (by omega) h
  simp at hdigit

theorem stripPlus_of_digits {cs : List Char} (h : ∀ c ∈ cs, c.isDigit = true) :
    stripPlus cs = cs := by
  unfold stripPlus
  split
  next rest =>
    have hplus := h '+' List.mem_cons_self
    simp at hplus
  next => rfl

/-- A number printed in decimal parses back to itself. -/
theorem parseUInt_toString (bits n : Nat) (h : n < 2 ^ bits) :
    parseUInt bits (toString n) = some n := by
  have hdigits : ∀ c ∈ Nat.toDigits 10 n, c.isDigit = true := fun c hc =>
    Nat.isDigit_of_mem_toDigits (by omega) (by omega) hc
  have hvalue : Nat.ofDigitChars 10 (Nat.toDigits 10 n) 0 = n := Nat.ofDigitChars_ten_toDigits
  unfold parseUInt
  rw [Nat.toString_eq_repr, Nat.toList_repr, stripPlus_of_digits hdigits]
  simp only [hvalue]
  rw [if_pos ⟨Nat.toDigits_ne_nil, List.all_eq_true.mpr hdigits, h⟩]

theorem hexPairs_digits (bytes : List UInt8) :
    hexPairs (bytes.flatMap fun (b : UInt8) => [hexDigit (b >>> 4), hexDigit (b &&& 15)]) = some bytes := by
  induction bytes with
  | nil => rfl
  | cons b _ ih =>
    have hbyte : ∀ i : Fin 256, (do
        let hi ← hexNibble (hexDigit (UInt8.ofFin i >>> 4))
        let lo ← hexNibble (hexDigit (UInt8.ofFin i &&& 15))
        return (hi <<< 4 ||| lo)) = some (UInt8.ofFin i) := by decide +kernel
    have hb := hbyte b.toFin
    simp only [UInt8.ofFin_toFin] at hb
    simp only [Option.bind_eq_bind, Option.bind_eq_some_iff, Option.pure_def, Option.some.injEq] at hb
    obtain ⟨hi, hhi, lo, hlo, heq⟩ := hb
    rw [List.flatMap_cons, List.cons_append, List.cons_append, List.nil_append, hexPairs, hhi, hlo, ih]
    simp [heq]

/-- Decoding gives back what was spelled. -/
theorem decode_bytesToHex {bytes decoded : List UInt8}
    (h : hexToBytes32 (bytesToHex bytes) = some decoded) : decoded = bytes := by
  unfold hexToBytes32 at h
  split at h
  · rw [bytesToHex, String.toList_ofList, hexPairs_digits] at h
    cases h
    rfl
  · cases h

theorem utf8ByteSize_ascii {cs : List Char} (h : ∀ c ∈ cs, c.utf8Size = 1) :
    (String.ofList cs).utf8ByteSize = cs.length := by
  induction cs with
  | nil => rfl
  | cons c _ ih =>
    have hrest := ih fun c' hc' => h c' (List.mem_cons_of_mem c hc')
    rw [String.ofList_cons, String.utf8ByteSize_append, hrest]
    simp [h c List.mem_cons_self]
    omega

theorem utf8ByteSize_bytesToHex (bytes : List UInt8) :
    (bytesToHex bytes).utf8ByteSize = 2 * bytes.length := by
  have hall : ∀ n : Fin 256, (hexDigit (UInt8.ofFin n)).utf8Size = 1 := by decide +kernel
  have hdigit : ∀ b : UInt8, (hexDigit b).utf8Size = 1 := by
    intro b
    have hb := hall b.toFin
    rwa [UInt8.ofFin_toFin] at hb
  rw [bytesToHex, utf8ByteSize_ascii]
  · induction bytes with
    | nil => rfl
    | cons _ _ ih =>
      simp only [List.flatMap_cons, List.length_append, ih, List.length_cons, List.length_nil]
      omega
  · intro c hc
    obtain ⟨b, -, hmem⟩ := List.mem_flatMap.mp hc
    rcases List.mem_pair.mp hmem with rfl | rfl
    · exact hdigit _
    · exact hdigit _

theorem utf8Size_of_hexNibble {c : Char} (h : (hexNibble c).isSome = true) : c.utf8Size = 1 := by
  have hle : c ≤ 'f' := by
    unfold hexNibble at h
    split at h
    next hdigit => exact hdigit.2.trans (by decide)
    next =>
      split at h
      next hlower => exact hlower.2
      next =>
        split at h
        next hupper => exact hupper.2.trans (by decide)
        next => cases h
  exact Char.utf8Size_eq_one_iff.mpr (UInt32.le_trans hle (by decide))

theorem hexPairs_replicate (n : Nat) {c : Char} (h : (hexNibble c).isSome = true) :
    (hexPairs (List.replicate (2 * n) c)).isSome = true := by
  obtain ⟨nibble, hnibble⟩ := Option.isSome_iff_exists.mp h
  induction n with
  | zero => rfl
  | succ n ih =>
    obtain ⟨bytes, hbytes⟩ := Option.isSome_iff_exists.mp ih
    have htwo : List.replicate (2 * (n + 1)) c = c :: c :: List.replicate (2 * n) c := rfl
    rw [htwo, hexPairs, hnibble, hbytes]
    rfl

/-- What a key of 32 bytes is spelled as decodes to it. -/
theorem hexToBytes32_bytesToHex {bytes : List UInt8} (h : bytes.length = 32) :
    hexToBytes32 (bytesToHex bytes) = some bytes := by
  rw [hexToBytes32, if_pos (by rw [utf8ByteSize_bytesToHex, h]), bytesToHex, String.toList_ofList,
    hexPairs_digits]

end StoreEvent
