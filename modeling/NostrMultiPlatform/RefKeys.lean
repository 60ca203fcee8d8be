import NostrMultiPlatform.PlannerPlan

/-!
# Reference keys

Profiles are asked for by their public key. An event is asked for by its id, by the
coordinate `kind:pubkey:d` of an addressable event, or by an external id behind `i:`;
the key itself is the key of the row, and the filter tells keys apart.
-/
namespace RefKeys

open PlannerShape Sorted InterestShape

inductive ProfileShape
  | ref
  | card
  deriving DecidableEq, Repr

def ProfileShape.widen : ProfileShape → ProfileShape → ProfileShape
  | .ref, .ref => .ref
  | _, _ => .card

inductive EventShape
  | embed
  | raw
  deriving DecidableEq, Repr

def EventShape.widen : EventShape → EventShape → EventShape
  | .embed, .embed => .embed
  | _, _ => .raw

inductive RefLiveness
  | cacheOk
  | live
  deriving DecidableEq, Repr

structure EventTarget where
  primaryId : String
  replaceableCoord : Option (Nat × String × String)
  filter : InterestShape
  author : Option String

/-- The validator of external ids, when the host has registered one. -/
abbrev ExternalIdValidator := Option (String → Bool)

def isLowerHexDigit (c : Char) : Bool := '0' ≤ c && c ≤ '9' || 'a' ≤ c && c ≤ 'f'

variable (s : String) (validator : ExternalIdValidator) (key : String)

def isLowerHex64 : Bool := s.utf8ByteSize = 64 && s.toList.all isLowerHexDigit

/-- The wider check of caller-supplied authors takes upper case too. -/
def isHexPubkey : Bool :=
  s.utf8ByteSize = 64 && s.toList.all fun c => isLowerHexDigit c || 'A' ≤ c && c ≤ 'F'

/-- No ASCII control byte and no space. -/
def hasExternalIdByteHygiene : Bool :=
  s ≠ "" && s.toList.all fun c => 32 < c.toNat && c.toNat ≠ 127

def stripExternal : Option String :=
  match key.toList with
  | 'i' :: ':' :: rest => some (String.ofList rest)
  | _ => none

def validExternalId (externalId : String) : Bool :=
  hasExternalIdByteHygiene externalId && validator.any fun v => v externalId

def externalIdFromKey : Option String :=
  (stripExternal key).filter (validExternalId validator)

/-- The three parts of `splitn(3, ':')`. -/
def splitCoordinate : Option (String × String × String) :=
  match key.toList.splitOn ':' with
  | kind :: pubkey :: d :: rest =>
    some (String.ofList kind, String.ofList pubkey,
      String.ofList (List.intercalate [':'] (d :: rest)))
  | _ => none

def parseDigits (digits : List Char) : Option Nat :=
  if digits ≠ [] ∧ digits.all Char.isDigit = true then
    let n := digits.foldl (fun n c => 10 * n + (c.toNat - 48)) 0
    if n < 2 ^ 32 then some n else none
  else none

/-- `str::parse::<u32>`, which takes a leading plus. -/
def parseU32 : Option Nat :=
  match s.toList with
  | '+' :: digits => parseDigits digits
  | digits => parseDigits digits

/-- A kind as `u32` prints it. -/
def parseKind : Option Nat :=
  if s ≠ "" ∧ s.toList.all Char.isDigit = true then
    (parseU32 s).filter fun kind => toString kind = s
  else none

def idFilter (id : String) : InterestShape :=
  { default with eventIds := {id}, limit := some 1 }

def externalFilter (externalId : String) : InterestShape :=
  { default with
    tags := (∅ : SortedMap String (SortedSet String)).insert "i" {externalId}
    limit := some 1 }

def coordinateFilter (kind : Nat) (pubkey dTag : String) : InterestShape :=
  { default with
    kinds := {kind}
    authors := {pubkey}
    tags := (∅ : SortedMap String (SortedSet String)).insert "d" {dTag}
    limit := some 1 }

def parseEventKey : Option EventTarget :=
  if isLowerHex64 key then
    some ⟨key, none, idFilter key, none⟩
  else
    match stripExternal key with
    | some externalId =>
      if validExternalId validator externalId then
        some ⟨key, none, externalFilter externalId, none⟩
      else none
    | none => do
      let (kindText, pubkey, dTag) ← splitCoordinate key
      let kind ← parseKind kindText
      if isLowerHex64 pubkey then
        some ⟨key, some (kind, pubkey, dTag), coordinateFilter kind pubkey dTag, some pubkey⟩
      else none

variable {validator : ExternalIdValidator}

theorem primaryId_parseEventKey {key : String} {target : EventTarget}
    (h : parseEventKey validator key = some target) : target.primaryId = key := by
  unfold parseEventKey at h
  split at h
  next =>
    obtain rfl := Option.some.inj h
    rfl
  next =>
    split at h
    next =>
      split at h
      · obtain rfl := Option.some.inj h
        rfl
      · cases h
    next =>
      simp only [Option.bind_eq_bind, Option.bind_eq_some_iff] at h
      obtain ⟨parts, -, kind, -, h⟩ := h
      split at h
      · obtain rfl := Option.some.inj h
        rfl
      · cases h

/-- A key is an id, an external id behind its mark, or a coordinate, and its filter is made of
these parts. -/
theorem parseEventKey_parts {key : String} {target : EventTarget}
    (h : parseEventKey validator key = some target) :
    target.filter = idFilter key ∨
      (∃ externalId : String, key.toList = 'i' :: ':' :: externalId.toList ∧
        target.filter = externalFilter externalId) ∨
      ∃ kind pubkey, ∃ dTag : String,
        key.toList = (toString kind).toList ++ ':' :: (pubkey.toList ++ ':' :: dTag.toList) ∧
          target.filter = coordinateFilter kind pubkey dTag := by
  unfold parseEventKey at h
  split at h
  next =>
    obtain rfl := Option.some.inj h
    exact .inl rfl
  next =>
    split at h
    next externalId hexternal =>
      split at h
      · obtain rfl := Option.some.inj h
        refine .inr (.inl ⟨externalId, ?_, rfl⟩)
        unfold stripExternal at hexternal
        split at hexternal
        next rest hlist =>
          obtain rfl := Option.some.inj hexternal
          rw [hlist, String.toList_ofList]
        next => cases hexternal
      · cases h
    next =>
      simp only [Option.bind_eq_bind, Option.bind_eq_some_iff] at h
      obtain ⟨⟨kindText, pubkey, dTag⟩, hsplit, kind, hkind, h⟩ := h
      split at h
      · obtain rfl := Option.some.inj h
        refine .inr (.inr ⟨kind, pubkey, dTag, ?_, rfl⟩)
        have hprints : toString kind = kindText := by
          unfold parseKind at hkind
          split at hkind
          · simpa using (Option.filter_eq_some_iff.mp hkind).2
          · cases hkind
        unfold splitCoordinate at hsplit
        split at hsplit
        next kindChars pubkeyChars dChars rest hparts =>
          cases hsplit
          have hjoined : [':'].intercalate (key.toList.splitOn ':') = key.toList :=
            List.intercalate_splitOn ':'
          rw [hparts] at hjoined
          rw [hprints, ← hjoined]
          simp [List.intercalate_cons_of_ne_nil]
        next => cases hsplit
      · cases h

/-- Two keys with one filter are one key. -/
theorem parseEventKey_injective {key other : String} {target target' : EventTarget}
    (h : parseEventKey validator key = some target)
    (h' : parseEventKey validator other = some target') (heq : target.filter = target'.filter) :
    key = other := by
  have hnonempty : ∀ x : String, ({x} : SortedSet String) ≠ ∅ := fun x =>
    SortedSet.insert_ne_empty x ∅
  have hkinds : ∀ x : Nat, ({x} : SortedSet Nat) ≠ ∅ := fun x => SortedSet.insert_ne_empty x ∅
  have hsingle : ∀ {x y : String}, ({x} : SortedSet String) = {y} → x = y := fun {x y} hset =>
    SortedSet.mem_singleton.mp (hset ▸ SortedSet.mem_singleton.mpr rfl)
  have hsingleKind : ∀ {x y : Nat}, ({x} : SortedSet Nat) = {y} → x = y := fun {x y} hset =>
    SortedSet.mem_singleton.mp (hset ▸ SortedSet.mem_singleton.mpr rfl)
  have hrow : ∀ {tag x y : String},
      (∅ : SortedMap String (SortedSet String)).insert tag {x} =
        (∅ : SortedMap String (SortedSet String)).insert tag {y} → x = y := by
    intro tag x y hmaps
    have hlookup := congrArg (fun m => m.lookup tag) hmaps
    simp only [SortedMap.lookup_insert, if_pos] at hlookup
    exact hsingle (Option.some.inj hlookup)
  obtain hid | ⟨externalId, hlist, hexternal⟩ | ⟨kind, pubkey, dTag, hlist, hcoord⟩ :=
    parseEventKey_parts h <;>
  obtain hid' | ⟨externalId', hlist', hexternal'⟩ | ⟨kind', pubkey', dTag', hlist', hcoord'⟩ :=
    parseEventKey_parts h'
  · rw [hid, hid'] at heq
    exact hsingle (congrArg eventIds heq)
  · rw [hid, hexternal'] at heq
    exact absurd (congrArg eventIds heq) (hnonempty _)
  · rw [hid, hcoord'] at heq
    exact absurd (congrArg eventIds heq) (hnonempty _)
  · rw [hexternal, hid'] at heq
    exact absurd (congrArg eventIds heq).symm (hnonempty _)
  · rw [hexternal, hexternal'] at heq
    obtain rfl := hrow (congrArg tags heq)
    exact String.toList_inj.mp (hlist.trans hlist'.symm)
  · rw [hexternal, hcoord'] at heq
    exact absurd (congrArg kinds heq).symm (hkinds _)
  · rw [hcoord, hid'] at heq
    exact absurd (congrArg eventIds heq).symm (hnonempty _)
  · rw [hcoord, hexternal'] at heq
    exact absurd (congrArg kinds heq) (hkinds _)
  · rw [hcoord, hcoord'] at heq
    obtain rfl := hsingleKind (congrArg kinds heq)
    obtain rfl := hsingle (congrArg authors heq)
    obtain rfl := hrow (congrArg tags heq)
    exact String.toList_inj.mp (hlist.trans hlist'.symm)

end RefKeys
