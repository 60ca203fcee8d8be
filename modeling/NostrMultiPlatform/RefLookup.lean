import NostrMultiPlatform.RefEvents
import NostrMultiPlatform.StoreGc
import NostrMultiPlatform.StoreStep

/-!
# Looking a reference up

A claim asks whether its event is known, a row asks for the event itself. The first
question reads the cache, the second the event store as well, and of external ids
the first takes only those that the host's validator takes.
-/
namespace RefLookup

open RefEvents RefFetches RefKeys RefState Tables
open StoreEvent (EventId PubKey hexToBytes32)
open StoreState (MemState)

/-- What a lookup asks of the event store. -/
structure EventStore where
  getById : EventId → Except String (Option StoreState.StoredEvent)
  getParamReplaceable : PubKey → Nat → String → Except String (Option StoreState.StoredEvent)

/-- Lower case only. -/
def hex64ToBytes32 (s : String) : Option (List UInt8) :=
  if isLowerHex64 s then hexToBytes32 s else none

def nmpStoreToKernelStored (e : StoreState.StoredEvent) : StoredEvent :=
  ⟨e.raw.pubkey, e.raw.kind, e.raw.tags⟩

def cachedAt : Nat × String × String → StoredEvent → Bool
  | (kind, pubkey, dTag), ev => ev.kind = kind && ev.author = pubkey && hasTagValue ev "d" dTag

/-- The coordinate a key spells. -/
def coordinateOf (key : String) : Option (Nat × String × String) :=
  (splitCoordinate key).bind fun (kindText, pubkey, dTag) =>
    (parseU32 kindText).map fun kind => (kind, pubkey, dTag)

section

variable (store : EventStore)

def storedById (id : String) : Option StoredEvent :=
  (hex64ToBytes32 id).bind fun idBytes =>
    (store.getById idBytes).toOption.join.map nmpStoreToKernelStored

def storedAt : Nat × String × String → Option StoredEvent
  | (kind, pubkey, dTag) => (hex64ToBytes32 pubkey).bind fun pubkeyBytes =>
    (store.getParamReplaceable pubkeyBytes kind dTag).toOption.join.map nmpStoreToKernelStored

def lookupForPrimaryId (events : Table String StoredEvent) (key : String) : Option StoredEvent :=
  if isLowerHex64 key then (events.lookup key).or (storedById store key)
  else
    match (stripExternal key).filter hasExternalIdByteHygiene with
    | some externalId => (values events).find? (hasTagValue · "i" externalId)
    | none =>
      match coordinateOf key with
      | none => none
      | some coord => (storedAt store coord).or ((values events).find? (cachedAt coord))

/-- The store adds nothing to the cache; the cache has nothing for an id the validator rejects. -/
def CacheSuffices (validator : ExternalIdValidator) (events : Table String StoredEvent)
    (key : String) : Prop :=
  if isLowerHex64 key then storedById store key ≠ none → key ∈ events
  else
    match (stripExternal key).filter hasExternalIdByteHygiene with
    | some externalId =>
      (∃ ev ∈ values events, hasTagValue ev "i" externalId = true) →
        validator.any (· externalId) = true
    | none => ∀ coord, coordinateOf key = some coord → storedAt store coord ≠ none →
        ∃ ev ∈ values events, cachedAt coord ev = true

end

variable {store : EventStore} {validator : ExternalIdValidator} {events : Table String StoredEvent}
  {key x : String}

/-- A key behind `i:` is no coordinate: its first part is no number. -/
theorem coordinateOf_external (h : stripExternal key = some x) : coordinateOf key = none := by
  unfold stripExternal at h
  split at h
  next rest hkey =>
    have hparts : ('i' :: ':' :: rest).splitOn ':' = ['i'] :: rest.splitOn ':' := by
      simp [List.splitOn_cons_eq_if_modifyHead]
    rw [coordinateOf, splitCoordinate, hkey, hparts]
    rcases rest.splitOn ':' with _ | ⟨pubkey, _ | ⟨dTag, more⟩⟩
    · rfl
    · rfl
    · have hkind : parseU32 (String.ofList ['i']) = none := by decide
      simp only [Option.bind_some, hkind, Option.map_none]
  next => cases h

theorem known_of_not_external (hhex : ¬ isLowerHex64 key = true)
    (h : externalIdFromKey validator key = none) :
    known validator events key =
      (coordinateOf key).any fun coord => (values events).any (cachedAt coord) := by
  rw [known, if_neg hhex, h, coordinateOf]
  cases splitCoordinate key with
  | none => rfl
  | some parts =>
    dsimp only [Option.bind_some]
    cases parseU32 parts.1 with
    | none | some => rfl

/-- The two questions get one answer exactly where the cache suffices. -/
theorem known_eq_isSome_iff :
    known validator events key = (lookupForPrimaryId store events key).isSome ↔
      CacheSuffices store validator events key := by
  have hfind : ∀ p, ((values events).find? p).isSome = (values events).any p := by
    intro p
    rw [Bool.eq_iff_iff, List.find?_isSome, List.any_eq_true]
  unfold lookupForPrimaryId CacheSuffices
  by_cases hhex : isLowerHex64 key = true
  · have hlookup : (events.lookup key).isSome = decide (key ∈ events) := by
      rw [Bool.eq_iff_iff, AList.lookup_isSome, decide_eq_true_iff]
    rw [if_pos hhex, if_pos hhex, known, if_pos hhex, Option.isSome_or, hlookup]
    by_cases h : key ∈ events
    · simp [h]
    · simp [h]
  rw [if_neg hhex, if_neg hhex]
  split
  next externalId hfilter =>
    obtain ⟨hstrip, hhygiene⟩ := Option.filter_eq_some_iff.mp hfilter
    rw [hfind, ← List.any_eq_true]
    by_cases hvalid : validator.any (· externalId) = true
    · have hkey : externalIdFromKey validator key = some externalId := by
        simp [externalIdFromKey, hstrip, Option.filter, validExternalId, hhygiene, hvalid]
      simp [known, hhex, hkey, hvalid]
    · have hkey : externalIdFromKey validator key = none := by
        simp [externalIdFromKey, hstrip, Option.filter, validExternalId, hvalid]
      rw [known_of_not_external hhex hkey, coordinateOf_external hstrip]
      simp [hvalid]
  next hfilter =>
    have hkey : externalIdFromKey validator key = none := by
      rw [externalIdFromKey, Option.filter_eq_none_iff]
      intro y hy hvalid
      simp only [validExternalId, Bool.and_eq_true] at hvalid
      exact Option.filter_eq_none_iff.mp hfilter y hy hvalid.1
    rw [known_of_not_external hhex hkey]
    cases coordinateOf key with
    | none => simp
    | some coord =>
      simp only [Option.any_some, Option.isSome_or, hfind, Option.some.injEq, forall_eq',
        ← Option.isSome_iff_ne_none, ← List.any_eq_true]
      cases (values events).any (cachedAt coord) with
      | false | true => simp

/-- A poll ends the claim as known exactly if the event can be served, and as overdue only if it
cannot. -/
structure Faithful (store : EventStore) (h : Host) (s : Kernel) (key : String) : Prop where
  known : eventAlreadyKnown h s key = (lookupForPrimaryId store s.events key).isSome
  hit : ∀ now claim, claim.primaryId = key → terminationDue h s now claim = some .hit →
    lookupForPrimaryId store s.events key ≠ none
  budget : ∀ now claim, claim.primaryId = key → terminationDue h s now claim = some .budget →
    lookupForPrimaryId store s.events key = none

/-- Claims end as they should exactly where the cache suffices. -/
theorem faithful_iff (store : EventStore) (h : Host) (s : Kernel) (key : String) :
    Faithful store h s key ↔ CacheSuffices store h.externalIdValidator s.events key := by
  rw [← known_eq_isSome_iff]
  refine ⟨Faithful.known, fun hknown => ⟨hknown, fun now claim hkey hdue => ?_, fun now claim hkey hdue => ?_⟩⟩
  · subst hkey
    intro hnone
    have hunknown : eventAlreadyKnown h s claim.primaryId = false := by
      rw [eventAlreadyKnown, hknown, hnone, Option.isSome_none]
    rw [terminationDue, hunknown, if_neg Bool.false_ne_true] at hdue
    split at hdue
    · cases hdue
    · split at hdue <;> cases hdue
  · subst hkey
    rw [← Option.not_isSome_iff_eq_none, ← hknown]
    intro hserved
    rw [terminationDue, eventAlreadyKnown, if_pos hserved] at hdue
    cases hdue

/-- The lookups of the memory store. -/
def memoryStore (st : MemState) : EventStore where
  getById id := .ok (StoreGc.getById st id).1
  getParamReplaceable pubkey kind dTag := .ok <|
    (StoreInsert.newestEntry (st.events.entries.filter fun e =>
      e.2.raw.pubkey = StoreEvent.bytesToHex pubkey && e.2.raw.kind = kind &&
        e.2.raw.dTag = some dTag)).map (·.2)

def alone : Host := ⟨id, none, some, fun _ => 0⟩

/-- The store has a note that the cache has dropped. -/
def stored : MemState := StoreStep.step .new (StoreStep.arrivalOf '1' 'a' 10 1 [])

def noteClaim : PendingClaim :=
  ⟨.oneshot (idFilter (StoreStep.digitKey '1')), StoreStep.digitKey '1', none,
    idFilter (StoreStep.digitKey '1'), 0, .phase1, ∅, [], ∅⟩

/-- Its claim ends as a miss, though the note can be served. -/
theorem stored_note_missed :
    lookupForPrimaryId (memoryStore stored) Kernel.new.events noteClaim.primaryId =
        some ⟨StoreStep.digitKey 'a', 1, []⟩ ∧
      terminationDue alone Kernel.new 8000000000 noteClaim = some .budget :=
  ⟨by decide +kernel, by decide +kernel⟩

end RefLookup
