import NostrMultiPlatform.PlannerPlan
import NostrMultiPlatform.WalletProof

/-!
# Routing one interest

Partitioning decides which relays an interest is sent to and with which slice of
its filter: the pinned relay alone, the write relays of its authors or of its
coordinates' authors, the inboxes of the accounts it tags, or the general read
relays. Names without a landing are stranded; a valid hint rescues the names of
its own interest.
-/
namespace PlannerPartition

open Sorted PlannerShape PlannerPlan

structure MailboxSnapshot where
  writeRelays : List String
  readRelays : List String
  bothRelays : List String
  deriving DecidableEq, Repr

def MailboxSnapshot.outboxRelays (s : MailboxSnapshot) : List String := s.writeRelays ++ s.bothRelays

def MailboxSnapshot.inboxRelays (s : MailboxSnapshot) : List String := s.readRelays ++ s.bothRelays

def MailboxSnapshot.hasInboxRelays (s : MailboxSnapshot) : Bool :=
  !s.readRelays.isEmpty || !s.bothRelays.isEmpty

/-- The compiler's relay sets and its two views of the mailbox cache. -/
structure SubscriptionCompiler where
  get : String → Option MailboxSnapshot
  dmInboxRelays : String → Option (List String)
  indexerRelays : List String
  activeAccountReadRelays : List String
  appRelays : List String
  bootstrapContentRelays : List String
  bootstrapIndexerRelays : List String

structure RelayEntry where
  baseShape : InterestShape
  authorsForRelay : SortedSet String
  addressesForRelay : SortedSet NaddrCoord
  lifecycle : InterestLifecycle
  sources : SortedSet RoutingSource
  interestId : Nat
  attribution : RelayAttribution
  deriving DecidableEq

/-- What one interest adds: entries in the order they are pushed, the pubkeys it strands and then
rescues, and the probes it requests. -/
structure Routed where
  entries : List (String × RelayEntry)
  stranded : List String
  rescued : List String
  probes : List String
  deriving DecidableEq

/-- The canonical form of a relay URL, if it has one. -/
def canonicalize (raw : String) : Option String :=
  match WalletProof.splitScheme (WalletProof.trimChars raw.toList) with
  | none => none
  | some (scheme, rest) =>
    let scheme := scheme.map Char.toLower
    if scheme ≠ "ws".toList ∧ scheme ≠ "wss".toList then none
    else
      let inAuthority := fun c => c ≠ '/' && c ≠ '?' && c ≠ '#'
      let authority := rest.takeWhile inAuthority
      let path := rest.dropWhile inAuthority
      if authority = [] then none
      else
        some (String.ofList (scheme ++ "://".toList ++ authority.map Char.toLower ++
          if path = ['/'] then [] else path))

def routingSourceForHint : HintSource → RoutingSource
  | .eventTag .. => .hint
  | .provenance _ => .provenance
  | .userConfigured => .userConfigured .debug

def hintOriginFor (hint : RelayHint) : HintOrigin :=
  match hint.source with
  | .eventTag eventId _ _ => .eventTag eventId
  | .provenance eventId => .provenance eventId
  | .userConfigured => .userConfigured

def routeForHint (hint : RelayHint) : Option (String × RoutingSource) :=
  (canonicalize hint.url).map fun url => (url, routingSourceForHint hint.source)

/-- The hints that name a relay, with the lane and the origin. -/
def validHints (interest : LogicalInterest) : List (String × RoutingSource × HintOrigin) :=
  interest.hints.filterMap fun hint =>
    (routeForHint hint).map fun route => (route.1, route.2, hintOriginFor hint)

/-- A per-relay accumulator: each landing changes the entry of its relay. -/
def land {α β : Type} (relayOf : α → String) (start : β) (visit : α → β → β) (landings : List α)
    (perRelay : SortedMap String β) : SortedMap String β :=
  landings.foldl (fun m l => m.alter (relayOf l) fun entry => visit l (entry.getD start)) perRelay

/-- One lane over a list of relays. -/
def lane (relays : List String) (source : RoutingSource) : List (String × RoutingSource) :=
  relays.map fun relay => (relay, source)

/-- Relays reached by the lanes, with all lanes that reach each. -/
def sourcesPerRelay (landings : List (String × RoutingSource)) :
    SortedMap String (SortedSet RoutingSource) :=
  land Prod.fst ∅ (fun l sources => insert l.2 sources) landings ∅

/-- The outbox lane of a pubkey, and the app relays. -/
def outboxLanes (c : SubscriptionCompiler) (pubkey : String) : List (String × RoutingSource) :=
  lane ((c.get pubkey).elim [] MailboxSnapshot.outboxRelays) .nip65 ++
    lane c.appRelays (.userConfigured .appRelay)

/-- The pubkeys without a cached mailbox. -/
def unknown (c : SubscriptionCompiler) (pubkeys : List String) : List String :=
  pubkeys.filter fun pubkey => (c.get pubkey).isNone

/-- The shape without the fields that are partitioned. -/
def baseShapeOf (interest : LogicalInterest) : InterestShape :=
  { interest.shape with authors := ∅, addresses := ∅ }

def pTagValues (interest : LogicalInterest) : SortedSet String :=
  (interest.shape.tags.lookup "p").getD ∅

/-- The inbox relays of a tagged pubkey, if any are known. -/
def inboxRoute (c : SubscriptionCompiler) (routing : PTagRouting) (pk : String) :
    Option (List String × RoutingSource) :=
  match routing with
  | .nip65ReadRelays =>
    match c.get pk with
    | some snapshot => if snapshot.hasInboxRelays then some (snapshot.inboxRelays, .nip65) else none
    | none => none
  | .nip17DmRelays =>
    match c.dmInboxRelays pk with
    | some relays => if relays.isEmpty then none else some (relays, .nip17DmRelay)
    | none => none

/-- Inbox routing of every tagged pubkey, each with a filter for it alone; nothing is sent where no
inbox is known, and only a missing NIP-65 inbox is probed. -/
def routePTagsToInbox (c : SubscriptionCompiler) (pTags authorsForInbox : SortedSet String)
    (base : InterestShape) (lifecycle : InterestLifecycle) (interestId : Nat) : Routed :=
  { entries := pTags.elems.flatMap fun pk =>
      (inboxRoute c base.pTagRouting pk).elim [] fun route => route.1.map fun relay => (relay,
        { baseShape := { base with tags := base.tags.insert "p" {pk} }
          authorsForRelay := authorsForInbox
          addressesForRelay := ∅
          lifecycle := lifecycle
          sources := {route.2}
          interestId := interestId
          attribution := .default })
    stranded := []
    rescued := []
    probes := match base.pTagRouting with
      | .nip65ReadRelays => pTags.elems.filter fun pk => (inboxRoute c base.pTagRouting pk).isNone
      | .nip17DmRelays => [] }

structure CaseAEntry where
  authors : SortedSet String
  addresses : SortedSet NaddrCoord
  sources : SortedSet RoutingSource
  outboxAuthors : SortedSet String
  userConfigured : SortedSet UserConfiguredCategory
  hintOrigins : SortedSet HintOrigin
  deriving DecidableEq

def CaseAEntry.default : CaseAEntry := ⟨∅, ∅, ∅, ∅, ∅, ∅⟩

def isProfileResolution (interest : LogicalInterest) : Bool := interest.shape.kinds = {0}

/-- Where an author of the interest lands: the outbox, the app relays, for a profile the pinned
relays too, and the bootstrap indexers if nothing else and the interest is a discovery. -/
def authorLandings (c : SubscriptionCompiler) (activePinned : SortedSet String)
    (interest : LogicalInterest) (author : String) : List (String × RoutingSource) :=
  let lanes := outboxLanes c author ++
    if isProfileResolution interest then
      lane activePinned.elems (.userConfigured .activePin)
    else []
  if lanes.isEmpty && interest.isIndexerDiscovery then
    lane c.bootstrapIndexerRelays (.userConfigured .indexer)
  else lanes

def landAuthor (author : String) (landing : String × RoutingSource) (entry : CaseAEntry) :
    CaseAEntry :=
  let entry := { entry with
    authors := insert author entry.authors
    sources := insert landing.2 entry.sources }
  match landing.2 with
  | .userConfigured category =>
    { entry with userConfigured := insert category entry.userConfigured }
  | _ => { entry with outboxAuthors := insert author entry.outboxAuthors }

def landCoord (coord : NaddrCoord) (landing : String × RoutingSource) (entry : CaseAEntry) :
    CaseAEntry :=
  let entry := { entry with
    addresses := insert coord entry.addresses
    sources := insert landing.2 entry.sources }
  match landing.2 with
  | .userConfigured category =>
    { entry with userConfigured := insert category entry.userConfigured }
  | _ => entry

/-- A valid hint carries every author and coordinate of its interest. -/
def landHint (interest : LogicalInterest) (hint : String × RoutingSource × HintOrigin)
    (entry : CaseAEntry) : CaseAEntry :=
  { entry with
    authors := entry.authors ∪ interest.shape.authors
    addresses := entry.addresses ∪ interest.shape.addresses
    sources := insert hint.2.1 entry.sources
    hintOrigins := insert hint.2.2 entry.hintOrigins }

def coordPubkeys (interest : LogicalInterest) : List String :=
  interest.shape.addresses.elems.map NaddrCoord.pubkey

/-- Case A: explicit authors go to their write relays, and tagged pubkeys to their inboxes too. -/
def routeAuthors (c : SubscriptionCompiler) (activePinned : SortedSet String)
    (interest : LogicalInterest) : Routed :=
  let base := baseShapeOf interest
  let authors := interest.shape.authors.elems
  let perRelay := authors.foldl
    (fun m author =>
      land Prod.fst .default (landAuthor author) (authorLandings c activePinned interest author) m) ∅
  let perRelay := interest.shape.addresses.elems.foldl
    (fun m coord => land Prod.fst .default (landCoord coord) (outboxLanes c coord.pubkey) m) perRelay
  let perRelay := land Prod.fst .default (landHint interest) (validHints interest) perRelay
  let inbox :=
    routePTagsToInbox c (pTagValues interest) interest.shape.authors base interest.lifecycle
      interest.id
  { entries := (perRelay.rows.map fun row => (row.1,
      { baseShape := base
        authorsForRelay := row.2.authors
        addressesForRelay := row.2.addresses
        lifecycle := interest.lifecycle
        sources := row.2.sources
        interestId := interest.id
        attribution :=
          { outboxAuthors := row.2.outboxAuthors
            userConfigured := row.2.userConfigured
            hints := row.2.hintOrigins
            interests := [⟨interest.id, interest.shape.kinds, row.2.authors⟩] } })) ++ inbox.entries
    stranded :=
      (authors.filter fun author => (authorLandings c activePinned interest author).isEmpty) ++
        (coordPubkeys interest).filter fun pubkey => (outboxLanes c pubkey).isEmpty
    rescued := if (validHints interest).isEmpty then [] else authors ++ coordPubkeys interest
    probes := unknown c authors ++ unknown c (coordPubkeys interest) ++ inbox.probes }

/-- Case B: without authors, coordinates go to their authors' write relays. -/
def routeAddresses (c : SubscriptionCompiler) (interest : LogicalInterest) : Routed :=
  let start : SortedSet NaddrCoord × SortedSet RoutingSource := (∅, ∅)
  let perRelay := interest.shape.addresses.elems.foldl
    (fun m coord => land Prod.fst start
      (fun landing entry => (insert coord entry.1, insert landing.2 entry.2))
      (outboxLanes c coord.pubkey) m) ∅
  let perRelay := land Prod.fst start
    (fun hint entry => (entry.1 ∪ interest.shape.addresses, insert hint.2.1 entry.2))
    (validHints interest) perRelay
  { entries := perRelay.rows.map fun row => (row.1,
      { baseShape := baseShapeOf interest
        authorsForRelay := ∅
        addressesForRelay := row.2.1
        lifecycle := interest.lifecycle
        sources := row.2.2
        interestId := interest.id
        attribution := .default })
    stranded := (coordPubkeys interest).filter fun pubkey => (outboxLanes c pubkey).isEmpty
    rescued := if (validHints interest).isEmpty then [] else coordPubkeys interest
    probes := unknown c (coordPubkeys interest) }

/-- Entries that carry neither authors nor addresses. -/
def plainEntries (interest : LogicalInterest) (base : InterestShape)
    (perRelay : SortedMap String (SortedSet RoutingSource)) : List (String × RelayEntry) :=
  perRelay.rows.map fun row => (row.1,
    { baseShape := base
      authorsForRelay := ∅
      addressesForRelay := ∅
      lifecycle := interest.lifecycle
      sources := row.2
      interestId := interest.id
      attribution := .default })

def everyTaggedPubkeyLacksNip65Inbox (c : SubscriptionCompiler) (pTags : SortedSet String) : Bool :=
  pTags.elems.all fun pk => (c.get pk).all fun snapshot => !snapshot.hasInboxRelays

/-- Case C on a cold start: the viewer's own inbox on the bootstrap relays. -/
def routeBootstrapContentInbox (c : SubscriptionCompiler) (interest : LogicalInterest) : Routed :=
  { entries := plainEntries interest (baseShapeOf interest)
      (sourcesPerRelay (lane c.bootstrapContentRelays (.userConfigured .bootstrap)))
    stranded := []
    rescued := []
    probes := (pTagValues interest).elems }

/-- Case C: tagged pubkeys without authors or coordinates. -/
def routePTags (c : SubscriptionCompiler) (interest : LogicalInterest) : Routed :=
  let eligible := interest.lifecycle = .tailing &&
    (interest.scope = .global || interest.scope = .activeAccount) &&
    interest.shape.pTagRouting = .nip65ReadRelays && !c.bootstrapContentRelays.isEmpty &&
    everyTaggedPubkeyLacksNip65Inbox c (pTagValues interest)
  if eligible then routeBootstrapContentInbox c interest
  else
    routePTagsToInbox c (pTagValues interest) ∅ (baseShapeOf interest) interest.lifecycle interest.id

/-- Case D: hint relays first. -/
def routeHints (interest : LogicalInterest) : List (String × RelayEntry) :=
  let start : SortedSet RoutingSource × SortedSet HintOrigin := (∅, ∅)
  (land Prod.fst start (fun hint entry => (insert hint.2.1 entry.1, insert hint.2.2 entry.2))
    (validHints interest) ∅).rows.map fun row => (row.1,
      { baseShape := baseShapeOf interest
        authorsForRelay := ∅
        addressesForRelay := ∅
        lifecycle := interest.lifecycle
        sources := row.2.1
        interestId := interest.id
        attribution :=
          { RelayAttribution.default with
            hints := row.2.2
            interests := [⟨interest.id, interest.shape.kinds, ∅⟩] } })

/-- Case D: then the read and app relays, or the indexers if there are none; a discovery of events
goes to the bootstrap relays instead. -/
def routeNoAuthor (c : SubscriptionCompiler) (interest : LogicalInterest) : Routed :=
  let discovery := interest.lifecycle = .oneShot && interest.scope = .global &&
    interest.shape.eventIds ≠ ∅ && !c.bootstrapContentRelays.isEmpty
  let perRelay :=
    if discovery then sourcesPerRelay (lane c.bootstrapContentRelays (.userConfigured .bootstrap))
    else
      let read := lane c.activeAccountReadRelays (.userConfigured .accountRead) ++
        lane c.appRelays (.userConfigured .appRelay)
      if read.isEmpty then sourcesPerRelay (lane c.indexerRelays (.userConfigured .indexer))
      else sourcesPerRelay read
  { entries := routeHints interest ++ plainEntries interest (baseShapeOf interest) perRelay
    stranded := []
    rescued := []
    probes := [] }

/-- Case E: the pinned relay alone, with the full filter. -/
def routeRelayPinned (interest : LogicalInterest) (pinUrl : String) : Routed :=
  { entries := [(pinUrl,
      { baseShape := { baseShapeOf interest with relayPin := some pinUrl }
        authorsForRelay := interest.shape.authors
        addressesForRelay := interest.shape.addresses
        lifecycle := interest.lifecycle
        sources := {.userConfigured .debug}
        interestId := interest.id
        attribution := .default })]
    stranded := []
    rescued := []
    probes := [] }

def partitionInterest (c : SubscriptionCompiler) (activePinned : SortedSet String)
    (interest : LogicalInterest) : Routed :=
  match interest.shape.relayPin with
  | some pinUrl => routeRelayPinned interest pinUrl
  | none =>
    if interest.shape.authors ≠ ∅ then routeAuthors c activePinned interest
    else if interest.shape.addresses ≠ ∅ then routeAddresses c interest
    else if pTagValues interest ≠ ∅ then routePTags c interest
    else routeNoAuthor c interest

/-- The final shape of a slice. -/
def intoShape (entry : RelayEntry) : InterestShape :=
  { entry.baseShape with
    authors := entry.authorsForRelay
    addresses := entry.addressesForRelay }

end PlannerPartition
