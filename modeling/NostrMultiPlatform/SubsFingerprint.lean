import NostrMultiPlatform.PrefixCodes
import NostrMultiPlatform.SubsLifecycle

/-!
# The compile fingerprint

A recompile is skipped when the digest of its inputs is the stored one. What is
fed to the hasher determines the active interests, the counters, the relay sets,
the budgets and the blocked relays; only the digest itself may collide.
-/
namespace SubsFingerprint

open Sorted PlannerShape PlannerPlan PlannerCompile SubsLifecycle PrefixCodes

/-- What a value writes to its hasher. -/
inductive HashWrite
  | u8 (n : Nat)
  | u32 (n : Nat)
  | u64 (n : Nat)
  | usize (n : Nat)
  | isize (n : Nat)
  | str (s : String)
  deriving DecidableEq

/-- Little-endian integers; a string ends with a byte that no string contains. -/
def HashWrite.bytes : HashWrite → List UInt8
  | u8 n => [UInt8.ofNat n]
  | u32 n => (List.range 4).map fun i => UInt8.ofNat (n / 256 ^ i)
  | u64 n | usize n | isize n => leBytes n
  | str s => stringBytes s ++ [255]

def finish64 (writes : List HashWrite) : UInt64 := fnv (writes.flatMap HashWrite.bytes)

def hashStr (s : String) : List HashWrite := [.str s]

def hashU32 (n : Nat) : List HashWrite := [.u32 n]

def hashU64 (n : Nat) : List HashWrite := [.u64 n]

/-- The length prefix and the elements. -/
def hashSeq {α : Type} (hash : α → List HashWrite) (xs : List α) : List HashWrite :=
  .usize xs.length :: xs.flatMap hash

def hashSet {α : Type} [LinearOrder α] (hash : α → List HashWrite) (s : SortedSet α) : List HashWrite :=
  hashSeq hash s.elems

/-- The discriminant and the value. -/
def hashOption {α : Type} (hash : α → List HashWrite) (o : Option α) : List HashWrite :=
  o.elim [.isize 0] fun a => .isize 1 :: hash a

def hashTags (tags : SortedMap String (SortedSet String)) : List HashWrite :=
  hashSeq (fun row : String × SortedSet String => hashStr row.1 ++ hashSet hashStr row.2) tags.rows

def hashCoord (coord : NaddrCoord) : List HashWrite :=
  hashStr coord.pubkey ++ (hashU32 coord.kind ++ hashStr coord.dTag)

def hashPTagRouting : PTagRouting → List HashWrite
  | .nip65ReadRelays => [.isize 0]
  | .nip17DmRelays => [.isize 1]

/-- An absent search writes nothing. -/
def hashSearch : Option String → List HashWrite
  | none => []
  | some search => hashStr "search" ++ hashStr search

def hashShape (shape : InterestShape) : List HashWrite :=
  hashSet hashStr shape.authors ++ (hashSet hashU32 shape.kinds ++ (hashTags shape.tags ++
    (hashOption hashU64 shape.since ++ (hashOption hashU64 shape.until_ ++
      (hashOption hashU32 shape.limit ++ (hashSet hashStr shape.eventIds ++
        (hashSet hashCoord shape.addresses ++ (hashOption hashStr shape.relayPin ++
          (hashPTagRouting shape.pTagRouting ++ hashSearch shape.search)))))))))

def hashScope : InterestScope → List HashWrite
  | .activeAccount => [.isize 0]
  | .account pubkey => .isize 1 :: hashStr pubkey
  | .global => [.isize 2]

def hashHintSource : HintSource → List HashWrite
  | .eventTag eventId tag position => .isize 0 :: (hashStr eventId ++ (hashStr tag ++ [.u8 position]))
  | .userConfigured => [.isize 1]
  | .provenance eventId => .isize 2 :: hashStr eventId

def hashHint (hint : RelayHint) : List HashWrite := hashStr hint.url ++ hashHintSource hint.source

def hashLifecycle : InterestLifecycle → List HashWrite
  | .tailing => [.isize 0]
  | .oneShot => [.isize 1]

def hashInterest (interest : LogicalInterest) : List HashWrite :=
  hashU64 interest.id ++ (hashScope interest.scope ++ (hashShape interest.shape ++
    (hashSeq hashHint interest.hints ++ (hashLifecycle interest.lifecycle ++
      [.u8 interest.isIndexerDiscovery.toNat]))))

/-- The blocked relays come last, without their number. -/
def fingerprintWrites (lc : SubscriptionLifecycle) (blocked : Option (SortedSet String)) :
    List HashWrite :=
  hashSeq hashInterest lc.active ++ (hashU64 lc.mailboxGeneration ++
    (hashSet hashStr lc.deadRelays ++ (hashSeq hashStr lc.indexerRelays ++
      (hashSeq hashStr lc.activeAccountReadRelays ++ (hashSeq hashStr lc.appRelays ++
        (hashSeq hashStr lc.bootstrapContentRelays ++ (hashSeq hashStr lc.bootstrapIndexerRelays ++
          ([.usize lc.selectMaxConnections] ++ ([.usize lc.selectMaxPerUser] ++
            (hashU64 lc.watermarkGeneration ++ (blocked.getD ∅).elems.flatMap hashStr))))))))))

/-- No digest is computed while a coverage hook is installed. -/
def fingerprint (lc : SubscriptionLifecycle) (blocked : Option (SortedSet String)) : UInt64 :=
  if lc.coverageHook.isSome then 0 else finish64 (fingerprintWrites lc blocked)

theorem hashStr_prefixFree : PrefixFree hashStr :=
  PrefixFree.letter fun _ _ heq => HashWrite.str.inj heq

theorem hashU32_prefixFree : PrefixFree hashU32 :=
  PrefixFree.letter fun _ _ heq => HashWrite.u32.inj heq

theorem hashU64_prefixFree : PrefixFree hashU64 :=
  PrefixFree.letter fun _ _ heq => HashWrite.u64.inj heq

theorem hashSeq_prefixFree {α : Type} {hash : α → List HashWrite} (h : PrefixFree hash) :
    PrefixFree (hashSeq hash) :=
  h.list fun _ _ heq => HashWrite.usize.inj heq

theorem hashSet_prefixFree {α : Type} [LinearOrder α] {hash : α → List HashWrite}
    (h : PrefixFree hash) : PrefixFree (hashSet hash) :=
  (hashSeq_prefixFree h).comp fun s t heq => SortedSet.ext fun a => by
    rw [← SortedSet.mem_elems, heq, SortedSet.mem_elems]

theorem hashOption_prefixFree {α : Type} {hash : α → List HashWrite} (h : PrefixFree hash) :
    PrefixFree (hashOption hash) :=
  h.option (by decide)

theorem hashTags_prefixFree : PrefixFree hashTags := by
  have hrow : PrefixFree fun row : String × SortedSet String => hashStr row.1 ++ hashSet hashStr row.2 :=
    hashStr_prefixFree.pair (hashSet_prefixFree hashStr_prefixFree)
  refine (hashSeq_prefixFree hrow).comp fun m n heq => ?_
  cases m
  cases n
  cases heq
  rfl

theorem hashCoord_prefixFree : PrefixFree hashCoord := by
  have hfields : PrefixFree fun p : String × Nat × String =>
      hashStr p.1 ++ (hashU32 p.2.1 ++ hashStr p.2.2) :=
    hashStr_prefixFree.pair (hashU32_prefixFree.pair hashStr_prefixFree)
  refine hfields.comp (f := fun coord : NaddrCoord => (coord.pubkey, coord.kind, coord.dTag)) ?_
  intro a b heq
  cases a
  cases b
  simpa using heq

theorem hashPTagRouting_prefixFree : PrefixFree hashPTagRouting := by
  refine ⟨fun {a b s t} heq => ?_⟩
  cases a <;> cases b <;> simp_all [hashPTagRouting]

theorem hashLifecycle_prefixFree : PrefixFree hashLifecycle := by
  refine ⟨fun {a b s t} heq => ?_⟩
  cases a <;> cases b <;> simp_all [hashLifecycle]

theorem hashScope_prefixFree : PrefixFree hashScope := by
  refine ⟨fun {a b s t} heq => ?_⟩
  cases a <;> cases b <;> simp_all [hashScope, hashStr]

theorem hashHintSource_prefixFree : PrefixFree hashHintSource := by
  refine ⟨fun {a b s t} heq => ?_⟩
  cases a <;> cases b <;> simp_all [hashHintSource, hashStr]

theorem hashHint_prefixFree : PrefixFree hashHint := by
  have hfields : PrefixFree fun p : String × HintSource => hashStr p.1 ++ hashHintSource p.2 :=
    hashStr_prefixFree.pair hashHintSource_prefixFree
  refine hfields.comp (f := fun hint : RelayHint => (hint.url, hint.source)) ?_
  intro a b heq
  cases a
  cases b
  simpa using heq

/-- A search is told apart from the length of the hints that follow it. -/
theorem hashSearch_split {x y : Option String} {m n : Nat} {s t : List HashWrite}
    (h : hashSearch x ++ .usize m :: s = hashSearch y ++ .usize n :: t) :
    x = y ∧ HashWrite.usize m :: s = .usize n :: t := by
  cases x <;> cases y <;> simp_all [hashSearch, hashStr]

theorem hashInterest_prefixFree : PrefixFree hashInterest := by
  refine ⟨fun {a b s t} heq => ?_⟩
  simp only [hashInterest, hashShape, List.append_assoc] at heq
  obtain ⟨hid, heq⟩ := hashU64_prefixFree.split heq
  obtain ⟨hscope, heq⟩ := hashScope_prefixFree.split heq
  obtain ⟨hauthors, heq⟩ := (hashSet_prefixFree hashStr_prefixFree).split heq
  obtain ⟨hkinds, heq⟩ := (hashSet_prefixFree hashU32_prefixFree).split heq
  obtain ⟨htags, heq⟩ := hashTags_prefixFree.split heq
  obtain ⟨hsince, heq⟩ := (hashOption_prefixFree hashU64_prefixFree).split heq
  obtain ⟨huntil, heq⟩ := (hashOption_prefixFree hashU64_prefixFree).split heq
  obtain ⟨hlimit, heq⟩ := (hashOption_prefixFree hashU32_prefixFree).split heq
  obtain ⟨hids, heq⟩ := (hashSet_prefixFree hashStr_prefixFree).split heq
  obtain ⟨haddrs, heq⟩ := (hashSet_prefixFree hashCoord_prefixFree).split heq
  obtain ⟨hpin, heq⟩ := (hashOption_prefixFree hashStr_prefixFree).split heq
  obtain ⟨hrouting, heq⟩ := hashPTagRouting_prefixFree.split heq
  obtain ⟨hsearch, heq⟩ := hashSearch_split heq
  obtain ⟨hhints, heq⟩ := (hashSeq_prefixFree hashHint_prefixFree).split heq
  obtain ⟨hlife, heq⟩ := hashLifecycle_prefixFree.split heq
  obtain ⟨hflag, hrest⟩ := List.cons.inj heq
  have hdiscovery : a.isIndexerDiscovery = b.isIndexerDiscovery := by
    have hnat := HashWrite.u8.inj hflag
    revert hnat
    cases a.isIndexerDiscovery <;> cases b.isIndexerDiscovery <;> simp
  have hshape : a.shape = b.shape := by
    obtain ⟨_, _, shape, _, _, _⟩ := a
    obtain ⟨_, _, shape', _, _, _⟩ := b
    cases shape
    cases shape'
    simp_all
  cases a
  cases b
  simp_all

/-- Everything that is read of the lifecycle, and the blocked relays. -/
structure SameInputs (lc lc' : SubscriptionLifecycle) (blocked blocked' : Option (SortedSet String)) :
    Prop where
  active : lc.active = lc'.active
  mailboxGeneration : lc.mailboxGeneration = lc'.mailboxGeneration
  deadRelays : lc.deadRelays = lc'.deadRelays
  indexerRelays : lc.indexerRelays = lc'.indexerRelays
  activeAccountReadRelays : lc.activeAccountReadRelays = lc'.activeAccountReadRelays
  appRelays : lc.appRelays = lc'.appRelays
  bootstrapContentRelays : lc.bootstrapContentRelays = lc'.bootstrapContentRelays
  bootstrapIndexerRelays : lc.bootstrapIndexerRelays = lc'.bootstrapIndexerRelays
  selectMaxConnections : lc.selectMaxConnections = lc'.selectMaxConnections
  selectMaxPerUser : lc.selectMaxPerUser = lc'.selectMaxPerUser
  watermarkGeneration : lc.watermarkGeneration = lc'.watermarkGeneration
  blocked : blocked.getD ∅ = blocked'.getD ∅

theorem sameInputs_of_writes {lc lc' : SubscriptionLifecycle} {blocked blocked' : Option (SortedSet String)}
    (heq : fingerprintWrites lc blocked = fingerprintWrites lc' blocked') :
    SameInputs lc lc' blocked blocked' := by
  simp only [fingerprintWrites] at heq
  have hstrs := hashSeq_prefixFree hashStr_prefixFree
  obtain ⟨hactive, heq⟩ := (hashSeq_prefixFree hashInterest_prefixFree).split heq
  obtain ⟨hmailbox, heq⟩ := hashU64_prefixFree.split heq
  obtain ⟨hdead, heq⟩ := (hashSet_prefixFree hashStr_prefixFree).split heq
  obtain ⟨hindexer, heq⟩ := hstrs.split heq
  obtain ⟨hread, heq⟩ := hstrs.split heq
  obtain ⟨happ, heq⟩ := hstrs.split heq
  obtain ⟨hcontent, heq⟩ := hstrs.split heq
  obtain ⟨hbootstrap, heq⟩ := hstrs.split heq
  obtain ⟨hconnections, heq⟩ := List.cons.inj heq
  obtain ⟨hperUser, heq⟩ := List.cons.inj heq
  obtain ⟨hwatermark, heq⟩ := hashU64_prefixFree.split heq
  have hblocked : (blocked.getD ∅).elems = (blocked'.getD ∅).elems :=
    hashStr_prefixFree.flatMap_injective (fun _ => List.cons_ne_nil _ _) heq
  exact ⟨hactive, hmailbox, hdead, hindexer, hread, happ, hcontent, hbootstrap,
    HashWrite.usize.inj hconnections, HashWrite.usize.inj hperUser, hwatermark,
    SortedSet.ext fun a => by rw [← SortedSet.mem_elems, hblocked, SortedSet.mem_elems]⟩

end SubsFingerprint
