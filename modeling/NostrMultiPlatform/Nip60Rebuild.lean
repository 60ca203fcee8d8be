import NostrMultiPlatform.Nip60Wallet
import NostrMultiPlatform.Runs

/-!
# The wallet rebuilt from what it published

Beside the handle runs a record of what was taken from its outbox, of the secrets
its sends consumed and of what each change event replaced. A fresh handle that
ingests the token events nobody deleted is compared with the original.
-/
namespace Nip60Rebuild

open Runs Nip60Wallet Nip60WalletHandle TokenRecord
open WalletProof hiding selectFrom selectProofs
open WalletState (ReceivedNutZap)

/-- The proofs of the records. -/
def held (tokens : List TokenRecord) : List Proof := tokens.flatMap proofs

structure Published (γ : Type) where
  handle : Nip60WalletHandle γ
  taken : List (Event γ)
  /-- Every change event with the token events it replaced. -/
  changes : List (String × List String)
  consumed : List String

inductive Act
  | deposit (mintUrl : String) (amount : Nat) (answer : Option (List Proof)) (tokenId : String)
  | send (amount : Nat) (recipientMints : List String) (inputFeePpk : Option Nat)
      (answer : Option (List Proof)) (changeId : String)
  | redeem (nutzap : ReceivedNutZap) (inputFeePpk : Option Nat) (answer : Option (List Proof))
      (tokenId : String)
  | take
  deriving DecidableEq, Repr

section
variable {γ : Type}

/-- What the act spends, if it is a send that completes. -/
def spendOf (tokens : List TokenRecord) : Act → Option Spend
  | .send amount (mint :: _) inputFeePpk answer _ => spend tokens amount mint inputFeePpk answer
  | _ => none

def perform (encrypt : TokenContent → γ) (t : Published γ) : Act → Published γ
  | .deposit mintUrl amount answer tokenId =>
    { t with handle := t.handle.completeDeposit encrypt mintUrl amount answer tokenId }
  | .send amount recipientMints inputFeePpk answer changeId =>
    let sent := { t with
      handle := t.handle.sendNutzap encrypt amount recipientMints inputFeePpk answer changeId }
    match spendOf t.handle.tokens (.send amount recipientMints inputFeePpk answer changeId) with
    | none => sent
    | some spent =>
      { sent with
        changes := t.changes ++ if spent.change = [] then [] else
          [(changeId, destroyedEventIds spent.selected t.handle.tokens)]
        consumed := t.consumed ++ secretsOf spent.selected }
  | .redeem nutzap inputFeePpk answer tokenId =>
    { t with handle := t.handle.redeemNutzap encrypt nutzap inputFeePpk answer tokenId }
  | .take =>
    { t with handle := t.handle.takeOutbox.2, taken := t.taken ++ t.handle.takeOutbox.1 }

def tokenEvents (events : List (Event γ)) : List (TokenEvent γ) :=
  events.filterMap fun event =>
    match event with
    | .token event => some event
    | _ => none

/-- The token events that deletions name. -/
def deletions (events : List (Event γ)) : List String :=
  events.filterMap fun event =>
    match event with
    | .deletion target => some target
    | _ => none

/-- Everything taken from the outbox or still in it. -/
def published (t : Published γ) : List (Event γ) := t.taken ++ t.handle.outbox

def liveTokens (t : Published γ) : List (TokenEvent γ) :=
  (tokenEvents (published t)).filter fun event => event.id ∉ deletions (published t)

/-- A fresh handle that has ingested the token events that are not deleted. -/
def rebuilt (decrypt : γ → Option TokenContent) (t : Published γ) : Nip60WalletHandle γ :=
  (fromWalletEvent t.handle.mints).ingestTokenEvents decrypt (liveTokens t)

/-- The published events determine the balance. -/
structure Determined (decrypt : γ → Option TokenContent) (t : Published γ) : Prop where
  same : (held (rebuilt decrypt t).tokens).Perm (held t.handle.tokens)
  gone : ∀ p ∈ held (rebuilt decrypt t).tokens, p.secret ∉ t.consumed
  named : ∀ change ∈ t.changes, ∃ event ∈ tokenEvents (published t), event.id = change.1 ∧
    ∃ record, decodeTokenEvent decrypt event = some record ∧ ∀ id ∈ change.2, id ∈ record.del

/-- Token events get new ids, and no new proof has a secret that was spent. -/
def Fresh (t : Published γ) : Act → Prop
  | .deposit _ _ answer tokenId | .redeem _ _ answer tokenId | .send _ _ _ answer tokenId =>
    tokenId ∉ (tokenEvents (published t)).map TokenEvent.id ∧
      ∀ proofs ∈ answer, ∀ p ∈ proofs, p.secret ∉ t.consumed
  | .take => True

instance (t : Published γ) (act : Act) : Decidable (Fresh t act) :=
  match act with
  | .deposit _ _ _ _ | .redeem _ _ _ _ | .send _ _ _ _ _ => inferInstanceAs (Decidable (_ ∧ _))
  | .take => .isTrue trivial

/-- A send that completes selects whole records, worth the amount and the fee and no more. -/
def SpendsWhole (t : Published γ) : Act → Prop
  | .send amount (mint :: rest) (some inputFeePpk) answer changeId =>
    spendOf t.handle.tokens (.send amount (mint :: rest) (some inputFeePpk) answer changeId) ≠ none →
      ∀ selected ∈ selectProofs t.handle.tokens amount mint,
        sumAmounts selected - amount = computeFee selected.length inputFeePpk ∧
        ∀ record ∈ t.handle.tokens,
          remaining selected record = [] ∨ remaining selected record = record.proofs
  | _ => True

@[simp] theorem tokenEvents_append (xs ys : List (Event γ)) :
    tokenEvents (xs ++ ys) = tokenEvents xs ++ tokenEvents ys := List.filterMap_append

@[simp] theorem deletions_append (xs ys : List (Event γ)) :
    deletions (xs ++ ys) = deletions xs ++ deletions ys := List.filterMap_append

@[simp] theorem tokenEvents_deletions (ids : List String) :
    tokenEvents (ids.map fun id => (Event.deletion id : Event γ)) = [] := by
  simp [tokenEvents, List.filterMap_map]

@[simp] theorem deletions_deletions (ids : List String) :
    deletions (ids.map fun id => (Event.deletion id : Event γ)) = ids := by
  simp [deletions, List.filterMap_map]

@[simp] theorem held_append (xs ys : List TokenRecord) : held (xs ++ ys) = held xs ++ held ys :=
  List.flatMap_append

/-- With distinct ids, ingestion keeps every event that decodes. -/
theorem ingestTokenEvents_perm (decrypt : γ → Option TokenContent) (handle : Nip60WalletHandle γ)
    {events : List (TokenEvent γ)} (hids : (events.map TokenEvent.id).Nodup) :
    (handle.ingestTokenEvents decrypt events).tokens.Perm
      (events.filterMap (decodeTokenEvent decrypt)) := by
  have hperm := events.mergeSort_perm fun a b => decide (a.id ≤ b.id)
  have hsorted : ((events.mergeSort fun a b => a.id ≤ b.id).map TokenEvent.id).Nodup :=
    (hperm.map _).nodup_iff.mpr hids
  have hchain : (events.mergeSort fun a b => a.id ≤ b.id).IsChain fun a b => a.id ≠ b.id :=
    (List.pairwise_map.mp hsorted).isChain
  simp only [ingestTokenEvents, List.destutter_of_isChain _ _ hchain]
  exact hperm.filterMap _

theorem eventId_of_decode {decrypt : γ → Option TokenContent} {event : TokenEvent γ}
    {record : TokenRecord} (h : decodeTokenEvent decrypt event = some record) :
    record.eventId = some event.id := by
  obtain ⟨content, -, rfl⟩ := Option.map_eq_some_iff.mp h
  rfl

/-- Deleting events by id deletes the records they decode to. -/
theorem filterMap_decode_filter (decrypt : γ → Option TokenContent) (keep : String → Bool)
    (events : List (TokenEvent γ)) :
    (events.filter fun event => keep event.id).filterMap (decodeTokenEvent decrypt) =
      (events.filterMap (decodeTokenEvent decrypt)).filter fun record =>
        record.eventId.all keep := by
  induction events with
  | nil => rfl
  | cons event _ ih =>
    cases hdecode : decodeTokenEvent decrypt event with
    | none => cases hkeep : keep event.id <;> simp [hdecode, hkeep, ih]
    | some =>
      have hid := eventId_of_decode hdecode
      cases hkeep : keep event.id <;> simp [hdecode, hkeep, ih, hid]

/-- Records decoded from events with distinct ids have distinct ids. -/
theorem nodup_eventIds (decrypt : γ → Option TokenContent) {events : List (TokenEvent γ)}
    (hids : (events.map TokenEvent.id).Nodup) :
    ((events.filterMap (decodeTokenEvent decrypt)).map eventId).Nodup := by
  have hsub : ((events.filterMap (decodeTokenEvent decrypt)).map eventId).Sublist
      ((events.map TokenEvent.id).map some) := by
    induction events with
    | nil => exact .slnil
    | cons event _ ih =>
      have hrest := ih (List.nodup_cons.mp hids).2
      cases hdecode : decodeTokenEvent decrypt event with
      | none => simpa [hdecode] using hrest.cons (some event.id)
      | some => simpa [hdecode, eventId_of_decode hdecode] using hrest.cons_cons (some event.id)
  exact (hids.map (Option.some_injective _)).sublist hsub

theorem remaining_sublist (spent : List Proof) (record : TokenRecord) :
    (remaining spent record).Sublist record.proofs := List.filter_sublist

@[simp] theorem keptTokens_nil (spent : List Proof) : keptTokens spent [] = [] := rfl

theorem keptTokens_cons (spent : List Proof) (record : TokenRecord) (rest : List TokenRecord) :
    keptTokens spent (record :: rest) = (if remaining spent record = [] then []
      else [{ record with proofs := remaining spent record }]) ++ keptTokens spent rest := by
  simp only [keptTokens, List.filterMap_cons]
  split <;> simp_all

/-- The records that are not spent whole, as their events have them. -/
def survivors (spent : List Proof) (tokens : List TokenRecord) : List TokenRecord :=
  tokens.filter fun record => remaining spent record ≠ []

theorem survivors_cons (spent : List Proof) (record : TokenRecord) (rest : List TokenRecord) :
    survivors spent (record :: rest) =
      (if remaining spent record = [] then [] else [record]) ++ survivors spent rest := by
  by_cases hgone : remaining spent record = [] <;> simp [survivors, hgone]

@[simp] theorem held_singleton (record : TokenRecord) : held [record] = record.proofs := by
  simp [held]

/-- Memory keeps at most what the events say. -/
theorem length_kept_le (spent : List Proof) (tokens : List TokenRecord) :
    (held (keptTokens spent tokens)).length ≤ (held (survivors spent tokens)).length := by
  induction tokens with
  | nil => exact Nat.le_refl _
  | cons record _ ih =>
    have hle := (remaining_sublist spent record).length_le
    rw [keptTokens_cons, survivors_cons, held_append, held_append, List.length_append,
      List.length_append]
    split
    · simpa [held] using ih
    · rw [held_singleton, held_singleton]
      dsimp only
      omega

variable {tokens : List TokenRecord}

/-- It keeps as much only if no record is spent in part. -/
theorem whole_of_length_eq (spent : List Proof)
    (h : (held (keptTokens spent tokens)).length = (held (survivors spent tokens)).length) :
    ∀ record ∈ tokens, remaining spent record = [] ∨ remaining spent record = record.proofs := by
  induction tokens with
  | nil => intro record hrecord; cases hrecord
  | cons first rest ih =>
    have hle := (remaining_sublist spent first).length_le
    have hrest := length_kept_le spent rest
    rw [keptTokens_cons, survivors_cons, held_append, held_append, List.length_append,
      List.length_append] at h
    intro record hrecord
    by_cases hgone : remaining spent first = []
    · rw [if_pos hgone, if_pos hgone] at h
      rcases List.mem_cons.mp hrecord with rfl | hmem
      · exact .inl hgone
      · exact ih (by omega) record hmem
    · rw [if_neg hgone, if_neg hgone, held_singleton, held_singleton] at h
      dsimp only at h
      rcases List.mem_cons.mp hrecord with rfl | hmem
      · exact .inr ((remaining_sublist spent record).eq_of_length (by omega))
      · exact ih (by omega) record hmem

/-- Records spent whole or not at all are kept as they are. -/
theorem keptTokens_whole {spent : List Proof}
    (h : ∀ record ∈ tokens, remaining spent record = [] ∨ remaining spent record = record.proofs) :
    keptTokens spent tokens = survivors spent tokens := by
  induction tokens with
  | nil => rfl
  | cons first _ ih =>
    rw [keptTokens_cons, survivors_cons,
      ih fun record hrecord => h record (List.mem_cons_of_mem _ hrecord)]
    split
    · rfl
    next hgone => rw [(h first List.mem_cons_self).resolve_left hgone]

/-- Among records with distinct ids, the destroyed ones are those spent whole. -/
theorem filter_destroyed {spent : List Proof} (hids : (tokens.map eventId).Nodup)
    (hsome : ∀ record ∈ tokens, record.eventId ≠ none) :
    (tokens.filter fun record =>
      record.eventId.all fun id => decide (id ∉ destroyedEventIds spent tokens)) =
      survivors spent tokens := by
  refine List.filter_congr fun record hrecord => ?_
  obtain ⟨id, hid⟩ := Option.ne_none_iff_exists'.mp (hsome record hrecord)
  have hiff : id ∈ destroyedEventIds spent tokens ↔ remaining spent record = [] := by
    simp only [destroyedEventIds, List.mem_filterMap, Option.ite_none_right_eq_some]
    constructor
    · rintro ⟨other, hother, hgone, hsame⟩
      obtain rfl : other = record :=
        List.inj_on_of_nodup_map hids hother hrecord (hsame.trans hid.symm)
      exact hgone
    · exact fun hgone => ⟨record, hrecord, hgone, hid⟩
  simp [hid, hiff]

theorem selectFrom_subset (amount total : Nat) (proofs : List Proof) :
    ∀ p ∈ (selectFrom amount total proofs).1, p ∈ proofs := by
  induction proofs generalizing total with
  | nil => intro p hp; cases hp
  | cons _ _ ih =>
    intro p hp
    simp only [selectFrom] at hp
    split at hp
    · cases hp
    · rcases List.mem_cons.mp hp with rfl | hrest
      · exact List.mem_cons_self
      · exact List.mem_cons_of_mem _ (ih _ p hrest)

theorem selectRecords_subset (amount total : Nat) (tokens : List TokenRecord) :
    ∀ p ∈ (selectRecords amount total tokens).1, p ∈ held tokens := by
  induction tokens generalizing total with
  | nil => intro p hp; cases hp
  | cons record _ ih =>
    intro p hp
    simp only [selectRecords] at hp
    simp only [held, List.flatMap_cons, List.mem_append]
    split at hp
    · exact .inl (selectFrom_subset amount total record.proofs p hp)
    · rcases List.mem_append.mp hp with hfirst | hrest
      · exact .inl (selectFrom_subset amount total record.proofs p hfirst)
      · exact .inr (ih _ p hrest)

theorem selectProofs_subset {amount : Nat} {mintUrl : String} {selected : List Proof}
    (h : selectProofs tokens amount mintUrl = some selected) : ∀ p ∈ selected, p ∈ held tokens := by
  simp only [selectProofs, Option.ite_none_left_eq_some, Option.some.injEq] at h
  obtain ⟨-, rfl⟩ := h
  intro p hp
  obtain ⟨record, hrecord, hp⟩ := List.mem_flatMap.mp (selectRecords_subset amount 0 _ p hp)
  exact List.mem_flatMap.mpr ⟨record, List.mem_of_mem_filter hrecord, hp⟩

theorem splitAmount_eq_nil {amount : Nat} (hword : amount < u64Modulus) :
    splitAmount amount = [] ↔ amount = 0 := by
  constructor
  · intro hnil
    refine Nat.eq_of_testBit_eq fun bit => ?_
    rw [Nat.zero_testBit]
    by_cases hbit : bit < 64
    · have := List.filterMap_eq_nil_iff.mp hnil bit (List.mem_range.mpr hbit)
      simpa using this
    · refine Nat.testBit_lt_two_pow (hword.trans_le ?_)
      exact Nat.pow_le_pow_right (by omega) (by omega)
  · rintro rfl
    simp [splitAmount]

theorem sumAmounts_lt (proofs : List Proof) : sumAmounts proofs < u64Modulus := by
  rw [sumAmounts, foldl_addU64 _ _ (by decide)]
  exact Nat.mod_lt _ (by decide)

/-- A completed send has inputs, and change unless they are worth the amount and the fee. -/
theorem spend_eq_some {amount : Nat} {mintUrl : String} {inputFeePpk : Option Nat}
    {answer : Option (List Proof)} {spent : Spend}
    (h : spend tokens amount mintUrl inputFeePpk answer = some spent) :
    ∃ fee, inputFeePpk = some fee ∧ selectProofs tokens amount mintUrl = some spent.selected ∧
      spent.selected ≠ [] ∧
      (spent.change = [] ↔
        sumAmounts spent.selected - amount = computeFee spent.selected.length fee) := by
  obtain ⟨selected, hselected, h⟩ := Option.bind_eq_some_iff.mp h
  obtain ⟨inputFeePpk, rfl, h⟩ := Option.bind_eq_some_iff.mp h
  obtain ⟨hfee, h⟩ := Option.ite_none_left_eq_some.mp h
  obtain ⟨newProofs, hswap, rfl⟩ := Option.map_eq_some_iff.mp h
  simp only [swap, Option.ite_none_left_eq_some, not_or, finalizeBlindedOutputs] at hswap
  obtain ⟨⟨hinputs, -⟩, hanswer⟩ := hswap
  have hlength : newProofs.length = (splitAmount amount).length + (splitAmount
      (sumAmounts selected - amount - computeFee selected.length inputFeePpk)).length := by
    have hamounts := Option.filter_eq_some_iff.mp hanswer
    simpa using congrArg List.length (of_decide_eq_true hamounts.2)
  refine ⟨inputFeePpk, rfl, hselected, hinputs, ?_⟩
  have hword : sumAmounts selected - amount - computeFee selected.length inputFeePpk <
      u64Modulus := by
    have := sumAmounts_lt selected
    omega
  have hgross : ¬ sumAmounts selected - amount < computeFee selected.length inputFeePpk := hfee
  dsimp only
  rw [List.drop_eq_nil_iff, hlength]
  have hnone := splitAmount_eq_nil hword
  rw [← List.length_eq_zero_iff] at hnone
  constructor
  · intro hle
    have := hnone.mp (by omega)
    omega
  · intro heq
    have := hnone.mpr (by omega)
    omega

/-- The live events decode to the records in memory, which hold nothing that was spent. -/
structure Inv (decrypt : γ → Option TokenContent) (t : Published γ) : Prop where
  ids : ((tokenEvents (published t)).map TokenEvent.id).Nodup
  deleted : ∀ id ∈ deletions (published t), id ∈ (tokenEvents (published t)).map TokenEvent.id
  recorded : (liveTokens t).filterMap (decodeTokenEvent decrypt) = t.handle.tokens
  gone : ∀ p ∈ held t.handle.tokens, p.secret ∉ t.consumed
  named : t.changes = []

variable {encrypt : TokenContent → γ} {decrypt : γ → Option TokenContent} {t t' : Published γ}

theorem Inv.eventIds (h : Inv decrypt t) :
    (t.handle.tokens.map eventId).Nodup ∧
      ∀ record ∈ t.handle.tokens, ∃ id ∈ (tokenEvents (published t)).map TokenEvent.id,
        record.eventId = some id := by
  rw [← h.recorded]
  constructor
  · exact nodup_eventIds decrypt (h.ids.sublist (List.filter_sublist.map _))
  · intro record hrecord
    obtain ⟨event, hevent, hdecode⟩ := List.mem_filterMap.mp hrecord
    exact ⟨event.id, List.mem_map_of_mem (List.mem_of_mem_filter hevent),
      eventId_of_decode hdecode⟩

/-- The records rebuilt are those the live events decode to. -/
theorem rebuilt_perm (decrypt : γ → Option TokenContent)
    (hids : ((tokenEvents (published t)).map TokenEvent.id).Nodup) :
    (held (rebuilt decrypt t).tokens).Perm
      (held ((liveTokens t).filterMap (decodeTokenEvent decrypt))) :=
  (ingestTokenEvents_perm decrypt _ (hids.sublist (List.filter_sublist.map _))).flatMap_right _

theorem Inv.determined (h : Inv decrypt t) : Determined decrypt t := by
  have hperm := rebuilt_perm decrypt h.ids
  rw [h.recorded] at hperm
  refine ⟨hperm, fun p hp => h.gone p (hperm.mem_iff.mp hp), ?_⟩
  rw [h.named]
  intro change hchange
  cases hchange

/-- Events that delete or create no token, and no change of the records. -/
theorem Inv.idle (h : Inv decrypt t) (hpublished : published t' = published t)
    (htokens : t'.handle.tokens = t.handle.tokens) (hchanges : t'.changes = t.changes)
    (hconsumed : t'.consumed = t.consumed) : Inv decrypt t' where
  ids := by rw [hpublished]; exact h.ids
  deleted := by rw [hpublished]; exact h.deleted
  recorded := by rw [liveTokens, hpublished, htokens]; exact h.recorded
  gone := by rw [htokens, hconsumed]; exact h.gone
  named := hchanges.trans h.named

/-- New live events join the others, and deletions take theirs away. -/
theorem liveTokens_append {events : List (Event γ)} (h : Inv decrypt t)
    (hpublished : published t' = published t ++ events)
    (hfresh : ∀ event ∈ tokenEvents events,
      event.id ∉ (tokenEvents (published t)).map TokenEvent.id)
    (hdeleted : ∀ id ∈ deletions events, id ∈ (tokenEvents (published t)).map TokenEvent.id) :
    liveTokens t' = ((liveTokens t).filter fun event => event.id ∉ deletions events) ++
      tokenEvents events := by
  have hnew : (tokenEvents events).filter (fun event =>
      event.id ∉ deletions (published t) ++ deletions events) = tokenEvents events := by
    refine List.filter_eq_self.mpr fun event hevent => ?_
    have hno := hfresh event hevent
    have hdel : event.id ∉ deletions (published t) := fun hmem => hno (h.deleted _ hmem)
    have hdel' : event.id ∉ deletions events := fun hmem => hno (hdeleted _ hmem)
    simp [hdel, hdel']
  rw [liveTokens, hpublished, tokenEvents_append, deletions_append, List.filter_append, hnew,
    liveTokens, List.filter_filter]
  congr 1
  refine List.filter_congr fun event _ => ?_
  simp [and_comm]

/-- A record saved with its event. -/
theorem Inv.save (hround : ∀ content, decrypt (encrypt content) = some content)
    (h : Inv decrypt t) (mintUrl : String) (redeemed : List String) {tokenId : String}
    {proofs : List Proof} (hid : tokenId ∉ (tokenEvents (published t)).map TokenEvent.id)
    (hsecrets : ∀ p ∈ proofs, p.secret ∉ t.consumed)
    (htokens : t'.handle.tokens = t.handle.tokens ++ [⟨mintUrl, proofs, [], some tokenId⟩])
    (hpublished : published t' = published t ++
      [.token (buildTokenEvent encrypt (.new mintUrl proofs) tokenId), .history redeemed])
    (hchanges : t'.changes = t.changes) (hconsumed : t'.consumed = t.consumed) :
    Inv decrypt t' := by
  have hlive := liveTokens_append h hpublished
    (fun event hevent => by simpa [List.mem_singleton.mp hevent, buildTokenEvent] using hid)
    fun id hid => by cases hid
  refine ⟨?_, fun id hmem => ?_, ?_, fun p hp => ?_, hchanges.trans h.named⟩
  · rw [hpublished, tokenEvents_append, List.map_append, List.nodup_append]
    refine ⟨h.ids, List.nodup_singleton _, fun a ha b hb => ?_⟩
    obtain rfl := List.mem_singleton.mp hb
    rintro rfl
    exact hid ha
  · rw [hpublished] at hmem ⊢
    rw [deletions_append] at hmem
    rw [tokenEvents_append, List.map_append]
    rcases List.mem_append.mp hmem with hold | hnew
    · exact List.mem_append_left _ (h.deleted id hold)
    · cases hnew
  · rw [hlive, htokens, ← h.recorded, List.filterMap_append]
    congr 1
    · exact congrArg _ (List.filter_eq_self.mpr fun event _ => rfl)
    · simp [tokenEvents, buildTokenEvent, decodeTokenEvent, hround, new]
  · rw [htokens, held_append, held_singleton] at hp
    rw [hconsumed]
    exact (List.mem_append.mp hp).elim (h.gone p) (hsecrets p)

section
variable {amount : Nat} {mint changeId : String} {rest : List String} {inputFeePpk : Option Nat}
  {answer : Option (List Proof)} {spent : Spend}

/-- The event of the change, if there is any. -/
def changeEvents (encrypt : TokenContent → γ) (mint changeId : String) (change : List Proof) :
    List (Event γ) :=
  if change = [] then [] else [.token (buildTokenEvent encrypt (.new mint change) changeId)]

/-- What a completed send does to memory and outbox. -/
theorem perform_send (encrypt : TokenContent → γ) (rest : List String) (changeId : String)
    (hspent : spend t.handle.tokens amount mint inputFeePpk answer = some spent) :
    (perform encrypt t (.send amount (mint :: rest) inputFeePpk answer changeId)).handle.tokens =
        keptTokens spent.selected t.handle.tokens ++ (if spent.change = [] then [] else
          [⟨mint, spent.change, destroyedEventIds spent.selected t.handle.tokens, some changeId⟩]) ∧
      published (perform encrypt t (.send amount (mint :: rest) inputFeePpk answer changeId)) =
        published t ++ ((destroyedEventIds spent.selected t.handle.tokens).map .deletion ++
          changeEvents encrypt mint changeId spent.change ++ [.nutzap mint spent.nutzapProofs]) ∧
      (perform encrypt t (.send amount (mint :: rest) inputFeePpk answer changeId)).changes =
        t.changes ++ (if spent.change = [] then [] else
          [(changeId, destroyedEventIds spent.selected t.handle.tokens)]) ∧
      (perform encrypt t (.send amount (mint :: rest) inputFeePpk answer changeId)).consumed =
        t.consumed ++ secretsOf spent.selected := by
  simp only [perform, spendOf, hspent, sendNutzap,
    updateTokensAfterSpend, published, changeEvents]
  split <;> simp

/-- After a send the live events are those of the surviving records, and of the change. -/
theorem Inv.sent (hround : ∀ content, decrypt (encrypt content) = some content)
    (h : Inv decrypt t) (hid : changeId ∉ (tokenEvents (published t)).map TokenEvent.id)
    {spentProofs change : List Proof} {nutzapProofs : List Proof}
    (hpublished : published t' = published t ++
      ((destroyedEventIds spentProofs t.handle.tokens).map .deletion ++
        changeEvents encrypt mint changeId change ++ [.nutzap mint nutzapProofs])) :
    ((tokenEvents (published t')).map TokenEvent.id).Nodup ∧
      (∀ id ∈ deletions (published t'), id ∈ (tokenEvents (published t')).map TokenEvent.id) ∧
      (liveTokens t').filterMap (decodeTokenEvent decrypt) =
        survivors spentProofs t.handle.tokens ++
          if change = [] then [] else [⟨mint, change, [], some changeId⟩] := by
  obtain ⟨hids, hevents⟩ := h.eventIds
  have htokenEvents : tokenEvents ((destroyedEventIds spentProofs t.handle.tokens).map .deletion ++
      changeEvents encrypt mint changeId change ++ [.nutzap mint nutzapProofs]) =
        if change = [] then [] else [buildTokenEvent encrypt (.new mint change) changeId] := by
    rw [tokenEvents_append, tokenEvents_append, tokenEvents_deletions, changeEvents]
    split <;> simp [tokenEvents]
  have hdeletions : deletions ((destroyedEventIds spentProofs t.handle.tokens).map .deletion ++
      changeEvents encrypt mint changeId change ++ [.nutzap mint nutzapProofs]) =
        destroyedEventIds spentProofs t.handle.tokens := by
    rw [deletions_append, deletions_append, deletions_deletions, changeEvents]
    split <;> simp [deletions]
  have hdestroyed : ∀ id ∈ destroyedEventIds spentProofs t.handle.tokens,
      id ∈ (tokenEvents (published t)).map TokenEvent.id := by
    intro id hmem
    obtain ⟨record, hrecord, hgone⟩ := List.mem_filterMap.mp hmem
    obtain ⟨known, hknown, hrecordId⟩ := hevents record hrecord
    rw [hrecordId, Option.ite_none_right_eq_some] at hgone
    exact Option.some.inj hgone.2 ▸ hknown
  have hfresh : ∀ event ∈ (if change = [] then [] else
      [buildTokenEvent encrypt (.new mint change) changeId]),
        event.id = changeId := by
    intro event hevent
    split at hevent
    · cases hevent
    · rw [List.mem_singleton.mp hevent]
      rfl
  have hlive := liveTokens_append h hpublished
    (fun event hevent => by rw [htokenEvents] at hevent; rw [hfresh event hevent]; exact hid)
    fun id hmem => hdestroyed id (hdeletions ▸ hmem)
  refine ⟨?_, fun id hmem => ?_, ?_⟩
  · rw [hpublished, tokenEvents_append, htokenEvents, List.map_append, List.nodup_append]
    refine ⟨h.ids, by split <;> simp, fun a ha b hb => ?_⟩
    obtain ⟨event, hevent, rfl⟩ := List.mem_map.mp hb
    rw [hfresh event hevent]
    rintro rfl
    exact hid ha
  · rw [hpublished, deletions_append, hdeletions] at hmem
    rw [hpublished, tokenEvents_append, List.map_append]
    exact List.mem_append_left _ ((List.mem_append.mp hmem).elim (h.deleted id) (hdestroyed id))
  · have hkept := filterMap_decode_filter decrypt
      (fun id => decide (id ∉ destroyedEventIds spentProofs t.handle.tokens)) (liveTokens t)
    rw [h.recorded, filter_destroyed hids fun record hrecord => by
      obtain ⟨id, -, hrecordId⟩ := hevents record hrecord
      simp [hrecordId]] at hkept
    rw [hlive, hdeletions, htokenEvents, List.filterMap_append, hkept]
    congr 1
    split
    · rfl
    · simp [buildTokenEvent, decodeTokenEvent, hround, new]

theorem spendsWhole_iff {t : Published γ} {fee : Nat}
    (hspent : spend t.handle.tokens amount mint (some fee) answer = some spent) :
    SpendsWhole t (.send amount (mint :: rest) (some fee) answer changeId) ↔
      spent.change = [] ∧ ∀ record ∈ t.handle.tokens,
        remaining spent.selected record = [] ∨
          remaining spent.selected record = record.proofs := by
  obtain ⟨fee', hfee, hselected, -, hchange⟩ := spend_eq_some hspent
  obtain rfl := Option.some.inj hfee
  simp only [SpendsWhole, spendOf, hspent, hselected, Option.mem_def, Option.some.injEq, ne_eq,
    reduceCtorEq, not_false_eq_true, forall_true_left, forall_eq', hchange]

section

variable (hround : ∀ content, decrypt (encrypt content) = some content) (h : Inv decrypt t)
  (hid : changeId ∉ (tokenEvents (published t)).map TokenEvent.id)
  (hspent : spend t.handle.tokens amount mint inputFeePpk answer = some spent)
include hround h hid hspent

/-- A send that spends whole records is forgotten by memory and events alike. -/
theorem Inv.spendsWhole (hchange : spent.change = [])
    (hwhole : ∀ record ∈ t.handle.tokens, remaining spent.selected record = [] ∨ remaining spent.selected record = record.proofs)
    :
    Inv decrypt (perform encrypt t (.send amount (mint :: rest) inputFeePpk answer changeId)) := by
  obtain ⟨htokens, hpublished, hchanges, hconsumed⟩ := perform_send encrypt rest changeId
    hspent
  obtain ⟨hids, hdeleted, hrecorded⟩ := h.sent hround hid hpublished
  rw [hchange, if_pos rfl, List.append_nil] at htokens hrecorded hchanges
  refine ⟨hids, hdeleted, ?_, fun p hp => ?_, hchanges.trans h.named⟩
  · rw [hrecorded, htokens, keptTokens_whole hwhole]
  · rw [htokens] at hp
    obtain ⟨kept, hkept, hp⟩ := List.mem_flatMap.mp hp
    obtain ⟨record, hrecord, hkept⟩ := List.mem_filterMap.mp hkept
    obtain ⟨-, hkept⟩ := Option.ite_none_left_eq_some.mp hkept
    obtain rfl := Option.some.inj hkept
    obtain ⟨hmem, hunspent⟩ := List.mem_filter.mp hp
    rw [hconsumed, List.mem_append, not_or]
    exact ⟨h.gone p (List.mem_flatMap.mpr ⟨record, hrecord, hmem⟩), by simpa using hunspent⟩

/-- Where the events still determine the balance after a send, it spent whole records. -/
theorem Inv.send_needs
    (hgood : Determined decrypt (perform encrypt t (.send amount (mint :: rest) inputFeePpk answer changeId)))
    :
    spent.change = [] ∧ ∀ record ∈ t.handle.tokens,
      remaining spent.selected record = [] ∨ remaining spent.selected record = record.proofs := by
  obtain ⟨htokens, hpublished, hchanges, -⟩ := perform_send encrypt rest changeId
    hspent
  obtain ⟨hids, -, hrecorded⟩ := h.sent hround hid hpublished
  have hwhole : ∀ record ∈ t.handle.tokens, remaining spent.selected record = [] ∨
      remaining spent.selected record = record.proofs := by
    refine whole_of_length_eq spent.selected ?_
    have hlength := ((rebuilt_perm decrypt hids).symm.trans hgood.same).length_eq
    rw [hrecorded, htokens, held_append, held_append, List.length_append,
      List.length_append] at hlength
    split at hlength
    · simpa using hlength.symm
    · rw [held_singleton, held_singleton] at hlength
      dsimp only at hlength
      omega
  refine ⟨?_, hwhole⟩
  by_contra hchange
  rw [if_neg hchange] at hchanges
  obtain ⟨event, hevent, heventId, record, hdecode, hnamed⟩ := hgood.named _
    (by rw [hchanges]; exact List.mem_append_right _ (List.mem_singleton.mpr rfl))
  -- the change event names nothing, yet some record was spent whole
  have hdel : record.del = [] := by
    have hsame : event = buildTokenEvent encrypt (.new mint spent.change) changeId := by
      rw [hpublished, tokenEvents_append] at hevent
      rcases List.mem_append.mp hevent with hold | hnew
      · have hknown := List.mem_map_of_mem (f := TokenEvent.id) hold
        rw [heventId] at hknown
        exact absurd hknown hid
      · simpa [tokenEvents_append, changeEvents, hchange, tokenEvents] using hnew
    rw [hsame, decodeTokenEvent, buildTokenEvent, hround] at hdecode
    exact Option.some.inj hdecode ▸ rfl
  obtain ⟨-, -, hselected, hinputs, -⟩ := spend_eq_some hspent
  obtain ⟨p, hp⟩ := List.exists_mem_of_ne_nil _ hinputs
  obtain ⟨touched, htouched, hmem⟩ := List.mem_flatMap.mp (selectProofs_subset hselected p hp)
  have hgone : remaining spent.selected touched = [] := by
    refine (hwhole touched htouched).resolve_right fun hsame => ?_
    rw [← hsame] at hmem
    have hunspent := (List.mem_filter.mp hmem).2
    exact of_decide_eq_true hunspent (List.mem_map_of_mem hp)
  obtain ⟨id, -, htouchedId⟩ := h.eventIds.2 touched htouched
  have hdestroyed : id ∈ destroyedEventIds spent.selected t.handle.tokens :=
    List.mem_filterMap.mpr ⟨touched, htouched, by rw [if_pos hgone, htouchedId]⟩
  have hnamed := hnamed id hdestroyed
  rw [hdel] at hnamed
  cases hnamed

end

end

theorem answer_of_mintTokens {amount : Nat} {answer : Option (List Proof)} {proofs : List Proof}
    (h : mintTokens amount answer = some proofs) : proofs ∈ answer := by
  simp only [mintTokens, Option.ite_none_left_eq_some, finalizeBlindedOutputs] at h
  exact (Option.filter_eq_some_iff.mp h.2).1

theorem answer_of_swap {inputs : List Proof} {outputAmounts : List Nat}
    {answer : Option (List Proof)} {proofs : List Proof}
    (h : swap inputs outputAmounts answer = some proofs) : proofs ∈ answer := by
  simp only [swap, Option.ite_none_left_eq_some, finalizeBlindedOutputs] at h
  exact (Option.filter_eq_some_iff.mp h.2).1

theorem Inv.deposited (hround : ∀ content, decrypt (encrypt content) = some content)
    (h : Inv decrypt t) {mintUrl tokenId : String} {amount : Nat} {answer : Option (List Proof)}
    (hfresh : Fresh t (.deposit mintUrl amount answer tokenId)) :
    Inv decrypt (perform encrypt t (.deposit mintUrl amount answer tokenId)) := by
  obtain ⟨hid, hsecrets⟩ := hfresh
  cases hminted : mintTokens amount answer with
  | none =>
    have hsame : perform encrypt t (.deposit mintUrl amount answer tokenId) = t := by
      simp only [perform, completeDeposit, hminted]
    rw [hsame]
    exact h
  | some proofs =>
    apply h.save hround mintUrl [] hid (hsecrets proofs (answer_of_mintTokens hminted))
    · simp only [perform, completeDeposit, hminted,
        saveProofs, new]
    · simp only [perform, published, completeDeposit, hminted,
        saveProofs, List.append_assoc]
    · rfl
    · rfl

theorem Inv.redeemed (hround : ∀ content, decrypt (encrypt content) = some content)
    (h : Inv decrypt t) {nutzap : ReceivedNutZap} {inputFeePpk : Option Nat}
    {answer : Option (List Proof)} {tokenId : String}
    (hfresh : Fresh t (.redeem nutzap inputFeePpk answer tokenId)) :
    Inv decrypt (perform encrypt t (.redeem nutzap inputFeePpk answer tokenId)) := by
  obtain ⟨hid, hsecrets⟩ := hfresh
  by_cases hseen : nutzap.eventId ∈ t.handle.redeemed
  · have hsame : perform encrypt t (.redeem nutzap inputFeePpk answer tokenId) = t := by
      simp only [perform, redeemNutzap, if_pos hseen]
    rw [hsame]
    exact h
  · cases inputFeePpk with
    | none =>
      have hsame : perform encrypt t (.redeem nutzap none answer tokenId) = t := by
        simp only [perform, redeemNutzap, if_neg hseen]
      rw [hsame]
      exact h
    | some fee =>
      cases hswap : swap nutzap.proofs (splitAmount (sumAmounts nutzap.proofs -
          computeFee nutzap.proofs.length fee)) answer with
      | none =>
        have hsame : perform encrypt t (.redeem nutzap (some fee) answer tokenId) = t := by
          simp only [perform, redeemNutzap, if_neg hseen, hswap]
        rw [hsame]
        exact h
      | some proofs =>
        apply h.save hround nutzap.mintUrl [nutzap.eventId] hid
          (hsecrets proofs (answer_of_swap hswap))
        · simp only [perform, redeemNutzap, if_neg hseen, hswap,
            saveProofs, new]
        · simp only [perform, published, redeemNutzap, if_neg hseen, hswap,
            saveProofs, List.append_assoc]
        · rfl
        · rfl

/-- A send that does not complete does nothing. -/
theorem perform_unspent {amount : Nat} {recipientMints : List String} {inputFeePpk : Option Nat}
    {answer : Option (List Proof)} {changeId : String}
    (h : spendOf t.handle.tokens (.send amount recipientMints inputFeePpk answer changeId) = none) :
    perform encrypt t (.send amount recipientMints inputFeePpk answer changeId) = t := by
  cases recipientMints with
  | nil => rfl
  | cons =>
    simp only [spendOf] at h
    simp only [perform, spendOf, h, sendNutzap]

section

variable {act : Act} (hround : ∀ content, decrypt (encrypt content) = some content)
  (h : Inv decrypt t) (hfresh : Fresh t act)
include hround h hfresh

theorem Inv.step (hok : SpendsWhole t act) : Inv decrypt (perform encrypt t act) := by
  cases act with
  | deposit => exact h.deposited hround hfresh
  | redeem => exact h.redeemed hround hfresh
  | take =>
    exact h.idle (by simp [perform, published, takeOutbox]) rfl rfl rfl
  | send amount recipientMints inputFeePpk answer changeId =>
    cases hspent : spendOf t.handle.tokens
        (.send amount recipientMints inputFeePpk answer changeId) with
    | none =>
      rw [perform_unspent hspent]
      exact h
    | some spent =>
      cases recipientMints with
      | nil => cases hspent
      | cons =>
        obtain ⟨fee, rfl, -⟩ := spend_eq_some hspent
        obtain ⟨hchange, hwhole⟩ := (spendsWhole_iff hspent).mp hok
        exact h.spendsWhole hround hfresh.1 hspent hchange hwhole

theorem Inv.needs (hgood : Determined decrypt (perform encrypt t act)) : SpendsWhole t act := by
  cases act with
  | deposit | redeem | take => trivial
  | send amount recipientMints inputFeePpk answer =>
    cases recipientMints with
    | nil => trivial
    | cons mint =>
      cases inputFeePpk with
      | none => trivial
      | some fee =>
        cases hspent : spend t.handle.tokens amount mint (some fee) answer with
        | none => exact fun hsome => absurd hspent hsome
        | some =>
          exact (spendsWhole_iff hspent).mpr (h.send_needs hround hfresh.1 hspent hgood)

end

/-- A new wallet, of which nothing was taken yet. -/
def created (mintUrl : String) : Published γ := ⟨.createNew mintUrl, [], [], []⟩

theorem inv_created (decrypt : γ → Option TokenContent) (mintUrl : String) :
    Inv decrypt (created mintUrl) where
  ids := List.nodup_nil
  deleted := fun id hid => by cases hid
  recorded := rfl
  gone := fun p hp => by cases hp
  named := rfl

end

/-- The published events determine the balance throughout exactly the runs whose sends spend
whole token records without change. -/
theorem outbox_determines_balance_iff {γ : Type} (encrypt : TokenContent → γ)
    (decrypt : γ → Option TokenContent)
    (hround : ∀ content, decrypt (encrypt content) = some content) (mintUrl : String)
    (acts : List Act) (hfresh : Meets (perform encrypt) Fresh (created mintUrl) acts) :
    (∀ done, done <+: acts → Determined decrypt (run (perform encrypt) (created mintUrl) done)) ↔
      Meets (perform encrypt) SpendsWhole (created mintUrl) acts :=
  always_iff_meets (Inv decrypt) (Determined decrypt)
    (fun _ _ h hfresh hok => h.step hround hfresh hok) (fun _ h => h.determined)
    (fun _ _ h hfresh hgood => h.needs hround hfresh hgood) (inv_created decrypt mintUrl) hfresh

/-- A token event of one proof, sent whole. -/
def sentWhole : List Act :=
  [.deposit "https://m" 32 (some [⟨32, "k", "s", "P"⟩]) "1", .take,
    .send 32 ["https://m"] (some 0) (some [⟨32, "k", "locked", "Q"⟩]) "2"]

theorem outbox_determines_balance_iff_whole :
    (∀ done, done <+: sentWhole → Determined some (run (perform id) (created "https://m") done)) ↔
      Meets (perform id) SpendsWhole (created "https://m") sentWhole :=
  outbox_determines_balance_iff id some (fun _ => rfl) "https://m" sentWhole (by decide +kernel)

/-- A token event of two proofs, of which one is sent. -/
def sentInPart : List Act :=
  [.deposit "https://m" 96 (some [⟨32, "k", "s", "P"⟩, ⟨64, "k", "u", "R"⟩]) "1",
    .send 32 ["https://m"] (some 0) (some [⟨32, "k", "locked", "Q"⟩]) "2"]

theorem sent_proof_reappears :
    ¬ ∀ acts, Meets (perform id) Fresh (created "https://m") acts →
      ∀ done, done <+: acts → Determined some (run (perform id) (created "https://m") done) := by
  intro h
  have hgone := (h sentInPart (by decide +kernel) sentInPart (List.prefix_refl _)).gone
    ⟨32, "k", "s", "P"⟩ (by decide +kernel)
  exact absurd hgone (by decide +kernel)

end Nip60Rebuild
