import Mathlib.Data.String.Basic
import NostrMultiPlatform.Sorted
import NostrMultiPlatform.Transducers
import NostrMultiPlatform.WalletLifecycle

/-!
# Sends that wait for a recipient

A send whose recipient's mints are not known yet is parked under the recipient. The
arrival of the recipient's event takes all that wait for it, and each is then started
again as a fresh operation, named after the number it was parked under; a sweep takes
those that have waited too long. The numbers start over with the state, the journal is
read back from disk.
-/
namespace WalletAwait

open Sorted Runs Transducers WalletJournal WalletState WalletLifecycle WalletProof

structure PendingSendAwait where
  awaitId : Nat
  accountPubkey : String
  recipientPubkey : String
  amountSats : Nat
  targetEventId : Option String
  correlationId : Option String
  parkedAtSecs : Nat
  deriving DecidableEq, Repr

/-- The wallet's state with its parked sends, by recipient, and the sends that a taker still has in
hand, outside the lock. -/
structure AwaitingState where
  wallet : CashuWalletState
  pendingSends : SortedMap String (List PendingSendAwait)
  nextSendAwaitId : Nat
  inHand : List PendingSendAwait

/-- What happens to a parked send: a redrive begins its operation or reports a failure. -/
inductive Emission
  | parked (entry : PendingSendAwait)
  | taken (entry : PendingSendAwait)
  | expired (entry : PendingSendAwait)
  | redriven (entry : PendingSendAwait) (operationId : String) (began : Bool)
  deriving DecidableEq, Repr

/-- The send that is put away. -/
def Emission.put : Emission → Option PendingSendAwait
  | .parked entry => some entry
  | _ => none

/-- The send that is handed out. -/
def Emission.handed : Emission → Option PendingSendAwait
  | .taken entry | .expired entry => some entry
  | _ => none

def parkSendAwait (s : AwaitingState) (recipientPubkey accountPubkey : String) (amountSats : Nat)
    (targetEventId correlationId : Option String) (nowSecs : Nat) :
    AwaitingState × PendingSendAwait :=
  let entry : PendingSendAwait := ⟨s.nextSendAwaitId, accountPubkey, recipientPubkey, amountSats,
    targetEventId, correlationId, nowSecs⟩
  ({ s with
      pendingSends := s.pendingSends.alter recipientPubkey fun awaits => awaits.getD [] ++ [entry]
      nextSendAwaitId := addU64 s.nextSendAwaitId 1 }, entry)

def takeSendAwaits (s : AwaitingState) (recipientPubkey : String) :
    AwaitingState × List PendingSendAwait :=
  ({ s with pendingSends := s.pendingSends.erase recipientPubkey },
    (s.pendingSends.lookup recipientPubkey).getD [])

/-- The age has reached the timeout. -/
def isExpired (nowSecs timeoutSecs : Nat) (entry : PendingSendAwait) : Bool :=
  timeoutSecs ≤ nowSecs - entry.parkedAtSecs

/-- The entries that are left under a recipient, if any. -/
def unexpired (nowSecs timeoutSecs : Nat) (awaits : List PendingSendAwait) :
    Option (List PendingSendAwait) :=
  let kept := awaits.filter fun entry => !isExpired nowSecs timeoutSecs entry
  if kept = [] then none else some kept

def sweepExpiredSendAwaits (s : AwaitingState) (nowSecs timeoutSecs : Nat) :
    AwaitingState × List PendingSendAwait :=
  ({ s with
      pendingSends :=
        s.pendingSends.filterMapRows fun _ awaits => unexpired nowSecs timeoutSecs awaits },
    s.pendingSends.rows.flatMap fun row => row.2.filter (isExpired nowSecs timeoutSecs))

/-- The name of the fresh operation. -/
def retryOp (awaitId : Nat) : String := "nutzap-await-redrive-" ++ toString awaitId

def redrive (wallet : CashuWalletState) (parked : PendingSendAwait) (nowSecs : Nat) :
    CashuWalletState × Emission :=
  match wallet.beginOperationAt (retryOp parked.awaitId) .sendNutzap nowSecs with
  | .error _ => (wallet, .redriven parked (retryOp parked.awaitId) false)
  | .ok wallet =>
    (wallet.editJournal fun j => j.recordAmount (retryOp parked.awaitId) parked.amountSats,
      .redriven parked (retryOp parked.awaitId) true)

/-- One critical section: a send that finds no mints, the event of an author, the next redrive of
what it took, the idle tick, an account switch, a restore, and the wallet's other commands. -/
inductive Act
  | park (recipientPubkey accountPubkey : String) (amountSats : Nat)
      (targetEventId correlationId : Option String) (nowSecs : Nat)
  | arrive (author : String)
  | redrive (nowSecs : Nat)
  | sweep (nowSecs timeoutSecs : Nat)
  | reset
  | restore (account : String)
  | other (wallet : CashuWalletState)

def start (walStore : Option WalletWalStore) : AwaitingState := ⟨.new walStore, ∅, 0, []⟩

def step (s : AwaitingState) : Act → AwaitingState × List Emission
  | .park recipient account amount target correlation now =>
    let parked := parkSendAwait s recipient account amount target correlation now
    (parked.1, [.parked parked.2])
  | .arrive author =>
    let awaits := takeSendAwaits s author
    ({ awaits.1 with inHand := s.inHand ++ awaits.2 }, awaits.2.map .taken)
  | .redrive now =>
    match s.inHand with
    | [] => (s, [])
    | parked :: rest =>
      let redriven := redrive s.wallet parked now
      ({ s with wallet := redriven.1, inHand := rest }, [redriven.2])
  | .sweep now timeout =>
    let swept := sweepExpiredSendAwaits s now timeout
    (swept.1, swept.2.map .expired)
  | .reset => (⟨WalletLifecycle.reset s.wallet, ∅, 0, s.inHand⟩, [])
  | .restore account => ({ s with wallet := (restoreFromWal s.wallet account).1 }, [])
  | .other wallet => ({ s with wallet := wallet }, [])

/-- The parked entries, over all recipients. -/
def entries (s : AwaitingState) : List PendingSendAwait := s.pendingSends.rows.flatMap Prod.snd

/-- The entry is taken by the act: its recipient's event came, or its time is up. -/
def Due (entry : PendingSendAwait) : Act → Prop
  | .arrive author => author = entry.recipientPubkey
  | .sweep now timeout => timeout ≤ now - entry.parkedAtSecs
  | _ => False

/-- Every entry is filed under its recipient. -/
def Filed (rows : List (String × List PendingSendAwait)) : Prop :=
  ∀ row ∈ rows, ∀ entry ∈ row.2, entry.recipientPubkey = row.1

theorem alterRow_perm (k : String) (entry : PendingSendAwait)
    (rows : List (String × List PendingSendAwait)) :
    ((alterRow k (fun awaits => awaits.getD [] ++ [entry]) rows).flatMap Prod.snd).Perm
      (entry :: rows.flatMap Prod.snd) := by
  induction rows with
  | nil => simp [alterRow]
  | cons row _ ih =>
    rw [alterRow]
    split
    · simp
    · split
      · rw [List.flatMap_cons, List.flatMap_cons]
        change ((row.2 ++ [entry]) ++ _).Perm _
        rw [List.append_assoc, List.singleton_append]
        exact List.perm_middle
      · rw [List.flatMap_cons, List.flatMap_cons]
        exact (ih.append_left row.2).trans List.perm_middle

variable {entry parked : PendingSendAwait} {s : AwaitingState} {act : Act} {id : String}
  {acts : List Act}

theorem alterRow_filed {k : String} {rows : List (String × List PendingSendAwait)} (h : Filed rows)
    (hk : entry.recipientPubkey = k) :
    Filed (alterRow k (fun awaits => awaits.getD [] ++ [entry]) rows) := by
  induction rows with
  | nil =>
    intro row hrow e he
    obtain rfl := List.mem_singleton.mp hrow
    obtain rfl := List.mem_singleton.mp he
    exact hk
  | cons row₀ rest ih =>
    have hrest : Filed rest := fun row hrow => h row (List.mem_cons_of_mem _ hrow)
    have hnew : ∀ e ∈ ([] : List PendingSendAwait) ++ [entry], e.recipientPubkey = k := by
      simp [hk]
    rw [alterRow]
    split
    · intro row hrow
      rcases List.mem_cons.mp hrow with rfl | hrow
      · exact hnew
      · exact h row hrow
    · split
      next heq =>
        intro row hrow
        rcases List.mem_cons.mp hrow with rfl | hrow
        · intro e he
          rcases List.mem_append.mp he with he | he
          · exact (h row₀ List.mem_cons_self e he).trans heq.symm
          · rw [List.mem_singleton.mp he, hk]
        · exact hrest row hrow
      · intro row hrow
        rcases List.mem_cons.mp hrow with rfl | hrow
        · exact h row List.mem_cons_self
        · exact ih hrest row hrow

/-- A recipient's row and the other rows. -/
theorem erase_perm {k : String} {rows : List (String × List PendingSendAwait)}
    (hsorted : rows.Pairwise fun a b => a.1 < b.1) :
    (rows.flatMap Prod.snd).Perm ((find k rows).getD [] ++
      (rows.filterMap fun row => (if row.1 = k then none else some row.2).map
        fun awaits => (row.1, awaits)).flatMap Prod.snd) := by
  induction rows with
  | nil => exact .nil
  | cons row rest ih =>
    obtain ⟨hrow, hrest⟩ := List.pairwise_cons.mp hsorted
    have hih := ih hrest
    rw [find, List.flatMap_cons]
    by_cases hk : row.1 = k
    · have hnone : find k rest = none :=
        find_eq_none fun other hother => hk ▸ (hrow other hother).ne'
      rw [hnone] at hih
      rw [if_pos hk, List.filterMap_cons_none (by simp [hk])]
      exact hih.append_left row.2
    · rw [if_neg hk, List.filterMap_cons_some (by simp [hk]; rfl), List.flatMap_cons]
      exact (hih.append_left row.2).trans (List.perm_append_comm_assoc _ _ _)

theorem sweep_perm (p : PendingSendAwait → Bool) (rows : List (String × List PendingSendAwait)) :
    (rows.flatMap Prod.snd).Perm ((rows.flatMap fun row => row.2.filter p) ++
      rows.flatMap fun row => row.2.filter fun entry => !p entry) := by
  induction rows with
  | nil => exact .nil
  | cons row _ ih =>
    rw [List.flatMap_cons, List.flatMap_cons, List.flatMap_cons]
    refine ((List.filter_append_perm p row.2).symm.append ih).trans ?_
    rw [List.append_assoc, List.append_assoc]
    exact (List.perm_append_comm_assoc _ _ _).append_left _

/-- What an act puts away, what it hands out, and what is left. -/
structure Moves (s s' : AwaitingState) (out : List Emission) (act : Act) : Prop where
  perm : (entries s ++ out.filterMap Emission.put).Perm
    (out.filterMap Emission.handed ++ entries s')
  filed : Filed s'.pendingSends.rows
  due : ∀ entry ∈ out.filterMap Emission.handed, Due entry act
  left : ∀ entry ∈ entries s', entry ∈ out.filterMap Emission.put ∨ ¬ Due entry act

theorem filterMap_put_taken (xs : List PendingSendAwait) (f : PendingSendAwait → Emission)
    (hput : ∀ e, (f e).put = none) (hhanded : ∀ e, (f e).handed = some e) :
    (xs.map f).filterMap Emission.put = [] ∧ (xs.map f).filterMap Emission.handed = xs := by
  constructor
  · rw [List.filterMap_map]
    exact List.filterMap_eq_nil_iff.mpr fun e _ => hput e
  · rw [List.filterMap_map, show Emission.handed ∘ f = some from funext hhanded,
      List.filterMap_some]

theorem entries_park (s : AwaitingState) (recipient account : String) (amount : Nat)
    (target correlation : Option String) (now : Nat) :
    (entries (parkSendAwait s recipient account amount target correlation now).1).Perm
      ((parkSendAwait s recipient account amount target correlation now).2 :: entries s) :=
  alterRow_perm _ _ _

theorem filed_filterMapRows {m : SortedMap String (List PendingSendAwait)}
    {f : String → List PendingSendAwait → Option (List PendingSendAwait)} (h : Filed m.rows)
    (hf : ∀ k awaits kept, f k awaits = some kept → ∀ e ∈ kept, e ∈ awaits) :
    Filed (m.filterMapRows f).rows := by
  intro row hrow e he
  obtain ⟨old, hold, hmap⟩ := List.mem_filterMap.mp hrow
  obtain ⟨kept, hkept, rfl⟩ := Option.map_eq_some_iff.mp hmap
  exact h old hold e (hf _ _ _ hkept e he)

theorem moves_park (h : Filed s.pendingSends.rows) (recipient account : String) (amount : Nat)
    (target correlation : Option String) (now : Nat) :
    Moves s (step s (.park recipient account amount target correlation now)).1
      (step s (.park recipient account amount target correlation now)).2
      (.park recipient account amount target correlation now) where
  perm := List.perm_append_comm.trans (entries_park s recipient account amount target correlation now).symm
  filed := alterRow_filed h rfl
  due := fun _ hmem => absurd hmem List.not_mem_nil
  left := fun _ _ => .inr id

theorem moves_arrive (h : Filed s.pendingSends.rows) (author : String) :
    Moves s (step s (.arrive author)).1 (step s (.arrive author)).2 (.arrive author) := by
  obtain ⟨hput, hhanded⟩ := filterMap_put_taken (takeSendAwaits s author).2 .taken
    (fun _ => rfl) fun _ => rfl
  constructor
  · change (entries s ++ ((takeSendAwaits s author).2.map Emission.taken).filterMap _).Perm
      (((takeSendAwaits s author).2.map Emission.taken).filterMap _ ++ _)
    rw [hput, hhanded, List.append_nil]
    exact erase_perm s.pendingSends.sorted
  · apply filed_filterMapRows h
    intro k awaits kept hkept e he
    split at hkept
    · cases hkept
    · exact Option.some.inj hkept ▸ he
  · change ∀ e ∈ ((takeSendAwaits s author).2.map Emission.taken).filterMap _, _
    rw [hhanded]
    intro e he
    simp only [takeSendAwaits] at he
    cases hrow : s.pendingSends.lookup author with
    | none =>
      rw [hrow] at he
      exact absurd he List.not_mem_nil
    | some =>
      rw [hrow] at he
      exact (h _ (SortedMap.lookup_eq_some.mp hrow) e he).symm
  · intro e he
    obtain ⟨row, hrow, he⟩ := List.mem_flatMap.mp he
    obtain ⟨old, hold, hmap⟩ := List.mem_filterMap.mp hrow
    obtain ⟨kept, hkept, rfl⟩ := Option.map_eq_some_iff.mp hmap
    right
    dsimp only at hkept
    split at hkept
    · cases hkept
    next hne =>
      obtain rfl := Option.some.inj hkept
      exact fun hdue : author = _ => hne ((h old hold e he).symm.trans hdue.symm)

theorem moves_sweep (h : Filed s.pendingSends.rows) (now timeout : Nat) :
    Moves s (step s (.sweep now timeout)).1 (step s (.sweep now timeout)).2
      (.sweep now timeout) := by
  obtain ⟨hput, hhanded⟩ := filterMap_put_taken (sweepExpiredSendAwaits s now timeout).2 .expired
    (fun _ => rfl) fun _ => rfl
  have hkept : ∀ awaits kept, unexpired now timeout awaits = some kept →
      kept = awaits.filter fun entry => !isExpired now timeout entry := by
    intro awaits kept hkept
    simp only [unexpired] at hkept
    split at hkept
    · cases hkept
    · exact (Option.some.inj hkept).symm
  have hleft : entries (sweepExpiredSendAwaits s now timeout).1 =
      s.pendingSends.rows.flatMap fun row => row.2.filter fun entry => !isExpired now timeout entry := by
    simp only [entries, sweepExpiredSendAwaits, SortedMap.filterMapRows]
    induction s.pendingSends.rows with
    | nil => rfl
    | cons row _ ih =>
      rw [List.flatMap_cons, ← ih, List.filterMap_cons]
      by_cases hnil : (row.2.filter fun entry => !isExpired now timeout entry) = []
      · simp [unexpired, hnil]
      · simp [unexpired, hnil]
  constructor
  · change (entries s ++ ((sweepExpiredSendAwaits s now timeout).2.map Emission.expired).filterMap
      _).Perm (((sweepExpiredSendAwaits s now timeout).2.map Emission.expired).filterMap _ ++
        entries (sweepExpiredSendAwaits s now timeout).1)
    rw [hput, hhanded, List.append_nil, hleft]
    exact sweep_perm _ _
  · apply filed_filterMapRows h
    intro k awaits kept hsome e he
    rw [hkept awaits kept hsome] at he
    exact List.mem_of_mem_filter he
  · change ∀ e ∈ ((sweepExpiredSendAwaits s now timeout).2.map Emission.expired).filterMap _, _
    rw [hhanded]
    intro e he
    obtain ⟨row, hrow, he⟩ := List.mem_flatMap.mp he
    have hage : timeout ≤ now - e.parkedAtSecs := of_decide_eq_true (List.mem_filter.mp he).2
    exact hage
  · intro e he
    change e ∈ entries (sweepExpiredSendAwaits s now timeout).1 at he
    rw [hleft] at he
    obtain ⟨row, hrow, he⟩ := List.mem_flatMap.mp he
    have hnot := (List.mem_filter.mp he).2
    right
    intro hdue
    have hage : timeout ≤ now - e.parkedAtSecs := hdue
    rw [isExpired, decide_eq_true hage] at hnot
    cases hnot

/-- Between two resets nothing is lost and nothing is doubled. -/
theorem step_moves (h : Filed s.pendingSends.rows) (hreset : act ≠ .reset) :
    Moves s (step s act).1 (step s act).2 act := by
  cases act with
  | park recipient account amount target correlation now =>
    exact moves_park h recipient account amount target correlation now
  | arrive author => exact moves_arrive h author
  | sweep now timeout => exact moves_sweep h now timeout
  | reset => exact absurd rfl hreset
  | redrive now =>
    simp only [step]
    split
    · exact ⟨by simp, h, by simp, fun _ _ => .inr id⟩
    next parked rest hhand =>
      have hout : ∀ wallet, ∃ op began, (redrive wallet parked now).2 = .redriven parked op began := by
        intro wallet
        unfold redrive
        split <;> exact ⟨_, _, rfl⟩
      obtain ⟨op, began, hout⟩ := hout s.wallet
      rw [hout]
      exact ⟨by simp [Emission.put, Emission.handed, entries, List.filterMap_cons], h, by simp [Emission.handed],
        fun _ _ => .inr id⟩
  | restore | other => exact ⟨by simp [step, entries], h, by simp [step], fun _ _ => .inr id⟩

/-- The entries that are parked or in a taker's hand. -/
def waiting (s : AwaitingState) : List PendingSendAwait := entries s ++ s.inHand

/-- An act puts away one entry under the next number, or none. -/
theorem step_put (s : AwaitingState) (hreset : act ≠ .reset) :
    (∃ entry, (step s act).2.filterMap Emission.put = [entry] ∧
      entry.awaitId = s.nextSendAwaitId ∧
      (step s act).1.nextSendAwaitId = addU64 s.nextSendAwaitId 1 ∧
      ∃ recipient account amount target correlation now,
        act = .park recipient account amount target correlation now) ∨
    ((step s act).2.filterMap Emission.put = [] ∧
      (step s act).1.nextSendAwaitId = s.nextSendAwaitId) := by
  cases act with
  | park recipient account amount target correlation now =>
    exact .inl ⟨_, rfl, rfl, rfl, recipient, account, amount, target, correlation, now, rfl⟩
  | arrive =>
    exact .inr ⟨(filterMap_put_taken _ .taken (fun _ => rfl) fun _ => rfl).1, rfl⟩
  | sweep =>
    exact .inr ⟨(filterMap_put_taken _ .expired (fun _ => rfl) fun _ => rfl).1, rfl⟩
  | reset => exact absurd rfl hreset
  | redrive =>
    right
    simp only [step]
    split
    · exact ⟨rfl, rfl⟩
    · refine ⟨?_, rfl⟩
      unfold redrive
      split <;> rfl
  | restore | other => exact .inr ⟨rfl, rfl⟩

/-- What waits after an act waited before it or was put away by it. -/
theorem step_waiting (h : Filed s.pendingSends.rows) (hreset : act ≠ .reset) :
    ∃ gone, ((step s act).2.filterMap Emission.put ++ waiting s).Perm
      (gone ++ waiting (step s act).1) := by
  have hperm := List.perm_append_comm.trans (step_moves h hreset).perm
  cases act with
  | park =>
    refine ⟨[], ?_⟩
    rw [waiting, ← List.append_assoc]
    exact hperm.append_right s.inHand
  | arrive author =>
    have hhanded := (filterMap_put_taken (takeSendAwaits s author).2 .taken (fun _ => rfl)
      fun _ => rfl).2
    have hout : (step s (.arrive author)).2.filterMap Emission.handed =
      (takeSendAwaits s author).2 := hhanded
    have hhand : (step s (.arrive author)).1.inHand =
      s.inHand ++ (takeSendAwaits s author).2 := rfl
    rw [hout] at hperm
    refine ⟨[], ?_⟩
    rw [waiting, waiting, hhand, ← List.append_assoc]
    refine (hperm.append_right s.inHand).trans ?_
    rw [List.nil_append, ← List.append_assoc (entries _),
      List.append_assoc (takeSendAwaits s author).2]
    exact List.perm_append_comm
  | sweep now timeout =>
    refine ⟨(step s (.sweep now timeout)).2.filterMap Emission.handed, ?_⟩
    rw [waiting, waiting, ← List.append_assoc, ← List.append_assoc]
    exact hperm.append_right s.inHand
  | reset => exact absurd rfl hreset
  | redrive now =>
    have hput : (step s (.redrive now)).2.filterMap Emission.put = [] := by
      rcases step_put s hreset with ⟨_, _, _, _, _, _, _, _, _, _, hact⟩ | h
      · cases hact
      · exact h.1
    rw [hput]
    cases hhand : s.inHand with
    | nil => exact ⟨[], by simp [step, hhand]⟩
    | cons parked rest =>
      refine ⟨[parked], ?_⟩
      have hwait : waiting (step s (.redrive now)).1 = entries s ++ rest := by
        simp [step, hhand, waiting, entries]
      rw [hwait, waiting, hhand]
      exact List.perm_middle
  | restore | other => exact ⟨[], .refl _⟩

def ids (journal : WalletOperationJournal) : List String := journal.map WalletOperation.id

theorem ids_update (id : String) {f : WalletOperation → WalletOperation}
    (hf : ∀ op, (f op).id = op.id) (journal : WalletOperationJournal) :
    ids (WalletOperationJournal.update id f journal) = ids journal := by
  induction journal with
  | nil => rfl
  | cons _ _ ih =>
    rw [WalletOperationJournal.update]
    split
    · simp [ids, hf]
    · simpa [ids] using ih

theorem ids_edit {journal journal' : WalletOperationJournal} {f : WalletOperation → WalletOperation}
    (hf : ∀ op, (f op).id = op.id) (h : journal.edit id f = .ok journal') :
    ids journal' = ids journal := by
  unfold WalletOperationJournal.edit at h
  split at h
  · cases h
  · injection h with h
    rw [← h, ids_update id hf]

theorem recordAmount_ids {journal journal' : WalletOperationJournal} {amount : Nat}
    (h : journal.recordAmount id amount = .ok journal') : ids journal' = ids journal :=
  ids_edit (f := fun op => { op with recordedAmount := some amount }) (fun _ => rfl) h

theorem editJournal_cases (st : CashuWalletState)
    (f : WalletOperationJournal → Except WalletJournalError WalletOperationJournal) :
    st.editJournal f = st ∨
      ∃ journal, f st.journal = .ok journal ∧ (st.editJournal f).journal = journal := by
  unfold CashuWalletState.editJournal
  split
  · exact .inl rfl
  next journal hf => exact .inr ⟨journal, hf, rfl⟩

/-- An operation whose name is not in the journal is put in as a draft and prepared at once. -/
theorem insert_prepare {journal : WalletOperationJournal} {op : WalletOperation}
    (hdraft : op.state = .draft) (h : op.id ∉ ids journal) :
    journal.insert op = .ok (journal ++ [op]) ∧
      WalletOperationJournal.get (journal ++ [op]) op.id = some op ∧
      WalletOperationJournal.transition (journal ++ [op]) op.id .prepared =
        .ok (WalletOperationJournal.update op.id (fun op => { op with state := .prepared })
          (journal ++ [op])) := by
  have hfree : ¬ (journal.any fun row => row.id = op.id) = true := by
    intro hany
    obtain ⟨row, hrow, hid⟩ := List.any_eq_true.mp hany
    exact h (List.mem_map.mpr ⟨row, hrow, of_decide_eq_true hid⟩)
  have hins : journal.insert op = .ok (journal ++ [op]) := if_neg hfree
  have hget : WalletOperationJournal.get (journal ++ [op]) op.id = some op := by
    rw [WalletOperationJournal.get_insert hins, if_pos rfl]
  have hval : validateTransition op .prepared = .ok () := by
    simp [validateTransition, hdraft, WalletOperationState.canTransitionTo]
  refine ⟨hins, hget, ?_⟩
  rw [WalletOperationJournal.transition, hget]
  simp only [hval]

theorem beginOperationAt_ok {st : CashuWalletState} (kind : WalletOperationKind) (nowSecs : Nat)
    (h : id ∉ ids st.journal) :
    ∃ st', st.beginOperationAt id kind nowSecs = .ok st' ∧
      ids st'.journal = ids st.journal ++ [id] := by
  obtain ⟨op, hop⟩ : ∃ op : WalletOperation,
    op = { WalletOperation.new id kind .draft with recordedAt := some nowSecs } := ⟨_, rfl⟩
  obtain ⟨hid, hdraft⟩ : op.id = id ∧ op.state = .draft := by
    subst hop
    exact ⟨rfl, rfl⟩
  subst hid
  obtain ⟨hins, hget, htrans⟩ := insert_prepare hdraft h
  have hbegin : st.beginOperationAt op.id kind nowSecs =
      ({ st with journal := st.journal ++ [op] } : CashuWalletState).transition op.id
        .prepared := by
    rw [CashuWalletState.beginOperationAt, ← hop, hins]
  rw [hbegin]
  simp only [CashuWalletState.transition, hget, htrans]
  refine ⟨_, rfl, ?_⟩
  rw [(CashuWalletState.walPersist_frame _ _).2.2.1]
  refine (ids_update op.id ?_ _).trans ?_
  · exact fun _ => rfl
  · simp [ids]

/-- A redrive whose name is free begins its operation under it. -/
theorem redrive_fresh {wallet : CashuWalletState} (nowSecs : Nat)
    (h : retryOp parked.awaitId ∉ ids wallet.journal) :
    (redrive wallet parked nowSecs).2 = .redriven parked (retryOp parked.awaitId) true ∧
      ids (redrive wallet parked nowSecs).1.journal =
        ids wallet.journal ++ [retryOp parked.awaitId] := by
  obtain ⟨begun, hbegun, hids⟩ := beginOperationAt_ok .sendNutzap nowSecs h
  unfold redrive
  rw [hbegun]
  refine ⟨rfl, ?_⟩
  rw [← hids]
  rcases editJournal_cases begun
    fun j => j.recordAmount (retryOp parked.awaitId) parked.amountSats with hsame | ⟨_, hedit, hj⟩
  · exact congrArg (fun st : CashuWalletState => ids st.journal) hsame
  · exact (congrArg ids hj).trans (recordAmount_ids hedit)

theorem restoreRow_ids (account : String) (st : CashuWalletState) (op : WalletOperation)
    (h : id ∈ ids (restoreRow account st op).journal) :
    id ∈ ids st.journal ∨ (op.state.isTerminal = false ∧ id = op.id) := by
  unfold restoreRow at h
  split at h
  · left
    simpa using h
  next hlive =>
    rcases editJournal_cases st fun j => j.insert op with hsame | ⟨journal, hins, hj⟩
    · exact .inl (hsame ▸ h)
    · rw [hj] at h
      simp only [WalletOperationJournal.insert] at hins
      split at hins
      · cases hins
      · injection hins with hins
        subst hins
        rcases List.mem_append.mp (by simpa only [ids, List.map_append] using h) with h | h
        · exact .inl h
        · exact .inr ⟨by simpa using hlive, List.mem_singleton.mp h⟩

theorem restoreDeposit_journal (rows : List (String × CashuWalPayload))
    (acc : CashuWalletState × List WalletJobs.Job) :
    (rows.foldl restoreDeposit acc).1.journal = acc.1.journal := by
  induction rows generalizing acc with
  | nil => rfl
  | cons _ _ ih =>
    rw [List.foldl_cons, ih, restoreDeposit]
    split <;> rfl

theorem restoreCrossMint_journal (rows : List (String × CashuWalPayload))
    (acc : CashuWalletState × List WalletJobs.Job) :
    (rows.foldl restoreCrossMint acc).1.journal = acc.1.journal := by
  induction rows generalizing acc with
  | nil => rfl
  | cons _ _ ih =>
    rw [List.foldl_cons, ih, restoreCrossMint]
    split <;> rfl

/-- A restore brings back the names of the account's operations in flight and no other. -/
theorem restoreFromWal_ids {st : CashuWalletState} {account id : String}
    (h : id ∈ ids (restoreFromWal st account).1.journal) :
    id ∈ ids st.journal ∨ ∃ store op, st.walStore = some store ∧
      op ∈ store.loadOperations account ∧ op.state.isTerminal = false ∧ id = op.id := by
  have hfold : ∀ (ops : List WalletOperation) (st : CashuWalletState),
      id ∈ ids (restoreIntoJournal st account ops).journal →
      id ∈ ids st.journal ∨ ∃ op ∈ ops, op.state.isTerminal = false ∧ id = op.id := by
    intro ops
    induction ops with
    | nil => exact fun st h => .inl h
    | cons op _ ih =>
      intro st h
      rcases ih _ h with h | ⟨op', hop', hrow⟩
      · rcases restoreRow_ids account st op h with h | hrow
        · exact .inl h
        · exact .inr ⟨op, List.mem_cons_self, hrow⟩
      · exact .inr ⟨op', List.mem_cons_of_mem op hop', hrow⟩
  unfold restoreFromWal at h
  split at h
  · exact .inl h
  next store hstore =>
    have hjournal : id ∈ ids (restoreIntoJournal { st with walAccount := some account } account
        (store.loadOperations account)).journal := by
      dsimp only at h
      split at h
      · exact h
      · rwa [restoreCrossMint_journal, restoreDeposit_journal] at h
    rcases hfold _ _ hjournal with h | ⟨op, hop, hrow⟩
    · exact .inl h
    · exact .inr ⟨store, op, hstore, hop, hrow⟩

/-- Different numbers have different names. -/
theorem retryOp_injective {m n : Nat} (h : retryOp m = retryOp n) : m = n := by
  have hchars : toString m = toString n := (String.append_right_inj _).mp h
  rw [Nat.toString_eq_repr, Nat.toString_eq_repr] at hchars
  have hdigits := congrArg String.toList hchars
  rw [Nat.toList_repr, Nat.toList_repr] at hdigits
  have hvalue := congrArg (fun digits => Nat.ofDigitChars 10 digits 0) hdigits
  simpa only [Nat.ofDigitChars_ten_toDigits] using hvalue

/-- The name is none of a parked send, or that of a send that is no longer waiting. -/
def Spent (s : AwaitingState) (id : String) : Prop :=
  ∀ n, id = retryOp n → n < s.nextSendAwaitId ∧ ∀ entry ∈ waiting s, entry.awaitId ≠ n

/-- The numbers do not run out, no reset comes between a take and its redrives, and no restore or
other command puts in the journal a name that is still to be used. -/
def Clear (s : AwaitingState) : Act → Prop
  | .park .. => s.nextSendAwaitId + 1 < u64Modulus
  | .reset => s.inHand = []
  | .restore account => ∀ store, s.wallet.walStore = some store →
      ∀ op ∈ store.loadOperations account, op.state.isTerminal = false → Spent s op.id
  | .other wallet => ∀ id ∈ ids wallet.journal, Spent s id
  | _ => True

structure Numbered (s : AwaitingState) : Prop where
  filed : Filed s.pendingSends.rows
  distinct : ((waiting s).map PendingSendAwait.awaitId).Nodup
  below : ∀ entry ∈ waiting s, entry.awaitId < s.nextSendAwaitId
  spent : ∀ id ∈ ids s.wallet.journal, Spent s id

theorem numbered_start (walStore : Option WalletWalStore) : Numbered (start walStore) :=
  ⟨fun _ h => absurd h List.not_mem_nil, List.nodup_nil, fun _ h => absurd h List.not_mem_nil,
    fun _ h => absurd h List.not_mem_nil⟩

theorem next_of_clear (hok : Clear s act) (hreset : act ≠ .reset) :
    (∃ entry, (step s act).2.filterMap Emission.put = [entry] ∧
      entry.awaitId = s.nextSendAwaitId ∧
      (step s act).1.nextSendAwaitId = s.nextSendAwaitId + 1) ∨
    ((step s act).2.filterMap Emission.put = [] ∧
      (step s act).1.nextSendAwaitId = s.nextSendAwaitId) := by
  rcases step_put s hreset with ⟨entry, hput, hid, hnext, _, _, _, _, _, _, rfl⟩ | h
  · left
    refine ⟨entry, hput, hid, ?_⟩
    rw [hnext, addU64]
    exact Nat.mod_eq_of_lt hok
  · exact .inr h

/-- What waits after an act waited before or has the next number. -/
theorem waiting_old_or_next (h : Filed s.pendingSends.rows) (hok : Clear s act)
    (hreset : act ≠ .reset) (hentry : entry ∈ waiting (step s act).1) :
    entry ∈ waiting s ∨ entry.awaitId = s.nextSendAwaitId := by
  obtain ⟨gone, hperm⟩ := step_waiting h hreset
  have hmem := hperm.mem_iff.mpr (List.mem_append_right gone hentry)
  rcases List.mem_append.mp hmem with hput | hold
  · right
    rcases next_of_clear hok hreset with ⟨e, hputs, hid, _⟩ | ⟨hnone, _⟩
    · rw [hputs] at hput
      rw [List.mem_singleton.mp hput, hid]
    · rw [hnone] at hput
      exact absurd hput List.not_mem_nil
  · exact .inl hold

theorem next_le (hok : Clear s act) (hreset : act ≠ .reset) :
    s.nextSendAwaitId ≤ (step s act).1.nextSendAwaitId := by
  rcases next_of_clear hok hreset with ⟨_, _, _, h⟩ | ⟨_, h⟩ <;> omega

/-- A spent name stays spent. -/
theorem spent_step (h : Filed s.pendingSends.rows) (hok : Clear s act) (hreset : act ≠ .reset)
    (hid : Spent s id) : Spent (step s act).1 id := by
  intro n hn
  obtain ⟨hlt, hwait⟩ := hid n hn
  refine ⟨hlt.trans_le (next_le hok hreset), fun entry hentry => ?_⟩
  rcases waiting_old_or_next h hok hreset hentry with hold | hnew
  · exact hwait entry hold
  · omega

theorem distinct_step (h : Numbered s) (hok : Clear s act) (hreset : act ≠ .reset) :
    ((waiting (step s act).1).map PendingSendAwait.awaitId).Nodup := by
  obtain ⟨gone, hperm⟩ := step_waiting h.filed hreset
  have hnodup : (((step s act).2.filterMap Emission.put ++ waiting s).map
      PendingSendAwait.awaitId).Nodup := by
    rcases next_of_clear hok hreset with ⟨entry, hput, hid, _⟩ | ⟨hput, _⟩
    · rw [hput, List.singleton_append, List.map_cons, List.nodup_cons]
      refine ⟨fun hmem => ?_, h.distinct⟩
      obtain ⟨e, he, heq⟩ := List.mem_map.mp hmem
      have := h.below e he
      omega
    · rw [hput]
      exact h.distinct
  have hall := (hperm.map PendingSendAwait.awaitId).nodup_iff.mp hnodup
  rw [List.map_append] at hall
  exact (List.nodup_append.mp hall).2.1

/-- The head of what is in hand has a free name. -/
theorem retryOp_free (h : Numbered s) (hmem : parked ∈ waiting s) :
    retryOp parked.awaitId ∉ ids s.wallet.journal := fun hid =>
  (h.spent _ hid _ rfl).2 parked hmem rfl

theorem spent_redriven (h : Numbered s) {rest : List PendingSendAwait}
    (hhand : s.inHand = parked :: rest) (s' : AwaitingState)
    (hnext : s'.nextSendAwaitId = s.nextSendAwaitId) (hwait : waiting s' = entries s ++ rest) :
    Spent s' (retryOp parked.awaitId) := by
  intro n hn
  obtain rfl := retryOp_injective hn
  have hperm : (waiting s).Perm (parked :: waiting s') := by
    rw [waiting, hhand, hwait]
    exact List.perm_middle
  refine ⟨hnext ▸ h.below parked (hperm.mem_iff.mpr List.mem_cons_self), fun entry hentry heq => ?_⟩
  have hnodup := (hperm.map PendingSendAwait.awaitId).nodup_iff.mp h.distinct
  rw [List.map_cons, List.nodup_cons] at hnodup
  exact hnodup.1 (List.mem_map.mpr ⟨entry, hentry, heq⟩)

theorem spent_journal (h : Numbered s) (hok : Clear s act) (hreset : act ≠ .reset) :
    ∀ id ∈ ids (step s act).1.wallet.journal, Spent (step s act).1 id := by
  have hold : ∀ id ∈ ids s.wallet.journal, Spent (step s act).1 id := fun id hid =>
    spent_step h.filed hok hreset (h.spent id hid)
  intro id hid
  cases act with
  | park | arrive | sweep => exact hold id hid
  | reset => exact absurd rfl hreset
  | other => exact spent_step h.filed hok hreset (hok id hid)
  | restore =>
    rcases restoreFromWal_ids hid with hid | ⟨store, op, hstore, hop, hlive, rfl⟩
    · exact hold id hid
    · exact spent_step h.filed hok hreset (hok store hstore op hop hlive)
  | redrive now =>
    cases hhand : s.inHand with
    | nil =>
      have hsame : step s (.redrive now) = (s, []) := by simp only [step, hhand]
      rw [hsame] at hid ⊢
      exact h.spent id hid
    | cons parked rest =>
      have hstep : step s (.redrive now) =
          ({ s with wallet := (redrive s.wallet parked now).1, inHand := rest },
            [(redrive s.wallet parked now).2]) := by simp only [step, hhand]
      have hwaits : parked ∈ waiting s := List.mem_append_right _ (hhand ▸ List.mem_cons_self)
      have hfree := retryOp_free h hwaits
      rw [hstep] at hid hold ⊢
      rw [(redrive_fresh now hfree).2] at hid
      rcases List.mem_append.mp hid with hid | hid
      · exact hold id hid
      · rw [List.mem_singleton.mp hid]
        exact spent_redriven h hhand _ rfl rfl

theorem numbered_step (h : Numbered s) (hok : Clear s act) : Numbered (step s act).1 := by
  by_cases hreset : act = .reset
  · subst hreset
    have hhand : (step s .reset).1.inHand = [] := hok
    have hwait : waiting (step s .reset).1 = [] := hhand
    refine ⟨fun _ h => absurd h List.not_mem_nil, ?_, ?_, fun _ h => absurd h List.not_mem_nil⟩
    · rw [hwait]
      exact List.nodup_nil
    · rw [hwait]
      exact fun _ h => absurd h List.not_mem_nil
  · refine ⟨(step_moves h.filed hreset).filed, distinct_step h hok hreset, fun entry hentry => ?_,
      spent_journal h hok hreset⟩
    rcases next_of_clear hok hreset with ⟨_, _, _, hnext⟩ | ⟨hnone, hnext⟩
    · rcases waiting_old_or_next h.filed hok hreset hentry with hold | hnew
      · have := h.below entry hold
        omega
      · omega
    · obtain ⟨gone, hperm⟩ := step_waiting h.filed hreset
      rw [hnone, List.nil_append] at hperm
      rw [hnext]
      exact h.below entry (hperm.mem_iff.mpr (List.mem_append_right gone hentry))

/-- A redrive in such a state finds its name free. -/
theorem redriven_began (h : Numbered s) {op : String} {began : Bool}
    (hmem : .redriven entry op began ∈ (step s act).2) : began = true := by
  cases act with
  | park =>
    cases List.mem_singleton.mp hmem
  | arrive | sweep =>
    obtain ⟨_, _, heq⟩ := List.mem_map.mp hmem
    cases heq
  | reset | restore | other => exact absurd hmem List.not_mem_nil
  | redrive now =>
    simp only [step] at hmem
    split at hmem
    · exact absurd hmem List.not_mem_nil
    next parked rest hhand =>
      have hwaits : parked ∈ waiting s := List.mem_append_right _ (hhand ▸ List.mem_cons_self)
      have hfree := retryOp_free h hwaits
      have heq := List.mem_singleton.mp hmem
      rw [(redrive_fresh now hfree).1] at heq
      injection heq

/-- What a run hands out. -/
def handedOut (s : AwaitingState) (acts : List Act) : List PendingSendAwait :=
  (emitted step s acts).filterMap Emission.handed

@[simp] theorem handedOut_nil (s : AwaitingState) : handedOut s [] = [] := rfl

@[simp] theorem handedOut_cons (s : AwaitingState) (act : Act) (acts : List Act) :
    handedOut s (act :: acts) =
      (step s act).2.filterMap Emission.handed ++ handedOut (step s act).1 acts := by
  rw [handedOut, emitted_cons, List.filterMap_append, handedOut]

/-- The entry waits while nothing is due, and the first act it is due at hands it out, once. -/
structure HandedOnce (entry : PendingSendAwait) (s : AwaitingState) (acts : List Act) : Prop where
  waits : (∀ act ∈ acts, ¬ Due entry act) →
    entry ∈ entries (after step s acts) ∧ entry ∉ handedOut s acts
  once : ∀ before act later, acts = before ++ act :: later → (∀ a ∈ before, ¬ Due entry a) →
    Due entry act →
    entry ∈ handedOut (after step s before) [act] ∧ (handedOut s acts).count entry = 1

/-- No act of the stretch resets the state. -/
def NoReset (acts : List Act) : Prop := ∀ act ∈ acts, act ≠ .reset

theorem entries_nodup (h : Numbered s) : (entries s).Nodup :=
  List.Nodup.of_map _ ((List.nodup_append.mp (List.map_append ▸ h.distinct)).1)

/-- An act puts away nothing whose number has been used. -/
theorem not_mem_put (hok : Clear s act) (hreset : act ≠ .reset)
    (hid : entry.awaitId < s.nextSendAwaitId) : entry ∉ (step s act).2.filterMap Emission.put := by
  intro hmem
  rcases next_of_clear hok hreset with ⟨e, hput, he, _⟩ | ⟨hput, _⟩
  · rw [hput] at hmem
    rw [List.mem_singleton.mp hmem] at hid
    omega
  · rw [hput] at hmem
    exact absurd hmem List.not_mem_nil

theorem count_entries (h : Numbered s) (hok : Clear s act) (hreset : act ≠ .reset)
    (hid : entry.awaitId < s.nextSendAwaitId) :
    (entries s).count entry = ((step s act).2.filterMap Emission.handed).count entry +
      (entries (step s act).1).count entry := by
  have hcount := (step_moves h.filed hreset).perm.count_eq entry
  rwa [List.count_append, List.count_append,
    List.count_eq_zero_of_not_mem (not_mem_put hok hreset hid), Nat.add_zero] at hcount

/-- What is gone is not handed out again. -/
theorem handedOut_gone (h : Numbered s) (hmeets : Meets (fun s act => (step s act).1) Clear s acts)
    (hreset : NoReset acts) (hid : entry.awaitId < s.nextSendAwaitId)
    (hgone : (entries s).count entry = 0) : (handedOut s acts).count entry = 0 := by
  induction acts generalizing s with
  | nil => rfl
  | cons _ _ ih =>
    obtain ⟨hact, hacts⟩ := List.forall_mem_cons.mp hreset
    have hcount := count_entries h hmeets.1 hact hid
    have hnext := next_le hmeets.1 hact
    rw [handedOut_cons, List.count_append,
      ih (numbered_step h hmeets.1) hmeets.2 hacts (by omega) (by omega)]
    omega

theorem handedOnce_of_mem (h : Numbered s)
    (hmeets : Meets (fun s act => (step s act).1) Clear s acts) (hreset : NoReset acts)
    (hmem : entry ∈ entries s) : HandedOnce entry s acts := by
  induction acts generalizing s with
  | nil =>
    refine ⟨fun _ => ⟨hmem, List.not_mem_nil⟩, fun before act later hsplit => ?_⟩
    cases before <;> cases hsplit
  | cons act _ ih =>
    obtain ⟨hact, hacts⟩ := List.forall_mem_cons.mp hreset
    have hid := h.below entry (List.mem_append_left _ hmem)
    have hcount := count_entries h hmeets.1 hact hid
    have hone := List.count_eq_one_of_mem (entries_nodup h) hmem
    have hnext := next_le hmeets.1 hact
    have hmoves := step_moves h.filed hact
    have hnumbered := numbered_step h hmeets.1
    by_cases hdue : Due entry act
    · have hleft : entry ∉ entries (step s act).1 := fun hleft =>
        (hmoves.left entry hleft).elim (not_mem_put hmeets.1 hact hid) fun hnot => hnot hdue
      have hzero := List.count_eq_zero_of_not_mem hleft
      have hlater := handedOut_gone hnumbered hmeets.2 hacts (hid.trans_le hnext) hzero
      refine ⟨fun hnone => absurd hdue (hnone act List.mem_cons_self), ?_⟩
      intro before first later hsplit hbefore hfirst
      cases before with
      | nil =>
        obtain ⟨rfl, rfl⟩ := List.cons.inj hsplit
        rw [handedOut_cons, handedOut_cons, List.count_append, handedOut_nil, List.append_nil]
        refine ⟨List.count_pos_iff.mp ?_, ?_⟩
        · rw [after_nil]
          omega
        · omega
      | cons =>
        obtain ⟨rfl, -⟩ := List.cons.inj hsplit
        exact absurd hdue (hbefore _ List.mem_cons_self)
    · have hkept : entry ∉ (step s act).2.filterMap Emission.handed := fun hh =>
        hdue (hmoves.due entry hh)
      have hzero := List.count_eq_zero_of_not_mem hkept
      have hstill : entry ∈ entries (step s act).1 := List.count_pos_iff.mp (by omega)
      obtain ⟨hwaits, honce⟩ := ih hnumbered hmeets.2 hacts hstill
      constructor
      · intro hnone
        obtain ⟨hentries, hout⟩ := hwaits fun a ha => hnone a (List.mem_cons_of_mem act ha)
        refine ⟨hentries, ?_⟩
        rw [handedOut_cons]
        exact fun hmem => (List.mem_append.mp hmem).elim hkept hout
      · intro before first later hsplit hbefore hfirst
        cases before with
        | nil =>
          obtain ⟨rfl, -⟩ := List.cons.inj hsplit
          exact absurd hfirst hdue
        | cons b before =>
          obtain ⟨rfl, rfl⟩ := List.cons.inj hsplit
          obtain ⟨hnow, hall⟩ := honce before first later rfl
            (fun a ha => hbefore a (List.mem_cons_of_mem _ ha)) hfirst
          refine ⟨hnow, ?_⟩
          rw [handedOut_cons, List.count_append, hzero, Nat.zero_add]
          exact hall

/-- The entries put away by a run. -/
def putAway (s : AwaitingState) (acts : List Act) : List PendingSendAwait :=
  (emitted step s acts).filterMap Emission.put

theorem putAway_cons (s : AwaitingState) (act : Act) (acts : List Act) :
    putAway s (act :: acts) =
      (step s act).2.filterMap Emission.put ++ putAway (step s act).1 acts := by
  rw [putAway, emitted_cons, List.filterMap_append, putAway]

/-- The numbers of a stretch without a reset go up. -/
theorem putAway_increasing (hmeets : Meets (fun s act => (step s act).1) Clear s acts)
    (hreset : NoReset acts) :
    (putAway s acts).Pairwise (fun a b => a.awaitId < b.awaitId) ∧
      ∀ entry ∈ putAway s acts, s.nextSendAwaitId ≤ entry.awaitId := by
  induction acts generalizing s with
  | nil => exact ⟨.nil, fun _ h => absurd h List.not_mem_nil⟩
  | cons act acts ih =>
    obtain ⟨hact, hacts⟩ := List.forall_mem_cons.mp hreset
    obtain ⟨hpair, hbound⟩ := ih hmeets.2 hacts
    rw [putAway_cons]
    rcases next_of_clear hmeets.1 hact with ⟨entry, hput, hid, hnext⟩ | ⟨hput, hnext⟩
    · rw [hput, List.singleton_append]
      have hlater : ∀ e ∈ putAway (step s act).1 acts, entry.awaitId < e.awaitId := by
        intro e he
        have hle : (step s act).1.nextSendAwaitId ≤ e.awaitId := hbound e he
        omega
      refine ⟨List.pairwise_cons.mpr ⟨hlater, hpair⟩, List.forall_mem_cons.mpr ⟨hid.ge, ?_⟩⟩
      intro e he
      have := hlater e he
      omega
    · rw [hput, List.nil_append]
      exact ⟨hpair, fun e he => hnext ▸ hbound e he⟩

/-- What holds of a run: the numbers of a stretch without a reset are distinct, a parked entry is
handed out once as long as no reset drops it, and every redrive finds its name free. -/
structure ParkedOnce (s : AwaitingState) (acts : List Act) : Prop where
  distinct : ∀ before stretch later, acts = before ++ stretch ++ later → NoReset stretch →
    ((putAway (after step s before) stretch).map PendingSendAwait.awaitId).Nodup
  handed : ∀ before act stretch later, acts = before ++ act :: (stretch ++ later) →
    NoReset stretch → ∀ entry ∈ (step (after step s before) act).2.filterMap Emission.put,
      HandedOnce entry (after step s (before ++ [act])) stretch
  fresh : ∀ entry op began, .redriven entry op began ∈ emitted step s acts → began = true

theorem numbered_run (h : Numbered s) (hmeets : Meets (fun s act => (step s act).1) Clear s acts) :
    Numbered (after step s acts) :=
  run_invariant Numbered (fun _ _ hs hok => numbered_step hs hok) h hmeets

theorem mem_entries_of_put (hput : entry ∈ (step s act).2.filterMap Emission.put) :
    entry ∈ entries (step s act).1 := by
  by_cases hreset : act = .reset
  · subst hreset
    exact absurd hput List.not_mem_nil
  rcases step_put s hreset with ⟨e, he, -, -, _, _, _, _, _, _, rfl⟩ | ⟨hnone, -⟩
  · exact (entries_park ..).mem_iff.mpr (List.mem_cons.mpr (.inl (List.mem_singleton.mp hput)))
  · rw [hnone] at hput
    exact absurd hput List.not_mem_nil

/-- In every run whose acts are all clear, parked sends are neither lost nor doubled. -/
theorem parked_once (walStore : Option WalletWalStore) (acts : List Act)
    (hmeets : Meets (fun s act => (step s act).1) Clear (start walStore) acts) :
    ParkedOnce (start walStore) acts where
  distinct before stretch later hsplit hreset := by
    subst hsplit
    rw [List.append_assoc, meets_append, meets_append] at hmeets
    exact List.pairwise_map.mpr ((putAway_increasing hmeets.2.1 hreset).1.imp fun h => h.ne)
  handed before act stretch later hsplit hreset entry hput := by
    subst hsplit
    rw [meets_append, meets_cons, meets_append] at hmeets
    obtain ⟨hbefore, hact, hstretch, -⟩ := hmeets
    have h := numbered_run (numbered_start walStore) hbefore
    rw [after_append]
    exact handedOnce_of_mem (numbered_step h hact) hstretch hreset (mem_entries_of_put hput)
  fresh entry op began hmem := by
    obtain ⟨before, act, later, rfl, hnow⟩ := exists_of_mem_emitted step hmem
    rw [meets_append] at hmeets
    exact redriven_began (numbered_run (numbered_start walStore) hmeets.1) hnow

/-- Two sends, one handed out by the event of its recipient and one by a sweep. -/
theorem parked_once_served : ParkedOnce (start none)
    [.park "alice" "acct" 21 none none 100, .park "bob" "acct" 5 none none 101,
      .arrive "alice", .redrive 110, .sweep 121 20] :=
  parked_once none _ ⟨show 0 + 1 < u64Modulus by decide,
    show addU64 0 1 + 1 < u64Modulus by decide, trivial, trivial, trivial,
    trivial⟩

/-- Two sends around a restart: the second gets the number of the first, whose operation the journal
has read back. -/
def restarted : List Act :=
  [.restore "acct", .park "alice" "acct" 21 none none 100, .arrive "alice", .redrive 110, .reset,
    .restore "acct", .park "bob" "acct" 5 none none 200, .arrive "bob", .redrive 210]

theorem restarted_name_taken : ¬ ParkedOnce (start (some .empty)) restarted := by
  intro h
  have hmem : .redriven ⟨0, "acct", "bob", 5, none, none, 200⟩ "nutzap-await-redrive-0" false ∈
      emitted step (start (some .empty)) restarted := by decide +kernel
  cases h.fresh _ _ _ hmem

end WalletAwait
