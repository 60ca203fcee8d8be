import NostrMultiPlatform.WalletEffect
import Mathlib.Data.List.Nodup
import Mathlib.Data.List.Perm.Lattice

/-!
# The log mirrors the journal

Between critical sections the log of the active account holds the operations in
flight, each as the journal has it. Beginning, moving and consuming write the row
through. Notes taken on a row do not, and reach the log with the next write.
-/
namespace WalletMirror

open Runs Tables WalletProof WalletJournal WalletState WalletJobs WalletSend
open WalletWalStore
  WalletRedeem WalletCrossMint WalletDeposit WalletIngest WalletLifecycle WalletSystem
  WalletEffect

/-- `pending_operations`: the operations that are not over. -/
def pendingOperations (journal : WalletOperationJournal) : List WalletOperation :=
  journal.filter fun op => !op.state.isTerminal

variable (account : String) (st : CashuWalletState)

/-- The log holds the pending operations, each as the journal has it. -/
def WalMirrors : Prop :=
  ∀ store, st.walStore = some store →
    (store.loadOperations account).Perm (pendingOperations st.journal)

/-- `restore_into_journal` over the log, in a backend built anew. -/
def restarted : CashuWalletState :=
  match st.walStore with
  | none => .new none
  | some store =>
    restoreIntoJournal { CashuWalletState.new (some store) with walAccount := some account } account
      (store.loadOperations account)

/-- The log is in step with the journal, and a restart brings back what was pending, leaves no
terminal row behind and does nothing the second time. -/
structure Lockstep (account : String) (st : CashuWalletState) : Prop where
  mirrors : WalMirrors account st
  restored : (restarted account st).journal.Perm (pendingOperations st.journal)
  healed : ∀ store, (restarted account st).walStore = some store →
    ∀ op ∈ store.loadOperations account, op.state.isTerminal = false
  again : ∀ store, (restarted account st).walStore = some store →
    restoreIntoJournal (restarted account st) account (store.loadOperations account) =
      restarted account st

/-- The row of an operation that is not over. -/
def openRow (journal : WalletOperationJournal) (id : String) : Option WalletOperation :=
  (journal.get id).bind fun op => if op.state.isTerminal then none else some op

/-- The saga rows of the log. -/
def rowsOf : Option (Table (String × String) WalletOperation) :=
  st.walStore.map operations

/-- Ids are unique, and no row stays a draft. -/
structure Tidy (journal : WalletOperationJournal) : Prop where
  ids : (journal.map WalletOperation.id).Nodup
  begun : ∀ id row, journal.get id = some row → row.state ≠ .draft

/-- The rows of a log of one account: filed under their ids, none over. -/
def Filed (rows : Table (String × String) WalletOperation) : Prop :=
  ∀ key row, rows.lookup key = some row →
    key = (account, row.id) ∧ row.state.isTerminal = false ∧ row.state ≠ .draft

/-- The log has a row exactly as long as the journal's is open, and for the clean ids that row. -/
structure Shadow (account : String) (clean : String → Prop) (st : CashuWalletState) : Prop where
  active : st.walAccount = some account
  log : ∃ rows, rowsOf st = some rows ∧ Filed account rows ∧
    (∀ id, clean id → rows.lookup (account, id) = openRow st.journal id) ∧
    ∀ id, (rows.lookup (account, id)).isSome = (openRow st.journal id).isSome
  tidy : Tidy st.journal

/-- The log is in step on every operation. -/
abbrev InStep (account : String) (st : CashuWalletState) : Prop := Shadow account (fun _ => True) st

section
variable {journal : WalletOperationJournal} {id other : String} {row : WalletOperation}
  {f : WalletOperation → WalletOperation}

theorem id_of_get (h : journal.get id = some row) : row.id = id := by
  simpa using List.find?_some h

theorem map_id_update (hf : ∀ op, (f op).id = op.id) (id : String)
    (journal : WalletOperationJournal) :
    (WalletOperationJournal.update id f journal).map WalletOperation.id =
      journal.map WalletOperation.id := by
  induction journal with
  | nil => rfl
  | cons _ _ ih =>
    simp only [WalletOperationJournal.update]
    split
    · simp [hf]
    · rw [List.map_cons, ih, List.map_cons]

theorem get_eq_of_mem (hids : (journal.map WalletOperation.id).Nodup) (h : row ∈ journal) :
    journal.get row.id = some row := by
  induction journal with
  | nil => cases h
  | cons first _ ih =>
    rw [List.map_cons, List.nodup_cons] at hids
    rcases List.mem_cons.mp h with rfl | hrest
    · simp [WalletOperationJournal.get]
    · have hne : first.id ≠ row.id := fun heq =>
        hids.1 (heq ▸ List.mem_map_of_mem (f := WalletOperation.id) hrest)
      simpa [WalletOperationJournal.get, hne] using ih hids.2 hrest

theorem mem_iff_get (hids : (journal.map WalletOperation.id).Nodup) :
    row ∈ journal ↔ journal.get row.id = some row :=
  ⟨get_eq_of_mem hids, List.mem_of_find?_eq_some⟩

theorem get_remove (journal : WalletOperationJournal) (id other : String) :
    (journal.remove id).get other = if other = id then none else journal.get other := by
  simp only [WalletOperationJournal.get, WalletOperationJournal.remove, List.find?_filter]
  split
  next heq =>
    subst heq
    exact List.find?_eq_none.mpr fun op _ => by simp
  next hne =>
    refine congrArg (fun p => List.find? p journal) (funext fun op => ?_)
    by_cases hid : op.id = other
    · simp [hid, hne]
    · simp [hid]

theorem Tidy.update (h : Tidy journal) (hf : ∀ op, (f op).id = op.id)
    (hbegun : ∀ row, journal.get id = some row → (f row).state ≠ .draft) :
    Tidy (WalletOperationJournal.update id f journal) where
  ids := by rw [map_id_update hf]; exact h.ids
  begun other found hfound := by
    by_cases hid : other = id
    · subst hid
      cases hget : journal.get other with
      | none =>
        have hmem := List.mem_map_of_mem (f := WalletOperation.id)
          (List.mem_of_find?_eq_some hfound)
        rw [map_id_update hf, id_of_get hfound] at hmem
        obtain ⟨row, hrow, rfl⟩ := List.mem_map.mp hmem
        rw [get_eq_of_mem h.ids hrow] at hget
        cases hget
      | some row =>
        rw [WalletOperationJournal.get_update_self hf hget] at hfound
        exact Option.some.inj hfound ▸ hbegun row hget
    · rw [WalletOperationJournal.get_update_other hf hid] at hfound
      exact h.begun other found hfound

theorem ids_insert {journal' : WalletOperationJournal}
    (hids : (journal.map WalletOperation.id).Nodup) (h : journal.insert row = .ok journal') :
    (journal'.map WalletOperation.id).Nodup := by
  simp only [WalletOperationJournal.insert] at h
  split at h
  · cases h
  next hnew =>
    obtain rfl := Except.ok.inj h
    simp only [List.any_eq_true, decide_eq_true_eq, not_exists, not_and] at hnew
    rw [List.map_append, List.nodup_append]
    refine ⟨hids, by simp, fun a ha b hb => ?_⟩
    obtain ⟨old, hold, rfl⟩ := List.mem_map.mp ha
    obtain rfl : b = row.id := by simpa using hb
    exact hnew old hold

end

@[simp] theorem rowsOf_persistPayload (st : CashuWalletState) (id : String)
    (payload : CashuWalPayload) : rowsOf (st.persistPayload id payload) = rowsOf st := by
  simp only [rowsOf, CashuWalletState.persistPayload, CashuWalletState.withWal]
  cases st.walAccount <;> cases st.walStore <;> rfl

@[simp] theorem rowsOf_persistDepositPayload (st : CashuWalletState) (quote : String) :
    rowsOf (st.persistDepositPayload quote) = rowsOf st := by
  simp only [rowsOf, CashuWalletState.persistDepositPayload, CashuWalletState.withWal]
  cases st.walAccount <;> cases st.walStore <;> cases st.pendingDeposits.lookup quote <;> rfl

@[simp] theorem rowsOf_persistCrossMintPayload (st : CashuWalletState) (quote : String) :
    rowsOf (st.persistCrossMintPayload quote) = rowsOf st := by
  simp only [rowsOf, CashuWalletState.persistCrossMintPayload, CashuWalletState.withWal]
  cases st.walAccount <;> cases st.walStore <;>
    cases st.pendingCrossMintTransfers.lookup quote <;> rfl

variable {account : String} {clean clean' : String → Prop} {st st' : CashuWalletState}

/-- Only the rows of the log, the account and the journal matter. -/
theorem Shadow.congr (h : Shadow account clean st) (hrows : rowsOf st' = rowsOf st)
    (hactive : st'.walAccount = st.walAccount) (hjournal : st'.journal = st.journal) :
    Shadow account clean st' where
  active := hactive.trans h.active
  log := by rw [hrows, hjournal]; exact h.log
  tidy := by rw [hjournal]; exact h.tidy

theorem Shadow.mono (h : Shadow account clean st) (hclean : ∀ id, clean' id → clean id) :
    Shadow account clean' st where
  active := h.active
  log := by
    obtain ⟨rows, hrows, hfiled, hsame, hpresent⟩ := h.log
    exact ⟨rows, hrows, hfiled, fun id hid => hsame id (hclean id hid), hpresent⟩
  tidy := h.tidy

/-- A row that is written through is clean again, whatever it was before. -/
theorem Shadow.walPersist (h : Shadow account clean st) {journal : WalletOperationJournal}
    {id : String} {row : WalletOperation} (htidy : Tidy journal) (hget : journal.get id = some row)
    (hother : ∀ other, other ≠ id → journal.get other = st.journal.get other) :
    Shadow account (fun other => clean other ∨ other = id)
      (({ st with journal := journal } : CashuWalletState).walPersist id) where
  active := by simp [h.active]
  tidy := by simpa using htidy
  log := by
    obtain ⟨rows, hrows, hfiled, hsame, hpresent⟩ := h.log
    obtain ⟨store, hstore, rfl⟩ := Option.map_eq_some_iff.mp hrows
    have hid : row.id = id := id_of_get hget
    let rows := if row.state.isTerminal then store.operations.erase (account, id)
      else store.operations.insert (account, id) row
    have hlookup : ∀ other, rows.lookup (account, other) =
        if other = id then openRow journal id else store.operations.lookup (account, other) := by
      intro other
      have hkey : (account, other) = (account, id) ↔ other = id := by simp
      simp only [rows, openRow, hget, Option.bind_some]
      split <;> simp only [lookup_erase_eq, lookup_insert_eq, hkey]
    have hopen : ∀ other, other ≠ id → openRow journal other = openRow st.journal other :=
      fun other hne => by rw [openRow, openRow, hother other hne]
    refine ⟨rows, ?_, fun key found hfound => ?_, fun other hclean => ?_, fun other => ?_⟩
    · simp only [rowsOf, CashuWalletState.walPersist, CashuWalletState.withWal, h.active, hstore,
        hget, Option.map_some, rows]
      split <;> simp [deleteOperation, deletePayload,
        upsertOperation, hid]
    · simp only [rows] at hfound
      split at hfound
      · rw [lookup_erase_eq] at hfound
        split at hfound
        · cases hfound
        · exact hfiled key found hfound
      next hopen =>
        rw [lookup_insert_eq] at hfound
        split at hfound
        next hkey =>
          obtain rfl := Option.some.inj hfound
          exact ⟨hkey.trans (by rw [hid]), Bool.eq_false_iff.mpr hopen, htidy.begun id row hget⟩
        · exact hfiled key found hfound
    · simp only [CashuWalletState.walPersist_frame, hlookup]
      split
      next heq => rw [heq]
      next hne => rw [hopen other hne, hsame other (hclean.resolve_right hne)]
    · simp only [CashuWalletState.walPersist_frame, hlookup]
      split
      next heq => rw [heq]
      next hne => rw [hopen other hne, hpresent other]

theorem canTransitionTo_draft (state : WalletOperationState) :
    state.canTransitionTo .draft = false := by
  cases state <;> rfl

variable {next : WalletOperationState}

section

variable (h : Shadow account clean st)
include h

theorem Shadow.transition {id : String} (ht : st.transition id next = .ok st') :
    Shadow account (fun other => clean other ∨ other = id) st' := by
  obtain ⟨journal, hjournal, rfl⟩ := CashuWalletState.transition_eq ht
  obtain ⟨row, hget, hcan, rfl⟩ := WalletOperationJournal.transition_ok hjournal
  have hnext : next ≠ .draft := by
    rintro rfl
    rw [canTransitionTo_draft] at hcan
    cases hcan
  exact h.walPersist (h.tidy.update (fun _ => rfl) fun _ _ => hnext)
    (WalletOperationJournal.get_update_self (fun _ => rfl) hget)
    fun other hne => WalletOperationJournal.get_update_other (fun _ => rfl) hne

/-- A transition that goes through, or is refused and changes nothing. -/
theorem Shadow.advance (id : String) (next : WalletOperationState) :
    Shadow account clean (st.advance id next) := by
  unfold CashuWalletState.advance
  split
  next st' ht => exact (h.transition ht).mono fun other hclean => .inl hclean
  · exact h

theorem Shadow.beginOperationAt {id : String} {kind : WalletOperationKind} {now : Nat}
    (hb : st.beginOperationAt id kind now = .ok st') : Shadow account clean st' := by
  simp only [CashuWalletState.beginOperationAt] at hb
  split at hb
  · cases hb
  next drafted hinsert =>
    obtain ⟨journal, hjournal, rfl⟩ := CashuWalletState.transition_eq hb
    obtain ⟨row, hget, -, rfl⟩ := WalletOperationJournal.transition_ok hjournal
    have hself := WalletOperationJournal.get_update_self
      (f := fun op => { op with state := .prepared }) (fun _ => rfl) hget
    have hother : ∀ other, other ≠ id → (WalletOperationJournal.update id
        (fun op => { op with state := .prepared }) drafted).get other = st.journal.get other := by
      intro other hne
      rw [WalletOperationJournal.get_update_other
        (f := fun op => { op with state := .prepared }) (fun _ => rfl) hne]
      exact (WalletOperationJournal.get_insert hinsert other).trans (if_neg hne)
    refine (h.walPersist ⟨?_, fun other found hfound => ?_⟩ hself hother).mono
      fun other hclean => .inl hclean
    · rw [map_id_update (f := fun op => { op with state := .prepared }) fun _ => rfl]
      exact ids_insert h.tidy.ids hinsert
    · by_cases hid : other = id
      · subst hid
        obtain rfl := Option.eq_some_unique hself hfound
        simp
      · exact h.tidy.begun other found ((hother other hid).symm.trans hfound)

theorem Shadow.consumed {id : String} {row : WalletOperation} (hget : st.journal.get id = some row)
    (input : WalletConsumedInput) :
    Shadow account (fun other => clean other ∨ other = id) (st.recordConsumedInput id input) := by
  simp only [CashuWalletState.recordConsumedInput, WalletOperationJournal.recordConsumedInput,
    WalletOperationJournal.edit, hget]
  let consume : WalletOperation → WalletOperation := fun op =>
    { op with consumedInputs := op.consumedInputs ++ [input] }
  exact h.walPersist
    (h.tidy.update (f := consume) (fun _ => rfl) fun row hrow => h.tidy.begun id row hrow)
    (WalletOperationJournal.get_update_self (fun _ => rfl) hget)
    fun other hne => WalletOperationJournal.get_update_other (fun _ => rfl) hne

theorem Shadow.recordConsumedInput (id : String) (input : WalletConsumedInput) :
    Shadow account clean (st.recordConsumedInput id input) := by
  cases hget : st.journal.get id with
  | none =>
    simp only [CashuWalletState.recordConsumedInput, WalletOperationJournal.recordConsumedInput,
      WalletOperationJournal.edit, hget]
    exact h
  | some => exact (h.consumed hget input).mono fun other hclean => .inl hclean

/-- A transition the table allows writes the row through; only a mint request asks for more. -/
theorem Shadow.moved {id : String} {row : WalletOperation} (hget : st.journal.get id = some row)
    (hcan : row.state.canTransitionTo next = true) (hnext : next ≠ .mintPending) :
    Shadow account (fun other => clean other ∨ other = id) (st.advance id next) := by
  have hj : st.journal.transition id next =
      .ok (WalletOperationJournal.update id (fun op => { op with state := next }) st.journal) := by
    simp [WalletOperationJournal.transition, hget, validateTransition, hcan, hnext]
  unfold CashuWalletState.advance
  split
  next st' ht => exact h.transition ht
  next e ht => simp [CashuWalletState.transition, hget, hj] at ht

end

theorem advance_refused {id : String} {row : WalletOperation} (hget : st.journal.get id = some row)
    (hcan : row.state.canTransitionTo next = false) : st.advance id next = st := by
  simp [CashuWalletState.advance, CashuWalletState.transition, WalletOperationJournal.transition,
    hget, validateTransition, hcan]

theorem Shadow.dropRedeem (h : Shadow account clean st) (op : String) :
    Shadow account clean (dropRedeem st op) where
  active := by simp [WalletRedeem.dropRedeem, h.active]
  tidy := by
    refine ⟨(h.tidy.ids.sublist (List.filter_sublist.map _)), fun id row hrow => ?_⟩
    have hrow : (st.journal.remove op).get id = some row := by
      simpa [WalletRedeem.dropRedeem] using hrow
    rw [get_remove] at hrow
    split at hrow
    · cases hrow
    · exact h.tidy.begun id row hrow
  log := by
    obtain ⟨rows, hrows, hfiled, hsame, hpresent⟩ := h.log
    obtain ⟨store, hstore, rfl⟩ := Option.map_eq_some_iff.mp hrows
    have hjournal : (WalletRedeem.dropRedeem st op).journal = st.journal.remove op := by
      simp [WalletRedeem.dropRedeem]
    refine ⟨store.operations.erase (account, op), ?_, fun key row hrow => ?_,
      fun id hclean => ?_, fun id => ?_⟩
    · simp [rowsOf, WalletRedeem.dropRedeem, CashuWalletState.withWal, h.active, hstore,
        deleteOperation, deletePayload]
    · rw [lookup_erase_eq] at hrow
      split at hrow
      · cases hrow
      · exact hfiled key row hrow
    · rw [hjournal, openRow, get_remove, lookup_erase_eq]
      by_cases hid : id = op
      · simp [hid]
      · simpa [hid, openRow] using hsame id hclean
    · rw [hjournal, openRow, get_remove, lookup_erase_eq]
      by_cases hid : id = op
      · simp [hid]
      · simpa [hid, openRow] using hpresent id

/-- The note changes no row that is in flight. -/
def ChangesNothing (st : CashuWalletState) (id : String) (f : WalletOperation → WalletOperation) :
    Prop :=
  ∀ row, st.journal.get id = some row → row.state.isTerminal = true ∨ f row = row

section
variable {f : WalletOperation → WalletOperation}
  (hf : ∀ row, (f row).id = row.id ∧ (f row).state = row.state)

include hf

theorem editJournal_get (st : CashuWalletState) (id other : String) :
    (st.editJournal fun j => j.edit id f).journal.get other =
      if other = id then (st.journal.get id).map f else st.journal.get other := by
  simp only [CashuWalletState.editJournal, WalletOperationJournal.edit]
  by_cases hid : other = id
  · subst hid
    rw [if_pos rfl]
    cases hget : st.journal.get other with
    | none => exact hget
    | some row => exact WalletOperationJournal.get_update_self (fun row => (hf row).1) hget
  · rw [if_neg hid]
    cases st.journal.get id with
    | none => rfl
    | some row => exact WalletOperationJournal.get_update_other (fun row => (hf row).1) hid

theorem Shadow.editJournal (h : Shadow account clean st) (id : String) :
    Shadow account (fun other => clean other ∧ (other = id → ChangesNothing st id f))
      (st.editJournal fun j => j.edit id f) where
  active := by simp [h.active]
  tidy := by
    simp only [CashuWalletState.editJournal, WalletOperationJournal.edit]
    cases hget : st.journal.get id with
    | none => exact h.tidy
    | some row =>
      exact h.tidy.update (fun row => (hf row).1) fun row hrow =>
        (hf row).2 ▸ h.tidy.begun id row hrow
  log := by
    obtain ⟨rows, hrows, hfiled, hsame, hpresent⟩ := h.log
    refine ⟨rows, ?_, hfiled, fun other hclean => ?_, fun other => ?_⟩
    · rw [← hrows]
      simp only [rowsOf, CashuWalletState.editJournal]
      split <;> rfl
    · rw [hsame other hclean.1, openRow, openRow, editJournal_get hf st]
      split
      next heq =>
        subst heq
        cases hget : st.journal.get other with
        | none => rfl
        | some row =>
          rcases hclean.2 rfl row hget with hover | hsameRow
          · simp [hover, (hf row).2]
          · rw [Option.map_some, hsameRow]
      · rfl
    · rw [hpresent other, openRow, openRow, editJournal_get hf st]
      split
      next heq =>
        subst heq
        cases hget : st.journal.get other with
        | none => rfl
        | some row =>
          simp only [Option.map_some, Option.bind_some, (hf row).2]
          split <;> rfl
      · rfl

end

variable {op : WalletOperation} {store : WalletWalStore}

theorem mem_loadOperations :
    op ∈ store.loadOperations account ↔
      ∃ id, store.operations.lookup (account, id) = some op := by
  simp only [loadOperations, List.mem_filterMap, Option.ite_none_right_eq_some,
    Option.some.injEq]
  constructor
  · rintro ⟨⟨⟨_, id⟩, row⟩, hmem, rfl, rfl⟩
    exact ⟨id, AList.mem_lookup_iff.mpr hmem⟩
  · rintro ⟨id, hlookup⟩
    exact ⟨⟨(account, id), op⟩, AList.mem_lookup_iff.mp hlookup, rfl, rfl⟩

theorem nodup_loadOperations (h : Filed account store.operations) :
    ((store.loadOperations account).map WalletOperation.id).Nodup := by
  have hkeys : (store.loadOperations account).map (fun op => (account, op.id)) =
      (store.operations.entries.filter fun row => row.1.1 = account).map Sigma.fst := by
    rw [loadOperations, List.map_filterMap, ← List.filterMap_eq_map,
      List.filterMap_filter]
    refine List.filterMap_congr fun row hrow => ?_
    have hkey := (h row.1 row.2 (AList.mem_lookup_iff.mpr hrow)).1
    by_cases haccount : row.1.1 = account
    · simp [haccount, hkey.symm]
    · simp [haccount]
  have hnodup : ((store.loadOperations account).map fun op => (account, op.id)).Nodup := by
    rw [hkeys]
    exact store.operations.nodupKeys.sublist List.filter_sublist
  refine List.Nodup.of_map (fun id => (account, id)) ?_
  rwa [List.map_map]

theorem openRow_eq_some {journal : WalletOperationJournal} {id : String} {row : WalletOperation} :
    openRow journal id = some row ↔ journal.get id = some row ∧ row.state.isTerminal = false := by
  simp only [openRow, Option.bind_eq_some_iff, Option.ite_none_left_eq_some, Option.some.injEq,
    Bool.not_eq_true]
  constructor
  · rintro ⟨found, hget, hopen, rfl⟩
    exact ⟨hget, hopen⟩
  · rintro ⟨hget, hopen⟩
    exact ⟨row, hget, hopen, rfl⟩

theorem mem_pendingOperations {journal : WalletOperationJournal}
    (hids : (journal.map WalletOperation.id).Nodup) {row : WalletOperation} :
    row ∈ pendingOperations journal ↔ openRow journal row.id = some row := by
  rw [openRow_eq_some, ← mem_iff_get hids]
  simp [pendingOperations]

/-- The log holds exactly the pending operations when every id is clean. -/
theorem Shadow.mirrors_iff (h : Shadow account clean st) :
    WalMirrors account st ↔ InStep account st := by
  obtain ⟨rows, hrows, hfiled, -, hpresent⟩ := h.log
  obtain ⟨store, hstore, rfl⟩ := Option.map_eq_some_iff.mp hrows
  have hnodup : (store.loadOperations account).Nodup := (nodup_loadOperations hfiled).of_map _
  have hpending : (pendingOperations st.journal).Nodup := (h.tidy.ids.of_map _).filter _
  have hid : ∀ id row, store.operations.lookup (account, id) = some row → row.id = id := by
    intro id row hrow
    have hkey := (hfiled _ row hrow).1
    simpa using hkey.symm
  constructor
  · intro hmirrors
    refine ⟨h.active, ⟨_, hrows, hfiled, fun id _ => Option.ext fun row => ?_, hpresent⟩, h.tidy⟩
    have hmem : row ∈ store.loadOperations account ↔ row ∈ pendingOperations st.journal :=
      (hmirrors store hstore).mem_iff
    rw [mem_loadOperations, mem_pendingOperations h.tidy.ids] at hmem
    constructor
    · intro hrow
      exact hid id row hrow ▸ hmem.mp ⟨id, hrow⟩
    · intro hopen
      have hsameId : row.id = id := id_of_get (openRow_eq_some.mp hopen).1
      obtain ⟨other, hother⟩ := hmem.mpr (hsameId.symm ▸ hopen)
      exact (hid other row hother).symm.trans hsameId ▸ hother
  · intro hclean found hfound
    obtain rfl := Option.eq_some_unique hstore hfound
    obtain ⟨rows, hrows', -, hall, -⟩ := hclean.log
    obtain rfl := Option.eq_some_unique hrows hrows'
    refine (List.perm_ext_iff_of_nodup hnodup hpending).mpr fun row => ?_
    rw [mem_loadOperations, mem_pendingOperations h.tidy.ids]
    constructor
    · rintro ⟨id, hrow⟩
      rw [hid id row hrow, ← hall id trivial]
      exact hrow
    · exact fun hopen => ⟨row.id, (hall row.id trivial).trans hopen⟩

/-- Two states over the same log that are both in step agree on every open row. -/
theorem openRow_eq (h : InStep account st)
    (h' : InStep account st') (hrows : rowsOf st' = rowsOf st) (id : String) :
    openRow st'.journal id = openRow st.journal id := by
  obtain ⟨rows, hlog, -, hsame, -⟩ := h.log
  obtain ⟨rows', hlog', -, hsame', -⟩ := h'.log
  obtain rfl := Option.eq_some_unique hlog (hrows ▸ hlog')
  exact (hsame' id trivial).symm.trans (hsame id trivial)

def noteSender (sender : String) (op : WalletOperation) : WalletOperation :=
  { op with recordedSender := some sender }

def noteFee (feeSats : Nat) (op : WalletOperation) : WalletOperation :=
  { op with recordedFeeSats := some feeSats }

/-- The section leaves no note on an open row that the log does not have. -/
def WritesThrough (st : CashuWalletState) (answer : Answer) : Job → Prop
  | .redeemRun op =>
    match answer with
    | .nutzap nutzap _ =>
      st.ledger.isNutzapRedeemed nutzap.eventId = true ∨
        ChangesNothing st op (noteSender nutzap.senderPubkey)
    | _ => True
  | .crossMelt op _ _ feeReserve _ _ =>
    match answer with
    | .melt .paid change =>
      (∃ row, st.journal.get op = some row ∧ row.state.canTransitionTo .mintSettled = true) ∨
        ChangesNothing st op (noteFee (feeReserve - sumAmounts change))
    | _ => True
  | .crossRetry quote _ _ _ => st.journal.get ("cross-mint-retry-send-" ++ quote) ≠ none
  | _ => True

theorem Shadow.reserve (h : Shadow account clean st) (op mint : String)
    (selected : List StoredProof) : Shadow account clean (reserveInputs st op mint selected).1 := by
  have hrecord : Shadow account clean (recordInputs st op mint selected) := by
    induction selected generalizing st with
    | nil => exact h
    | cons _ _ ih => exact ih (h.recordConsumedInput op _)
  unfold reserveInputs
  split
  · exact hrecord
  next st' ht =>
    exact ((hrecord.transition ht).mono fun other hclean => .inl hclean).congr rfl rfl rfl

theorem Shadow.persistPayload (h : Shadow account clean st) (id : String)
    (payload : CashuWalPayload) : Shadow account clean (st.persistPayload id payload) :=
  h.congr (rowsOf_persistPayload st id payload) (by simp) (by simp)

theorem Shadow.persistDepositPayload (h : Shadow account clean st) (quote : String) :
    Shadow account clean (st.persistDepositPayload quote) :=
  h.congr (rowsOf_persistDepositPayload st quote) (by simp) (by simp)

theorem Shadow.persistCrossMintPayload (h : Shadow account clean st) (quote : String) :
    Shadow account clean (st.persistCrossMintPayload quote) :=
  h.congr (rowsOf_persistCrossMintPayload st quote) (by simp) (by simp)

theorem Shadow.foldTarget (h : Shadow account clean st) (op quote target : String)
    (proofs : List Proof) (signed : TokenEvent) :
    Shadow account clean (foldTarget st op quote target proofs signed) := by
  refine Shadow.persistCrossMintPayload ?_ quote
  have hcredited : Shadow account clean (acceptMint
      ((st.addProofs (some signed.id) (canonicalizeMintUrl target) proofs).applyFact
        (.tokenAdded signed.id (canonicalizeMintUrl target) sat (proofAtoms proofs)))
      (canonicalizeMintUrl target)) := by
    unfold acceptMint
    split <;> exact h.congr rfl rfl rfl
  exact ((hcredited.advance op .publishPending).advance op .settled).congr rfl rfl rfl

theorem Shadow.foldDeposit (h : Shadow account clean st) (op quote mint : String)
    (proofs : List Proof) (lease : Nat) (signed : TokenEvent) :
    Shadow account clean (foldDeposit st op quote mint proofs lease signed) := by
  simp only [WalletDeposit.foldDeposit]
  split
  · exact h
  · refine Shadow.persistDepositPayload ?_ quote
    have hcredited : Shadow account clean
        ((st.addProofs (some signed.id) (canonicalizeMintUrl mint) proofs).applyFact
          (.tokenAdded signed.id (canonicalizeMintUrl mint) sat (proofAtoms proofs))) :=
      h.congr rfl rfl rfl
    exact (hcredited.advance op .publishPending).congr rfl rfl rfl

theorem Shadow.restoreProofs (h : Shadow account clean st) (mint : String)
    (selected : List StoredProof) : Shadow account clean (st.restoreProofs mint selected) := by
  rw [CashuWalletState.restoreProofs_eq]
  exact h.congr rfl rfl rfl

theorem Shadow.creditChange (h : Shadow account clean st) (op mint : String)
    (change : List Proof) : Shadow account clean (creditChange st op mint change) := by
  unfold WalletSend.creditChange
  split <;> exact h.congr rfl rfl rfl

theorem Shadow.ingest (h : Shadow account clean st) (event : TokenEvent) :
    Shadow account clean (ingestToken st event).state := by
  obtain ⟨proofs, ledger, heq⟩ := ingestTokenEvent_eq st event
  rw [ingestToken_state, heq]
  exact h.congr rfl rfl rfl

/-- From any state it can be in, an operation that is driven to its end is written through. -/
theorem Shadow.settled (h : Shadow account clean st) {id : String} {row : WalletOperation}
    (hget : st.journal.get id = some row) (hopen : row.state.isTerminal = false) :
    Shadow account (fun other => clean other ∨ other = id)
      (((st.advance id .mintSettled).advance id .publishPending).advance id .settled) := by
  have hbegun := h.tidy.begun id row hget
  by_cases hmint : row.state.canTransitionTo .mintSettled = true
  · exact ((h.moved hget hmint (by decide)).advance id _).advance id _
  rw [advance_refused hget (Bool.eq_false_iff.mpr hmint)]
  by_cases hpublish : row.state.canTransitionTo .publishPending = true
  · exact (h.moved hget hpublish (by decide)).advance id _
  rw [advance_refused hget (Bool.eq_false_iff.mpr hpublish)]
  refine h.moved hget ?_ (by decide)
  cases hstate : row.state <;>
    simp_all [WalletOperationState.canTransitionTo, WalletOperationState.isTerminal]

/-- An operation that is over has no row to be kept. -/
theorem Shadow.noted {id : String} {f : WalletOperation → WalletOperation}
    (hf : ∀ row, (f row).id = row.id ∧ (f row).state = row.state)
    (h : InStep account st) (hnothing : ChangesNothing st id f) :
    InStep account (st.editJournal fun j => j.edit id f) :=
  (h.editJournal hf _).mono fun _ _ => ⟨trivial, fun _ => hnothing⟩

theorem Shadow.foldSend (h : InStep account st) (op mint : String)
    (selected : List StoredProof) (swapped : SwappedSend) :
    InStep account (foldSend st op mint selected swapped) := by
  simp only [WalletSend.foldSend]
  have hprobed : InStep account (st.probeSpent selected) := h.congr rfl rfl rfl
  have hcredited := hprobed.creditChange op (canonicalizeMintUrl mint) (SwappedSend.change swapped)
  generalize WalletSend.creditChange (st.probeSpent selected) op (canonicalizeMintUrl mint)
    (SwappedSend.change swapped) = credited at hcredited
  generalize sumAmounts (selected.map StoredProof.proof) - sumAmounts swapped.newProofs = feeSats
  have hf : ∀ row, (noteFee feeSats row).id = row.id ∧ (noteFee feeSats row).state = row.state :=
    fun row => ⟨rfl, rfl⟩
  have hnoted := hcredited.editJournal hf op
  by_cases hnothing : ChangesNothing credited op (noteFee feeSats)
  · exact (((hcredited.noted hf hnothing).advance op _).advance op _).advance op _
  · simp only [ChangesNothing, not_forall, not_or, Bool.not_eq_true] at hnothing
    obtain ⟨row, hget, hopen, -⟩ := hnothing
    have hgetNoted : (credited.editJournal fun j => j.edit op (noteFee feeSats)).journal.get op =
        some (noteFee feeSats row) := by
      rw [editJournal_get hf, if_pos rfl, hget, Option.map_some]
    refine (hnoted.settled hgetNoted hopen).mono fun other _ => ?_
    by_cases hother : other = op
    · exact .inr hother
    · exact .inl ⟨trivial, fun heq => absurd heq hother⟩

theorem Shadow.redeemFail (h : Shadow account clean st) (op : String)
    (input : WalletConsumedInput) : Shadow account clean (redeemFail st op input) := by
  simp only [WalletRedeem.redeemFail]
  refine Shadow.advance ?_ op _
  split
  · split
    · exact h.recordConsumedInput op input
    · exact h
  · exact h.recordConsumedInput op input

theorem canTransitionTo_failed {state : WalletOperationState} (hopen : state.isTerminal = false) :
    state.canTransitionTo .failed = true := by
  cases state <;> simp_all [WalletOperationState.isTerminal, WalletOperationState.canTransitionTo]

/-- An open redeem that fails is written through. -/
theorem Shadow.redeemFailed (h : Shadow account clean st) {op : String} {row : WalletOperation}
    (hget : st.journal.get op = some row) (hopen : row.state.isTerminal = false)
    (input : WalletConsumedInput) :
    Shadow account (fun other => clean other ∨ other = op) (WalletRedeem.redeemFail st op input) := by
  simp only [WalletRedeem.redeemFail, hget]
  split
  · exact (h.consumed hget input).advance op _
  · exact h.moved hget (canTransitionTo_failed hopen) (by decide)

theorem rowsOf_editJournal (st : CashuWalletState)
    (f : WalletOperationJournal → Except WalletJournalError WalletOperationJournal) :
    rowsOf (st.editJournal f) = rowsOf st := by
  simp only [rowsOf, CashuWalletState.editJournal]
  split <;> rfl

/-- Where a note is still missing from the log, the two differ. -/
theorem changesNothing_of_noted {id : String} {f : WalletOperation → WalletOperation}
    (hf : ∀ row, (f row).id = row.id ∧ (f row).state = row.state)
    (h : InStep account st)
    (h' : InStep account (st.editJournal fun j => j.edit id f)) :
    ChangesNothing st id f := by
  intro row hget
  by_contra hno
  rw [not_or, Bool.not_eq_true] at hno
  have hsame := openRow_eq h h' (rowsOf_editJournal st _) id
  rw [openRow_eq_some.mpr ⟨hget, hno.1⟩] at hsame
  have hnoted := (openRow_eq_some.mp hsame).1
  rw [editJournal_get hf, if_pos rfl, hget, Option.map_some] at hnoted
  exact hno.2 (Option.some.inj hnoted)

/-- The log is in step with the state exactly when the condition holds. -/
def InStepIff (account : String) (st : CashuWalletState) (ok : Prop) : Prop :=
  ∃ clean, Shadow account clean st ∧ (InStep account st ↔ ok)

theorem InStepIff.of_mirrored (h : InStep account st) {ok : Prop} (hok : ok) :
    InStepIff account st ok := ⟨_, h, fun _ => hok, fun _ => h⟩

theorem redeemRun_inStep (h : InStep account st) (op : String) (answer : Answer) :
    InStepIff account (redeemRun st op answer).state (WritesThrough st answer (.redeemRun op)) := by
  cases answer with
  | nutzap nutzap locks =>
    have hf : ∀ row, (noteSender nutzap.senderPubkey row).id = row.id ∧
        (noteSender nutzap.senderPubkey row).state = row.state := fun row => ⟨rfl, rfl⟩
    have hnoted := h.editJournal hf op
    have hledger : (st.editJournal fun j => j.edit op (noteSender nutzap.senderPubkey)).ledger =
        st.ledger := by simp
    have hrun : redeemRun st op (.nutzap nutzap locks) =
        if st.ledger.isNutzapRedeemed nutzap.eventId then
          .stay (redeemFail (st.editJournal fun j => j.edit op (noteSender nutzap.senderPubkey)) op
            (inputOf nutzap)) []
        else .stay (st.editJournal fun j => j.edit op (noteSender nutzap.senderPubkey))
          [.redeemKeys op nutzap locks] := by
      rw [← hledger]
      rfl
    rw [hrun]
    by_cases hredeemed : st.ledger.isNutzapRedeemed nutzap.eventId = true
    · have hfailed : InStep account (redeemFail
          (st.editJournal fun j => j.edit op (noteSender nutzap.senderPubkey)) op
            (inputOf nutzap)) := by
        by_cases hnothing : ChangesNothing st op (noteSender nutzap.senderPubkey)
        · exact (h.noted hf hnothing).redeemFail op _
        · simp only [ChangesNothing, not_forall, not_or, Bool.not_eq_true] at hnothing
          obtain ⟨row, hget, hopen, -⟩ := hnothing
          have hgetNoted : (st.editJournal fun j =>
              j.edit op (noteSender nutzap.senderPubkey)).journal.get op =
                some (noteSender nutzap.senderPubkey row) := by
            rw [editJournal_get hf, if_pos rfl, hget, Option.map_some]
          refine (hnoted.redeemFailed hgetNoted hopen _).mono fun other _ => ?_
          by_cases hother : other = op
          · exact .inr hother
          · exact .inl ⟨trivial, fun heq => absurd heq hother⟩
      rw [if_pos hredeemed]
      exact .of_mirrored hfailed (.inl hredeemed)
    · rw [if_neg hredeemed]
      exact ⟨_, hnoted, fun hmirrored => .inr (changesNothing_of_noted hf h hmirrored),
        fun hok => h.noted hf (hok.resolve_left hredeemed)⟩
  | _ => exact .of_mirrored (h.redeemFail op _) trivial

theorem InStepIff.congr {ok : Prop} (h : InStepIff account st ok) (hrows : rowsOf st' = rowsOf st)
    (hactive : st'.walAccount = st.walAccount) (hjournal : st'.journal = st.journal) :
    InStepIff account st' ok := by
  obtain ⟨clean, hclean, hiff⟩ := h
  refine ⟨clean, hclean.congr hrows hactive hjournal, Iff.trans ⟨fun h => ?_, fun h => ?_⟩ hiff⟩
  · exact h.congr hrows.symm hactive.symm hjournal.symm
  · exact h.congr hrows hactive hjournal

/-- A fee noted just before the melt is settled reaches the log if the row does move. -/
theorem noteFee_inStep (h : InStep account st) (op : String) (feeSats : Nat) :
    InStepIff account
      ((st.editJournal fun j => j.edit op (noteFee feeSats)).advance op .mintSettled)
      ((∃ row, st.journal.get op = some row ∧ row.state.canTransitionTo .mintSettled = true) ∨
        ChangesNothing st op (noteFee feeSats)) := by
  have hf : ∀ row, (noteFee feeSats row).id = row.id ∧ (noteFee feeSats row).state = row.state :=
    fun row => ⟨rfl, rfl⟩
  have hget := editJournal_get hf st op op
  rw [if_pos rfl] at hget
  have hnoted := h.editJournal hf op
  by_cases hmoves : ∃ row, st.journal.get op = some row ∧
      row.state.canTransitionTo .mintSettled = true
  · obtain ⟨row, hrow, hcan⟩ := hmoves
    rw [hrow] at hget
    refine .of_mirrored ((hnoted.moved hget hcan (by decide)).mono fun other _ => ?_)
      (.inl ⟨row, hrow, hcan⟩)
    by_cases hother : other = op
    · exact .inr hother
    · exact .inl ⟨trivial, fun heq => absurd heq hother⟩
  · have hstays : (st.editJournal fun j => j.edit op (noteFee feeSats)).advance op .mintSettled =
        st.editJournal fun j => j.edit op (noteFee feeSats) := by
      cases hrow : st.journal.get op with
      | none =>
        rw [hrow] at hget
        simp [CashuWalletState.advance, CashuWalletState.transition,
          WalletOperationJournal.transition, hget]
      | some row =>
        rw [hrow] at hget
        exact advance_refused hget (Bool.eq_false_iff.mpr fun hcan => hmoves ⟨row, hrow, hcan⟩)
    rw [hstays]
    exact ⟨_, hnoted, fun hmirrored => .inr (changesNothing_of_noted hf h hmirrored),
      fun hok => h.noted hf (hok.resolve_left hmoves)⟩

theorem crossMelt_inStep (h : InStep account st) (op quote source : String)
    (feeReserve : Nat) (selected : List StoredProof) (retry : Option Nat) (answer : Answer) :
    InStepIff account (crossMelt st op quote source feeReserve selected retry answer).state
      (WritesThrough st answer (.crossMelt op quote source feeReserve selected retry)) := by
  have hunknown := h.advance op .unknown
  cases answer with
  | melt state change =>
    cases state with
    | paid =>
      have hprobed : InStep account (st.probeSpent selected) := h.congr rfl rfl rfl
      have hsettled : InStep account
          ((creditChange (st.probeSpent selected) op source change).editCrossMint quote
            fun p => { p with meltSettled := true }) :=
        (hprobed.creditChange op source change).congr rfl rfl rfl
      have hjournal : ((creditChange (st.probeSpent selected) op source change).editCrossMint quote
          fun p => { p with meltSettled := true }).journal = st.journal :=
        creditChange_journal _ op source change
      have hnote := noteFee_inStep hsettled op (feeReserve - sumAmounts change)
      simp only [ChangesNothing, hjournal] at hnote
      refine hnote.congr (rowsOf_persistCrossMintPayload _ quote) ?_ ?_
      · exact (CashuWalletState.persistCrossMintPayload_frame _ quote).2.2.2.2.2.2
      · exact (CashuWalletState.persistCrossMintPayload_frame _ quote).2.2.1
    | _ => exact .of_mirrored hunknown trivial
  | _ => exact .of_mirrored hunknown trivial

/-- An operation begins under an id that is new, as a prepared row without an amount. -/
theorem beginOperationAt_row {id : String} {kind : WalletOperationKind} {now : Nat}
    (h : st.beginOperationAt id kind now = .ok st') :
    st.journal.get id = none ∧ ∃ row, st'.journal.get id = some row ∧
      row.state.isTerminal = false ∧ row.recordedAmount = none := by
  simp only [CashuWalletState.beginOperationAt] at h
  split at h
  · cases h
  next drafted hinsert =>
    refine ⟨WalletOperationJournal.insert_new hinsert, ?_⟩
    obtain ⟨journal, hjournal, rfl⟩ := CashuWalletState.transition_eq h
    obtain ⟨row, hget, -, rfl⟩ := WalletOperationJournal.transition_ok hjournal
    refine ⟨{ row with state := .prepared }, ?_, rfl, ?_⟩
    · rw [(CashuWalletState.walPersist_frame _ id).2.2.1]
      exact WalletOperationJournal.get_update_self (fun _ => rfl) hget
    · have hrow := (WalletOperationJournal.get_insert hinsert id).symm.trans hget
      rw [WalletOperation.new, if_pos rfl] at hrow
      exact Option.some.inj hrow ▸ rfl

/-- The row `begin_operation_at` inserts. -/
def drafted (id : String) (kind : WalletOperationKind) (now : Nat) : WalletOperation :=
  { WalletOperation.new id kind .draft with recordedAt := some now }

theorem beginOperationAt_refused {id : String} {kind : WalletOperationKind} {now : Nat}
    {e : WalletJournalError} (h : st.beginOperationAt id kind now = .error e) :
    st.journal.get id ≠ none := by
  intro hnone
  have hinsert : st.journal.insert (drafted id kind now) =
      .ok (st.journal ++ [drafted id kind now]) := by
    rw [WalletOperationJournal.insert, if_neg]
    rw [WalletOperationJournal.get, List.find?_eq_none] at hnone
    simp only [List.any_eq_true, not_exists, not_and]
    exact hnone
  have hget : WalletOperationJournal.get (st.journal ++ [drafted id kind now]) id =
      some (drafted id kind now) :=
    (WalletOperationJournal.get_insert hinsert id).trans (if_pos rfl)
  have hbegin : st.beginOperationAt id kind now =
      ({ st with journal := st.journal ++ [drafted id kind now] } : CashuWalletState).transition id
        .prepared := by
    simp only [CashuWalletState.beginOperationAt]
    rw [show { WalletOperation.new id kind .draft with recordedAt := some now } =
      drafted id kind now from rfl, hinsert]
  rw [hbegin] at h
  simp only [CashuWalletState.transition, WalletOperationJournal.transition, hget,
    validateTransition] at h
  cases h

/-- A send that has just begun and been noted is ahead of its row in the log. -/
theorem not_mirrored_of_noted (h : InStep account st) {id : String}
    {row : WalletOperation} (row' : WalletOperation) (hget : st.journal.get id = some row)
    (hopen : row.state.isTerminal = false) (hrows : rowsOf st' = rowsOf st)
    (hget' : st'.journal.get id = some row') (hne : row'.recordedAmount ≠ row.recordedAmount) :
    ¬ InStep account st' := by
  intro h'
  have hsame := openRow_eq h h' hrows id
  rw [openRow_eq_some.mpr ⟨hget, hopen⟩] at hsame
  obtain rfl := Option.some.inj ((openRow_eq_some.mp hsame).1.symm.trans hget')
  exact hne rfl

def noteAmount (amount : Nat) (op : WalletOperation) : WalletOperation :=
  { op with recordedAmount := some amount }

def noteOrigin (source : String) (feeSats : Nat) (op : WalletOperation) : WalletOperation :=
  { op with
    recordedCrossMintSource := some source
    recordedCrossMintFeeSats := some feeSats }

theorem startSend_inStep (h : InStep account st) (op : String) (amount now : Nat)
    (job : Job) :
    InStepIff account (startOperation st op .sendNutzap now
      (fun st => st.editJournal fun j => j.edit op (noteAmount amount)) job).state
        (st.journal.get op ≠ none) := by
  simp only [startOperation]
  split
  next e hbegin => exact .of_mirrored h (beginOperationAt_refused hbegin)
  next begun hbegin =>
    have hbegun := h.beginOperationAt hbegin
    obtain ⟨hnew, row, hget, hopen, hnone⟩ := beginOperationAt_row hbegin
    have hf : ∀ row, (noteAmount amount row).id = row.id ∧ (noteAmount amount row).state = row.state :=
      fun row => ⟨rfl, rfl⟩
    refine ⟨_, hbegun.editJournal hf op, fun hmirrored => ?_, fun hold => absurd hnew hold⟩
    refine absurd hmirrored (not_mirrored_of_noted hbegun (noteAmount amount row) hget hopen
      (rowsOf_editJournal begun _) ?_ ?_)
    · rw [Outcome.stay, editJournal_get hf, if_pos rfl, hget, Option.map_some]
    · rw [hnone]
      simp [noteAmount]

theorem crossRetry_inStep (h : InStep account st) (quote source : String)
    (amount feeSats now : Nat) (answer : Answer) :
    InStepIff account (crossRetry st quote source amount feeSats now).state
      (WritesThrough st answer (.crossRetry quote source amount feeSats)) := by
  simp only [crossRetry]
  split
  next e hbegin => exact .of_mirrored h (beginOperationAt_refused hbegin)
  next begun hbegin =>
    have hbegun := h.beginOperationAt hbegin
    obtain ⟨hnew, row, hget, hopen, hnone⟩ := beginOperationAt_row hbegin
    have hf : ∀ row, (noteAmount amount row).id = row.id ∧ (noteAmount amount row).state = row.state :=
      fun row => ⟨rfl, rfl⟩
    have hf' : ∀ row, (noteOrigin source feeSats row).id = row.id ∧
        (noteOrigin source feeSats row).state = row.state := fun row => ⟨rfl, rfl⟩
    refine ⟨_, (hbegun.editJournal hf _).editJournal hf' _, fun hmirrored => ?_,
      fun hold => absurd hnew hold⟩
    refine absurd hmirrored (not_mirrored_of_noted hbegun
      (noteOrigin source feeSats (noteAmount amount row)) hget hopen
      ((rowsOf_editJournal _ _).trans (rowsOf_editJournal begun _)) ?_ ?_)
    · have hnoted := editJournal_get hf begun ("cross-mint-retry-send-" ++ quote)
        ("cross-mint-retry-send-" ++ quote)
      rw [if_pos rfl, hget, Option.map_some] at hnoted
      refine (editJournal_get hf' _ _ _).trans ((if_pos rfl).trans ?_)
      exact congrArg (Option.map (noteOrigin source feeSats)) hnoted
    · rw [hnone]
      simp [noteAmount, noteOrigin]

theorem resumeJob_inStep (h : InStep account st) (answer : Answer) (now : Nat)
    (job : Job) :
    InStepIff account (resumeJob st answer now job).state (WritesThrough st answer job) := by
  by_cases hlooks : looks job = true
  · rw [resumeJob_looks st answer now hlooks]
    exact .of_mirrored h (by cases job <;> trivial)
  cases hop : journals job with
  | some op =>
    have hmoved : ∀ st', Journaled st op st' → InStep account st' := by
      rintro _ (_ | next | p)
      exacts [h, h.advance op next, h.persistPayload op p]
    exact .of_mirrored (hmoved _ (resumeJob_journals st answer now hop))
      (by cases job <;> trivial)
  | none =>
  cases job with
  | redeemRun op => exact redeemRun_inStep h op answer
  | crossMelt op quote source feeReserve selected retry =>
    exact crossMelt_inStep h op quote source feeReserve selected retry answer
  | crossRetry quote source amount feeSats =>
    exact crossRetry_inStep h quote source amount feeSats now answer
  | sendSelected op _ mint selected =>
    refine .of_mirrored ?_ trivial
    have hreserve := h.reserve op mint selected
    simp only [resumeJob, sendSelected]
    split
    next st' heq =>
      rw [heq] at hreserve
      exact hreserve
    next st' heq =>
      rw [heq] at hreserve
      exact hreserve.persistPayload op _
  | sendKeyset op _ mint selected =>
    have hrestored := (h.restoreProofs mint selected).advance op .failed
    refine .of_mirrored ?_ trivial
    simp only [resumeJob, sendKeyset]
    split
    · split
      · exact hrestored
      · exact h
    · exact hrestored
  | sendSigning op mint selected swapped =>
    refine .of_mirrored ?_ trivial
    simp only [resumeJob, sendSigning]
    split
    · exact h.foldSend op mint selected swapped
    · exact h
  | redeemKeys op =>
    refine .of_mirrored ?_ trivial
    simp only [resumeJob, redeemKeys]
    split
    · exact h
    · exact h.redeemFail op _
  | redeemReserve op nutzap =>
    refine .of_mirrored ?_ trivial
    have hrecorded := h.recordConsumedInput op (inputOf nutzap)
    simp only [resumeJob, redeemReserve]
    split
    · exact hrecorded
    next st' ht =>
      exact ((hrecorded.transition ht).mono fun _ _ => .inl trivial).persistPayload op _
  | redeemHistorySigning op =>
    refine .of_mirrored ?_ trivial
    simp only [resumeJob, redeemHistorySigning]
    split
    · refine Shadow.advance ?_ op _
      exact h.congr rfl rfl rfl
    · exact h
  | redeemResume op =>
    refine .of_mirrored ?_ trivial
    simp only [resumeJob, redeemResume]
    split
    · exact h
    · split
      · exact h
      · split
        · exact h.dropRedeem op
        · exact h.advance op _
    · exact h
  | crossBegin =>
    refine .of_mirrored ?_ trivial
    simp only [resumeJob, crossBegin]
    split
    · exact h
    next st' hbegin => exact h.beginOperationAt hbegin
  | crossSelected op _ quote source _ _ _ selected =>
    refine .of_mirrored ?_ trivial
    have hreserve := h.reserve op source selected
    simp only [resumeJob, crossSelected]
    split
    next st' heq =>
      rw [heq] at hreserve
      exact hreserve
    next st' heq =>
      rw [heq] at hreserve
      refine Shadow.persistCrossMintPayload ?_ quote
      exact hreserve.congr rfl rfl rfl
  | crossMint quote =>
    refine .of_mirrored ?_ trivial
    simp only [resumeJob, crossMint]
    split
    · refine Shadow.persistCrossMintPayload ?_ quote
      exact h.congr rfl rfl rfl
    · exact h
  | crossSigning op quote target proofs =>
    refine .of_mirrored ?_ trivial
    simp only [resumeJob, crossSigning]
    split
    · exact h.foldTarget op quote target proofs _
    · exact h
  | crossResume =>
    refine .of_mirrored ?_ trivial
    simp only [resumeJob, crossResume]
    split
    · exact h
    · split <;> exact h.congr rfl rfl rfl
  | crossStatus quote pending =>
    refine .of_mirrored ?_ trivial
    simp only [resumeJob, crossStatus]
    split
    · refine Shadow.persistCrossMintPayload (Shadow.advance ?_ _ _) quote
      exact h.congr rfl rfl rfl
    · refine Shadow.advance ?_ _ _
      exact (h.restoreProofs pending.sourceMint pending.sourceSelected).congr rfl rfl rfl
    · exact h
  | depositQuote op =>
    refine .of_mirrored ?_ trivial
    simp only [resumeJob, depositQuote]
    split
    · refine Shadow.persistDepositPayload (Shadow.advance ?_ op _) _
      exact h.congr rfl rfl rfl
    · exact h.advance op _
  | depositComplete op quote mint amount =>
    have hlease : ∀ pending, InStep account
        (takeLease st op quote mint amount now pending).state := by
      intro pending
      simp only [takeLease]
      split <;> exact h.congr rfl rfl rfl
    refine .of_mirrored ?_ trivial
    simp only [resumeJob, depositComplete]
    split
    · exact h
    · split
      · exact h
      · split
        · exact h
        · exact hlease _
      · exact hlease _
  | depositMint _ quote =>
    refine .of_mirrored ?_ trivial
    simp only [resumeJob, depositMint]
    split
    · refine Shadow.persistDepositPayload ?_ quote
      exact h.congr rfl rfl rfl
    · exact h.congr rfl rfl rfl
    · exact h.congr rfl rfl rfl
  | depositSigning op quote mint proofs lease =>
    refine .of_mirrored ?_ trivial
    simp only [resumeJob, depositSigning]
    split
    · exact h.foldDeposit op quote mint proofs lease _
    · exact h
  | depositResume =>
    refine .of_mirrored ?_ trivial
    simp only [resumeJob, depositResume]
    split
    · exact h
    · split
      · exact h
      · exact h.congr rfl rfl rfl
      · exact h
  | ingestToken event => exact .of_mirrored (h.ingest event) trivial
  | ingestConfig =>
    refine .of_mirrored ?_ trivial
    simp only [resumeJob, Outcome.stay, ingestWalletConfig]
    split
    · exact h
    · exact h.congr rfl rfl rfl
  | checkMints =>
    refine .of_mirrored ?_ trivial
    simp only [resumeJob, checkMints]
    split
    · split
      · exact h
      · split <;> exact h.congr rfl rfl rfl
    · split
      · split
        · exact h
        · exact h.congr rfl rfl rfl
      · exact h
  | spawnDebounced =>
    refine .of_mirrored ?_ trivial
    simp only [resumeJob, spawnDebounced]
    split <;> exact h.congr rfl rfl rfl
  | _ => first | exact absurd rfl hlooks | cases hop

theorem get_cons (row : WalletOperation) (rest : WalletOperationJournal) (id : String) :
    WalletOperationJournal.get (row :: rest) id =
      if row.id = id then some row else WalletOperationJournal.get rest id := by
  by_cases hid : row.id = id <;> simp [WalletOperationJournal.get, hid]

theorem restoreRow_open (hopen : op.state.isTerminal = false) :
    restoreRow account st op = st.editJournal fun j => j.insert op := by
  simp [restoreRow, hopen]

/-- Open rows are put back where the journal has none under their id. -/
theorem restoreIntoJournal_open (account : String) (st : CashuWalletState)
    {ops : List WalletOperation} (hopen : ∀ op ∈ ops, op.state.isTerminal = false) :
    (restoreIntoJournal st account ops).walStore = st.walStore ∧
      (restoreIntoJournal st account ops).walAccount = st.walAccount ∧
      ((st.journal.map WalletOperation.id).Nodup →
        ((restoreIntoJournal st account ops).journal.map WalletOperation.id).Nodup) ∧
      ∀ id, (restoreIntoJournal st account ops).journal.get id =
        (st.journal.get id).or (WalletOperationJournal.get ops id) := by
  induction ops generalizing st with
  | nil => exact ⟨rfl, rfl, id, fun id => by simp [restoreIntoJournal, WalletOperationJournal.get]⟩
  | cons op rest ih =>
    have hstep : restoreIntoJournal st account (op :: rest) =
        restoreIntoJournal (restoreRow account st op) account rest := rfl
    obtain ⟨hstore, hactive, hids, hget⟩ := ih (restoreRow account st op)
      fun row hrow => hopen row (List.mem_cons_of_mem _ hrow)
    rw [hstep, hstore, hactive]
    rw [restoreRow_open (hopen op List.mem_cons_self)] at *
    cases hinsert : st.journal.insert op with
    | error =>
      simp only [CashuWalletState.editJournal, hinsert] at hids hget ⊢
      refine ⟨trivial, trivial, hids, fun id => ?_⟩
      rw [hget, get_cons]
      split
      next hid =>
        have hfound : st.journal.get id ≠ none := by
          intro hnone
          rw [← hid, WalletOperationJournal.get, List.find?_eq_none] at hnone
          rw [WalletOperationJournal.insert, if_neg (by simpa using hnone)] at hinsert
          cases hinsert
        obtain ⟨row, hrow⟩ := Option.ne_none_iff_exists'.mp hfound
        simp [hrow]
      · rfl
    | ok =>
      simp only [CashuWalletState.editJournal, hinsert] at hids hget ⊢
      refine ⟨trivial, trivial, fun hnodup => hids (ids_insert hnodup hinsert), fun id => ?_⟩
      rw [hget, WalletOperationJournal.get_insert hinsert, get_cons]
      split
      next hid =>
        rw [hid, if_pos rfl, WalletOperationJournal.insert_new hinsert]
        rfl
      next hid => rw [if_neg (Ne.symm hid)]

/-- A restore changes nothing when the journal already has every row of the log. -/
theorem restoreIntoJournal_again {ops : List WalletOperation}
    (hops : ∀ op ∈ ops, op.state.isTerminal = false ∧ st.journal.get op.id ≠ none) :
    restoreIntoJournal st account ops = st := by
  induction ops with
  | nil => rfl
  | cons op rest ih =>
    have hsame : restoreRow account st op = st := by
      rw [restoreRow_open (hops op List.mem_cons_self).1]
      simp only [CashuWalletState.editJournal]
      split
      · rfl
      next journal hinsert =>
        exact absurd (WalletOperationJournal.insert_new hinsert) (hops op List.mem_cons_self).2
    have hstep : restoreIntoJournal st account (op :: rest) =
        restoreIntoJournal (restoreRow account st op) account rest := rfl
    rw [hstep, hsame]
    exact ih fun row hrow => hops row (List.mem_cons_of_mem _ hrow)

theorem open_of_loaded (hfiled : Filed account store.operations)
    (h : op ∈ store.loadOperations account) :
    op.state.isTerminal = false ∧ op.state ≠ .draft ∧
      store.operations.lookup (account, op.id) = some op := by
  obtain ⟨id, hlookup⟩ := mem_loadOperations.mp h
  obtain ⟨hkey, hopen, hdraft⟩ := hfiled _ op hlookup
  obtain rfl : id = op.id := by simpa using hkey
  exact ⟨hopen, hdraft, hlookup⟩

/-- After a restore the log is in step, whether or not the journal was empty. -/
theorem shadow_restoreIntoJournal (hstore : st.walStore = some store)
    (hactive : st.walAccount = some account) (hfiled : Filed account store.operations)
    (htidy : Tidy st.journal)
    (hsame : ∀ id, st.journal.get id ≠ none → (clean id → store.operations.lookup (account, id) = openRow st.journal id) ∧ (store.operations.lookup (account, id)).isSome = (openRow st.journal id).isSome)
    :
    Shadow account clean (restoreIntoJournal st account (store.loadOperations account)) := by
  obtain ⟨hlog, haccount, hids, hget⟩ := restoreIntoJournal_open account st
    fun op hop => (open_of_loaded hfiled hop).1
  have hnew : ∀ id, st.journal.get id = none → store.operations.lookup (account, id) = openRow
      (restoreIntoJournal st account (store.loadOperations account)).journal id := by
    intro id hold
    rw [openRow, hget, hold, Option.none_or]
    cases hlookup : store.operations.lookup (account, id) with
    | some row =>
      obtain rfl : row.id = id := by simpa using ((hfiled _ row hlookup).1).symm
      have hmem : row ∈ store.loadOperations account := mem_loadOperations.mpr ⟨_, hlookup⟩
      rw [get_eq_of_mem (nodup_loadOperations hfiled) hmem]
      simp [(open_of_loaded hfiled hmem).1]
    | none =>
      cases hfound : WalletOperationJournal.get (store.loadOperations account) id with
      | none => rfl
      | some =>
        have hrow := (open_of_loaded hfiled (List.mem_of_find?_eq_some hfound)).2.2
        rw [id_of_get hfound, hlookup] at hrow
        cases hrow
  have hold : ∀ id row, st.journal.get id = some row → openRow
      (restoreIntoJournal st account (store.loadOperations account)).journal id =
        openRow st.journal id := by
    intro id row hrow
    rw [openRow, openRow, hget, hrow]
    rfl
  refine ⟨haccount.trans hactive, ⟨_, by rw [rowsOf, hlog, hstore]; rfl, hfiled,
    fun id hclean => ?_, fun id => ?_⟩, hids htidy.ids, fun id row hfound => ?_⟩
  · cases hrow : st.journal.get id with
    | none => exact hnew id hrow
    | some row => rw [hold id row hrow, (hsame id (by simp [hrow])).1 hclean]
  · cases hrow : st.journal.get id with
    | none => rw [hnew id hrow]
    | some row => rw [hold id row hrow, (hsame id (by simp [hrow])).2]
  · rw [hget, Option.or_eq_some_iff] at hfound
    rcases hfound with hfound | ⟨-, hfound⟩
    · exact htidy.begun id row hfound
    · exact (open_of_loaded hfiled (List.mem_of_find?_eq_some hfound)).2.1

theorem tidy_nil : Tidy [] := ⟨List.nodup_nil, fun _ _ h => by cases h⟩

/-- In step, the log brings the pending operations back. -/
theorem Shadow.lockstep (h : InStep account st) : Lockstep account st := by
  have hmirrors := h.mirrors_iff.mpr h
  obtain ⟨rows, hrows, hfiled, -⟩ := h.log
  obtain ⟨store, hstore, rfl⟩ := Option.map_eq_some_iff.mp hrows
  have hrestarted : restarted account st = restoreIntoJournal
      { CashuWalletState.new (some store) with walAccount := some account } account
        (store.loadOperations account) := by
    simp [restarted, hstore]
  obtain ⟨hlog, -, -, hget⟩ := restoreIntoJournal_open account
    { CashuWalletState.new (some store) with walAccount := some account }
    fun op hop => (open_of_loaded hfiled hop).1
  have hback : InStep account (restarted account st) := by
    rw [hrestarted]
    exact shadow_restoreIntoJournal rfl rfl hfiled tidy_nil fun id hid => absurd rfl hid
  have hloaded : (store.loadOperations account).Perm
      (pendingOperations (restarted account st).journal) :=
    hback.mirrors_iff.mpr hback store (hrestarted ▸ hlog)
  have hpending : pendingOperations (restarted account st).journal =
      (restarted account st).journal := by
    refine List.filter_eq_self.mpr fun row hrow => ?_
    have hfound := get_eq_of_mem hback.tidy.ids hrow
    rw [hrestarted, hget] at hfound
    simp [(open_of_loaded hfiled (List.mem_of_find?_eq_some hfound)).1]
  have hsame : (restarted account st).walStore = some store := hrestarted ▸ hlog
  refine ⟨hmirrors, ?_, fun found hfound op hop => ?_, fun found hfound => ?_⟩
  · rw [← hpending]
    exact hloaded.symm.trans (hmirrors store hstore)
  · obtain rfl := Option.eq_some_unique hsame hfound
    exact (open_of_loaded hfiled hop).1
  · obtain rfl := Option.eq_some_unique hsame hfound
    refine restoreIntoJournal_again fun op hop => ⟨(open_of_loaded hfiled hop).1, ?_⟩
    have hmem := hloaded.mem_iff.mp hop
    rw [hpending] at hmem
    rw [get_eq_of_mem hback.tidy.ids hmem]
    simp

/-- An act of the system, or what the intents it leaves out (wallet creation, mint list,
published info) do to the journal: begin an operation, move one. -/
inductive JournalAct
  | system (act : Act)
  | begins (op : String) (kind : WalletOperationKind) (now : Nat)
  | moves (op : String) (next : WalletOperationState)
  deriving DecidableEq, Repr

def performs (w : World) : JournalAct → World
  | .system act => step w act
  | .begins op kind now =>
    match w.state.beginOperationAt op kind now with
    | .ok st => { w with state := st }
    | .error _ => w
  | .moves op next => { w with state := w.state.advance op next }

/-- The account is the only one, and active whenever a command of it runs. -/
def UnderAccount (account : String) (w : World) : JournalAct → Prop
  | .system .crash | .system .reset => True
  | .system (.restore other) => other = account
  | _ => w.state.walAccount = some account

instance (account : String) (w : World) (act : JournalAct) :
    Decidable (UnderAccount account w act) := by
  unfold UnderAccount
  split <;> infer_instance

/-- The act leaves no note on an open row that the log does not have. -/
def Written (w : World) : JournalAct → Prop
  | .system (.startSend _ op _ _) => w.state.journal.get op ≠ none
  | .system (.resume account job answer _) =>
    (account, job) ∈ w.jobs → WritesThrough w.state answer job
  | _ => True

/-- Between a crash and the restore: nothing is journalled, and the log has only open rows. -/
structure Crashed (account : String) (st : CashuWalletState) : Prop where
  inactive : st.walAccount = none
  journal : st.journal = []
  log : ∃ rows, rowsOf st = some rows ∧ Filed account rows

theorem Crashed.of_new {rows : Table (String × String) WalletOperation}
    (hrows : rowsOf st = some rows) (hfiled : Filed account rows) :
    Crashed account (.new st.walStore) := ⟨rfl, rfl, rows, hrows, hfiled⟩

theorem foldl_restoreDeposit_saga (rows : List (String × CashuWalPayload))
    (acc : CashuWalletState × List Job) :
    rowsOf (rows.foldl restoreDeposit acc).1 = rowsOf acc.1 ∧
      (rows.foldl restoreDeposit acc).1.walAccount = acc.1.walAccount ∧
      (rows.foldl restoreDeposit acc).1.journal = acc.1.journal := by
  induction rows generalizing acc with
  | nil => simp
  | cons row _ ih =>
    have hrow : rowsOf (restoreDeposit acc row).1 = rowsOf acc.1 ∧
        (restoreDeposit acc row).1.walAccount = acc.1.walAccount ∧
        (restoreDeposit acc row).1.journal = acc.1.journal := by
      unfold restoreDeposit
      split <;> exact ⟨rfl, rfl, rfl⟩
    simp [ih, hrow]

theorem foldl_restoreCrossMint_saga (rows : List (String × CashuWalPayload))
    (acc : CashuWalletState × List Job) :
    rowsOf (rows.foldl restoreCrossMint acc).1 = rowsOf acc.1 ∧
      (rows.foldl restoreCrossMint acc).1.walAccount = acc.1.walAccount ∧
      (rows.foldl restoreCrossMint acc).1.journal = acc.1.journal := by
  induction rows generalizing acc with
  | nil => simp
  | cons row _ ih =>
    have hrow : rowsOf (restoreCrossMint acc row).1 = rowsOf acc.1 ∧
        (restoreCrossMint acc row).1.walAccount = acc.1.walAccount ∧
        (restoreCrossMint acc row).1.journal = acc.1.journal := by
      unfold restoreCrossMint
      split <;> exact ⟨rfl, rfl, rfl⟩
    simp [ih, hrow]

theorem shadow_restoreFromWal {rows : Table (String × String) WalletOperation}
    (hrows : rowsOf st = some rows) (hfiled : Filed account rows) (htidy : Tidy st.journal)
    (hsame : ∀ id, st.journal.get id ≠ none →
      (clean id → rows.lookup (account, id) = openRow st.journal id) ∧
        (rows.lookup (account, id)).isSome = (openRow st.journal id).isSome) :
    Shadow account clean (restoreFromWal st account).1 := by
  obtain ⟨store, hstore, rfl⟩ := Option.map_eq_some_iff.mp hrows
  have hback : Shadow account clean (restoreIntoJournal
      { st with walAccount := some account } account (store.loadOperations account)) :=
    shadow_restoreIntoJournal hstore rfl hfiled htidy hsame
  unfold restoreFromWal
  split
  next hnone =>
    rw [hstore] at hnone
    cases hnone
  next found hfound =>
    obtain rfl := Option.eq_some_unique hstore hfound
    simp only
    split
    · exact hback
    next healed hhealed =>
      obtain ⟨hd, hd', hd''⟩ := foldl_restoreDeposit_saga (inFlight healed account .depositCashu)
        (restoreIntoJournal { st with walAccount := some account } account
          (store.loadOperations account), [])
      obtain ⟨hc, hc', hc''⟩ := foldl_restoreCrossMint_saga
        (inFlight healed account .crossMintTransfer)
        (((inFlight healed account .depositCashu).foldl restoreDeposit
          (restoreIntoJournal { st with walAccount := some account } account
            (store.loadOperations account), [])).1, [])
      exact hback.congr (hc.trans hd) (hc'.trans hd') (hc''.trans hd'')

/-- One act: the wallet starts over, or the log is in step exactly when the act is written. -/
theorem performs_inStep {w : World} (h : InStep account w.state ∨ Crashed account w.state)
    {act : JournalAct} (hdom : UnderAccount account w act) :
    (Crashed account (performs w act).state ∧ Written w act) ∨
      InStepIff account (performs w act).state (Written w act) := by
  have hmirrored : w.state.walAccount = some account → InStep account w.state := by
    intro hactive
    refine h.resolve_right fun hcrashed => ?_
    rw [hcrashed.inactive] at hactive
    cases hactive
  have hlog : ∃ rows, rowsOf w.state = some rows ∧ Filed account rows := by
    rcases h with h | h
    · obtain ⟨rows, hrows, hfiled, -⟩ := h.log
      exact ⟨rows, hrows, hfiled⟩
    · exact h.log
  obtain ⟨rows, hrows, hfiled⟩ := hlog
  cases act with
  | begins =>
    have h := hmirrored hdom
    simp only [performs]
    split
    next st' hbegin => exact .inr (.of_mirrored (h.beginOperationAt hbegin) trivial)
    · exact .inr (.of_mirrored h trivial)
  | moves op next => exact .inr (.of_mirrored ((hmirrored hdom).advance op next) trivial)
  | system act =>
    cases act with
    | startSend _ op amount now =>
      exact .inr (startSend_inStep (hmirrored hdom) op amount now (.sendRun op amount))
    | startRedeem =>
      have h := hmirrored hdom
      refine .inr (.of_mirrored ?_ trivial)
      simp only [performs, step, World.after, startOperation]
      split
      · exact h
      next st' hbegin => exact h.beginOperationAt hbegin
    | startCrossMint =>
      have h := hmirrored hdom
      refine .inr (.of_mirrored ?_ trivial)
      simp only [performs, step, World.after, crossPrepare]
      split <;> exact h
    | startDeposit =>
      have h := hmirrored hdom
      refine .inr (.of_mirrored ?_ trivial)
      simp only [performs, step, World.after, startDeposit]
      split
      · exact h
      · split
        · exact h
        next begun hbegin =>
          have hbegun := h.beginOperationAt hbegin
          split
          · exact hbegun
          next st' ht => exact (hbegun.transition ht).mono fun _ _ => .inl trivial
    | startComplete =>
      have h := hmirrored hdom
      refine .inr (.of_mirrored ?_ trivial)
      simp only [performs, step, World.after, startComplete]
      split <;> exact h
    | checkState | observeConfig => exact .inr (.of_mirrored (hmirrored hdom) trivial)
    | resume other job answer now =>
      have h := hmirrored hdom
      by_cases hjob : (other, job) ∈ w.jobs
      · obtain ⟨clean, hclean, hiff⟩ := resumeJob_inStep h answer now job
        have hstate : (performs w (.system (.resume other job answer now))).state =
            (resumeJob w.state answer now job).state := by
          simp [performs, step, World.after, hjob]
        rw [hstate]
        exact .inr ⟨clean, hclean, hiff.trans ⟨fun hok _ => hok, fun hok => hok hjob⟩⟩
      · have hstate : performs w (.system (.resume other job answer now)) = w := by
          simp [performs, step, hjob]
        rw [hstate]
        exact .inr (.of_mirrored h fun hmem => absurd hmem hjob)
    | observe =>
      have h := hmirrored hdom
      refine .inr (.of_mirrored ?_ trivial)
      simp only [performs, step, World.after, Outcome.stay, settleDepositOnIngestedToken]
      split
      · exact h
      next row hrow => exact (h.advance row.2.operationId _).congr rfl rfl rfl
    | reset | crash => exact .inl ⟨.of_new hrows hfiled, trivial⟩
    | restore other =>
      obtain rfl : other = account := hdom
      refine .inr (.of_mirrored ?_ trivial)
      rcases h with h | h
      · obtain ⟨rows', hrows', -, hsame, hpresent⟩ := h.log
        obtain rfl := Option.eq_some_unique hrows hrows'
        exact shadow_restoreFromWal hrows hfiled h.tidy fun id _ =>
          ⟨fun _ => hsame id trivial, hpresent id⟩
      · refine shadow_restoreFromWal hrows hfiled (h.journal ▸ tidy_nil) fun id hid => ?_
        rw [h.journal] at hid
        exact absurd rfl hid

/-- Under one account, from an empty log: the log mirrors the journal in every state of the run
exactly when every note that is taken is written through with the act that takes it. -/
theorem wal_mirrors_journal_iff (account : String) (acts : List JournalAct)
    (hdom : Meets performs (UnderAccount account) (World.new (some .empty)) acts) :
    (∀ before, before <+: acts →
      (run performs (World.new (some .empty)) before).state.walAccount = some account →
        Lockstep account (run performs (World.new (some .empty)) before).state) ↔
      Meets performs Written (World.new (some .empty)) acts := by
  refine always_iff_meets
    (fun w => InStep account w.state ∨ Crashed account w.state)
    (fun w => w.state.walAccount = some account → Lockstep account w.state)
    (fun w act h hdom hok => ?_) (fun w h hactive => ?_) (fun w act h hdom hgood => ?_) ?_ hdom
  · rcases performs_inStep h hdom with hcrashed | ⟨clean, -, hiff⟩
    · exact .inr hcrashed.1
    · exact .inl (hiff.mpr hok)
  · rcases h with h | h
    · exact h.lockstep
    · rw [h.inactive] at hactive
      cases hactive
  · rcases performs_inStep h hdom with hcrashed | ⟨clean, hclean, hiff⟩
    · exact hcrashed.2
    · exact hiff.mp (hclean.mirrors_iff.mp (hgood hclean.active).mirrors)
  · exact .inr ⟨rfl, rfl, ∅, rfl, fun key row hrow => by cases hrow⟩

/-- A wallet is created and a redeem starts; the crash finds both in the log. -/
theorem wal_mirrors_journal_redeem_crash :
    Lockstep "a" (run performs (World.new (some .empty))
      [.system (.restore "a"), .begins "create" .createCashuWallet 1,
        .moves "create" .publishPending, .system (.startRedeem "a" "z" 2), .system .crash,
        .system (.restore "a")]).state :=
  (wal_mirrors_journal_iff "a" [.system (.restore "a"), .begins "create" .createCashuWallet 1,
    .moves "create" .publishPending, .system (.startRedeem "a" "z" 2), .system .crash,
    .system (.restore "a")] (by decide +kernel)).mpr
    ⟨trivial, trivial, trivial, trivial, trivial, trivial, trivial⟩ _ (List.prefix_refl _) rfl

/-- A send has begun and its amount is noted: the row of the log has no amount, and neither has
the operation a crash leaves to be restored. -/
theorem amount_missing_from_log :
    ∃ acts, Meets performs (UnderAccount "a") (World.new (some .empty)) acts ∧
      (run performs (World.new (some .empty)) acts).state.walAccount = some "a" ∧
      (run performs (World.new (some .empty)) acts).state.journal.map
        WalletOperation.recordedAmount = [some 5] ∧
      (restarted "a" (run performs (World.new (some .empty)) acts).state).journal.map
        WalletOperation.recordedAmount = [none] ∧
      ¬ Lockstep "a" (run performs (World.new (some .empty)) acts).state := by
  refine ⟨[.system (.restore "a"), .system (.startSend "a" "s" 5 0)], by decide +kernel,
    by decide +kernel, by decide +kernel, by decide +kernel, fun h => ?_⟩
  exact absurd h.restored (by decide +kernel)

end WalletMirror
