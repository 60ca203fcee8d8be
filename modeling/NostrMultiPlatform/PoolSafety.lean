import NostrMultiPlatform.PoolHandles

/-!
# Generations keep handles apart

Slots are never taken away and generations only grow, so a handle reaches at most the
worker that was spawned for it. Closing a slot keeps its generation: what the worker had
said before still finds the slot, and a condition on the steps excludes what it would do.
-/
namespace PoolSafety

open Tables Runs Transducers RelayProtocol PoolTranslate PoolHandles

/-- Slots stay where they are, generations grow, channels are only written to. -/
structure Grown (p p' : Pool) : Prop where
  slotOf : ∀ url slotId, p.inner.urlToSlot.lookup url = some slotId →
    p'.inner.urlToSlot.lookup url = some slotId
  slots : ∀ (slotId : Nat) (state : SlotState), p.inner.slots[slotId]? = some state →
    ∃ state' : SlotState, p'.inner.slots[slotId]? = some state' ∧ state'.url = state.url ∧
      state.generation ≤ state'.generation ∧
      (state'.generation = state.generation → state.commandTx = none → state'.commandTx = none)
  rows : ∀ (i : Nat) (row : WorkerRow), p.workers[i]? = some row → ∃ row' : WorkerRow, p'.workers[i]? = some row' ∧
    row'.relayUrl = row.relayUrl ∧ row'.generation = row.generation ∧ row.inbox <+: row'.inbox

theorem Grown.refl (p : Pool) : Grown p p :=
  ⟨fun _ _ h => h, fun _ state h => ⟨state, h, rfl, le_rfl, fun _ h => h⟩,
    fun _ row h => ⟨row, h, rfl, rfl, List.prefix_rfl⟩⟩

theorem Grown.trans {p q r : Pool} (h : Grown p q) (h' : Grown q r) : Grown p r where
  slotOf url slotId hlookup := h'.slotOf url slotId (h.slotOf url slotId hlookup)
  slots slotId state hstate := by
    obtain ⟨mid, hmid, hurl, hle, hnone⟩ := h.slots slotId state hstate
    obtain ⟨last, hlast, hurl', hle', hnone'⟩ := h'.slots slotId mid hmid
    refine ⟨last, hlast, hurl'.trans hurl, hle.trans hle', fun heq htx => ?_⟩
    exact hnone' (by omega) (hnone (by omega) htx)
  rows i row hrow := by
    obtain ⟨mid, hmid, hurl, hgen, hinbox⟩ := h.rows i row hrow
    obtain ⟨last, hlast, hurl', hgen', hinbox'⟩ := h'.rows i mid hmid
    exact ⟨last, hlast, hurl'.trans hurl, hgen'.trans hgen, hinbox.trans hinbox'⟩

/-- The worker was spawned for the handle. -/
def Reaches (p : Pool) (h : RelayHandle) (worker : Nat) : Prop :=
  ∃ (row : WorkerRow) (state : SlotState), p.workers[worker]? = some row ∧ p.inner.slots[h.slot]? = some state ∧
    state.url = row.relayUrl ∧ row.generation = h.generation

variable {h : RelayHandle} {worker i slotId : Nat} {p : Pool} {old : SlotState} {act : Act}

theorem Reaches.grown {p p' : Pool} (hg : Grown p p') (hr : Reaches p h worker) :
    Reaches p' h worker := by
  obtain ⟨row, state, hrow, hstate, hurl, hgen⟩ := hr
  obtain ⟨row', hrow', hurl', hgen', -⟩ := hg.rows worker row hrow
  obtain ⟨state', hstate', hsurl, -⟩ := hg.slots h.slot state hstate
  exact ⟨row', state', hrow', hstate', (hsurl.trans hurl).trans hurl'.symm, hgen'.trans hgen⟩

/-- The workers of a url, by spawn order, under growing generations. -/
def Increasing (workers : List WorkerRow) : Prop :=
  workers.Pairwise fun a b => a.relayUrl = b.relayUrl → a.generation < b.generation

structure Consistent (p : Pool) : Prop where
  slotOf : ∀ url slotId, p.inner.urlToSlot.lookup url = some slotId →
    ∃ state : SlotState, p.inner.slots[slotId]? = some state ∧ state.url = url
  urlOf : ∀ (slotId : Nat) (state : SlotState), p.inner.slots[slotId]? = some state →
    p.inner.urlToSlot.lookup state.url = some slotId
  rows : ∀ (i : Nat) (row : WorkerRow), p.workers[i]? = some row → ∃ (slotId : Nat) (state : SlotState),
    p.inner.slots[slotId]? = some state ∧ state.url = row.relayUrl ∧
      row.generation ≤ state.generation
  increasing : Increasing p.workers
  tx : ∀ (slotId : Nat) (state : SlotState) worker, p.inner.slots[slotId]? = some state →
    state.commandTx = some worker → Reaches p ⟨slotId, state.generation⟩ worker
  stopped : ∀ (slotId : Nat) (state : SlotState), p.inner.slots[slotId]? = some state → state.commandTx = none →
    state.health.state = .closed ∧
      ∀ (i : Nat) (row : WorkerRow), p.workers[i]? = some row → row.relayUrl = state.url →
        row.generation = state.generation → .shutdown ∈ row.inbox
  sending : ∀ s ∈ p.sending, Reaches p s.h s.worker
  inHand : ∀ event, p.inHand = some event → ∃ state : SlotState,
    p.inner.slots[event.handle.slot]? = some state ∧ state.generation = event.handle.generation

theorem consistent_start : Consistent start where
  slotOf url slotId h := by simp [start] at h
  urlOf slotId state h := by cases h
  rows i row h := by cases h
  increasing := .nil
  tx slotId state worker h := by cases h
  stopped slotId state h := by cases h
  sending s h := absurd h List.not_mem_nil
  inHand event h := by cases h

theorem command_row (p : Pool) (worker : Nat) (c : RelayCommand) (i : Nat) :
    (command p worker c).workers[i]? = (p.workers[i]?).map fun row =>
      if worker = i then { row with inbox := row.inbox ++ [c] } else row := by
  rw [command, List.getElem?_modify]
  by_cases h : worker = i <;> simp [h]

theorem command_row_eq {c : RelayCommand} {row' : WorkerRow}
    (h : (command p worker c).workers[i]? = some row') :
    ∃ row : WorkerRow, p.workers[i]? = some row ∧ row'.relayUrl = row.relayUrl ∧
      row'.generation = row.generation ∧ row.inbox <+: row'.inbox ∧
      (worker = i → row'.inbox = row.inbox ++ [c]) := by
  rw [command_row] at h
  obtain ⟨row, hrow, rfl⟩ := Option.map_eq_some_iff.mp h
  refine ⟨row, hrow, ?_⟩
  by_cases hi : worker = i
  · rw [if_pos hi]
    exact ⟨rfl, rfl, List.prefix_append _ _, fun _ => rfl⟩
  · rw [if_neg hi]
    exact ⟨rfl, rfl, List.prefix_rfl, fun h => absurd h hi⟩

theorem grown_command (p : Pool) (worker : Nat) (c : RelayCommand) :
    Grown p (command p worker c) where
  slotOf _ _ h := h
  slots _ state h := ⟨state, h, rfl, le_rfl, fun _ h => h⟩
  rows i row hrow := by
    refine ⟨_, by rw [command_row, hrow]; rfl, ?_⟩
    dsimp only
    split
    · exact ⟨rfl, rfl, List.prefix_append _ _⟩
    · exact ⟨rfl, rfl, List.prefix_rfl⟩

theorem increasing_command (h : Increasing p.workers) (worker : Nat) (c : RelayCommand) :
    Increasing (command p worker c).workers := by
  have hkeys : (command p worker c).workers.map (fun row => (row.relayUrl, row.generation)) =
      p.workers.map fun row => (row.relayUrl, row.generation) := by
    apply List.ext_getElem?
    intro i
    rw [List.getElem?_map, List.getElem?_map, command_row, Option.map_map]
    apply congrArg (fun f => Option.map f p.workers[i]?)
    funext row
    by_cases hi : worker = i <;> simp [hi]
  have hpairs : (p.workers.map fun row => (row.relayUrl, row.generation)).Pairwise
      fun a b => a.1 = b.1 → a.2 < b.2 := List.pairwise_map.mpr h
  rw [← hkeys] at hpairs
  exact List.pairwise_map.mp hpairs

theorem consistent_command (h : Consistent p) (worker : Nat) (c : RelayCommand) :
    Consistent (command p worker c) where
  slotOf := h.slotOf
  urlOf := h.urlOf
  rows i row' hrow' := by
    obtain ⟨row, hrow, hurl, hgen, -⟩ := command_row_eq hrow'
    obtain ⟨slotId, state, hstate, hsurl, hle⟩ := h.rows i row hrow
    exact ⟨slotId, state, hstate, hsurl.trans hurl.symm, hgen ▸ hle⟩
  increasing := increasing_command h.increasing worker c
  tx slotId state i hstate htx := (h.tx slotId state i hstate htx).grown (grown_command p worker c)
  stopped slotId state hstate htx := by
    obtain ⟨hclosed, hall⟩ := h.stopped slotId state hstate htx
    refine ⟨hclosed, fun i row' hrow' hurl' hgen' => ?_⟩
    obtain ⟨row, hrow, hurl, hgen, hinbox, -⟩ := command_row_eq hrow'
    exact hinbox.subset (hall i row hrow (hurl.symm.trans hurl') (hgen.symm.trans hgen'))
  sending s hs := (h.sending s hs).grown (grown_command p worker c)
  inHand := h.inHand

def withSlot (p : Pool) (slotId : Nat) (state : SlotState) : Pool :=
  { p with inner := { p.inner with slots := p.inner.slots.set slotId state } }

theorem withSlot_slots (h : p.inner.slots[slotId]? = some old) (state : SlotState) (j : Nat) :
    (withSlot p slotId state).inner.slots[j]? =
      if slotId = j then some state else p.inner.slots[j]? := by
  obtain ⟨hlt, -⟩ := List.getElem?_eq_some_iff.mp h
  rw [withSlot, List.getElem?_set, if_pos hlt]

/-- The change of a slot keeps its url and generation and at most lets its worker go. -/
structure Retags (old state : SlotState) : Prop where
  url : state.url = old.url
  generation : state.generation = old.generation
  tx : state.commandTx = old.commandTx ∨ state.commandTx = none

theorem grown_withSlot {old state : SlotState} (h : p.inner.slots[slotId]? = some old)
    (hretags : Retags old state) :
    Grown p (withSlot p slotId state) where
  slotOf _ _ h := h
  slots j found hfound := by
    rw [withSlot_slots h]
    by_cases hj : slotId = j
    · subst hj
      obtain rfl := Option.eq_some_unique h hfound
      refine ⟨state, if_pos rfl, hretags.url, hretags.generation.ge, fun _ hnone => ?_⟩
      rcases hretags.tx with htx | htx
      · exact htx.trans hnone
      · exact htx
    · exact ⟨found, (if_neg hj).trans hfound, rfl, le_rfl, fun _ h => h⟩
  rows _ row hrow := ⟨row, hrow, rfl, rfl, List.prefix_rfl⟩

theorem consistent_withSlot (hp : Consistent p) {old state : SlotState}
    (h : p.inner.slots[slotId]? = some old) (hretags : Retags old state)
    (hstopped : state.commandTx = none → state.health.state = .closed ∧ ∀ (i : Nat) (row : WorkerRow), p.workers[i]? = some row → row.relayUrl = old.url → row.generation = old.generation → .shutdown ∈ row.inbox)
    :
    Consistent (withSlot p slotId state) := by
  have hgrown := grown_withSlot h hretags
  constructor
  · intro url j hlookup
    obtain ⟨found, hfound, hurl⟩ := hp.slotOf url j hlookup
    obtain ⟨found', hfound', hurl', -⟩ := hgrown.slots j found hfound
    exact ⟨found', hfound', hurl'.trans hurl⟩
  · intro j found hfound
    rw [withSlot_slots h] at hfound
    split at hfound
    next hj =>
      obtain rfl := Option.some.inj hfound
      rw [hretags.url, ← hj]
      exact hp.urlOf slotId old h
    · exact hp.urlOf j found hfound
  · intro i row hrow
    obtain ⟨j, found, hfound, hurl, hle⟩ := hp.rows i row hrow
    obtain ⟨found', hfound', hurl', hle', -⟩ := hgrown.slots j found hfound
    exact ⟨j, found', hfound', hurl'.trans hurl, hle.trans hle'⟩
  · exact hp.increasing
  · intro j found worker hfound htx
    rw [withSlot_slots h] at hfound
    split at hfound
    next hj =>
      obtain rfl := Option.some.inj hfound
      subst hj
      rcases hretags.tx with hsame | hnone
      · rw [hretags.generation]
        exact (hp.tx slotId old worker h (hsame.symm.trans htx)).grown hgrown
      · cases hnone.symm.trans htx
    · exact (hp.tx j found worker hfound htx).grown hgrown
  · intro j found hfound htx
    rw [withSlot_slots h] at hfound
    split at hfound
    next hj =>
      obtain rfl := Option.some.inj hfound
      obtain ⟨hclosed, hall⟩ := hstopped htx
      rw [hretags.url, hretags.generation]
      exact ⟨hclosed, hall⟩
    · exact hp.stopped j found hfound htx
  · exact fun s hs => (hp.sending s hs).grown hgrown
  · intro event hevent
    obtain ⟨found, hfound, hgen⟩ := hp.inHand event hevent
    rw [withSlot_slots h]
    by_cases hj : slotId = event.handle.slot
    · rw [← hj] at hfound
      obtain rfl := Option.eq_some_unique h hfound
      exact ⟨state, if_pos hj, hretags.generation.trans hgen⟩
    · exact ⟨found, (if_neg hj).trans hfound, hgen⟩

/-- A url and a generation name one worker. -/
theorem row_unique {workers : List WorkerRow} (h : Increasing workers) {i j : Nat}
    {a b : WorkerRow} (ha : workers[i]? = some a) (hb : workers[j]? = some b)
    (hurl : a.relayUrl = b.relayUrl) (hgen : a.generation = b.generation) : i = j := by
  obtain ⟨hi, rfl⟩ := List.getElem?_eq_some_iff.mp ha
  obtain ⟨hj, rfl⟩ := List.getElem?_eq_some_iff.mp hb
  have hpairs := List.pairwise_iff_getElem.mp h
  rcases Nat.lt_trichotomy i j with hlt | heq | hlt
  · have := hpairs i j hi hj hlt hurl
    omega
  · exact heq
  · have := hpairs j i hj hi hlt hurl.symm
    omega

/-- The pool whose worker has been told to stop, before its slot is marked. -/
def told (p : Pool) (state : SlotState) : Pool :=
  match state.commandTx with
  | none => p
  | some worker => command p worker .shutdown

theorem stopSlot_eq (p : Pool) (slotId : Nat) (state : SlotState) :
    stopSlot p slotId state = withSlot (told p state) slotId
      { state with commandTx := none, health := { state.health with state := .closed } } := rfl

theorem told_inner (p : Pool) (state : SlotState) :
    (told p state).inner = p.inner ∧ (told p state).inHand = p.inHand := by
  unfold told
  split <;> exact ⟨rfl, rfl⟩

theorem grown_told (p : Pool) (state : SlotState) : Grown p (told p state) := by
  unfold told
  split
  · exact .refl p
  · exact grown_command p _ _

theorem consistent_told (hp : Consistent p) (state : SlotState) : Consistent (told p state) := by
  unfold told
  split
  · exact hp
  · exact consistent_command hp _ _

variable {state : SlotState}

/-- Every worker of that url and generation has been told to stop. -/
theorem told_all (hp : Consistent p) (h : p.inner.slots[slotId]? = some state) {row : WorkerRow}
    (hrow : (told p state).workers[i]? = some row) (hurl : row.relayUrl = state.url)
    (hgen : row.generation = state.generation) : .shutdown ∈ row.inbox := by
  cases htx : state.commandTx with
  | none =>
    have htold : told p state = p := by rw [told, htx]
    rw [htold] at hrow
    exact (hp.stopped slotId state h htx).2 i row hrow hurl hgen
  | some worker =>
    have htold : told p state = command p worker .shutdown := by rw [told, htx]
    rw [htold] at hrow
    obtain ⟨old, hold, hourl, hogen, -, hinbox⟩ := command_row_eq hrow
    obtain ⟨found, state', hfound, hstate', hsurl, hfgen⟩ := hp.tx slotId state worker h htx
    obtain rfl := Option.eq_some_unique h hstate'
    have hsame : worker = i := row_unique hp.increasing hfound hold
      (hsurl.symm.trans (hurl.symm.trans hourl)) (hfgen.trans (hgen.symm.trans hogen))
    rw [hinbox hsame]
    exact List.mem_append_right _ (List.mem_singleton.mpr rfl)

theorem retags_stop (state : SlotState) : Retags state
    { state with commandTx := none, health := { state.health with state := .closed } } :=
  ⟨rfl, rfl, .inr rfl⟩

theorem grown_stopSlot (h : p.inner.slots[slotId]? = some state) :
    Grown p (stopSlot p slotId state) := by
  rw [stopSlot_eq]
  refine (grown_told p state).trans (grown_withSlot ?_ (retags_stop state))
  rw [(told_inner p state).1]
  exact h

theorem consistent_stopSlot (hp : Consistent p) (h : p.inner.slots[slotId]? = some state) :
    Consistent (stopSlot p slotId state) := by
  have htold : (told p state).inner.slots[slotId]? = some state := by
    rw [(told_inner p state).1]
    exact h
  rw [stopSlot_eq]
  exact consistent_withSlot (consistent_told hp state) htold (retags_stop state)
    fun _ => ⟨rfl, fun i row hrow hurl hgen => told_all hp h hrow hurl hgen⟩

theorem kept_stopAt (hp : Consistent p) (slotId : Nat) :
    Consistent (stopAt p slotId) ∧ Grown p (stopAt p slotId) := by
  unfold stopAt
  split
  · exact ⟨hp, .refl p⟩
  next state hstate => exact ⟨consistent_stopSlot hp hstate, grown_stopSlot hstate⟩

theorem kept_stopAll (hp : Consistent p) (slots : List Nat) :
    Consistent (slots.foldl stopAt p) ∧ Grown p (slots.foldl stopAt p) := by
  induction slots generalizing p with
  | nil => exact ⟨hp, .refl p⟩
  | cons slotId _ ih =>
    obtain ⟨hconsistent, hgrown⟩ := kept_stopAt hp slotId
    obtain ⟨hlast, hrest⟩ := ih hconsistent
    exact ⟨hlast, hgrown.trans hrest⟩

theorem kept_shutdown (hp : Consistent p) : Consistent (shutdown p) ∧ Grown p (shutdown p) := by
  have hflag : Consistent { p with inner := { p.inner with shutdown := true } } :=
    ⟨hp.slotOf, hp.urlOf, hp.rows, hp.increasing, hp.tx, hp.stopped, hp.sending, hp.inHand⟩
  obtain ⟨hconsistent, hgrown⟩ := kept_stopAll hflag (List.range p.inner.slots.length)
  exact ⟨hconsistent, hgrown.slotOf, hgrown.slots, hgrown.rows⟩

theorem getElem?_snoc {α : Type} {xs : List α} {x y : α} (h : (xs ++ [x])[i]? = some y) :
    xs[i]? = some y ∨ (i = xs.length ∧ y = x) := by
  rcases Nat.lt_trichotomy i xs.length with hlt | heq | hlt
  · exact .inl (by rwa [List.getElem?_append_left hlt] at h)
  · subst heq
    rw [List.getElem?_concat_length] at h
    exact .inr ⟨rfl, (Option.some.inj h).symm⟩
  · have hnone : (xs ++ [x])[i]? = none := List.getElem?_eq_none (by simp; omega)
    cases hnone.symm.trans h

theorem getElem?_append_old {α : Type} {xs : List α} {x y : α} (h : xs[i]? = some x) :
    (xs ++ [y])[i]? = some x := by
  obtain ⟨hlt, -⟩ := List.getElem?_eq_some_iff.mp h
  rw [List.getElem?_append_left hlt]
  exact h

theorem increasing_snoc {workers : List WorkerRow} (h : Increasing workers) {row : WorkerRow}
    (hlt : ∀ old ∈ workers, old.relayUrl = row.relayUrl → old.generation < row.generation) :
    Increasing (workers ++ [row]) := by
  refine List.pairwise_append.mpr ⟨h, List.pairwise_singleton _ _, fun old hold new hnew => ?_⟩
  rw [List.mem_singleton.mp hnew]
  exact hlt old hold

theorem grown_openNewSlot {canonical : String} (hnew : p.inner.urlToSlot.lookup canonical = none)
    (role : RelayRole) :
    Grown p (openNewSlot p canonical role).1 where
  slotOf url slotId hlookup := by
    have hne : url ≠ canonical := by
      rintro rfl
      cases hnew.symm.trans hlookup
    exact (lookup_insert_eq _ _ _ _).trans ((if_neg hne).trans hlookup)
  slots _ state hstate := ⟨state, getElem?_append_old hstate, rfl, le_rfl, fun _ h => h⟩
  rows _ row hrow := ⟨row, getElem?_append_old hrow, rfl, rfl, List.prefix_rfl⟩

theorem consistent_openNewSlot (hp : Consistent p) {canonical : String}
    (hnew : p.inner.urlToSlot.lookup canonical = none) (role : RelayRole) :
    Consistent (openNewSlot p canonical role).1 := by
  have hgrown := grown_openNewSlot hnew role
  have hnone : ∀ (i : Nat) (row : WorkerRow), p.workers[i]? = some row →
      row.relayUrl ≠ canonical := by
    intro i row hrow hurl
    obtain ⟨slotId, state, hstate, hsurl, -⟩ := hp.rows i row hrow
    have hlookup := hp.urlOf slotId state hstate
    rw [hsurl, hurl, hnew] at hlookup
    cases hlookup
  constructor
  · intro url slotId hlookup
    rw [show (openNewSlot p canonical role).1.inner.urlToSlot =
      p.inner.urlToSlot.insert canonical p.inner.slots.length from rfl, lookup_insert_eq] at hlookup
    split at hlookup
    next hurl =>
      obtain rfl := Option.some.inj hlookup
      exact ⟨_, List.getElem?_concat_length .., hurl.symm⟩
    · obtain ⟨state, hstate, hurl⟩ := hp.slotOf url slotId hlookup
      exact ⟨state, getElem?_append_old hstate, hurl⟩
  · intro slotId state hstate
    rcases getElem?_snoc hstate with hold | ⟨rfl, rfl⟩
    · exact hgrown.slotOf _ _ (hp.urlOf slotId state hold)
    · exact (lookup_insert_eq _ _ _ _).trans (if_pos rfl)
  · intro i row hrow
    rcases getElem?_snoc hrow with hold | ⟨-, rfl⟩
    · obtain ⟨slotId, state, hstate, hurl, hle⟩ := hp.rows i row hold
      exact ⟨slotId, state, getElem?_append_old hstate, hurl, hle⟩
    · exact ⟨_, _, List.getElem?_concat_length .., rfl, le_rfl⟩
  · refine increasing_snoc hp.increasing fun old hold hurl => ?_
    obtain ⟨i, hi⟩ := List.mem_iff_getElem?.mp hold
    exact absurd hurl (hnone i old hi)
  · intro slotId state worker hstate htx
    rcases getElem?_snoc hstate with hold | ⟨rfl, rfl⟩
    · exact (hp.tx slotId state worker hold htx).grown hgrown
    · obtain rfl := Option.some.inj htx
      exact ⟨_, _, List.getElem?_concat_length .., List.getElem?_concat_length .., rfl, rfl⟩
  · intro slotId state hstate htx
    rcases getElem?_snoc hstate with hold | ⟨rfl, rfl⟩
    · obtain ⟨hclosed, hall⟩ := hp.stopped slotId state hold htx
      refine ⟨hclosed, fun i row hrow hurl hgen => ?_⟩
      rcases getElem?_snoc hrow with hold' | ⟨-, rfl⟩
      · exact hall i row hold' hurl hgen
      · have hlookup := hp.urlOf slotId state hold
        rw [← hurl, hnew] at hlookup
        cases hlookup
    · cases htx
  · exact fun s hs => (hp.sending s hs).grown hgrown
  · intro event hevent
    obtain ⟨state, hstate, hgen⟩ := hp.inHand event hevent
    exact ⟨state, getElem?_append_old hstate, hgen⟩

theorem nextGeneration_eq (h : p.inner.slots[slotId]? = some old) (hmax : old.generation < u64Max) :
    nextGeneration p slotId = old.generation + 1 := by
  rw [nextGeneration, h]
  exact Nat.min_eq_left hmax

theorem reopenSlot_slots (h : p.inner.slots[slotId]? = some old) (canonical : String)
    (role : RelayRole) (j : Nat) :
    (reopenSlot p slotId canonical role).1.inner.slots[j]? =
      if slotId = j then
        some (openSlot canonical role (nextGeneration p slotId) p.workers.length)
      else p.inner.slots[j]? :=
  withSlot_slots h _ j

theorem grown_reopenSlot (h : p.inner.slots[slotId]? = some old) (hmax : old.generation < u64Max)
    (role : RelayRole) :
    Grown p (reopenSlot p slotId old.url role).1 where
  slotOf _ _ h := h
  slots j found hfound := by
    rw [reopenSlot_slots h]
    by_cases hj : slotId = j
    · subst hj
      obtain rfl := Option.eq_some_unique h hfound
      have hnext := nextGeneration_eq h hmax
      refine ⟨_, if_pos rfl, rfl, ?_, fun heq => ?_⟩
      · change _ ≤ nextGeneration p slotId
        omega
      · change nextGeneration p slotId = _ at heq
        omega
    · exact ⟨found, (if_neg hj).trans hfound, rfl, le_rfl, fun _ h => h⟩
  rows _ row hrow := ⟨row, getElem?_append_old hrow, rfl, rfl, List.prefix_rfl⟩

theorem consistent_reopenSlot (hp : Consistent p) (h : p.inner.slots[slotId]? = some old)
    (hmax : old.generation < u64Max)
    (hhand : ∀ event, p.inHand = some event → event.handle.slot ≠ slotId) (role : RelayRole) :
    Consistent (reopenSlot p slotId old.url role).1 := by
  have hgrown := grown_reopenSlot h hmax role
  have hnext := nextGeneration_eq h hmax
  have hself := hp.urlOf slotId old h
  constructor
  · intro url j hlookup
    obtain ⟨found, hfound, hurl⟩ := hp.slotOf url j hlookup
    obtain ⟨found', hfound', hurl', -⟩ := hgrown.slots j found hfound
    exact ⟨found', hfound', hurl'.trans hurl⟩
  · intro j found hfound
    rw [reopenSlot_slots h] at hfound
    split at hfound
    next hj =>
      obtain rfl := Option.some.inj hfound
      exact hj ▸ hself
    · exact hp.urlOf j found hfound
  · intro i row hrow
    rcases getElem?_snoc hrow with hold | ⟨-, rfl⟩
    · obtain ⟨j, found, hfound, hurl, hle⟩ := hp.rows i row hold
      obtain ⟨found', hfound', hurl', hle', -⟩ := hgrown.slots j found hfound
      exact ⟨j, found', hfound', hurl'.trans hurl, hle.trans hle'⟩
    · exact ⟨slotId, _, (reopenSlot_slots h old.url role slotId).trans (if_pos rfl), rfl, le_rfl⟩
  · refine increasing_snoc hp.increasing fun row hrow hurl => ?_
    obtain ⟨i, hi⟩ := List.mem_iff_getElem?.mp hrow
    obtain ⟨j, found, hfound, hfurl, hle⟩ := hp.rows i row hi
    have hlookup := hp.urlOf j found hfound
    rw [hfurl, hurl, hself] at hlookup
    obtain rfl := Option.some.inj hlookup
    obtain rfl := Option.eq_some_unique h hfound
    change row.generation < nextGeneration p slotId
    omega
  · intro j found worker hfound htx
    rw [reopenSlot_slots h] at hfound
    split at hfound
    next hj =>
      obtain rfl := Option.some.inj hfound
      obtain rfl := Option.some.inj htx
      subst hj
      exact ⟨_, _, List.getElem?_concat_length ..,
        (reopenSlot_slots h old.url role slotId).trans (if_pos rfl), rfl, rfl⟩
    · exact (hp.tx j found worker hfound htx).grown hgrown
  · intro j found hfound htx
    rw [reopenSlot_slots h] at hfound
    split at hfound
    · obtain rfl := Option.some.inj hfound
      cases htx
    next hj =>
      obtain ⟨hclosed, hall⟩ := hp.stopped j found hfound htx
      refine ⟨hclosed, fun i row hrow hurl hgen => ?_⟩
      rcases getElem?_snoc hrow with hold | ⟨-, rfl⟩
      · exact hall i row hold hurl hgen
      · have hlookup := hp.urlOf j found hfound
        rw [← hurl, hself] at hlookup
        exact absurd (Option.some.inj hlookup) hj
  · exact fun s hs => (hp.sending s hs).grown hgrown
  · intro event hevent
    obtain ⟨state, hstate, hgen⟩ := hp.inHand event hevent
    refine ⟨state, ?_, hgen⟩
    rw [reopenSlot_slots h, if_neg fun hj => hhand event hevent hj.symm]
    exact hstate

variable (authChallenge : String → Option String)

/-- The slot that an `ensure_open` would give a new worker, as it is. -/
def reopened (p : Pool) (url : String) : Option (Nat × SlotState) :=
  if p.inner.shutdown then none
  else
    match (PlannerPartition.canonicalize url).bind p.inner.urlToSlot.lookup with
    | none => none
    | some slotId =>
      match p.inner.slots[slotId]? with
      | none => none
      | some state => if live state then none else some (slotId, state)

/-- The event the translator takes next, and the slot it finds. -/
def upcoming (p : Pool) : Option (PreparedEvent × Nat × SlotState) :=
  if p.inHand.isSome || p.inner.shutdown then none
  else
    match p.channel.head?.bind (prepareEvent authChallenge) with
    | none => none
    | some event => (locateSlot p.inner event.relayUrl event.generation).map (event, ·)

/-- Nothing of a closed handle that speaks of an open socket is on its way through the translator,
nothing of a slot is while the slot gets a new worker, and generations are below the limit. -/
def Clear (p : Pool) : Act → Prop
  | .ensureOpen url _ => ∀ found ∈ reopened p url,
      found.2.generation < u64Max ∧ ∀ event ∈ p.inHand, event.handle.slot ≠ found.1
  | .close h => ∀ event ∈ p.inHand, event.up = true → event.handle ≠ h
  | .translate => ∀ found ∈ upcoming authChallenge p,
      found.2.2.commandTx = none → found.1.up = false
  | _ => True

instance (p : Pool) (act : Act) : Decidable (Clear authChallenge p act) := by
  cases act <;> unfold Clear <;> infer_instance

theorem kept_ensureOpen (hp : Consistent p) {url : String} {role : RelayRole}
    (hok : Clear authChallenge p (.ensureOpen url role)) :
    Consistent (ensureOpen p url role).1 ∧ Grown p (ensureOpen p url role).1 := by
  unfold ensureOpen
  split
  · exact ⟨hp, .refl p⟩
  next hrunning =>
    split
    · exact ⟨hp, .refl p⟩
    next canonical hcanonical =>
      split
      next hnew => exact ⟨consistent_openNewSlot hp hnew role, grown_openNewSlot hnew role⟩
      next slotId hlookup =>
        obtain ⟨state, hstate, rfl⟩ := hp.slotOf canonical slotId hlookup
        rw [hstate]
        dsimp only
        split
        · exact ⟨hp, .refl p⟩
        next hdead =>
          have hreopened : reopened p url = some (slotId, state) := by
            rw [reopened, if_neg hrunning, hcanonical, Option.bind_some, hlookup]
            simp only [hstate, if_neg hdead]
          obtain ⟨hmax, hhand⟩ := hok _ hreopened
          exact ⟨consistent_reopenSlot hp hstate hmax hhand role,
            grown_reopenSlot hstate hmax role⟩

theorem reaches_of_commandTxFor (hp : Consistent p) (htx : commandTxFor p h = some worker) :
    Reaches p h worker := by
  unfold commandTxFor at htx
  split at htx
  · cases htx
  next state hstate =>
    split at htx
    · cases htx
    next hgen =>
      have hreach := hp.tx h.slot state worker hstate htx
      rw [not_not.mp hgen] at hreach
      exact hreach

theorem kept_close (hp : Consistent p) (h : RelayHandle) :
    Consistent (close p h).1 ∧ Grown p (close p h).1 := by
  unfold close
  split
  · exact ⟨hp, .refl p⟩
  next state hstate =>
    split
    · exact ⟨hp, .refl p⟩
    · exact ⟨consistent_stopSlot hp hstate, grown_stopSlot hstate⟩

theorem kept_commandNow (hp : Consistent p) (h : RelayHandle) (c : RelayCommand) :
    Consistent (commandNow p h c).1 ∧ Grown p (commandNow p h c).1 := by
  unfold commandNow
  split
  · exact ⟨hp, .refl p⟩
  · exact ⟨consistent_command hp _ c, grown_command p _ c⟩

/-- What the translator does with the next event. -/
theorem translate_cases (p : Pool) :
    (∃ event slotId state, upcoming authChallenge p = some (event, slotId, state) ∧
      p.inner.slots[slotId]? = some state ∧ p.inHand = none ∧
      translate authChallenge p = { withSlot p slotId
          { state with health := applyHealth state.health event } with
        channel := p.channel.tail
        inHand := some (poolEvent ⟨slotId, state.generation⟩ event) }) ∨
    (∃ channel, translate authChallenge p = { p with channel := channel }) := by
  unfold PoolHandles.translate
  split
  next event rest hhand hchannel =>
    dsimp only
    split
    · exact .inr ⟨rest, rfl⟩
    next prepared hprepared =>
      split
      · exact .inr ⟨rest, rfl⟩
      next hrunning =>
        cases hlocate : locateSlot p.inner prepared.relayUrl prepared.generation with
        | none =>
          have happly : applyPrepared p.inner prepared = (p.inner, none) := by
            rw [applyPrepared, hlocate]
          rw [happly]
          exact .inr ⟨rest, by rw [← hhand]⟩
        | some found =>
          obtain ⟨slotId, state⟩ := found
          obtain ⟨-, hstate, -⟩ := locateSlot_eq_some hlocate
          refine .inl ⟨prepared, slotId, state, ?_, hstate, hhand, ?_⟩
          · simp [upcoming, hhand, hrunning, hchannel, hprepared, hlocate]
          · simp [applyPrepared, hlocate, withSlot, hchannel]
  · exact .inr ⟨p.channel, rfl⟩

theorem grown_frame (p : Pool) (channel : List RelayEvent) (inHand : Option PoolEvent)
    (sending : List Sending) :
    Grown p { p with channel := channel, inHand := inHand, sending := sending } :=
  ⟨(Grown.refl p).slotOf, (Grown.refl p).slots, (Grown.refl p).rows⟩

theorem retags_health (state : SlotState) (health : RelayHealth) :
    Retags state { state with health := health } := ⟨rfl, rfl, .inl rfl⟩

theorem kept_translate (hp : Consistent p) (hok : Clear authChallenge p .translate) :
    Consistent (translate authChallenge p) ∧ Grown p (translate authChallenge p) := by
  rcases translate_cases authChallenge p with
    ⟨event, slotId, state, hupcoming, hstate, -, heq⟩ | ⟨channel, heq⟩
  · have hslot := consistent_withSlot hp hstate
      (retags_health state (applyHealth state.health event)) fun htx =>
      ⟨applyHealth_closed (hp.stopped slotId state hstate htx).1 (hok _ hupcoming htx),
        (hp.stopped slotId state hstate htx).2⟩
    have hgrown := grown_withSlot hstate
      (retags_health state (applyHealth state.health event))
    rw [heq]
    refine ⟨⟨hslot.slotOf, hslot.urlOf, hslot.rows, hslot.increasing, hslot.tx, hslot.stopped,
      hslot.sending, fun found hfound => ?_⟩, hgrown.slotOf, hgrown.slots, hgrown.rows⟩
    obtain rfl := Option.some.inj hfound
    rw [poolEvent_handle]
    exact ⟨_, (withSlot_slots hstate _ slotId).trans (if_pos rfl), rfl⟩
  · rw [heq]
    exact ⟨⟨hp.slotOf, hp.urlOf, hp.rows, hp.increasing, hp.tx, hp.stopped, hp.sending, hp.inHand⟩,
      grown_frame p channel p.inHand p.sending⟩

/-- A clear step keeps the pool consistent and only grows it. -/
theorem kept_step (hp : Consistent p) (hok : Clear authChallenge p act) :
    Consistent (step authChallenge p act).1 ∧ Grown p (step authChallenge p act).1 := by
  have hframe : ∀ (channel : List RelayEvent) (inHand : Option PoolEvent) (sending : List Sending),
      (∀ s ∈ sending, Reaches p s.h s.worker) → (∀ event, inHand = some event → p.inHand = inHand) →
      Consistent { p with channel := channel, inHand := inHand, sending := sending } ∧
        Grown p { p with channel := channel, inHand := inHand, sending := sending } :=
    fun channel inHand sending hsending hhand =>
      ⟨⟨hp.slotOf, hp.urlOf, hp.rows, hp.increasing, hp.tx, hp.stopped, hsending,
        fun event hevent => hp.inHand event ((hhand event hevent).trans hevent)⟩,
        grown_frame p channel inHand sending⟩
  cases act with
  | ensureOpen => exact kept_ensureOpen authChallenge hp hok
  | close h => exact kept_close hp h
  | send =>
    simp only [step]
    split
    next c worker _ htx =>
      refine hframe p.channel p.inHand _ (fun s hs => ?_) fun _ _ => rfl
      rcases List.mem_append.mp hs with hs | hs
      · exact hp.sending s hs
      · rw [List.mem_singleton.mp hs]
        exact reaches_of_commandTxFor hp htx
    · exact ⟨hp, .refl p⟩
  | post index =>
    simp only [step]
    split
    · exact ⟨hp, .refl p⟩
    next s hs =>
      obtain ⟨hconsistent, hgrown⟩ := hframe p.channel p.inHand (p.sending.eraseIdx index)
        (fun s hs => hp.sending s (List.mem_of_mem_eraseIdx hs)) fun _ _ => rfl
      exact ⟨consistent_command hconsistent _ _, hgrown.trans (grown_command _ _ _)⟩
  | setBackoffHint h => exact kept_commandNow hp h _
  | setReconnectPreamble h => exact kept_commandNow hp h _
  | shutdown => exact kept_shutdown hp
  | emit =>
    simp only [step]
    split
    · exact ⟨hp, .refl p⟩
    · exact hframe _ p.inHand p.sending hp.sending fun _ _ => rfl
  | translate => exact kept_translate authChallenge hp hok
  | deliver =>
    simp only [step]
    split
    · exact ⟨hp, .refl p⟩
    · exact hframe p.channel none p.sending hp.sending nofun

/-- The pool after a run from its start. -/
def pool (acts : List Act) : Pool := after (step authChallenge) start acts

theorem kept_run (hp : Consistent p) {acts : List Act}
    (hmeets : Meets (fun p act => (step authChallenge p act).1) (Clear authChallenge) p acts) :
    Consistent (after (step authChallenge) p acts) ∧
      Grown p (after (step authChallenge) p acts) := by
  induction acts generalizing p with
  | nil => exact ⟨hp, .refl p⟩
  | cons _ _ ih =>
    obtain ⟨hconsistent, hgrown⟩ := kept_step authChallenge hp hmeets.1
    obtain ⟨hlast, hrest⟩ := ih hconsistent hmeets.2
    exact ⟨hlast, hgrown.trans hrest⟩

/-- The worker is held by a slot and has not been told to stop. -/
def Listening (p : Pool) (worker : Nat) (row : WorkerRow) : Prop :=
  p.workers[worker]? = some row ∧ .shutdown ∉ row.inbox ∧
    ∃ (slotId : Nat) (state : SlotState), p.inner.slots[slotId]? = some state ∧
      state.commandTx = some worker

theorem listening_once (hp : Consistent p) {i j : Nat} {a b : WorkerRow} (ha : Listening p i a)
    (hb : Listening p j b) (hurl : a.relayUrl = b.relayUrl) : i = j := by
  obtain ⟨harow, -, s, x, hx, hxtx⟩ := ha
  obtain ⟨hbrow, -, t, y, hy, hytx⟩ := hb
  obtain ⟨a', x', ha', hx', hxurl, -⟩ := hp.tx s x i hx hxtx
  obtain ⟨b', y', hb', hy', hyurl, -⟩ := hp.tx t y j hy hytx
  obtain rfl := Option.eq_some_unique harow ha'
  obtain rfl := Option.eq_some_unique hbrow hb'
  obtain rfl := Option.eq_some_unique hx hx'
  obtain rfl := Option.eq_some_unique hy hy'
  have hslot := hp.urlOf s x hx
  rw [hxurl, hurl, ← hyurl, hp.urlOf t y hy] at hslot
  obtain rfl := Option.some.inj hslot
  obtain rfl := Option.eq_some_unique hx hy
  exact Option.eq_some_unique hxtx hytx

/-- What the worker takes from its channel: it stops at the first shutdown. -/
def heard (row : WorkerRow) : List RelayCommand := row.inbox.takeWhile (· ≠ .shutdown)

theorem takeWhile_prefix {α : Type} {f : α → Bool} {xs ys : List α} (h : xs <+: ys)
    (hstop : ∃ x ∈ xs, f x = false) : ys.takeWhile f = xs.takeWhile f := by
  obtain ⟨more, rfl⟩ := h
  induction xs with
  | nil =>
    obtain ⟨x, hx, -⟩ := hstop
    exact absurd hx List.not_mem_nil
  | cons x _ ih =>
    rw [List.cons_append, List.takeWhile_cons, List.takeWhile_cons]
    cases hx : f x with
    | false => rfl
    | true =>
      obtain ⟨y, hy, hfalse⟩ := hstop
      rcases List.mem_cons.mp hy with rfl | hy
      · cases hx.symm.trans hfalse
      · simp [ih ⟨y, hy, hfalse⟩]

/-- The handle has been closed: its slot is stopped or of a later generation. -/
def Closed (p : Pool) (h : RelayHandle) : Prop :=
  ∃ state : SlotState, p.inner.slots[h.slot]? = some state ∧
    (h.generation < state.generation ∨
      state.generation = h.generation ∧ state.commandTx = none)

/-- The handle is closed and nothing of it that speaks of an open socket is in hand. -/
def Gone (h : RelayHandle) (p : Pool) : Prop :=
  Closed p h ∧ ∀ event ∈ p.inHand, event.up = true → event.handle ≠ h

theorem Closed.grown {p p' : Pool} (hg : Grown p p') (hc : Closed p h) : Closed p' h := by
  obtain ⟨state, hstate, hcase⟩ := hc
  obtain ⟨state', hstate', -, hle, hnone⟩ := hg.slots h.slot state hstate
  refine ⟨state', hstate', ?_⟩
  rcases hcase with hlt | ⟨heq, htx⟩
  · exact .inl (hlt.trans_le hle)
  · rcases hle.lt_or_eq with hlt | hsame
    · exact .inl (heq ▸ hlt)
    · exact .inr ⟨hsame.symm.trans heq, hnone hsame.symm htx⟩

theorem stopSlot_slots (h : p.inner.slots[slotId]? = some state) :
    (stopSlot p slotId state).inner.slots[slotId]? =
      some { state with commandTx := none, health := { state.health with state := .closed } } := by
  have htold : (told p state).inner.slots[slotId]? = some state := by
    rw [(told_inner p state).1]
    exact h
  rw [stopSlot_eq, withSlot_slots htold, if_pos rfl]

theorem stopSlot_inHand (p : Pool) (slotId : Nat) (state : SlotState) :
    (stopSlot p slotId state).inHand = p.inHand := (told_inner p state).2

/-- A close that answers yes leaves the slot stopped, under its generation. -/
theorem close_stops (hdone : (close p h).2 = true) :
    ∃ state : SlotState, (close p h).1.inner.slots[h.slot]? = some state ∧
      state.generation = h.generation ∧ state.commandTx = none := by
  unfold close at hdone ⊢
  split at hdone
  · cases hdone
  next state hstate =>
    split at hdone
    · cases hdone
    next hgen =>
      rw [if_neg hgen]
      exact ⟨_, stopSlot_slots hstate, not_not.mp hgen, rfl⟩

theorem closed_of_close (hdone : (close p h).2 = true) : Closed (close p h).1 h := by
  obtain ⟨state, hstate, hstopped⟩ := close_stops hdone
  exact ⟨state, hstate, .inr hstopped⟩

theorem close_inHand (p : Pool) (h : RelayHandle) : (close p h).1.inHand = p.inHand := by
  unfold close
  split
  · rfl
  · split
    · rfl
    · exact stopSlot_inHand p _ _

theorem shutdown_inHand (p : Pool) : (shutdown p).inHand = p.inHand := by
  have hall : ∀ (slots : List Nat) (p : Pool), (slots.foldl stopAt p).inHand = p.inHand := by
    intro slots
    induction slots with
    | nil => exact fun _ => rfl
    | cons _ _ ih =>
      intro p
      rw [List.foldl_cons, ih]
      unfold stopAt
      split
      · rfl
      · exact stopSlot_inHand p _ _
  exact hall _ _

theorem ensureOpen_inHand (p : Pool) (url : String) (role : RelayRole) :
    (ensureOpen p url role).1.inHand = p.inHand := by
  unfold ensureOpen
  split
  · rfl
  · split
    · rfl
    · split
      · rfl
      · split
        · rfl
        · split <;> rfl

theorem gone_step (hp : Consistent p) (hok : Clear authChallenge p act) (hgone : Gone h p) :
    Gone h (step authChallenge p act).1 := by
  obtain ⟨hclosed, hhand⟩ := hgone
  refine ⟨hclosed.grown (kept_step authChallenge hp hok).2, ?_⟩
  cases act with
  | ensureOpen =>
    simp only [step, ensureOpen_inHand]
    exact hhand
  | close =>
    simp only [step, close_inHand]
    exact hhand
  | send | post | emit =>
    simp only [step]
    split <;> exact hhand
  | setBackoffHint | setReconnectPreamble =>
    simp only [step, commandNow]
    split <;> exact hhand
  | shutdown =>
    simp only [step, shutdown_inHand]
    exact hhand
  | deliver =>
    simp only [step]
    split
    · exact hhand
    · nofun
  | translate =>
    rcases translate_cases authChallenge p with
      ⟨event, slotId, state, hupcoming, hstate, -, heq⟩ | ⟨channel, heq⟩
    · simp only [step, heq]
      intro found hfound hup hhandle
      obtain rfl := Option.some.inj hfound
      rw [poolEvent_up] at hup
      rw [poolEvent_handle] at hhandle
      subst hhandle
      obtain ⟨state', hstate', hcase⟩ := hclosed
      obtain rfl := Option.eq_some_unique hstate hstate'
      rcases hcase with hlt | ⟨-, htx⟩
      · exact absurd hlt (lt_irrefl _)
      · cases hup.symm.trans (hok _ hupcoming htx)
    · simp only [step, heq]
      exact hhand

theorem delivered_inHand {event : PoolEvent}
    (hmem : .delivered event ∈ (step authChallenge p act).2) : p.inHand = some event := by
  cases act with
  | ensureOpen | close => cases List.mem_singleton.mp hmem
  | send | emit =>
    simp only [step] at hmem
    split at hmem <;> exact absurd hmem List.not_mem_nil
  | post =>
    simp only [step] at hmem
    split at hmem
    · exact absurd hmem List.not_mem_nil
    · cases List.mem_singleton.mp hmem
  | setBackoffHint | setReconnectPreamble =>
    simp only [step, commandNow] at hmem
    split at hmem
    · exact absurd hmem List.not_mem_nil
    · cases List.mem_singleton.mp hmem
  | shutdown | translate => exact absurd hmem List.not_mem_nil
  | deliver =>
    simp only [step] at hmem
    split at hmem
    · exact absurd hmem List.not_mem_nil
    next found hfound =>
      cases List.mem_singleton.mp hmem
      exact hfound

/-- A command reaches the worker that was spawned for its handle. -/
theorem commanded_reaches (hp : Consistent p) {c : RelayCommand}
    (hmem : .commanded h worker c ∈ (step authChallenge p act).2) : Reaches p h worker := by
  have hnow : ∀ h' c', .commanded h worker c ∈ (commandNow p h' c').2 → Reaches p h worker := by
    intro h' c' hmem
    unfold commandNow at hmem
    split at hmem
    · exact absurd hmem List.not_mem_nil
    next found hfound =>
      cases List.mem_singleton.mp hmem
      exact reaches_of_commandTxFor hp hfound
  cases act with
  | ensureOpen | close => cases List.mem_singleton.mp hmem
  | send | emit =>
    simp only [step] at hmem
    split at hmem <;> exact absurd hmem List.not_mem_nil
  | post =>
    simp only [step] at hmem
    split at hmem
    · exact absurd hmem List.not_mem_nil
    next s hs =>
      cases List.mem_singleton.mp hmem
      exact hp.sending s (List.mem_of_getElem? hs)
  | setBackoffHint h' => exact hnow h' _ hmem
  | setReconnectPreamble h' => exact hnow h' _ hmem
  | shutdown | translate => exact absurd hmem List.not_mem_nil
  | deliver =>
    simp only [step] at hmem
    split at hmem
    · exact absurd hmem List.not_mem_nil
    · cases List.mem_singleton.mp hmem

/-- An event whose generation is not that of its slot changes nothing. -/
theorem translate_stale {event : RelayEvent} {rest : List RelayEvent}
    (hchannel : p.channel = event :: rest)
    (hstale : ∀ (slotId : Nat) (state : SlotState), p.inner.urlToSlot.lookup event.relayUrl = some slotId → p.inner.slots[slotId]? = some state → state.generation ≠ event.generation)
    :
    (translate authChallenge p).inner = p.inner ∧
      (translate authChallenge p).inHand = p.inHand := by
  rcases translate_cases authChallenge p with
    ⟨prepared, slotId, state, hupcoming, -, -, -⟩ | ⟨channel, heq⟩
  · exfalso
    unfold upcoming at hupcoming
    split at hupcoming
    · cases hupcoming
    · rw [hchannel] at hupcoming
      simp only [List.head?_cons, Option.bind_some] at hupcoming
      split at hupcoming
      · cases hupcoming
      next found hprepared =>
        obtain ⟨⟨slotId', state'⟩, hlocate, heq⟩ := Option.map_eq_some_iff.mp hupcoming
        obtain ⟨hurl, hgeneration⟩ := prepareEvent_signature authChallenge hprepared
        obtain ⟨hlookup, hstate, hgen⟩ := locateSlot_eq_some hlocate
        exact hstale slotId' state' (hurl ▸ hlookup) hstate (hgen.trans hgeneration)
  · rw [heq]
    exact ⟨rfl, rfl⟩

/-- Handles are safe over a run: one slot for a url, growing generations, one worker that listens,
commands that reach the worker of their handle and none after a close, no effect of an event of
another generation, and silence of a closed handle. -/
structure PoolSafe (acts : List Act) : Prop where
  oneSlot : ∀ before later, acts = before ++ later → ∀ url slotId,
    (pool authChallenge before).inner.urlToSlot.lookup url = some slotId →
      (pool authChallenge acts).inner.urlToSlot.lookup url = some slotId
  apart : ∀ url url' slotId,
    (pool authChallenge acts).inner.urlToSlot.lookup url = some slotId →
      (pool authChallenge acts).inner.urlToSlot.lookup url' = some slotId → url = url'
  generations : Increasing (pool authChallenge acts).workers
  once : ∀ i j a b, Listening (pool authChallenge acts) i a →
    Listening (pool authChallenge acts) j b → a.relayUrl = b.relayUrl → i = j
  reach : ∀ h worker c, .commanded h worker c ∈ emitted (step authChallenge) start acts →
    Reaches (pool authChallenge acts) h worker
  refused : ∀ before h later, acts = before ++ .close h :: later →
    (close (pool authChallenge before) h).2 = true →
      commandTxFor (pool authChallenge acts) h = none
  deaf : ∀ before h later, acts = before ++ .close h :: later →
    (close (pool authChallenge before) h).2 = true → ∀ worker row row',
      Reaches (pool authChallenge (before ++ [.close h])) h worker →
      (pool authChallenge (before ++ [.close h])).workers[worker]? = some row →
      (pool authChallenge acts).workers[worker]? = some row' → heard row' = heard row
  stale : ∀ before later event rest, acts = before ++ .translate :: later →
    (pool authChallenge before).channel = event :: rest →
    (∀ (slotId : Nat) (state : SlotState),
      (pool authChallenge before).inner.urlToSlot.lookup event.relayUrl = some slotId →
        (pool authChallenge before).inner.slots[slotId]? = some state →
          state.generation ≠ event.generation) →
      (pool authChallenge (before ++ [.translate])).inner = (pool authChallenge before).inner ∧
        (pool authChallenge (before ++ [.translate])).inHand = (pool authChallenge before).inHand
  current : ∀ before later event, acts = before ++ .deliver :: later →
    (pool authChallenge before).inHand = some event → ∃ state : SlotState,
      (pool authChallenge before).inner.slots[event.handle.slot]? = some state ∧
        state.generation = event.handle.generation
  quiet : ∀ before h later, acts = before ++ .close h :: later →
    (close (pool authChallenge before) h).2 = true →
      ∀ event, .delivered event ∈ emitted (step authChallenge)
        (pool authChallenge (before ++ [.close h])) later → event.up = true → event.handle ≠ h
  closed : ∀ before h later, acts = before ++ .close h :: later →
    (close (pool authChallenge before) h).2 = true → ∀ state : SlotState,
      (pool authChallenge acts).inner.slots[h.slot]? = some state →
        state.generation = h.generation → state.health.state = .closed

theorem pool_append (acts more : List Act) :
    pool authChallenge (acts ++ more) =
      after (step authChallenge) (pool authChallenge acts) more := after_append _ _ _ _

theorem gone_run (hp : Consistent p) {acts : List Act}
    (hmeets : Meets (fun p act => (step authChallenge p act).1) (Clear authChallenge) p acts)
    (hgone : Gone h p) : Gone h (after (step authChallenge) p acts) := by
  induction acts generalizing p with
  | nil => exact hgone
  | cons _ _ ih =>
    exact ih (kept_step authChallenge hp hmeets.1).1 hmeets.2
      (gone_step authChallenge hp hmeets.1 hgone)

/-- What holds right after a close that answers yes. -/
theorem gone_of_close (hok : Clear authChallenge p (.close h)) (hdone : (close p h).2 = true) :
    Gone h (close p h).1 := by
  refine ⟨closed_of_close hdone, ?_⟩
  rw [close_inHand]
  exact hok

/-- The parts of a run around a close. -/
theorem around_close {before later : List Act}
    (hmeets : Meets (fun p act => (step authChallenge p act).1) (Clear authChallenge) start (before ++ .close h :: later))
    (hdone : (close (pool authChallenge before) h).2 = true) :
    Consistent (pool authChallenge (before ++ [.close h])) ∧
      Gone h (pool authChallenge (before ++ [.close h])) ∧
      Meets (fun p act => (step authChallenge p act).1) (Clear authChallenge)
        (pool authChallenge (before ++ [.close h])) later ∧
      pool authChallenge (before ++ .close h :: later) =
        after (step authChallenge) (pool authChallenge (before ++ [.close h])) later := by
  rw [meets_append, meets_cons] at hmeets
  obtain ⟨hbefore, hclose, hlater⟩ := hmeets
  have hconsistent := (kept_run authChallenge consistent_start hbefore).1
  have hnext := (kept_step authChallenge hconsistent hclose).1
  have hsplit : pool authChallenge (before ++ [.close h]) =
      (close (pool authChallenge before) h).1 := pool_append authChallenge before [.close h]
  rw [hsplit]
  exact ⟨hnext, gone_of_close authChallenge hclose hdone, hlater,
    pool_append authChallenge before (.close h :: later)⟩

theorem commandTxFor_closed (hc : Closed p h) : commandTxFor p h = none := by
  obtain ⟨state, hstate, hcase⟩ := hc
  rw [commandTxFor, hstate]
  dsimp only
  rcases hcase with hlt | ⟨hgen, htx⟩
  · exact if_pos (by omega)
  · rw [if_neg (not_not.mpr hgen), htx]

/-- In every run whose steps are all clear, handles are safe. -/
theorem pool_safe (acts : List Act)
    (hmeets : Meets (fun p act => (step authChallenge p act).1) (Clear authChallenge) start acts) :
    PoolSafe authChallenge acts := by
  obtain ⟨hconsistent, -⟩ := kept_run authChallenge consistent_start hmeets
  constructor
  · intro before later hsplit url slotId hlookup
    subst hsplit
    rw [meets_append] at hmeets
    rw [pool_append]
    have hbefore := (kept_run authChallenge consistent_start hmeets.1).1
    exact (kept_run authChallenge hbefore hmeets.2).2.slotOf url slotId hlookup
  · intro url url' slotId hlookup hlookup'
    obtain ⟨state, hstate, rfl⟩ := hconsistent.slotOf url slotId hlookup
    obtain ⟨state', hstate', rfl⟩ := hconsistent.slotOf url' slotId hlookup'
    obtain rfl := Option.eq_some_unique hstate hstate'
    rfl
  · exact hconsistent.increasing
  · exact fun i j a b ha hb hurl => listening_once hconsistent ha hb hurl
  · intro h worker c hmem
    obtain ⟨before, act, later, rfl, hnow⟩ := exists_of_mem_emitted _ hmem
    rw [meets_append, meets_cons] at hmeets
    obtain ⟨hbefore, hact, hlater⟩ := hmeets
    have hthere := (kept_run authChallenge consistent_start hbefore).1
    obtain ⟨hnext, hgrown⟩ := kept_step authChallenge hthere hact
    have hreach := commanded_reaches authChallenge hthere hnow
    rw [pool_append]
    exact (hreach.grown hgrown).grown (kept_run authChallenge hnext hlater).2
  · intro before h later hsplit hdone
    subst hsplit
    obtain ⟨hthere, hgone, hlater, hlast⟩ := around_close authChallenge hmeets hdone
    rw [hlast]
    exact commandTxFor_closed (gone_run authChallenge hthere hlater hgone).1
  · intro before h later hsplit hdone worker row row' hreach hrow hrow'
    subst hsplit
    obtain ⟨hthere, -, hlater, hlast⟩ := around_close authChallenge hmeets hdone
    obtain ⟨state, hstate, hsame, htx⟩ := close_stops hdone
    rw [← show pool authChallenge (before ++ [.close h]) = (close (pool authChallenge before) h).1
      from pool_append authChallenge before [.close h]] at hstate
    obtain ⟨row₀, state₀, hrow₀, hstate₀, hurl, hgen⟩ := hreach
    obtain rfl := Option.eq_some_unique hrow hrow₀
    obtain rfl := Option.eq_some_unique hstate hstate₀
    rw [hlast] at hrow'
    obtain ⟨last, hlastrow, -, -, hinbox⟩ :=
      (kept_run authChallenge hthere hlater).2.rows worker row hrow
    obtain rfl := Option.eq_some_unique hrow' hlastrow
    have hstop := (hthere.stopped h.slot state hstate htx).2 worker row hrow hurl.symm
      (hgen.trans hsame.symm)
    exact takeWhile_prefix hinbox ⟨.shutdown, hstop, by decide⟩
  · intro before later event rest hsplit hchannel hstale
    rw [pool_append]
    exact translate_stale authChallenge hchannel hstale
  · intro before later event hsplit hhand
    subst hsplit
    rw [meets_append] at hmeets
    exact (kept_run authChallenge consistent_start hmeets.1).1.inHand event hhand
  · intro before h later hsplit hdone event hmem hup
    subst hsplit
    obtain ⟨hthere, hgone, hlater, -⟩ := around_close authChallenge hmeets hdone
    obtain ⟨a, act, b, rfl, hnow⟩ := exists_of_mem_emitted _ hmem
    rw [meets_append] at hlater
    have hat := gone_run authChallenge hthere hlater.1 hgone
    exact hat.2 event (delivered_inHand authChallenge hnow) hup
  · intro before h later hsplit hdone state hstate hgen
    subst hsplit
    obtain ⟨hthere, hgone, hlater, hlast⟩ := around_close authChallenge hmeets hdone
    rw [hlast] at hstate
    obtain ⟨state', hstate', hcase⟩ := (gone_run authChallenge hthere hlater hgone).1
    obtain rfl := Option.eq_some_unique hstate hstate'
    have htx : state.commandTx = none := by
      rcases hcase with hlt | ⟨-, htx⟩
      · omega
      · exact htx
    exact ((kept_run authChallenge hthere hlater).1.stopped h.slot state hstate htx).1

/-- A worker that opens, is written to, closed and replaced, each event of it taken in time. -/
theorem pool_safe_reopened : PoolSafe (fun _ => none)
    [.ensureOpen "wss://r.example" .content, .emit 0 .connected, .translate, .deliver,
      .send ⟨0, 1⟩ (.text "REQ"), .post 0, .setReconnectPreamble ⟨0, 1⟩ ["REQ"], .close ⟨0, 1⟩,
      .emit 0 .closed, .translate, .deliver, .ensureOpen "wss://r.example" .content] :=
  pool_safe _ _ (by decide +kernel)

/-- A socket that opens just before the slot is closed. -/
def lateOpening : List Act :=
  [.ensureOpen "wss://r.example" .content, .emit 0 .connected, .close ⟨0, 1⟩, .translate, .deliver]

theorem late_opening_delivered : ¬ PoolSafe (fun _ => none) lateOpening := by
  intro h
  have hdone : (close (pool (fun _ => none)
      [.ensureOpen "wss://r.example" .content, .emit 0 .connected]) ⟨0, 1⟩).2 = true := by
    decide +kernel
  have hmem : .delivered (.opened ⟨0, 1⟩ "wss://r.example" 1) ∈ emitted (step fun _ => none)
      (pool (fun _ => none) ([.ensureOpen "wss://r.example" .content, .emit 0 .connected] ++
        [.close ⟨0, 1⟩])) [.translate, .deliver] := by
    decide +kernel
  exact h.quiet [.ensureOpen "wss://r.example" .content, .emit 0 .connected] ⟨0, 1⟩
    [.translate, .deliver] rfl hdone _ hmem rfl rfl

end PoolSafety
