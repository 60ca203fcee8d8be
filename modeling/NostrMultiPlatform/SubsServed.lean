import NostrMultiPlatform.SubsAgreement
import NostrMultiPlatform.SubsWire

/-!
# What relays answer with

After any sequence of plans a relay has the filters of the last one open, and sends
what its sub-shapes match.
-/
namespace SubsServed

open PlannerPlan PlannerShape SubsAgreement SubsFilter SubsWire Sorted.SortedSet

/-- Rows with one key have one shape. -/
def OneShape (rows : List (String × SubShape)) : Prop :=
  ∀ a ∈ rows, ∀ b ∈ rows, keyOf a = keyOf b → a.2.shape = b.2.shape

/-- The frame is a request, and its filter accepts the event. -/
def asksFor (e : Event) : WireFrame → Bool
  | .req _ _ filter .. => accepts filter e
  | .close .. => false

theorem requested_of_open {frames : List WireFrame} {opened : Finset Key} {k : Key}
    (h : k ∈ deliverAll opened frames) : k ∈ opened ∨ ∃ f ∈ frames, f.isReq = true ∧ f.key = k := by
  induction frames generalizing opened with
  | nil => exact .inl h
  | cons f rest ih =>
    obtain hin | ⟨f', hf', hreq⟩ := @ih (deliver opened f) h
    · cases f with
      | req =>
        obtain rfl | hin := Finset.mem_insert.mp hin
        · exact .inr ⟨_, List.mem_cons_self, rfl, rfl⟩
        · exact .inl hin
      | close => exact .inl (Finset.mem_of_mem_erase hin)
    · exact .inr ⟨f', List.mem_cons_of_mem _ hf', hreq⟩

variable {nostr : NostrCrate} {prior : Option CompiledPlan}
  {plans : List (Option CompiledPlan × List LogicalInterest)}

/-- A request is for a row of one of the plans. -/
theorem row_of_request {f : WireFrame} (hf : f ∈ diffs nostr prior plans) (hreq : f.isReq = true) :
    ∃ row ∈ plans.flatMap (fun p => rowsOf p.1), ∃ interests, emitReq nostr interests row = f := by
  induction plans generalizing prior with
  | nil => cases hf
  | cons p rest ih =>
    simp only [List.flatMap_cons, List.mem_append]
    obtain hf | hf := List.mem_append.mp hf
    · obtain hf | hf := List.mem_append.mp hf
      · obtain ⟨_, -, rfl⟩ := List.mem_map.mp hf
        cases hreq
      · obtain ⟨row, hrow, rfl⟩ := List.mem_map.mp hf
        exact ⟨row, .inl (List.mem_filter.mp hrow).1, p.2, rfl⟩
    · obtain ⟨row, hrow, heq⟩ := ih hf
      exact ⟨row, .inr hrow, heq⟩

theorem mem_of_lastPlan {row : String × SubShape} (h : row ∈ rowsOf (lastPlan prior plans)) :
    row ∈ rowsOf prior ++ plans.flatMap fun p => rowsOf p.1 := by
  induction plans generalizing prior with
  | nil => exact List.mem_append_left _ h
  | cons p rest ih => exact List.mem_append_right _ (ih h)

/-- After any sequence of plans a relay answers with what the sub-shapes of the last one match. -/
theorem relay_answers_iff (nostr : NostrCrate) (hdoc : Documented nostr)
    (plans : List (Option CompiledPlan × List LogicalInterest))
    (hone : OneShape (plans.flatMap fun p => rowsOf p.1))
    (hshapes : ∀ row ∈ rowsOf (lastPlan none plans), WellFormed row.2.shape ∧ Agreeing row.2.shape)
    (relay : String) (e : Event) :
    (∃ f ∈ diffs nostr none plans, f.key.1 = relay ∧
      f.key ∈ deliverAll ∅ (diffs nostr none plans) ∧ asksFor e f = true) ↔
        ∃ row ∈ rowsOf (lastPlan none plans), row.1 = relay ∧
          matchesEventWithId row.2.shape e = true := by
  have hkeys := deliverAll_diffs nostr none plans
  have hsame : ∀ row ∈ rowsOf (lastPlan none plans), ∀ f ∈ diffs nostr none plans, f.isReq = true →
      keyOf row = f.key → (asksFor e f = true ↔ matchesEventWithId row.2.shape e = true) := by
    intro row hrow f hf hreq hkey
    obtain ⟨other, hother, interests, rfl⟩ := row_of_request hf hreq
    rw [emitReq, asksFor, ← hone row (mem_of_lastPlan hrow) other hother hkey,
      accepts_iff hdoc (hshapes row hrow).1]
    exact iff_of_agreeing (hshapes row hrow).1 (hshapes row hrow).2 e
  constructor
  · rintro ⟨f, hf, rfl, hopen, hasks⟩
    have hreq : f.isReq = true := by
      cases f with
      | req => rfl
      | close => cases hasks
    obtain ⟨row, hrow, hkey⟩ := mem_collectRelaySubKeys.mp (hkeys ▸ hopen)
    exact ⟨row, hrow, congrArg Prod.fst hkey, (hsame row hrow f hf hreq hkey).mp hasks⟩
  · rintro ⟨row, hrow, rfl, hmatch⟩
    have hopen : keyOf row ∈ deliverAll ∅ (diffs nostr none plans) :=
      hkeys ▸ mem_collectRelaySubKeys.mpr ⟨row, hrow, rfl⟩
    obtain ⟨f, hf, hreq, hkey⟩ := (requested_of_open hopen).resolve_left (Finset.notMem_empty _)
    exact ⟨f, hf, congrArg Prod.fst hkey, hkey ▸ hopen, (hsame row hrow f hf hreq hkey.symm).mpr hmatch⟩

def twoPlans : List (Option CompiledPlan × List LogicalInterest) :=
  [(some (planOn "wss://relay" [0, 1]), []), (some (planOn "wss://relay" [1]), [])]

/-- A relay that is left with the notes of two kinds answers with a note. -/
theorem relay_answers_iff_note :
    ∃ f ∈ diffs documentedCrate none twoPlans, f.key.1 = "wss://relay" ∧
      f.key ∈ deliverAll ∅ (diffs documentedCrate none twoPlans) ∧
        asksFor ⟨"", "", 1, 0, []⟩ f = true := by
  refine (relay_answers_iff documentedCrate documentedCrate_documented twoPlans ?_ ?_ _ _).mpr
    ⟨_, List.mem_singleton_self _, rfl, by decide +kernel⟩
  · unfold OneShape
    decide +kernel
  · intro row hrow
    obtain rfl := List.mem_singleton.mp hrow
    have hnone : ∀ s ∈ (∅ : Sorted.SortedSet String), False := not_mem_empty
    have hlower : ∀ s ∈ (∅ : Sorted.SortedSet String), lower s = s := fun s h => (hnone s h).elim
    exact ⟨⟨fun _ h => (hnone _ h).elim, fun _ h => (hnone _ h).elim, by decide +kernel,
      fun c h => absurd h (not_mem_empty c), fun _ _ h => nomatch h⟩,
      .inr (.inl ⟨rfl, ⟨nofun, hlower, hlower⟩⟩)⟩

end SubsServed
