import Mathlib.Data.List.Induction

/-!
# Logs of sessions

A log tells of sessions that open, carry something and drop, until it ends. Which
logs are in order is said by a machine of three states; the order of its events is
read off the runs of that machine.
-/
namespace SessionLogs

/-- What an event says of the session. -/
inductive Kind
  | opens
  | carries
  | drops
  | ends
  deriving DecidableEq, Repr

inductive Status
  | down
  | up
  | finished
  deriving DecidableEq, Repr

def Status.next : Status → Kind → Option Status
  | .down, .opens => some .up
  | .down, .drops => some .down
  | .down, .ends => some .finished
  | .up, .carries => some .up
  | .up, .drops => some .down
  | .up, .ends => some .finished
  | _, _ => none

variable {ε : Type} (kind : ε → Kind)

/-- Where a log leads from a status, if it is in order. -/
def follow : Status → List ε → Option Status
  | s, [] => some s
  | s, e :: log => (s.next (kind e)).bind fun s' => follow s' log

@[simp] theorem follow_nil (s : Status) : follow kind s [] = some s := rfl

@[simp] theorem follow_singleton (s : Status) (e : ε) : follow kind s [e] = s.next (kind e) := by
  rw [follow]
  cases s.next (kind e) <;> rfl

theorem follow_append (s : Status) (log more : List ε) :
    follow kind s (log ++ more) = (follow kind s log).bind fun s' => follow kind s' more := by
  induction log generalizing s with
  | nil => rfl
  | cons e _ ih =>
    rw [List.cons_append, follow, follow, Option.bind_assoc]
    cases s.next (kind e) with
    | none => rfl
    | some s' => exact ih s'

variable {kind}

variable {s t : Status} {log : List ε}

theorem exists_follow_append {log more : List ε} (h : follow kind s (log ++ more) = some t) :
    ∃ m, follow kind s log = some m ∧ follow kind m more = some t := by
  rw [follow_append] at h
  exact Option.bind_eq_some_iff.mp h

theorem exists_next {e : ε} (h : follow kind s (e :: log) = some t) :
    ∃ m, s.next (kind e) = some m ∧ follow kind m log = some t :=
  Option.bind_eq_some_iff.mp h

theorem next_opens (h : s.next .opens = some t) : s = .down ∧ t = .up := by
  cases s <;> cases h
  exact ⟨rfl, rfl⟩

theorem next_carries (h : s.next .carries = some t) : s = .up ∧ t = .up := by
  cases s <;> cases h
  exact ⟨rfl, rfl⟩

theorem next_ends (h : s.next .ends = some t) : t = .finished := by
  cases s <;> cases h <;> rfl

theorem not_next_finished (k : Kind) : Status.finished.next k = none := by
  cases k <;> rfl

theorem follow_finished (h : follow kind .finished log = some t) : log = [] ∧ t = .finished := by
  cases log with
  | nil => exact ⟨rfl, (Option.some.inj h).symm⟩
  | cons =>
    obtain ⟨m, hm, _⟩ := exists_next h
    rw [not_next_finished] at hm
    cases hm

/-- Nothing drops: the session is still up or the log has ended. -/
theorem not_down_of_no_drop (h : follow kind .up log = some t) (hnone : ∀ e ∈ log, kind e ≠ .drops)
    : t ≠ .down := by
  induction log with
  | nil =>
    cases h
    nofun
  | cons e _ ih =>
    obtain ⟨hhead, htail⟩ := List.forall_mem_cons.mp hnone
    obtain ⟨m, hm, hlog⟩ := exists_next h
    cases hkind : kind e with
    | opens =>
      rw [hkind] at hm
      cases hm
    | carries =>
      rw [hkind] at hm
      cases hm
      exact ih hlog htail
    | drops => exact absurd hkind hhead
    | ends =>
      rw [hkind] at hm
      cases hm
      rw [(follow_finished hlog).2]
      nofun

/-- Between two openings something drops. -/
theorem drops_between {a b c : List ε} {x y : ε}
    (h : follow kind s (a ++ x :: (b ++ y :: c)) = some t) (hx : kind x = .opens)
    (hy : kind y = .opens) : ∃ e ∈ b, kind e = .drops := by
  obtain ⟨m, -, h⟩ := exists_follow_append h
  obtain ⟨u, hu, h⟩ := exists_next h
  rw [hx] at hu
  obtain ⟨-, rfl⟩ := next_opens hu
  obtain ⟨d, hd, h⟩ := exists_follow_append h
  obtain ⟨v, hv, -⟩ := exists_next h
  rw [hy] at hv
  by_contra hnone
  push Not at hnone
  exact not_down_of_no_drop hd hnone (next_opens hv).1

/-- A session that is up was opened, and has carried since. -/
theorem opened_of_up (h : follow kind .down log = some .up) :
    ∃ a x b, log = a ++ x :: b ∧ kind x = .opens ∧ ∀ e ∈ b, kind e = .carries := by
  induction log using List.reverseRecOn with
  | nil => cases h
  | append_singleton log e ih =>
    obtain ⟨m, hm, h⟩ := exists_follow_append h
    rw [follow_singleton] at h
    cases hkind : kind e with
    | opens => exact ⟨log, e, [], rfl, hkind, fun _ hmem => absurd hmem List.not_mem_nil⟩
    | carries =>
      rw [hkind] at h
      obtain ⟨rfl, -⟩ := next_carries h
      obtain ⟨a, x, b, rfl, hx, hb⟩ := ih hm
      refine ⟨a, x, b ++ [e], by simp, hx, fun z hz => ?_⟩
      rcases List.mem_append.mp hz with hz | hz
      · exact hb z hz
      · rw [List.mem_singleton.mp hz, hkind]
    | drops =>
      rw [hkind] at h
      cases m <;> cases h
    | ends =>
      rw [hkind] at h
      cases next_ends h

/-- What is carried lies in a session. -/
theorem opened_before {a b : List ε} {e : ε} (h : follow kind .down (a ++ e :: b) = some t)
    (he : kind e = .carries) :
    ∃ a₁ x a₂, a = a₁ ++ x :: a₂ ∧ kind x = .opens ∧ ∀ z ∈ a₂, kind z = .carries := by
  obtain ⟨m, hm, h⟩ := exists_follow_append h
  obtain ⟨u, hu, -⟩ := exists_next h
  rw [he] at hu
  obtain ⟨rfl, -⟩ := next_carries hu
  exact opened_of_up hm

/-- A log that is over ends with an end. -/
theorem last_of_finished (h : follow kind .down log = some .finished) :
    ∃ a e, log = a ++ [e] ∧ kind e = .ends := by
  induction log using List.reverseRecOn with
  | nil => cases h
  | append_singleton log e _ =>
    obtain ⟨m, -, h⟩ := exists_follow_append h
    rw [follow_singleton] at h
    refine ⟨log, e, rfl, ?_⟩
    cases hkind : kind e with
    | ends => rfl
    | opens =>
      rw [hkind] at h
      cases (next_opens h).2
    | carries =>
      rw [hkind] at h
      cases (next_carries h).2
    | drops =>
      rw [hkind] at h
      cases m <;> cases h

/-- An end is the last event. -/
theorem ends_last {a b : List ε} {e : ε} (h : follow kind s (a ++ e :: b) = some t)
    (he : kind e = .ends) : b = [] ∧ t = .finished := by
  obtain ⟨m, -, h⟩ := exists_follow_append h
  obtain ⟨u, hu, h⟩ := exists_next h
  rw [he] at hu
  rw [next_ends hu] at h
  exact follow_finished h

end SessionLogs
