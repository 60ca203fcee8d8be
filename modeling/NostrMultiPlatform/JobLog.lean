import NostrMultiPlatform.Runs

/-!
# Logs of jobs

A log records, in order, jobs being opened with their targets, messages sent for
them, answers taken in, and endings. Reading it for one key gives the life that
is open under the key, if one is. A log is lawful for a key when lives do not
overlap, messages go only to targets of an open life, and an ending of an open
life accounts for its targets.
-/
namespace JobLog

open Runs

variable {κ ρ ω τ : Type} [DecidableEq κ]

inductive Entry (κ ρ ω τ : Type) where
  | opened (key : κ) (targets : List ρ)
  | widened (key : κ) (targets : List ρ)
  | sent (key : κ) (target : ρ)
  | answered (key : κ) (target : ρ) (verdict : ω)
  | ended (key : κ) (ending : τ)
  /-- Every open life is cut off. -/
  | stopped
  deriving DecidableEq, Repr

/-- What is known of an open job: its targets and the answers taken in so far. -/
structure Life (ρ ω : Type) where
  targets : List ρ
  answers : List (ρ × ω)

/-- The endings that close a life, given its targets, and those that stand alone. -/
structure Rules (ρ τ : Type) where
  covers : List ρ → τ → Prop
  idle : τ → Prop

def follow (key : κ) (life : Option (Life ρ ω)) : Entry κ ρ ω τ → Option (Life ρ ω)
  | .opened k targets => if k = key then some ⟨targets, []⟩ else life
  | .widened k targets =>
    if k = key then life.map fun l => { l with targets := l.targets ++ targets } else life
  | .sent .. => life
  | .answered k target verdict =>
    if k = key then life.map fun l => { l with answers := l.answers ++ [(target, verdict)] }
    else life
  | .ended k _ => if k = key then none else life
  | .stopped => none

def Proper (rules : Rules ρ τ) (key : κ) (life : Option (Life ρ ω)) : Entry κ ρ ω τ → Prop
  | .opened k _ => k = key → life = none
  | .widened k _ => k = key → life.isSome
  | .sent k target => k = key → ∃ l, life = some l ∧ target ∈ l.targets
  | .answered k target _ => k = key → ∃ l, life = some l ∧ target ∈ l.targets
  | .ended k ending => k = key →
    (∃ l, life = some l ∧ rules.covers l.targets ending) ∨ (life = none ∧ rules.idle ending)
  | .stopped => True

/-- The life open under the key at the end of the log. -/
def lifeOf (key : κ) (log : List (Entry κ ρ ω τ)) : Option (Life ρ ω) := run (follow key) none log

def Lawful (rules : Rules ρ τ) (key : κ) (log : List (Entry κ ρ ω τ)) : Prop :=
  Meets (follow key) (Proper rules key) none log

@[simp] theorem lifeOf_nil (key : κ) : lifeOf key ([] : List (Entry κ ρ ω τ)) = none := rfl

theorem lifeOf_append (key : κ) (log more : List (Entry κ ρ ω τ)) :
    lifeOf key (log ++ more) = run (follow key) (lifeOf key log) more := run_append ..

@[simp] theorem lifeOf_snoc (key : κ) (log : List (Entry κ ρ ω τ)) (e : Entry κ ρ ω τ) :
    lifeOf key (log ++ [e]) = follow key (lifeOf key log) e := lifeOf_append ..

/-- The key an entry is about. -/
def Entry.about : Entry κ ρ ω τ → Option κ
  | .opened key _ | .widened key _ | .sent key _ | .answered key _ _ | .ended key _ => some key
  | .stopped => none

section Rules
variable {rules : Rules ρ τ} {key : κ}

@[simp] theorem lawful_nil : Lawful rules key ([] : List (Entry κ ρ ω τ)) := trivial

variable {log more : List (Entry κ ρ ω τ)} {e : Entry κ ρ ω τ} {life : Option (Life ρ ω)}

theorem lawful_append :
    Lawful rules key (log ++ more) ↔
      Lawful rules key log ∧ Meets (follow key) (Proper rules key) (lifeOf key log) more :=
  meets_append ..

@[simp] theorem lawful_snoc :
    Lawful rules key (log ++ [e]) ↔
      Lawful rules key log ∧ Proper rules key (lifeOf key log) e := by
  rw [lawful_append, meets_cons]
  exact and_congr_right fun _ => and_iff_left trivial

theorem follow_other {k : κ} (h : e.about = some k) (hk : k ≠ key) :
    follow key life e = life ∧ Proper rules key life e := by
  cases e with
  | stopped => cases h
  | sent => exact ⟨rfl, fun heq => absurd ((Option.some.inj h).symm.trans heq) hk⟩
  | _ =>
    obtain rfl := Option.some.inj h
    exact ⟨if_neg hk, fun heq => absurd heq hk⟩

/-- Entries about another key change nothing under this one. -/
theorem run_other {k : κ} (h : ∀ e ∈ more, e.about = some k) (hk : k ≠ key)
    (life : Option (Life ρ ω)) :
    run (follow key) life more = life ∧ Meets (follow key) (Proper rules key) life more := by
  induction more with
  | nil => exact ⟨rfl, trivial⟩
  | cons e _ ih =>
    obtain ⟨hsame, hproper⟩ : follow key life e = life ∧ Proper rules key life e :=
      follow_other (h e List.mem_cons_self) hk
    obtain ⟨hrun, hmeets⟩ := ih fun e' he' => h e' (List.mem_cons_of_mem e he')
    rw [run_cons, meets_cons, hsame]
    exact ⟨hrun, hproper, hmeets⟩

/-- What is sent is sent for an open life. -/
theorem Lawful.open_of_sent {pre post : List (Entry κ ρ ω τ)} {target : ρ}
    (h : Lawful rules key (pre ++ .sent key target :: post)) :
    ∃ l, lifeOf key pre = some l ∧ target ∈ l.targets :=
  (lawful_append.mp h).2.1 rfl

/-- While no life is open and none is opened, none is open afterwards. -/
theorem run_none (h : ∀ targets, .opened key targets ∉ more) :
    run (follow key) none more = none := by
  induction more with
  | nil => rfl
  | cons e rest ih =>
    have hrest : run (follow key) none rest = none :=
      ih fun targets hmem => h targets (List.mem_cons_of_mem _ hmem)
    rw [run_cons]
    cases e with
    | opened k targets =>
      have hk : k ≠ key := fun hk => h targets (hk ▸ List.mem_cons_self)
      rw [follow, if_neg hk]
      exact hrest
    | _ =>
      simp only [follow, Option.map_none, ite_self]
      exact hrest

/-- Between an ending and a later message for the same key the key was opened again. -/
theorem Lawful.opened_between {pre mid post : List (Entry κ ρ ω τ)} {ending : τ} {target : ρ}
    (h : Lawful rules key (pre ++ .ended key ending :: mid ++ .sent key target :: post)) :
    ∃ targets, .opened key targets ∈ mid := by
  by_contra hnot
  push Not at hnot
  obtain ⟨l, hl, -⟩ := h.open_of_sent
  rw [lifeOf_append, run_cons, follow, if_pos rfl, run_none hnot] at hl
  cases hl

def opens (key : κ) : Entry κ ρ ω τ → Nat
  | .opened k _ => if k = key then 1 else 0
  | _ => 0

def closes (key : κ) (life : Option (Life ρ ω)) : Entry κ ρ ω τ → Nat
  | .ended k _ => if k = key ∧ life.isSome then 1 else 0
  | _ => 0

/-- How often a life was opened under the key. -/
def openings (key : κ) : List (Entry κ ρ ω τ) → Nat
  | [] => 0
  | e :: rest => opens key e + openings key rest

/-- How many endings the log records for the key while a life is open. -/
def endings (key : κ) : Option (Life ρ ω) → List (Entry κ ρ ω τ) → Nat
  | _, [] => 0
  | life, e :: rest => closes key life e + endings key (follow key life e) rest

/-- The lives open under a key: one or none. -/
def alive (life : Option (Life ρ ω)) : Nat := if life.isSome then 1 else 0

theorem alive_map (life : Option (Life ρ ω)) (f : Life ρ ω → Life ρ ω) :
    alive (life.map f) = alive life := by
  cases life <;> rfl

theorem balance_step (h : Proper rules key life e) (hstop : e ≠ .stopped) :
    alive life + opens key e = closes key life e + alive (follow key life e) := by
  cases e with
  | opened k =>
    by_cases hk : k = key
    · rw [h hk]
      simp [alive, opens, closes, follow, hk]
    · simp [opens, closes, follow, hk]
  | ended k =>
    by_cases hk : k = key
    · simp [alive, opens, closes, follow, hk]
    · simp [opens, closes, follow, hk]
  | widened | answered =>
    simp only [opens, closes, follow]
    split
    · rw [alive_map]
      omega
    · omega
  | sent =>
    simp only [opens, closes, follow]
    omega
  | stopped => exact absurd rfl hstop

/-- Every life that is no longer open was closed by exactly one ending. -/
theorem balance (h : Meets (follow key) (Proper rules key) life log) (hstop : .stopped ∉ log) :
    alive life + openings key log = endings key life log + alive (run (follow key) life log) := by
  induction log generalizing life with
  | nil => simp [openings, endings]
  | cons _ _ ih =>
    have hhead := balance_step h.1 fun he => hstop (he ▸ List.mem_cons_self)
    have hrest := ih h.2 fun hmem => hstop (List.mem_cons_of_mem _ hmem)
    rw [openings, endings, run_cons]
    omega

end Rules

end JobLog
