import Mathlib.Data.List.Perm.Basic

/-!
# Walks over hash tables

A hash table gives its entries in an order that may differ from walk to walk. A
fold whose steps commute does not see the order, and neither does a search for
the greatest entry of a total order.
-/
namespace HashWalks

variable {α β : Type}

/-- An order in which the entries may be given. -/
structure WalkOrder (α : Type) where
  order : List α → List α
  perm : ∀ entries, (order entries).Perm entries

def WalkOrder.sorted : WalkOrder α := ⟨id, fun _ => .refl _⟩

def WalkOrder.reversed : WalkOrder α := ⟨List.reverse, List.reverse_perm⟩

/-- Steps on different entries commute where the entries are told apart by their keys. -/
theorem foldl_order (o : WalkOrder α) {step : β → α → β} {entries : List α}
    (hcomm : ∀ b, ∀ x ∈ entries, ∀ y ∈ entries, step (step b x) y = step (step b y) x) (b : β) :
    (o.order entries).foldl step b = entries.foldl step b :=
  ((o.perm entries).symm.foldl_eq' (fun x hx y hy b => hcomm b x hx y hy) b).symm

/-- Of two entries the step keeps one that is not below the other. -/
structure Picks (le : α → α → Prop) (pick : α → α → α) : Prop where
  one : ∀ a b, pick a b = a ∨ pick a b = b
  left : ∀ a b, le a (pick a b)
  right : ∀ a b, le b (pick a b)
  trans : ∀ {a b c}, le a b → le b c → le a c

/-- No two entries are below each other. -/
structure Keeps (le : α → α → Prop) (pick : α → α → α) : Prop extends Picks le pick where
  antisymm : ∀ {a b}, le a b → le b a → a = b

variable {le : α → α → Prop} {pick : α → α → α}

def greatest (pick : α → α → α) : List α → Option α
  | [] => none
  | first :: rest => some (rest.foldl pick first)

/-- The fold keeps an entry, and none is above it. -/
theorem Picks.foldl (h : Picks le pick) (rest : List α) (first : α) :
    rest.foldl pick first ∈ first :: rest ∧ ∀ x ∈ first :: rest, le x (rest.foldl pick first) := by
  induction rest generalizing first with
  | nil =>
    refine ⟨List.mem_singleton_self first, fun x hx => ?_⟩
    rw [List.mem_singleton.mp hx]
    have hself := h.left first first
    rwa [show pick first first = first from (h.one first first).elim id id] at hself
  | cons next _ ih =>
    obtain ⟨hmem, habove⟩ := ih (pick first next)
    rw [List.foldl_cons]
    have hpicked := habove (pick first next) List.mem_cons_self
    constructor
    · rcases List.mem_cons.mp hmem with heq | hlater
      · rw [heq]
        rcases h.one first next with hone | hone
        · rw [hone]
          exact List.mem_cons_self
        · rw [hone]
          exact List.mem_cons_of_mem _ List.mem_cons_self
      · exact List.mem_cons_of_mem _ (List.mem_cons_of_mem _ hlater)
    · intro x hx
      rcases List.mem_cons.mp hx with rfl | hx
      · exact h.trans (h.left x next) hpicked
      · rcases List.mem_cons.mp hx with rfl | hx
        · exact h.trans (h.right first x) hpicked
        · exact habove x (List.mem_cons_of_mem _ hx)

/-- What is found is in the list, and none is above it. -/
theorem Picks.greatest (h : Picks le pick) {entries : List α} {x : α}
    (hx : greatest pick entries = some x) : x ∈ entries ∧ ∀ y ∈ entries, le y x := by
  cases entries with
  | nil => cases hx
  | cons first rest =>
    obtain rfl := Option.some.inj hx
    exact h.foldl rest first

/-- The entry found is the one of the list that none is above. -/
theorem Keeps.greatest_eq_some (h : Keeps le pick) {entries : List α} {x : α} :
    greatest pick entries = some x ↔ x ∈ entries ∧ ∀ y ∈ entries, le y x := by
  cases entries with
  | nil => simp [greatest]
  | cons first rest =>
    obtain ⟨hmem, habove⟩ := h.foldl rest first
    rw [greatest, Option.some.injEq]
    constructor
    · rintro rfl
      exact ⟨hmem, habove⟩
    · rintro ⟨hx, hbest⟩
      exact h.antisymm (hbest _ hmem) (habove x hx)

theorem Keeps.greatest_order (h : Keeps le pick) (o : WalkOrder α) (entries : List α) :
    greatest pick (o.order entries) = greatest pick entries := by
  ext x
  simp only [h.greatest_eq_some, (o.perm entries).mem_iff]

end HashWalks
