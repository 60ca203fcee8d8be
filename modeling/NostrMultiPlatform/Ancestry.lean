import Mathlib.Data.List.Chain
import Mathlib.Data.Set.Finite.Basic
import Mathlib.Order.WellFounded

/-!
# Ancestors without cycles

Where no element is its own ancestor, a path of parents repeats nothing, and from
a finite set whose members all have a parent one gets out.
-/
namespace Ancestry

open Relation

variable {α : Type} {parent : α → α → Prop}

/-- No element is its own ancestor; `parent p c` makes `p` a parent of `c`. -/
def Acyclic (parent : α → α → Prop) : Prop := ∀ a, ¬ TransGen parent a a

theorem Acyclic.mono {other : α → α → Prop} (h : Acyclic other)
    (hsub : ∀ p c, parent p c → other p c) : Acyclic parent :=
  fun a ha => h a (TransGen.mono hsub a a ha)

/-- A rank that grows from parent to child excludes cycles. -/
theorem acyclic_of_rank (rank : α → Nat) (h : ∀ p c, parent p c → rank p < rank c) :
    Acyclic parent := by
  have hlt : ∀ a b, TransGen parent a b → rank a < rank b := by
    intro a b hab
    induction hab with
    | single hab => exact h _ _ hab
    | tail _ hbc ih => exact ih.trans (h _ _ hbc)
  exact fun a ha => lt_irrefl _ (hlt a a ha)

theorem Acyclic.irrefl (h : Acyclic parent) {a : α} : ¬ parent a a :=
  fun ha => h a (.single ha)

/-- In a path of parents each element is an ancestor of all later ones. -/
theorem pairwise_of_isChain {path : List α} (h : path.IsChain parent) :
    path.Pairwise (TransGen parent) :=
  List.isChain_iff_pairwise.mp (h.imp fun _ _ => .single)

theorem Acyclic.nodup (h : Acyclic parent) {path : List α} (hpath : path.IsChain parent) :
    path.Nodup := by
  refine (pairwise_of_isChain hpath).imp ?_
  rintro a b hab rfl
  exact h a hab

/-- From a finite set whose members each have a parent that is out or in the set, every member has
an ancestor that is out. -/
theorem Acyclic.exists_out (h : Acyclic parent) [DecidableEq α] (s : Finset α) {out : α → Prop}
    (hstep : ∀ a ∈ s, ∃ p, parent p a ∧ (out p ∨ p ∈ s)) {a : α} (ha : a ∈ s) :
    ∃ p, TransGen parent p a ∧ out p := by
  let below : s → s → Prop := fun b c => TransGen parent b.1 c.1
  have htrans : IsTrans s below := ⟨fun _ _ _ hab hbc => hab.trans hbc⟩
  have hirrefl : Std.Irrefl below := ⟨fun b => h b.1⟩
  have hwf : WellFounded below := Finite.wellFounded_of_trans_of_irrefl below
  have hall : ∀ b : s, ∃ p, TransGen parent p b.1 ∧ out p := by
    intro b
    induction b using hwf.induction with
    | _ b ih =>
      obtain ⟨p, hp, hout | hin⟩ := hstep b.1 b.2
      · exact ⟨p, .single hp, hout⟩
      · obtain ⟨q, hq, hout⟩ := ih ⟨p, hin⟩ (.single hp)
        exact ⟨q, hq.tail hp, hout⟩
  exact hall ⟨a, ha⟩

end Ancestry
