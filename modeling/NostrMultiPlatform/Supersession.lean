import NostrMultiPlatform.Runs
import Mathlib.Data.List.Induction
import Mathlib.Data.Set.Basic

/-!
# Claims with supersession

Sources are read one after another into a book. A source strikes the sources it
names, then, unless it is struck or owns something already, takes its items that
nobody owns. What is owned in the end depends on the order exactly when a struck
source can hold an item while every surviving claimant passes by.
-/
namespace Supersession

open Runs

structure Source (α ι : Type) where
  name : α
  items : List ι
  kills : List α

@[ext]
structure Book (α ι : Type) where
  dead : Set α
  owner : ι → Option α

variable {α ι : Type}

/-- The names struck by some source of the list. -/
def killed (sources : List (Source α ι)) : Set α := {a | ∃ s ∈ sources, a ∈ s.kills}

theorem mem_killed {sources : List (Source α ι)} {a : α} :
    a ∈ killed sources ↔ ∃ s ∈ sources, a ∈ s.kills := Iff.rfl

/-- A source of the list that none of them strikes. -/
def Survives (sources : List (Source α ι)) (s : Source α ι) : Prop :=
  s ∈ sources ∧ s.name ∉ killed sources

namespace Book

def empty : Book α ι := ⟨∅, fun _ => none⟩

def Live (b : Book α ι) (a : α) : Prop := ∃ i, b.owner i = some a

open Classical in
noncomputable def strike (b : Book α ι) (kills : List α) : Book α ι where
  dead := {a | a ∈ b.dead ∨ a ∈ kills}
  owner i := (b.owner i).filter fun a => a ∉ kills

open Classical in
/-- The source takes what nobody owns, once. -/
noncomputable def claim (b : Book α ι) (s : Source α ι) : Book α ι :=
  if s.name ∈ b.dead ∨ b.Live s.name then b
  else { b with owner := fun i => if b.owner i = none ∧ i ∈ s.items then some s.name else b.owner i }

noncomputable def read (b : Book α ι) (s : Source α ι) : Book α ι := (b.strike s.kills).claim s

variable {a : α} {b : Book α ι} {i : ι} {s : Source α ι}

theorem strike_dead {kills : List α} : a ∈ (b.strike kills).dead ↔ a ∈ b.dead ∨ a ∈ kills := Iff.rfl

theorem strike_owner {kills : List α} :
    (b.strike kills).owner i = some a ↔ b.owner i = some a ∧ a ∉ kills := by
  simp [strike, Option.filter_eq_some_iff]

theorem strike_nil (b : Book α ι) : b.strike [] = b := by
  ext i a
  · simp [strike_dead]
  · simp [strike_owner]

theorem strike_cons (b : Book α ι) (k : α) (ks : List α) :
    b.strike (k :: ks) = (b.strike [k]).strike ks := by
  ext i a
  · simp [strike_dead, or_assoc]
  · simp [strike_owner, and_assoc]

theorem claim_dead (b : Book α ι) (s : Source α ι) : (b.claim s).dead = b.dead := by
  unfold claim
  split <;> rfl

theorem claim_owner_of_owned (h : b.owner i = some a) : (b.claim s).owner i = some a := by
  unfold claim
  split
  · exact h
  · simp [h]

theorem claim_owner (h : (b.claim s).owner i = some a) :
    b.owner i = some a ∨ a = s.name ∧ i ∈ s.items ∧ s.name ∉ b.dead ∧ b.owner i = none := by
  unfold claim at h
  split at h
  · exact .inl h
  next hopen =>
    by_cases hfree : b.owner i = none ∧ i ∈ s.items
    · simp only [hfree, and_self, if_true, Option.some.injEq] at h
      exact .inr ⟨h.symm, hfree.2, fun hdead => hopen (.inl hdead), hfree.1⟩
    · exact .inl (by simpa only [if_neg hfree] using h)

/-- With no free item there is nothing to take. -/
theorem claim_eq_self (h : ∀ i ∈ s.items, b.owner i ≠ none) : b.claim s = b := by
  ext i a
  · rw [claim_dead]
  · refine ⟨fun hi => ?_, claim_owner_of_owned⟩
    exact (claim_owner hi).elim id fun ⟨_, hitem, _, hfree⟩ => absurd hfree (h i hitem)

/-- A source neither struck nor an owner takes each free item it carries. -/
theorem claim_takes (hdead : s.name ∉ b.dead) (hlive : ¬ b.Live s.name) (hi : i ∈ s.items)
    (hfree : b.owner i = none) : (b.claim s).owner i = some s.name := by
  simp [claim, hdead, hlive, hi, hfree]

end Book

/-- The book after the sources in this order. -/
noncomputable def readAll (sources : List (Source α ι)) : Book α ι := run Book.read .empty sources

theorem readAll_concat (xs : List (Source α ι)) (s : Source α ι) :
    readAll (xs ++ [s]) = (readAll xs).read s := by
  simp [readAll]

theorem readAll_dead (xs : List (Source α ι)) : (readAll xs).dead = killed xs := by
  induction xs using List.reverseRecOn with
  | nil => simp [readAll, Book.empty, killed]
  | append_singleton _ _ ih =>
    rw [readAll_concat, Book.read, Book.claim_dead]
    ext a
    rw [Book.strike_dead, ih]
    simp [mem_killed, or_and_right, exists_or]

variable {i : ι} {xs sources : List (Source α ι)}

/-- An owner is not struck, was read, and carries what it owns. -/
theorem readAll_owner {a : α} (h : (readAll xs).owner i = some a) :
    a ∉ killed xs ∧ ∃ s ∈ xs, s.name = a ∧ i ∈ s.items := by
  induction xs using List.reverseRecOn with
  | nil => cases h
  | append_singleton xs s ih =>
    have hdead : (readAll (xs ++ [s])).dead = killed (xs ++ [s]) := readAll_dead _
    rw [readAll_concat] at h hdead
    rw [← hdead, Book.read, Book.claim_dead]
    rcases Book.claim_owner h with hold | ⟨rfl, hi, hfree, -⟩
    · obtain ⟨hold, hkill⟩ := Book.strike_owner.mp hold
      obtain ⟨hlive, t, ht, hname, hi⟩ := ih hold
      refine ⟨?_, t, by simp [ht], hname, hi⟩
      rw [Book.strike_dead, readAll_dead]
      exact not_or.mpr ⟨hlive, hkill⟩
    · exact ⟨hfree, s, by simp, rfl, hi⟩

/-- What a source no later one strikes owns, it keeps. -/
theorem readAll_keeps (xs ys : List (Source α ι)) {a : α} (h : (readAll xs).owner i = some a)
    (hlive : a ∉ killed (xs ++ ys)) : (readAll (xs ++ ys)).owner i = some a := by
  induction ys using List.reverseRecOn with
  | nil => simpa using h
  | append_singleton ys s ih =>
    rw [← List.append_assoc] at hlive ⊢
    have hpre : a ∉ killed (xs ++ ys) := fun ⟨t, ht, hk⟩ =>
      hlive ⟨t, List.mem_append_left _ ht, hk⟩
    have hs : a ∉ s.kills := fun hk => hlive ⟨s, by simp, hk⟩
    rw [readAll_concat]
    exact Book.claim_owner_of_owned (Book.strike_owner.mpr ⟨ih hpre, hs⟩)

/-- Every item is owned by the same question in all orders: who survives and carries it. Asked of
each struck source that does not strike itself, for each item a survivor shares with it: some
surviving carrier of the item strikes it. -/
def Rescued (sources : List (Source α ι)) : Prop :=
  ∀ x ∈ sources, x.name ∈ killed sources → x.name ∉ x.kills → ∀ i ∈ x.items,
    (∃ e, Survives sources e ∧ i ∈ e.items) →
      ∃ f, Survives sources f ∧ i ∈ f.items ∧ x.name ∈ f.kills

/-- An order of reading the sources, with any number of repetitions. -/
def Order (sources xs : List (Source α ι)) : Prop := ∀ s, s ∈ xs ↔ s ∈ sources

theorem Order.killed_eq (h : Order sources xs) : killed xs = killed sources := by
  ext a
  simp only [mem_killed, h _]

/-- Names tell sources apart. -/
def Named (sources : List (Source α ι)) : Prop :=
  ∀ s ∈ sources, ∀ t ∈ sources, s.name = t.name → s = t

/-- An owner in the end survives and carries the item. -/
theorem owner_survives (horder : Order sources xs) {a : α} (h : (readAll xs).owner i = some a) :
    ∃ s, Survives sources s ∧ s.name = a ∧ i ∈ s.items := by
  obtain ⟨hlive, s, hs, rfl, hi⟩ := readAll_owner h
  exact ⟨s, ⟨(horder s).mp hs, horder.killed_eq ▸ hlive⟩, rfl, hi⟩

/-- Until every surviving carrier has been read, one is missing; from then on one owns the item. -/
theorem owned_or_unread (hnamed : Named sources) (hsub : ∀ s ∈ xs, s ∈ sources)
    (hrescued : Rescued sources) (hcarried : ∃ e, Survives sources e ∧ i ∈ e.items) :
    (∃ e, Survives sources e ∧ (readAll xs).owner i = some e.name) ∨
      ∃ e, Survives sources e ∧ i ∈ e.items ∧ e ∉ xs := by
  induction xs using List.reverseRecOn with
  | nil =>
    obtain ⟨e, he, hi⟩ := hcarried
    exact .inr ⟨e, he, hi, by simp⟩
  | append_singleton xs s ih =>
    have hsources : killed (xs ++ [s]) ⊆ killed sources := fun a ⟨t, ht, hk⟩ => ⟨t, hsub t ht, hk⟩
    rcases ih fun t ht => hsub t (by simp [ht]) with ⟨e, he, howns⟩ | ⟨e, he, hi, hunread⟩
    · exact .inl ⟨e, he, readAll_keeps xs [s] howns fun hk => he.2 (hsources hk)⟩
    · by_cases hmissing : ∃ f, Survives sources f ∧ i ∈ f.items ∧ f ∉ xs ++ [s]
      · exact .inr hmissing
      · -- `s` is the last surviving carrier to be read
        have hread : ∀ f, Survives sources f → i ∈ f.items → f ∈ xs ++ [s] := fun f hf hif => by
          by_contra hno
          exact hmissing ⟨f, hf, hif, hno⟩
        obtain rfl : e = s := by
          have := hread e he hi
          simpa [hunread] using this
        refine .inl ?_
        rw [readAll_concat, Book.read]
        cases hheld : ((readAll xs).strike e.kills).owner i with
        | none =>
          refine ⟨e, he, Book.claim_takes ?_ ?_ hi hheld⟩
          · rw [Book.strike_dead, readAll_dead]
            exact not_or.mpr ⟨fun ⟨t, ht, hk⟩ => he.2 ⟨t, hsub t (by simp [ht]), hk⟩,
              fun hk => he.2 ⟨e, he.1, hk⟩⟩
          · rintro ⟨j, hj⟩
            obtain ⟨-, t, ht, hname, -⟩ := readAll_owner (Book.strike_owner.mp hj).1
            have hsame := hnamed t (hsub t (by simp [ht])) e he.1 hname
            exact hunread (hsame ▸ ht)
        | some =>
          obtain ⟨hown, hkill⟩ := Book.strike_owner.mp hheld
          obtain ⟨hlive, x, hx, rfl, hix⟩ := readAll_owner hown
          have hxs : x ∈ sources := hsub x (by simp [hx])
          by_cases hdoomed : x.name ∈ killed sources
          · exfalso
            have hself : x.name ∉ x.kills := fun hk => hlive ⟨x, hx, hk⟩
            obtain ⟨f, hf, hif, hfx⟩ := hrescued x hxs hdoomed hself i hix hcarried
            rcases List.mem_append.mp (hread f hf hif) with hf' | hf'
            · exact hlive ⟨f, hf', hfx⟩
            · exact hkill (List.mem_singleton.mp hf' ▸ hfx)
          · exact ⟨x, ⟨hxs, hdoomed⟩, Book.claim_owner_of_owned hheld⟩

/-- Under the rescue condition the items owned in the end are those a survivor carries. -/
theorem owned_iff_carried (hnamed : Named sources) (hrescued : Rescued sources)
    (horder : Order sources xs) (i : ι) :
    (readAll xs).owner i ≠ none ↔ ∃ e, Survives sources e ∧ i ∈ e.items := by
  constructor
  · intro h
    obtain ⟨a, ha⟩ := Option.ne_none_iff_exists'.mp h
    obtain ⟨s, hs, -, hi⟩ := owner_survives horder ha
    exact ⟨s, hs, hi⟩
  · intro hcarried
    rcases owned_or_unread hnamed (fun s hs => (horder s).mp hs) hrescued hcarried with
      ⟨e, -, he⟩ | ⟨e, he, -, hunread⟩
    · simp [he]
    · exact absurd ((horder e).mpr he.1) hunread

/-- The first source read takes everything it carries, if it does not strike itself. -/
theorem readAll_first {x : Source α ι} (hself : x.name ∉ x.kills) (hi : i ∈ x.items) :
    (readAll [x]).owner i = some x.name := by
  refine Book.claim_takes ?_ ?_ hi ?_
  · rw [Book.strike_dead]
    exact not_or.mpr ⟨fun h => h.elim, hself⟩
  · rintro ⟨j, hj⟩
    cases (Book.strike_owner.mp hj).1
  · simp [Book.strike, Book.empty]

/-- A doomed source read first hides the item from carriers that do not strike it. With none of
them read again, no survivor owns the item afterwards. -/
theorem survivors_miss (hnamed : Named sources) {x : Source α ι} (hdoomed : x.name ∈ killed sources)
    {cs ys : List (Source α ι)} (hheld : (readAll (x :: cs)).owner i = some x.name)
    (hys : ∀ s ∈ ys, s ∈ sources ∧ ¬ (Survives sources s ∧ i ∈ s.items)) {e : Source α ι}
    (he : Survives sources e) : (readAll (x :: cs ++ ys)).owner i ≠ some e.name := by
  induction ys using List.reverseRecOn with
  | nil =>
    rw [List.append_nil, hheld]
    intro h
    exact he.2 (Option.some.inj h ▸ hdoomed)
  | append_singleton _ s ih =>
    rw [← List.append_assoc, readAll_concat]
    intro h
    rcases Book.claim_owner h with hold | ⟨hname, hi, -, -⟩
    · exact ih (fun t ht => hys t (by simp [ht])) (Book.strike_owner.mp hold).1
    · obtain ⟨hs, hcarrier⟩ := hys s (by simp)
      have hsame := hnamed e he.1 s hs hname
      exact hcarrier ⟨hsame ▸ he, hi⟩

/-- All orders leave the same items owned exactly under the rescue condition. -/
theorem same_owned_iff (hnamed : Named sources) :
    (∀ xs ys, Order sources xs → Order sources ys →
        ∀ i, (readAll xs).owner i ≠ none ↔ (readAll ys).owner i ≠ none) ↔ Rescued sources := by
  classical
  constructor
  · intro hsame x hx hdoomed hself i hix hcarried
    by_contra hno
    obtain ⟨e, he, hie⟩ := hcarried
    let carriers := sources.filter fun s => Survives sources s ∧ i ∈ s.items
    let others := sources.filter fun s => ¬ (Survives sources s ∧ i ∈ s.items)
    have hlate : Order sources (x :: carriers ++ others) := fun s => by
      simp only [carriers, others, List.cons_append, List.mem_cons, List.mem_append,
        List.mem_filter, decide_eq_true_eq]
      constructor
      · rintro (rfl | ⟨hs, -⟩ | ⟨hs, -⟩) <;> assumption
      · intro hs
        by_cases hc : Survives sources s ∧ i ∈ s.items
        · exact .inr (.inl ⟨hs, hc⟩)
        · exact .inr (.inr ⟨hs, hc⟩)
    have hearly : Order sources (e :: sources) := fun s => by
      simp only [List.mem_cons, or_iff_right_iff_imp]
      rintro rfl
      exact he.1
    have hheld : (readAll (x :: carriers)).owner i = some x.name := by
      refine readAll_keeps [x] carriers (readAll_first hself hix) ?_
      rintro ⟨t, ht, hk⟩
      rcases List.mem_append.mp ht with ht | ht
      · exact hself (List.mem_singleton.mp ht ▸ hk)
      · have hcarrier : Survives sources t ∧ i ∈ t.items := by
          simpa using (List.mem_filter.mp ht).2
        exact hno ⟨t, hcarrier.1, hcarrier.2, hk⟩
    have hkept : (readAll (e :: sources)).owner i = some e.name :=
      readAll_keeps [e] sources (readAll_first (fun hk => he.2 ⟨e, he.1, hk⟩) hie) fun ⟨t, ht, hk⟩ =>
        he.2 ⟨t, (hearly t).mp ht, hk⟩
    have hpresent := (hsame _ _ hearly hlate i).mp (by simp [hkept])
    obtain ⟨a, ha⟩ := Option.ne_none_iff_exists'.mp hpresent
    obtain ⟨f, hf, rfl, -⟩ := owner_survives hlate ha
    exact survivors_miss hnamed hdoomed hheld
      (fun s hs => by simpa [others, imp_iff_not_or] using hs) hf ha
  · intro hrescued xs ys hxs hys i
    rw [owned_iff_carried hnamed hrescued hxs, owned_iff_carried hnamed hrescued hys]

end Supersession
