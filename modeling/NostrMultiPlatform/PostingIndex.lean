import Mathlib.Data.Prod.Lex
import NostrMultiPlatform.Sorted
import NostrMultiPlatform.Tables

/-!
# Inverted indexes

Postings under each term, ranked, with the two sidecars that make a document
removable: the terms it was filed under and what is known of it. An index
represents a finite map from documents to records, and the two edits act on that
map alone.
-/
namespace PostingIndex

open Sorted Tables

variable {δ τ μ : Type} [LinearOrder δ] [LinearOrder τ]

/-- The ranked documents under each term. -/
abbrev Postings (δ τ : Type) [LinearOrder δ] [LinearOrder τ] :=
  SortedMap τ (SortedSet (Nat ×ₗ δ))

structure Index (δ τ μ : Type) [LinearOrder δ] [LinearOrder τ] where
  postings : Postings δ τ
  docTerms : Table δ (List τ)
  docMeta : Table δ μ

def Index.empty : Index δ τ μ := ⟨∅, ∅, ∅⟩

/-- Take a document out of one posting set; a set left empty goes. -/
def dropPosting (doc : δ) (postings : Postings δ τ) (term : τ) :
    Postings δ τ :=
  match postings.lookup term with
  | none => postings
  | some set =>
    if set.retain (fun e => (ofLex e).2 ≠ doc) = ∅ then postings.erase term
    else postings.insert term (set.retain fun e => (ofLex e).2 ≠ doc)

def Index.removeDoc (index : Index δ τ μ) (doc : δ) : Index δ τ μ where
  postings := match index.docTerms.lookup doc with
    | none => index.postings
    | some terms => terms.foldl (dropPosting doc) index.postings
  docTerms := index.docTerms.erase doc
  docMeta := index.docMeta.erase doc

def addPosting (doc : δ) (rank : Nat) (postings : Postings δ τ)
    (term : τ) : Postings δ τ :=
  postings.alter term fun old => insert (toLex (rank, doc)) (old.getD ∅)

/-- File a document, anew if it was there. -/
def Index.addDoc (index : Index δ τ μ) (doc : δ) (rank : Nat) (info : μ) (terms : List τ) :
    Index δ τ μ where
  postings := terms.foldl (addPosting doc rank) (index.removeDoc doc).postings
  docTerms := (index.removeDoc doc).docTerms.insert doc terms
  docMeta := (index.removeDoc doc).docMeta.insert doc info

def Posted (postings : Postings δ τ) (term : τ) (rank : Nat) (doc : δ) :
    Prop :=
  ∃ set, postings.lookup term = some set ∧ toLex (rank, doc) ∈ set

theorem posted_dropPosting (doc other : δ) (postings : Postings δ τ)
    (term t : τ) (rank : Nat) :
    Posted (dropPosting doc postings term) t rank other ↔
      Posted postings t rank other ∧ ¬ (t = term ∧ other = doc) := by
  unfold Posted dropPosting
  cases hset : postings.lookup term with
  | none =>
    by_cases ht : t = term
    · subst ht
      simp [hset]
    · simp [ht]
  | some set =>
    by_cases ht : t = term
    · subst ht
      dsimp only
      split
      next hempty =>
        have hgone : toLex (rank, other) ∈ set → other = doc := fun hmem => by
          by_contra hne
          exact SortedSet.eq_empty_iff.mp hempty (toLex (rank, other))
            (SortedSet.mem_retain.mpr ⟨hmem, decide_eq_true hne⟩)
        simpa [hset] using hgone
      next =>
        have hkept : toLex (rank, other) ∈ set.retain (fun e => decide ((ofLex e).2 ≠ doc)) ↔
            toLex (rank, other) ∈ set ∧ other ≠ doc := by
          rw [SortedSet.mem_retain, decide_eq_true_iff]
          rfl
        simp only [SortedMap.lookup_insert, if_true, Option.some.injEq, exists_eq_left', hset, hkept,
          true_and, ne_eq]
    · dsimp only
      split
      next => simp [ht]
      next => simp [ht]

theorem posted_foldl_dropPosting (doc other : δ) (terms : List τ)
    (postings : Postings δ τ) (t : τ) (rank : Nat) :
    Posted (terms.foldl (dropPosting doc) postings) t rank other ↔
      Posted postings t rank other ∧ ¬ (t ∈ terms ∧ other = doc) := by
  induction terms generalizing postings with
  | nil => simp
  | cons _ _ ih =>
    rw [List.foldl_cons, ih, posted_dropPosting, List.mem_cons, and_assoc]
    apply and_congr_right
    grind

theorem posted_addPosting (doc other : δ) (rank r : Nat)
    (postings : Postings δ τ) (term t : τ) :
    Posted (addPosting doc rank postings term) t r other ↔
      Posted postings t r other ∨ (t = term ∧ other = doc ∧ r = rank) := by
  unfold Posted addPosting
  rw [SortedMap.lookup_alter]
  by_cases ht : t = term
  · subst ht
    cases hset : postings.lookup t with
    | none => simp [and_comm]
    | some => simp [and_comm, or_comm]
  · simp [ht]

theorem posted_foldl_addPosting (doc other : δ) (rank r : Nat) (terms : List τ)
    (postings : Postings δ τ) (t : τ) :
    Posted (terms.foldl (addPosting doc rank) postings) t r other ↔
      Posted postings t r other ∨ (t ∈ terms ∧ other = doc ∧ r = rank) := by
  induction terms generalizing postings with
  | nil => simp
  | cons _ _ ih =>
    rw [List.foldl_cons, ih, posted_addPosting, List.mem_cons]
    grind

/-- What an index knows of a document. -/
structure Record (τ μ : Type) where
  rank : Nat
  info : μ
  terms : List τ

structure Represents (index : Index δ τ μ) (content : δ → Option (Record τ μ)) : Prop where
  terms : ∀ doc, index.docTerms.lookup doc = (content doc).map Record.terms
  info : ∀ doc, index.docMeta.lookup doc = (content doc).map Record.info
  posted : ∀ term rank doc, Posted index.postings term rank doc ↔
    ∃ record, content doc = some record ∧ term ∈ record.terms ∧ rank = record.rank

theorem represents_empty : Represents (Index.empty : Index δ τ μ) fun _ => none where
  terms _ := rfl
  info _ := rfl
  posted term rank doc := by simp [Posted, Index.empty]

variable {index : Index δ τ μ}

theorem Represents.congr {content content' : δ → Option (Record τ μ)} (h : Represents index content)
    (heq : ∀ doc, content' doc = content doc) : Represents index content' := by
  rwa [funext heq]

theorem Represents.removeDoc {content : δ → Option (Record τ μ)} (h : Represents index content)
    (doc : δ) :
    Represents (index.removeDoc doc) fun d => if d = doc then none else content d where
  terms d := by
    rw [Index.removeDoc, lookup_erase_eq, h.terms]
    split <;> rfl
  info d := by
    rw [Index.removeDoc, lookup_erase_eq, h.info]
    split <;> rfl
  posted term rank d := by
    have hposted : Posted (index.removeDoc doc).postings term rank d ↔
        Posted index.postings term rank d ∧ d ≠ doc := by
      rw [Index.removeDoc, h.terms doc]
      cases hrecord : content doc with
      | none =>
        refine ⟨fun hp => ⟨hp, ?_⟩, fun hp => hp.1⟩
        rintro rfl
        obtain ⟨record, hsome, -⟩ := (h.posted term rank d).mp hp
        rw [hrecord] at hsome
        cases hsome
      | some =>
        rw [Option.map_some, posted_foldl_dropPosting]
        refine and_congr_right fun hp => ⟨fun hnot hd => ?_, fun hne hboth => hne hboth.2⟩
        subst hd
        obtain ⟨record', hsome, hmem, -⟩ := (h.posted term rank d).mp hp
        rw [hrecord] at hsome
        obtain rfl := Option.some.inj hsome
        exact hnot ⟨hmem, rfl⟩
    rw [hposted, h.posted]
    by_cases hd : d = doc
    · simp [hd]
    · simp [hd]

theorem Represents.addDoc {content : δ → Option (Record τ μ)} (h : Represents index content)
    (doc : δ) (rank : Nat) (info : μ) (terms : List τ) :
    Represents (index.addDoc doc rank info terms) fun d =>
      if d = doc then some ⟨rank, info, terms⟩ else content d where
  terms d := by
    rw [Index.addDoc, lookup_insert_eq, (h.removeDoc doc).terms]
    by_cases hd : d = doc
    · simp [hd]
    · simp [hd]
  info d := by
    rw [Index.addDoc, lookup_insert_eq, (h.removeDoc doc).info]
    by_cases hd : d = doc
    · simp [hd]
    · simp [hd]
  posted term r d := by
    rw [Index.addDoc, posted_foldl_addPosting, (h.removeDoc doc).posted]
    by_cases hd : d = doc
    · simp [hd]
    · simp [hd]

end PostingIndex
