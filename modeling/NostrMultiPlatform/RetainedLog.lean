import Mathlib.Data.List.Basic

/-!
# Retained logs

A log that numbers its entries from one and keeps a window of everything that
was ever appended: an append adds at the head, a trim moves the floor. A reader
pages through the window from a cursor; what it has collected is a segment of
the history.
-/
namespace RetainedLog

variable {ε : Type}

/-- The entries with numbers above `lo` and at most `hi`. -/
def segment (history : List ε) (lo hi : Nat) : List ε := (history.take hi).drop lo

/-- The entry at each place carries the number of that place. -/
def Numbered (seq : ε → Nat) (history : List ε) : Prop :=
  ∀ i (h : i < history.length), seq history[i] = i + 1

theorem numbered_nil (seq : ε → Nat) : Numbered seq [] := fun _ h => nomatch h

theorem Numbered.append {seq : ε → Nat} {history : List ε} (h : Numbered seq history) {e : ε}
    (he : seq e = history.length + 1) : Numbered seq (history ++ [e]) := by
  intro i hi
  by_cases hlast : i < history.length
  · rw [List.getElem_append_left hlast]
    exact h i hlast
  · have heq : i = history.length := by
      rw [List.length_append, List.length_singleton] at hi
      omega
    subst heq
    simpa using he

theorem Numbered.of_extends {seq : ε → Nat} {history history' : List ε}
    (h : Numbered seq history') (hpre : history <+: history') : Numbered seq history := by
  obtain ⟨rest, rfl⟩ := hpre
  intro i hi
  have hall := h i (by rw [List.length_append]; omega)
  rwa [List.getElem_append_left hi] at hall

theorem length_segment {history : List ε} {lo hi : Nat} (h : hi ≤ history.length) :
    (segment history lo hi).length = hi - lo := by
  rw [segment, List.length_drop, List.length_take]
  omega

theorem segment_self (history : List ε) (n : Nat) : segment history n n = [] := by
  rw [segment, List.drop_eq_nil_of_le]
  rw [List.length_take]
  omega

theorem segment_of_extends {history history' : List ε} (h : history <+: history') {lo hi : Nat}
    (hhi : hi ≤ history.length) : segment history' lo hi = segment history lo hi := by
  obtain ⟨rest, rfl⟩ := h
  rw [segment, segment, List.take_append_of_le_length hhi]

/-- Two segments that meet make one. -/
theorem segment_append {history : List ε} {lo mid hi : Nat} (hlo : lo ≤ mid) (hhi : mid ≤ hi) :
    segment history lo mid ++ segment history mid hi = segment history lo hi := by
  have hmid : history.take mid = (history.take hi).take mid := by
    rw [List.take_take, Nat.min_eq_left hhi]
  have hrest : (history.take hi).drop mid = ((history.take hi).drop lo).drop (mid - lo) := by
    rw [List.drop_drop, Nat.add_sub_cancel' hlo]
  rw [segment, segment, segment, hmid, List.drop_take, hrest, List.take_append_drop]

section

variable {history : List ε} {seq : ε → Nat} (h : Numbered seq history)
include h

theorem map_seq_segment {lo hi : Nat} (hhi : hi ≤ history.length) :
    (segment history lo hi).map seq = List.range' (lo + 1) (hi - lo) := by
  refine List.ext_getElem (by simp [length_segment hhi]) fun i hi₁ hi₂ => ?_
  rw [List.length_map, length_segment hhi] at hi₁
  simp only [List.getElem_map, segment, List.getElem_drop, List.getElem_take, List.getElem_range']
  rw [h (lo + i) (by omega)]
  omega

/-- The numbers tell which entries are in a segment. -/
theorem mem_segment {lo hi : Nat} {e : ε} :
    e ∈ segment history lo hi ↔ e ∈ history ∧ lo < seq e ∧ seq e ≤ hi := by
  rw [segment, List.mem_drop_iff_getElem, List.mem_iff_getElem]
  constructor
  · rintro ⟨i, hi, rfl⟩
    rw [List.length_take] at hi
    rw [List.getElem_take, h (lo + i) (by omega)]
    exact ⟨⟨lo + i, by omega, rfl⟩, by omega, by omega⟩
  · rintro ⟨⟨i, hi, rfl⟩, hlo, hhi⟩
    rw [h i hi] at hlo hhi
    refine ⟨i - lo, by rw [List.length_take]; omega, ?_⟩
    rw [List.getElem_take]
    congr 1
    omega

/-- The last number of a segment, or where it begins if it is empty. -/
theorem last_segment {lo hi : Nat} (hlo : lo ≤ hi) (hhi : hi ≤ history.length) :
    ((segment history lo hi).getLast?.map seq).getD lo = hi := by
  rw [← List.getLast?_map, map_seq_segment h hhi, List.getLast?_range']
  split
  · rw [Option.getD_none]
    omega
  · rw [Option.getD_some]
    omega

end

/-- The log keeps the entries above its floor of a history that ends at its head. -/
structure Window (seq : ε → Nat) (history : List ε) (floor head : Nat) (kept : List ε) : Prop where
  numbered : Numbered seq history
  floor_le : floor ≤ head
  head_le : head ≤ history.length
  kept_eq : kept = segment history floor head

variable {seq : ε → Nat} {history history' kept kept' : List ε} {floor floor' head head' : Nat}

theorem window_nil (seq : ε → Nat) : Window seq [] 0 0 [] :=
  ⟨numbered_nil seq, Nat.le_refl 0, Nat.le_refl 0, rfl⟩

section

variable (h : Window seq history floor head kept)
include h

theorem Window.extend (hnum : Numbered seq history') (hpre : history <+: history') :
    Window seq history' floor head kept where
  numbered := hnum
  floor_le := h.floor_le
  head_le := Nat.le_trans h.head_le hpre.length_le
  kept_eq := by rw [segment_of_extends hpre h.head_le, h.kept_eq]

/-- The numbers of the kept entries are the contiguous range above the floor. -/
theorem Window.seqs : kept.map seq = List.range' (floor + 1) (head - floor) := by
  rw [h.kept_eq, map_seq_segment h.numbered h.head_le]

theorem Window.mem_iff {n : Nat} : (∃ e ∈ kept, seq e = n) ↔ floor < n ∧ n ≤ head := by
  rw [← List.mem_map, h.seqs, List.mem_range'_1]
  have := h.floor_le
  omega

theorem Window.length : kept.length = head - floor := by
  rw [h.kept_eq, length_segment h.head_le]

theorem Window.bounds {e : ε} (he : e ∈ kept) :
    floor < seq e ∧ seq e ≤ head := h.mem_iff.mp ⟨e, he, rfl⟩

/-- An entry is where its number says. -/
theorem Window.getElem? {e : ε} (he : e ∈ kept) : history[seq e - 1]? = some e := by
  rw [h.kept_eq, segment] at he
  obtain ⟨i, hi, rfl⟩ := List.mem_iff_getElem.mp (List.mem_of_mem_take (List.mem_of_mem_drop he))
  rw [h.numbered i hi, Nat.add_sub_cancel, List.getElem?_eq_getElem hi]

/-- One number, one entry, in whatever windows it is seen. -/
theorem Window.unique (h' : Window seq history floor' head' kept') {e e' : ε} (he : e ∈ kept)
    (he' : e' ∈ kept') (hseq : seq e = seq e') : e = e' := by
  have hplace := h.getElem? he
  rw [hseq, h'.getElem? he'] at hplace
  exact (Option.some.inj hplace).symm

theorem Window.append (hhead : head = history.length) {e : ε} (he : seq e = head + 1) :
    Window seq (history ++ [e]) floor (head + 1) (kept ++ [e]) where
  numbered := h.numbered.append (by rw [he, hhead])
  floor_le := Nat.le_succ_of_le h.floor_le
  head_le := by simp [hhead]
  kept_eq := by
    have hall : (history ++ [e]).take (head + 1) = history ++ [e] :=
      List.take_of_length_le (by simp [hhead])
    rw [h.kept_eq, segment, segment, hall, hhead, List.take_length,
      List.drop_append_of_le_length (hhead ▸ h.floor_le)]

/-- What is left of a window when the entries up to a new floor are taken out. -/
theorem Window.trim {newFloor : Nat} (hlo : floor ≤ newFloor) (hhi : newFloor ≤ head) :
    Window seq history newFloor head
      (kept.filter fun e => ¬ (floor < seq e ∧ seq e ≤ newFloor)) where
  numbered := h.numbered
  floor_le := hhi
  head_le := h.head_le
  kept_eq := by
    have hsplit : segment history floor newFloor ++ segment history newFloor head =
        segment history floor head := segment_append hlo hhi
    rw [h.kept_eq, ← hsplit, List.filter_append]
    have hgone : (segment history floor newFloor).filter
        (fun e => ¬ (floor < seq e ∧ seq e ≤ newFloor)) = [] := by
      rw [List.filter_eq_nil_iff]
      intro e he
      have hlow : Window seq history floor newFloor (segment history floor newFloor) :=
        ⟨h.numbered, hlo, Nat.le_trans hhi h.head_le, rfl⟩
      simpa using hlow.bounds he
    have hkept : (segment history newFloor head).filter
        (fun e => ¬ (floor < seq e ∧ seq e ≤ newFloor)) = segment history newFloor head := by
      rw [List.filter_eq_self]
      intro e he
      have hhigh : Window seq history newFloor head (segment history newFloor head) :=
        ⟨h.numbered, hhi, h.head_le, rfl⟩
      have := (hhigh.bounds he).1
      simp only [decide_not, Bool.not_eq_eq_eq_not, Bool.not_true, decide_eq_false_iff_not]
      omega
    rw [hgone, hkept, List.nil_append]

end

/-- The next entries after a cursor, at most `limit` of them. -/
def page (seq : ε → Nat) (kept : List ε) (after limit : Nat) : List ε :=
  (kept.filter fun e => after < seq e).take limit

/-- The entries above a cursor at or above the floor are the segment that begins there. -/
theorem Window.above (h : Window seq history floor head kept) {after : Nat} (hafter : floor ≤ after) :
    kept.filter (fun e => after < seq e) = segment history after head := by
  by_cases hle : after ≤ head
  · have htrim := (h.trim hafter hle).kept_eq
    rw [← htrim]
    refine List.filter_congr fun e he => ?_
    have := (h.bounds he).1
    simp only [decide_eq_decide]
    omega
  · rw [segment, List.drop_eq_nil_of_le (by rw [List.length_take]; omega), List.filter_eq_nil_iff]
    intro e he
    have := (h.bounds he).2
    simp only [decide_eq_true_eq]
    omega

/-- A page read at or above the floor is the segment that begins at the cursor. -/
theorem Window.page (h : Window seq history floor head kept) {after : Nat} (hafter : floor ≤ after)
    (limit : Nat) :
    page seq kept after limit = segment history after (min head (after + limit)) := by
  rw [RetainedLog.page, h.above hafter, segment, segment, List.take_drop, List.take_take,
    Nat.min_comm]

/-- The numbers of the kept entries increase. -/
theorem Window.increasing (h : Window seq history floor head kept) :
    kept.Pairwise fun a b => seq a < seq b := by
  have hrange : (kept.map seq).Pairwise (· < ·) := h.seqs ▸ List.pairwise_lt_range'
  exact List.pairwise_map.mp hrange

end RetainedLog
