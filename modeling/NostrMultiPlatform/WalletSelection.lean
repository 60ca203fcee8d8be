import Mathlib.Data.Nat.Find
import NostrMultiPlatform.WalletSend

/-!
# What selection reserves

Selection takes the proofs of a mint in the order of the inventory and stops when
its running total covers the amount. The total is a 64-bit word. The fee is known
only afterwards, and depends on how many proofs were taken.
-/
namespace WalletSelection

open WalletProof WalletState WalletSend

variable {held proofs : List StoredProof} {mint : String} {amount total : Nat}

/-- The proofs that selection walks through. -/
def atMint (held : List StoredProof) (mint : String) : List StoredProof :=
  held.filter fun s => canonicalizeMintUrl s.mint = canonicalizeMintUrl mint

/-- The sum of the amounts, as an integer. -/
def sumOf (proofs : List StoredProof) : Nat := (proofs.map fun s => s.proof.amount).sum

/-- What the running total holds after `n` proofs. -/
def totalTo (proofs : List StoredProof) (n : Nat) : Nat := sumOf (proofs.take n) % u64Modulus

@[simp] theorem sumOf_nil : sumOf [] = 0 := rfl

@[simp] theorem sumOf_cons (s : StoredProof) (proofs : List StoredProof) :
    sumOf (s :: proofs) = s.proof.amount + sumOf proofs := by simp [sumOf]

theorem sumOf_append (xs ys : List StoredProof) : sumOf (xs ++ ys) = sumOf xs + sumOf ys := by
  simp [sumOf]

theorem totalTo_lt (proofs : List StoredProof) (n : Nat) : totalTo proofs n < u64Modulus :=
  Nat.mod_lt _ (by decide)

/-- Selection stops after `n` proofs. -/
structure StopsAt (amount : Nat) (proofs : List StoredProof) (n : Nat) : Prop where
  le : n ≤ proofs.length
  short : ∀ k < n, totalTo proofs k < amount
  reaches : amount ≤ totalTo proofs n

theorem StopsAt.unique {n m : Nat} (hn : StopsAt amount proofs n) (hm : StopsAt amount proofs m) :
    n = m := by
  rcases Nat.lt_trichotomy n m with hlt | heq | hgt
  · exact absurd (hm.short n hlt) (not_lt.mpr hn.reaches)
  · exact heq
  · exact absurd (hn.short m hgt) (not_lt.mpr hm.reaches)

/-- The loop takes proofs while the total is short of the amount. -/
theorem selectFrom_spec (amount total : Nat) (htotal : total < u64Modulus)
    (proofs : List StoredProof) :
    ∃ n, n ≤ proofs.length ∧
      selectFrom amount total proofs =
        (proofs.take n, (total + sumOf (proofs.take n)) % u64Modulus) ∧
      (∀ k < n, (total + sumOf (proofs.take k)) % u64Modulus < amount) ∧
      (n < proofs.length → amount ≤ (total + sumOf (proofs.take n)) % u64Modulus) := by
  induction proofs generalizing total with
  | nil => exact ⟨0, le_refl _, by simp [selectFrom, Nat.mod_eq_of_lt htotal], by simp, by simp⟩
  | cons s rest ih =>
    by_cases hreached : amount ≤ total
    · refine ⟨0, by simp, ?_, by simp, ?_⟩
      · simp [selectFrom, hreached, Nat.mod_eq_of_lt htotal]
      · simpa [Nat.mod_eq_of_lt htotal] using hreached
    · obtain ⟨n, hle, heq, hshort, hstop⟩ :=
        ih (addU64 total s.proof.amount) (Nat.mod_lt _ (by decide))
      have hsum : ∀ k, (addU64 total s.proof.amount + sumOf (rest.take k)) % u64Modulus =
          (total + sumOf ((s :: rest).take (k + 1))) % u64Modulus := by
        intro k
        rw [addU64, Nat.mod_add_mod, List.take_succ_cons, sumOf_cons, Nat.add_assoc]
      refine ⟨n + 1, by simpa using hle, ?_, ?_, ?_⟩
      · rw [selectFrom, if_neg hreached, heq, ← hsum n]
        rfl
      · intro k hk
        cases k with
        | zero => simpa [Nat.mod_eq_of_lt htotal] using hreached
        | succ k =>
          rw [← hsum k]
          exact hshort k (by omega)
      · intro hlt
        rw [← hsum n]
        exact hstop (by simpa using hlt)

/-- A selection is what is taken until the running total reaches the amount. -/
theorem selectProofs_eq_some {selected : List StoredProof} :
    selectProofs held mint amount = some (selected, total) ↔
      ∃ n, StopsAt amount (atMint held mint) n ∧ selected = (atMint held mint).take n ∧
        total = totalTo (atMint held mint) n := by
  obtain ⟨n, hle, heq, hshort, hstop⟩ := selectFrom_spec amount 0 (by decide) (atMint held mint)
  simp only [Nat.zero_add] at heq hshort hstop
  have hselect : selectProofs held mint amount =
      if totalTo (atMint held mint) n < amount then none
      else some ((atMint held mint).take n, totalTo (atMint held mint) n) := by
    unfold selectProofs
    change (if (selectFrom amount 0 (atMint held mint)).2 < amount then none
      else some (selectFrom amount 0 (atMint held mint))) = _
    rw [heq]
    rfl
  rw [hselect]
  constructor
  · intro h
    split at h
    · cases h
    next hreaches =>
      injection h with h
      injection h with hselected htotal
      exact ⟨n, ⟨hle, hshort, not_lt.mp hreaches⟩, hselected.symm, htotal.symm⟩
  · rintro ⟨m, hm, rfl, rfl⟩
    have hreaches : amount ≤ totalTo (atMint held mint) n := by
      by_cases hlast : n < (atMint held mint).length
      · exact hstop hlast
      · rcases Nat.lt_or_ge m n with hlt | hge
        · exact absurd (hshort m hlt) (not_lt.mpr hm.reaches)
        · have hmn : m = n := by
            have hmle := hm.le
            omega
          exact hmn ▸ hm.reaches
    obtain rfl := hm.unique ⟨hle, hshort, hreaches⟩
    rw [if_neg (not_lt.mpr hreaches)]

/-- The first place where the running total reaches the amount. -/
theorem exists_stopsAt {n : Nat} (hn : n ≤ proofs.length) (hreaches : amount ≤ totalTo proofs n) :
    ∃ m, StopsAt amount proofs m := by
  have hsome : ∃ m, m ≤ proofs.length ∧ amount ≤ totalTo proofs m := ⟨n, hn, hreaches⟩
  obtain ⟨hle, hfirst⟩ := Nat.find_spec hsome
  refine ⟨Nat.find hsome, hle, fun k hk => ?_, hfirst⟩
  have hbefore := Nat.find_min hsome hk
  exact not_le.mp fun hreached => hbefore ⟨by omega, hreached⟩

/-- There is no selection when the running total never reaches the amount. -/
theorem selectProofs_eq_none :
    selectProofs held mint amount = none ↔
      ∀ n ≤ (atMint held mint).length, totalTo (atMint held mint) n < amount := by
  constructor
  · intro hnone n hn
    by_contra hreaches
    obtain ⟨m, hstops⟩ := exists_stopsAt hn (not_lt.mp hreaches)
    have hsome := selectProofs_eq_some.mpr ⟨m, hstops, rfl, rfl⟩
    rw [hnone] at hsome
    cases hsome
  · intro hshort
    cases hselect : selectProofs held mint amount with
    | none => rfl
    | some =>
      obtain ⟨n, hstops, -, -⟩ := selectProofs_eq_some.mp hselect
      exact absurd (hshort n hstops.le) (not_lt.mpr hstops.reaches)

/-- The wallet accepts the mint. -/
def isMutual (ourMints : List String) (mint : String) : Bool :=
  ourMints.any fun own => canonicalizeMintUrl own = canonicalizeMintUrl mint

/-- The first mint of the recipient that the wallet accepts and that covers the bare amount. -/
def chooseMint (held : List StoredProof) (ourMints recipientMints : List String) (amount : Nat) :
    Option String :=
  recipientMints.find? fun mint => isMutual ourMints mint && (selectProofs held mint amount).isSome

/-- The probes walk the list of the recipient up to the mint that is chosen. -/
theorem probes_reach_choice (st : CashuWalletState) (op : String) (amount : Nat)
    (ourMints recipientMints remaining : List String) :
    ∃ steps ≤ remaining.length,
      (∀ k < steps, WalletSend.sendProbe st op amount ourMints (remaining.drop k) recipientMints =
        .stay st [.sendProbe op amount ourMints (remaining.drop (k + 1)) recipientMints]) ∧
      WalletSend.sendProbe st op amount ourMints (remaining.drop steps) recipientMints =
        .stay st [match chooseMint st.proofs ourMints remaining amount with
          | some mint => .sendChosen op amount mint
          | none => .sendFallback op amount recipientMints] := by
  induction remaining with
  | nil => exact ⟨0, le_refl _, by simp, rfl⟩
  | cons mint rest ih =>
    by_cases h : (isMutual ourMints mint && (st.selectProofs mint amount).isSome) = true
    · refine ⟨0, by simp, by simp, ?_⟩
      have hchosen : chooseMint st.proofs ourMints (mint :: rest) amount = some mint :=
        List.find?_cons_of_pos h
      rw [Bool.and_eq_true, isMutual] at h
      rw [List.drop_zero, WalletSend.sendProbe, if_pos h, hchosen]
    · obtain ⟨steps, hle, hsteps, hlast⟩ := ih
      have hskipped : chooseMint st.proofs ourMints (mint :: rest) amount =
          chooseMint st.proofs ourMints rest amount := List.find?_cons_of_neg h
      refine ⟨steps + 1, by simpa using hle, ?_, ?_⟩
      · intro k hk
        cases k with
        | zero =>
          rw [Bool.and_eq_true, isMutual] at h
          rw [List.drop_zero, WalletSend.sendProbe, if_neg h]
          rfl
        | succ k => exact hsteps k (by omega)
      · rw [hskipped]
        exact hlast

/-- Some of the proofs at a mint that both sides accept cover the amount and the fee of their
number. -/
def Funded (held : List StoredProof) (ourMints recipientMints : List String) (amount : Nat)
    (feePpk : String → Nat) : Prop :=
  ∃ mint ∈ recipientMints, isMutual ourMints mint = true ∧ ∃ subset : List StoredProof,
    subset.Sublist (atMint held mint) ∧
      amount + computeFee subset.length (feePpk mint) ≤ sumOf subset

/-- The send reserves proofs that cover the amount and their fee: the worker goes on to the swap. -/
def Goes (held : List StoredProof) (ourMints recipientMints : List String) (amount : Nat)
    (feePpk : String → Nat) : Prop :=
  ∃ mint selected total, chooseMint held ourMints recipientMints amount = some mint ∧
    selectProofs held mint amount = some (selected, total) ∧
    amount + computeFee selected.length (feePpk mint) ≤ total ∧
    ∀ (st : CashuWalletState) (op : String),
      WalletSend.sendKeyset st op amount mint selected total (.feePpk (feePpk mint)) =
        .stay st [.sendSwap op amount mint selected]

/-- At the first accepted mint whose proofs reach the amount, those up to there also cover their
fee. -/
def FirstReachCoversFee (held : List StoredProof) (ourMints recipientMints : List String)
    (amount : Nat) (feePpk : String → Nat) : Prop :=
  ∃ before mint after, recipientMints = before ++ mint :: after ∧
    (∀ m ∈ before, isMutual ourMints m = true →
      ∀ n ≤ (atMint held m).length, totalTo (atMint held m) n < amount) ∧
    isMutual ourMints mint = true ∧
    ∃ n, StopsAt amount (atMint held mint) n ∧
      amount + computeFee n (feePpk mint) ≤ totalTo (atMint held mint) n

/-- The worker refuses exactly when the change does not cover the fee. -/
theorem sendKeyset_swaps {st : CashuWalletState} {op : String} {selected : List StoredProof}
    {inputFeePpk : Nat} (h : amount + computeFee selected.length inputFeePpk ≤ total) :
    WalletSend.sendKeyset st op amount mint selected total (.feePpk inputFeePpk) =
      .stay st [.sendSwap op amount mint selected] := by
  rw [WalletSend.sendKeyset, if_neg (by omega)]

theorem goes_iff (held : List StoredProof) (ourMints recipientMints : List String) (amount : Nat)
    (feePpk : String → Nat) :
    Goes held ourMints recipientMints amount feePpk ↔
      FirstReachCoversFee held ourMints recipientMints amount feePpk := by
  constructor
  · rintro ⟨mint, selected, total, hchosen, hselect, hcovers, -⟩
    obtain ⟨hsuits, before, after, rfl, hskipped⟩ := List.find?_eq_some_iff_append.mp hchosen
    rw [Bool.and_eq_true] at hsuits
    obtain ⟨n, hstops, rfl, rfl⟩ := selectProofs_eq_some.mp hselect
    rw [List.length_take_of_le hstops.le] at hcovers
    refine ⟨before, mint, after, rfl, fun m hm hmutual => ?_, hsuits.1, n, hstops, hcovers⟩
    have hnone := hskipped m hm
    rw [hmutual, Bool.true_and, Bool.not_eq_true', Option.isSome_eq_false_iff,
      Option.isNone_iff_eq_none] at hnone
    exact selectProofs_eq_none.mp hnone
  · rintro ⟨before, mint, after, rfl, hskipped, hmutual, n, hstops, hcovers⟩
    have hselect := selectProofs_eq_some.mpr ⟨n, hstops, rfl, rfl⟩
    have hlength := List.length_take_of_le hstops.le
    refine ⟨mint, _, _, ?_, hselect, by rwa [hlength], fun st op => ?_⟩
    · apply List.find?_eq_some_iff_append.mpr
      refine ⟨by rw [hmutual, hselect]; rfl, before, after, rfl, fun m hm => ?_⟩
      cases hm' : isMutual ourMints m with
      | false => rfl
      | true => rw [selectProofs_eq_none.mpr (hskipped m hm hm')]; rfl
    · exact sendKeyset_swaps (by rwa [hlength])

/-- A funded send is not refused exactly when the first reach covers its fee. -/
theorem funded_send_goes_iff (held : List StoredProof) (ourMints recipientMints : List String)
    (amount : Nat) (feePpk : String → Nat) :
    (Funded held ourMints recipientMints amount feePpk →
        Goes held ourMints recipientMints amount feePpk) ↔
      (¬ Funded held ourMints recipientMints amount feePpk ∨
        FirstReachCoversFee held ourMints recipientMints amount feePpk) := by
  rw [← goes_iff]
  exact imp_iff_not_or

/-- Ten and one at a mint that takes a tenth of a sat for each input. -/
def tenAndOne : List StoredProof :=
  [⟨none, "https://mint.example", ⟨10, "00", "a", "A"⟩⟩,
    ⟨none, "https://mint.example", ⟨1, "00", "b", "B"⟩⟩]

/-- Ten are taken for ten, and nothing is left for the fee; with the one the send would go. -/
theorem exact_reach_refused : ¬ ∀ (held : List StoredProof) (ourMints recipientMints : List String)
    (amount : Nat) (feePpk : String → Nat), 1 ≤ amount →
      Funded held ourMints recipientMints amount feePpk →
      Goes held ourMints recipientMints amount feePpk := by
  intro hclaim
  have hfunded : Funded tenAndOne ["https://mint.example"] ["https://mint.example"] 10
      fun _ => 100 :=
    ⟨"https://mint.example", by simp, by decide +kernel, tenAndOne, by decide +kernel,
      by decide +kernel⟩
  obtain ⟨mint, selected, total, hchosen, hselect, hcovers, -⟩ :=
    hclaim tenAndOne _ _ 10 _ (by decide) hfunded
  have hmint : chooseMint tenAndOne ["https://mint.example"] ["https://mint.example"] 10 =
      some "https://mint.example" := by decide +kernel
  obtain rfl := Option.eq_some_unique hmint hchosen
  have htaken : selectProofs tenAndOne "https://mint.example" 10 =
      some ([⟨none, "https://mint.example", ⟨10, "00", "a", "A"⟩⟩], 10) := by decide +kernel
  rw [htaken] at hselect
  injection hselect with hselect
  injection hselect with hselected htotal
  subst hselected htotal
  exact absurd hcovers (by decide)

end WalletSelection
