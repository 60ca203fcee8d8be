import NostrMultiPlatform.WalletSelection

/-!
# Amounts from outside

Amounts come from events that anybody can write, and are added as 64-bit words. The
sum of a received nutzap and the total of a selection are exact as long as the sums
that the loops go through fit in a word.
-/
namespace WalletAmounts

open WalletProof WalletState WalletSelection

/-- The one kind of error that decoding reports. -/
inductive Nip60Error
  | event (text : String)
  deriving DecidableEq, Repr

structure DecodedNutzap extends ReceivedNutZap where
  comment : String
  zappedEventId : Option String
  deriving DecidableEq, Repr

/-- What the tags gave so far. -/
structure Rows where
  proofs : List Proof
  mintUrl : Option String
  zappedEventId : Option String

section
variable (eventIdOf publicKeyOf : String → Except String String)
  (proofOf : String → Except String Proof)

def decodeRow (rows : Rows) (row : List String) : Except Nip60Error Rows :=
  match row with
  | name :: value :: _ =>
    if name = "proof" then
      match proofOf value with
      | .error e => .error (.event ("proof tag parse: " ++ e))
      | .ok proof => .ok { rows with proofs := rows.proofs ++ [proof] }
    else if name = "u" then .ok { rows with mintUrl := some value }
    else if name = "e" then
      match eventIdOf value with
      | .error _ => .ok rows
      | .ok id => .ok { rows with zappedEventId := some id }
    else .ok rows
  | _ => .ok rows

/-- The raw fields of a kind 9321 event; the amount is the sum of its proofs. -/
def decodeNutzapFields (eventIdHex senderPubkeyHex : String) (tags : List (List String))
    (content : String) : Except Nip60Error DecodedNutzap :=
  match eventIdOf eventIdHex, publicKeyOf senderPubkeyHex with
  | .error e, _ => .error (.event ("nutzap event id: " ++ e))
  | .ok _, .error e => .error (.event ("nutzap sender pubkey: " ++ e))
  | .ok eventId, .ok senderPubkey =>
    match tags.foldlM (decodeRow eventIdOf proofOf) ⟨[], none, none⟩ with
    | .error e => .error e
    | .ok rows =>
      match rows.mintUrl with
      | none => .error (.event "nutzap missing u (mint) tag")
      | some mintUrl =>
        if rows.proofs = [] then .error (.event "nutzap has no proof tags")
        else
          .ok ⟨⟨eventId, senderPubkey, rows.proofs, mintUrl, sumAmounts rows.proofs⟩, content,
            rows.zappedEventId⟩

/-- The value of a tag of that name. -/
def tagValue (name : String) : List String → Option String
  | found :: value :: _ => if found = name then some value else none
  | _ => none

/-- The texts of the proof tags. -/
def proofTexts (tags : List (List String)) : List String := tags.filterMap (tagValue "proof")

/-- The amounts that the proof tags claim. -/
def claimedAmounts (tags : List (List String)) : List Nat :=
  (proofTexts tags).filterMap fun text => (proofOf text).toOption.map Proof.amount

/-- Every part that decoding insists on is there. -/
structure WellFormed (eventIdHex senderPubkeyHex : String) (tags : List (List String)) : Prop where
  eventId : ∃ id, eventIdOf eventIdHex = .ok id
  sender : ∃ key, publicKeyOf senderPubkeyHex = .ok key
  proofs : ∀ text ∈ proofTexts tags, ∃ proof, proofOf text = .ok proof
  mint : ∃ row ∈ tags, (tagValue "u" row).isSome

variable {eventIdOf publicKeyOf proofOf}

/-- A row adds its proof, if it is a proof tag, and may name the mint. -/
theorem decodeRow_spec (rows : Rows) (row : List String) :
    (∃ rows', decodeRow eventIdOf proofOf rows row = .ok rows') ↔
      ∀ text, tagValue "proof" row = some text → ∃ proof, proofOf text = .ok proof := by
  unfold decodeRow
  split
  next name value rest =>
    by_cases hproof : name = "proof"
    · simp only [hproof, if_true, tagValue, Option.some.injEq, forall_eq']
      cases proofOf value <;> simp
    · simp only [hproof, if_false, tagValue, reduceCtorEq, false_implies, implies_true, iff_true]
      split
      · exact ⟨_, rfl⟩
      · split
        · cases eventIdOf value
          · exact ⟨_, rfl⟩
          · exact ⟨_, rfl⟩
        · exact ⟨_, rfl⟩
  next hshort =>
    simp only [Except.ok.injEq, exists_eq', true_iff]
    intro text htext
    unfold tagValue at htext
    split at htext
    next found value rest => exact absurd rfl (hshort found value rest)
    · cases htext

theorem decodeRow_ok {rows rows' : Rows} {row : List String}
    (h : decodeRow eventIdOf proofOf rows row = .ok rows') :
    rows'.proofs.map Proof.amount = rows.proofs.map Proof.amount ++ claimedAmounts proofOf [row] ∧
      rows'.mintUrl.isSome = (rows.mintUrl.isSome || (tagValue "u" row).isSome) := by
  unfold decodeRow at h
  split at h
  next name value rest =>
    by_cases hproof : name = "proof"
    · rw [if_pos hproof] at h
      subst hproof
      cases hvalue : proofOf value with
      | error => rw [hvalue] at h; cases h
      | ok =>
        rw [hvalue] at h
        injection h with h
        subst h
        simp [claimedAmounts, proofTexts, tagValue, hvalue, Except.toOption]
    · rw [if_neg hproof] at h
      have hnone : claimedAmounts proofOf [name :: value :: rest] = [] := by
        simp [claimedAmounts, proofTexts, tagValue, hproof]
      rw [hnone, List.append_nil]
      by_cases hu : name = "u"
      · rw [if_pos hu] at h
        injection h with h
        subst h
        simp [tagValue, hu]
      · rw [if_neg hu] at h
        have hkept : rows'.proofs = rows.proofs ∧ rows'.mintUrl = rows.mintUrl := by
          split at h
          · cases hid : eventIdOf value with
            | error | ok => rw [hid] at h; injection h with h; subst h; exact ⟨rfl, rfl⟩
          · injection h with h
            subst h
            exact ⟨rfl, rfl⟩
        simp [hkept.1, hkept.2, tagValue, hu]
  next hshort =>
    injection h with h
    subst h
    have hnone : ∀ name, tagValue name row = none := by
      intro name
      unfold tagValue
      split
      next found value rest => exact absurd rfl (hshort found value rest)
      · rfl
    simp [claimedAmounts, proofTexts, hnone]

theorem claimedAmounts_cons (row : List String) (rest : List (List String)) :
    claimedAmounts proofOf (row :: rest) =
      claimedAmounts proofOf [row] ++ claimedAmounts proofOf rest := by
  simp only [claimedAmounts, proofTexts, ← List.filterMap_append, List.singleton_append]

variable (eventIdOf proofOf) in
/-- The rows decode when every proof tag does, and give what the tags claim. -/
theorem decodeRows_spec (rows : Rows) (tags : List (List String)) :
    ((∃ rows', tags.foldlM (decodeRow eventIdOf proofOf) rows = .ok rows') ↔
        ∀ text ∈ proofTexts tags, ∃ proof, proofOf text = .ok proof) ∧
      ∀ rows', tags.foldlM (decodeRow eventIdOf proofOf) rows = .ok rows' →
        rows'.proofs.map Proof.amount =
            rows.proofs.map Proof.amount ++ claimedAmounts proofOf tags ∧
          (rows'.mintUrl.isSome ↔
            rows.mintUrl.isSome ∨ ∃ row ∈ tags, (tagValue "u" row).isSome) := by
  induction tags generalizing rows with
  | nil =>
    refine ⟨by simp [proofTexts, pure, Except.pure], fun rows' h => ?_⟩
    injection h with h
    subst h
    simp [claimedAmounts, proofTexts]
  | cons row rest ih =>
    have htexts : (∀ text ∈ proofTexts (row :: rest), ∃ proof, proofOf text = .ok proof) ↔
        (∀ text, tagValue "proof" row = some text → ∃ proof, proofOf text = .ok proof) ∧
          ∀ text ∈ proofTexts rest, ∃ proof, proofOf text = .ok proof := by
      simp only [proofTexts, List.filterMap_cons]
      cases tagValue "proof" row <;> simp
    rw [List.foldlM_cons, htexts, ← decodeRow_spec rows row]
    cases hrow : decodeRow eventIdOf proofOf rows row with
    | error => exact ⟨by simp [bind, Except.bind], fun rows' h => nomatch h⟩
    | ok next =>
      obtain ⟨hamounts, hmint⟩ := decodeRow_ok hrow
      obtain ⟨hdecodes, hgives⟩ := ih next
      refine ⟨by simpa [bind, Except.bind] using hdecodes, fun rows' h => ?_⟩
      obtain ⟨hrest, hrestMint⟩ := hgives rows' h
      rw [hrest, hamounts, List.append_assoc, ← claimedAmounts_cons, hrestMint, hmint,
        Bool.or_eq_true, or_assoc, List.exists_mem_cons_iff]
      exact ⟨rfl, Iff.rfl⟩

theorem sumAmounts_eq (proofs : List Proof) :
    sumAmounts proofs = (proofs.map Proof.amount).sum % u64Modulus := by
  rw [sumAmounts, foldl_addU64 _ _ (by decide), Nat.zero_add]

/-- The amount is the sum of what the proofs claim, as a 64-bit word. -/
theorem decodeNutzapFields_ok {eventIdHex senderPubkeyHex content : String}
    {tags : List (List String)} {nutzap : DecodedNutzap}
    (h : decodeNutzapFields eventIdOf publicKeyOf proofOf eventIdHex senderPubkeyHex tags content =
      .ok nutzap) :
    WellFormed eventIdOf publicKeyOf proofOf eventIdHex senderPubkeyHex tags ∧
      nutzap.proofs.map Proof.amount = claimedAmounts proofOf tags ∧
      nutzap.amountSats = (claimedAmounts proofOf tags).sum % u64Modulus := by
  unfold decodeNutzapFields at h
  split at h
  · cases h
  · cases h
  next eventId senderPubkey hid hkey =>
    obtain ⟨hdecodes, hgives⟩ := decodeRows_spec eventIdOf proofOf
      ⟨[], none, none⟩ tags
    split at h
    · cases h
    next rows hrows =>
      obtain ⟨hamounts, hmint⟩ := hgives rows hrows
      split at h
      · cases h
      next mintUrl hurl =>
        split at h
        · cases h
        · injection h with h
          subst h
          have hsome := hmint.mp (by rw [hurl]; rfl)
          refine ⟨⟨⟨eventId, hid⟩, ⟨senderPubkey, hkey⟩, hdecodes.mp ⟨rows, hrows⟩, ?_⟩, ?_, ?_⟩
          · simpa using hsome
          · simpa using hamounts
          · rw [sumAmounts_eq]
            simp [hamounts]

/-- A well-formed event with a proof decodes. -/
theorem WellFormed.decodes {eventIdHex senderPubkeyHex : String} {tags : List (List String)}
    (h : WellFormed eventIdOf publicKeyOf proofOf eventIdHex senderPubkeyHex tags)
    (hsome : claimedAmounts proofOf tags ≠ []) (content : String) :
    ∃ nutzap, decodeNutzapFields eventIdOf publicKeyOf proofOf eventIdHex senderPubkeyHex tags
      content = .ok nutzap := by
  obtain ⟨⟨eventId, hid⟩, ⟨senderPubkey, hkey⟩, hproofs, hurl⟩ := h
  obtain ⟨hdecodes, hgives⟩ := decodeRows_spec eventIdOf proofOf
    ⟨[], none, none⟩ tags
  obtain ⟨rows, hrows⟩ := hdecodes.mpr hproofs
  obtain ⟨hamounts, hmint⟩ := hgives rows hrows
  obtain ⟨mintUrl, hmintUrl⟩ := Option.isSome_iff_exists.mp (hmint.mpr (.inr hurl))
  have hne : rows.proofs ≠ [] := by
    intro hnone
    rw [hnone] at hamounts
    exact hsome (by simpa using hamounts.symm)
  simp only [decodeNutzapFields, hid, hkey, hrows, hmintUrl, if_neg hne]
  exact ⟨_, rfl⟩

end

/-- The amount of a decoded nutzap is the exact sum of its proofs. -/
def DecodesExactly (eventIdOf publicKeyOf : String → Except String String)
    (proofOf : String → Except String Proof) (eventIdHex senderPubkeyHex : String)
    (tags : List (List String)) (content : String) : Prop :=
  ∀ nutzap, decodeNutzapFields eventIdOf publicKeyOf proofOf eventIdHex senderPubkeyHex tags
    content = .ok nutzap → nutzap.amountSats = (nutzap.proofs.map Proof.amount).sum

theorem decodesExactly_iff {eventIdOf publicKeyOf : String → Except String String}
    {proofOf : String → Except String Proof} {eventIdHex senderPubkeyHex content : String}
    {tags : List (List String)} :
    DecodesExactly eventIdOf publicKeyOf proofOf eventIdHex senderPubkeyHex tags content ↔
      (WellFormed eventIdOf publicKeyOf proofOf eventIdHex senderPubkeyHex tags →
        (claimedAmounts proofOf tags).sum < u64Modulus) := by
  constructor
  · intro hexact hformed
    by_cases hnone : claimedAmounts proofOf tags = []
    · rw [hnone]
      decide
    · obtain ⟨nutzap, hok⟩ := hformed.decodes hnone content
      obtain ⟨-, hamounts, hword⟩ := decodeNutzapFields_ok hok
      have hsum := hexact nutzap hok
      rw [hamounts, hword] at hsum
      rw [← hsum]
      exact Nat.mod_lt _ (by decide)
  · intro hfits nutzap hok
    obtain ⟨hformed, hamounts, hword⟩ := decodeNutzapFields_ok hok
    rw [hamounts, hword, Nat.mod_eq_of_lt (hfits hformed)]

/-- A total is the exact sum of what was selected, and nothing is selected only if the proofs of
the mint do not cover the amount. -/
def SelectsExactly (held : List StoredProof) (mint : String) (amount : Nat) : Prop :=
  match selectProofs held mint amount with
  | some (selected, total) => total = sumOf selected ∧ amount ≤ sumOf selected
  | none => sumOf (atMint held mint) < amount

/-- The first proofs whose exact sum reaches the amount sum to a 64-bit word. -/
def FirstReachFits (amount : Nat) (proofs : List StoredProof) : Prop :=
  ∀ n ≤ proofs.length, (∀ k < n, sumOf (proofs.take k) < amount) → amount ≤ sumOf (proofs.take n) →
    sumOf (proofs.take n) < u64Modulus

theorem sumOf_take_le (proofs : List StoredProof) {n m : Nat} (h : n ≤ m) :
    sumOf (proofs.take n) ≤ sumOf (proofs.take m) := by
  have hsplit := List.take_append_drop n (proofs.take m)
  rw [List.take_take, min_eq_left h] at hsplit
  rw [← hsplit, sumOf_append]
  exact Nat.le_add_right _ _

variable {proofs : List StoredProof}

/-- While the running total is short of the amount so is the exact sum, if the first reach fits. -/
theorem FirstReachFits.sum_lt {amount n : Nat} (hfits : FirstReachFits amount proofs)
    (hn : n ≤ proofs.length) (hshort : ∀ k < n, totalTo proofs k < amount) :
    ∀ k < n, sumOf (proofs.take k) < amount := by
  intro k
  induction k using Nat.strong_induction_on with
  | _ k ih =>
    intro hk
    by_contra hreached
    have hword := hfits k (by omega) (fun j hj => ih j hj (by omega)) (not_lt.mp hreached)
    have htotal := hshort k hk
    rw [totalTo, Nat.mod_eq_of_lt hword] at htotal
    exact hreached htotal

theorem FirstReachFits.totalTo_eq {amount n : Nat} (hamount : amount < u64Modulus)
    (hfits : FirstReachFits amount proofs) (hn : n ≤ proofs.length)
    (hshort : ∀ k < n, totalTo proofs k < amount) : totalTo proofs n = sumOf (proofs.take n) := by
  apply Nat.mod_eq_of_lt
  rcases Nat.lt_or_ge (sumOf (proofs.take n)) amount with hlt | hge
  · exact hlt.trans hamount
  · exact hfits n hn (hfits.sum_lt hn hshort) hge

/-- A first reach that does not fit wraps below the amount: it is not noticed. -/
theorem totalTo_lt_of_wraps {amount n : Nat} (hwords : ∀ s ∈ proofs, s.proof.amount < u64Modulus)
    (hn : n ≤ proofs.length) (hshort : ∀ k < n, sumOf (proofs.take k) < amount)
    (hwraps : u64Modulus ≤ sumOf (proofs.take n)) : totalTo proofs n < amount := by
  cases n with
  | zero => simp [u64Modulus] at hwraps
  | succ n =>
    have hbefore := hshort n (by omega)
    have hlast : sumOf (proofs.take (n + 1)) = sumOf (proofs.take n) + proofs[n].proof.amount := by
      rw [List.take_succ_eq_append_getElem hn, sumOf_append]
      simp
    have hword := hwords proofs[n] (List.getElem_mem _)
    rw [totalTo, Nat.mod_eq_sub_mod hwraps]
    calc (sumOf (proofs.take (n + 1)) - u64Modulus) % u64Modulus
        ≤ sumOf (proofs.take (n + 1)) - u64Modulus := Nat.mod_le _ _
      _ < amount := by omega

theorem selectsExactly_iff {held : List StoredProof} {mint : String} {amount : Nat}
    (hwords : ∀ s ∈ held, s.proof.amount < u64Modulus) (hamount : amount < u64Modulus) :
    SelectsExactly held mint amount ↔ FirstReachFits amount (atMint held mint) := by
  have hwords' : ∀ s ∈ atMint held mint, s.proof.amount < u64Modulus :=
    fun s hs => hwords s (List.mem_filter.mp hs).1
  unfold SelectsExactly
  constructor
  · intro hexact n hn hshort hreaches
    by_contra hwraps
    have hwraps := not_lt.mp hwraps
    have hmissed := totalTo_lt_of_wraps hwords' hn hshort hwraps
    split at hexact
    next selected total hselect =>
      obtain ⟨m, hstops, rfl, rfl⟩ := selectProofs_eq_some.mp hselect
      have hlate : n ≤ m := by
        by_contra hearly
        have hbefore := hshort m (by omega)
        have htotal : totalTo (atMint held mint) m = sumOf ((atMint held mint).take m) :=
          Nat.mod_eq_of_lt (hbefore.trans hamount)
        exact absurd hstops.reaches (by omega)
      have hmore := sumOf_take_le (atMint held mint) hlate
      have hword := totalTo_lt (atMint held mint) m
      omega
    · have hall := sumOf_take_le (atMint held mint) hn
      rw [List.take_length] at hall
      omega
  · intro hfits
    split
    next selected total hselect =>
      obtain ⟨n, hstops, rfl, rfl⟩ := selectProofs_eq_some.mp hselect
      have htotal := hfits.totalTo_eq hamount hstops.le hstops.short
      exact ⟨htotal, htotal ▸ hstops.reaches⟩
    next hnone =>
      have hshort := selectProofs_eq_none.mp hnone
      have htotal := hfits.totalTo_eq hamount (le_refl _) fun k hk => hshort k hk.le
      rw [List.take_length] at htotal
      rw [← htotal]
      exact hshort _ (le_refl _)

/-- Decoding is exact unless a well-formed event claims more than a word holds, and selection unless
its first reach does. -/
theorem amounts_exact_iff (eventIdOf publicKeyOf : String → Except String String)
    (proofOf : String → Except String Proof) (eventIdHex senderPubkeyHex content : String)
    (tags : List (List String)) (held : List StoredProof) (mint : String) (amount : Nat)
    (hwords : ∀ s ∈ held, s.proof.amount < u64Modulus) (hamount : amount < u64Modulus) :
    (DecodesExactly eventIdOf publicKeyOf proofOf eventIdHex senderPubkeyHex tags content ↔
      (WellFormed eventIdOf publicKeyOf proofOf eventIdHex senderPubkeyHex tags →
        (claimedAmounts proofOf tags).sum < u64Modulus)) ∧
    (SelectsExactly held mint amount ↔ FirstReachFits amount (atMint held mint)) :=
  ⟨decodesExactly_iff, selectsExactly_iff hwords hamount⟩

/-- The text of a proof over half of what a word holds. -/
def halfText : String :=
  "\x7b\"amount\":9223372036854775808,\"id\":\"00ad\",\"secret\":\"s\",\"C\":\"02\"\x7d"

def half : Proof := ⟨2 ^ 63, "00ad", "s", "02"⟩

def readProof (text : String) : Except String Proof :=
  if text = halfText then .ok half else .error "expected value"

def someHex : String := "79be667ef9dcbbac55a06295ce870b07029bfcdb2dce28d959f2815b16f81798"

def readHex (hex : String) : Except String String :=
  if hex = someHex then .ok hex else .error "invalid hex"

/-- A nutzap of two halves. -/
def halves : List (List String) :=
  [["proof", halfText], ["proof", halfText], ["u", "https://mint.example"]]

def heldHalves : List StoredProof := attach none "https://mint.example" [half, half]

theorem amounts_exact_iff_halves :
    (∀ s ∈ heldHalves, s.proof.amount < u64Modulus) ∧ 2 ^ 63 < u64Modulus ∧
      ((DecodesExactly readHex readHex readProof someHex someHex halves "" ↔
        (WellFormed readHex readHex readProof someHex someHex halves →
          (claimedAmounts readProof halves).sum < u64Modulus)) ∧
      (SelectsExactly heldHalves "https://mint.example" (2 ^ 63) ↔
        FirstReachFits (2 ^ 63) (atMint heldHalves "https://mint.example"))) := by
  have hwords : ∀ s ∈ heldHalves, s.proof.amount < u64Modulus := by decide +kernel
  have hamount : 2 ^ 63 < u64Modulus := by decide
  exact ⟨hwords, hamount, amounts_exact_iff readHex readHex readProof someHex someHex "" halves
    heldHalves "https://mint.example" (2 ^ 63) hwords hamount⟩

/-- The nutzap of two halves is worth nothing, and the wallet that holds them has nothing to spend
on an amount over one half. -/
theorem halves_wrap :
    ¬ DecodesExactly readHex readHex readProof someHex someHex halves "" ∧
      ¬ SelectsExactly heldHalves "https://mint.example" (2 ^ 63 + 1) := by
  constructor
  · intro hexact
    have hdecoded : decodeNutzapFields readHex readHex readProof someHex someHex halves "" =
        .ok ⟨⟨someHex, someHex, [half, half], "https://mint.example", 0⟩, "", none⟩ := by
      decide +kernel
    exact absurd (hexact _ hdecoded) (by decide +kernel)
  · have hnone : selectProofs heldHalves "https://mint.example" (2 ^ 63 + 1) = none := by
      decide +kernel
    rw [SelectsExactly, hnone]
    decide +kernel

end WalletAmounts
