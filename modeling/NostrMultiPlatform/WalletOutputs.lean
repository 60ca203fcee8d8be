import Mathlib.Data.Nat.Log
import NostrMultiPlatform.Denominations
import NostrMultiPlatform.WalletSelection

/-!
# The outputs of a swap and of a melt

A swap turns the reserved proofs into the amount for the recipient and the change
for the sender, each split into powers of two. A melt cannot know its change, and
offers blank outputs, as many as the fee reserve may need.
-/
namespace WalletOutputs

open WalletProof WalletSelection Denominations StoredProof

theorem sum_splitAmount {amount : Nat} (h : amount < u64Modulus) :
    (splitAmount amount).sum = amount := sum_powers h

theorem length_splitAmount {amount : Nat} (h : amount < u64Modulus) :
    (splitAmount amount).length = ones amount := length_powers h

theorem splitAmount_pairwise (amount : Nat) : (splitAmount amount).Pairwise (· < ·) :=
  powers_pairwise 64 amount

theorem mem_splitAmount {amount d : Nat} (h : d ∈ splitAmount amount) : ∃ bit < 64, d = 2 ^ bit := by
  obtain ⟨bit, hbit, -, rfl⟩ := mem_powers.mp h
  exact ⟨bit, hbit, rfl⟩

/-- A secret: a lock to a key, with a nonce, or random hex. -/
inductive OutputSecret
  | p2pk (nonce recipient : String) (tags : List (List String))
  | random (hex : String)
  deriving DecidableEq, Repr

/-- `p2pk_secret`. -/
def p2pkSecret (nonce recipient : String) : OutputSecret :=
  .p2pk nonce recipient [["sigflag", "SIG_INPUTS"]]

/-- What the worker hands to `swap`. -/
structure SwapCall where
  inputs : List Proof
  outputAmounts : List Nat
  outputSecrets : List OutputSecret
  deriving DecidableEq, Repr

/-- The worker up to the swap: nothing if the change does not cover the fee. The random values are
drawn one for each output. -/
def runSendWorker (nonce randomHex : Nat → String) (recipientCashuPubkey : String)
    (selected : List StoredProof) (selectedTotal amount inputFeePpk : Nat) : Option SwapCall :=
  let outputAmounts := splitAmount amount
  let p2pkSecrets := (List.range outputAmounts.length).map fun i =>
    p2pkSecret (nonce i) recipientCashuPubkey
  let fee := computeFee selected.length inputFeePpk
  let grossChange := selectedTotal - amount
  if grossChange < fee then none
  else
    let changeAmount := grossChange - fee
    let changeDenoms := if 0 < changeAmount then splitAmount changeAmount else []
    some ⟨selected.map proof, outputAmounts ++ changeDenoms,
      p2pkSecrets ++ (List.range changeDenoms.length).map fun i => .random (randomHex i)⟩

/-- Where the outputs are split again, into the recipient's and the change. -/
def nutzapCount (amount : Nat) : Nat := (splitAmount amount).length

/-- What a swap keeps: the outputs are powers of two with a secret each, those before the boundary are
the amount and locked to the recipient, and all of them with the fee are worth the inputs. -/
structure Conserves (call : SwapCall) (recipientCashuPubkey : String) (amount inputFeePpk : Nat) :
    Prop where
  powers : ∀ d ∈ call.outputAmounts, ∃ bit < 64, d = 2 ^ bit
  secrets : call.outputSecrets.length = call.outputAmounts.length
  locked : ∀ secret ∈ call.outputSecrets.take (nutzapCount amount),
    ∃ nonce, secret = p2pkSecret nonce recipientCashuPubkey
  nutzap : (call.outputAmounts.take (nutzapCount amount)).sum = amount
  total : call.outputAmounts.sum + computeFee call.inputs.length inputFeePpk =
    (call.inputs.map Proof.amount).sum

theorem runSendWorker_conserves {nonce randomHex : Nat → String} {recipientCashuPubkey : String}
    {selected : List StoredProof} {amount inputFeePpk : Nat} {call : SwapCall}
    (hword : sumOf selected < u64Modulus) (hcovers : amount ≤ sumOf selected)
    (h : runSendWorker nonce randomHex recipientCashuPubkey selected (sumOf selected) amount
      inputFeePpk = some call) : Conserves call recipientCashuPubkey amount inputFeePpk := by
  unfold runSendWorker at h
  dsimp only at h
  split at h
  · cases h
  next hfee =>
    obtain rfl := Option.some.inj h
    have hamount : (splitAmount amount).sum = amount := sum_splitAmount (hcovers.trans_lt hword)
    have hchange : (if 0 < sumOf selected - amount - computeFee selected.length inputFeePpk then
        splitAmount (sumOf selected - amount - computeFee selected.length inputFeePpk) else []).sum =
          sumOf selected - amount - computeFee selected.length inputFeePpk := by
      split
      · exact sum_splitAmount (by omega)
      next hnone =>
        rw [List.sum_nil]
        omega
    have hinputs : ((selected.map proof).map Proof.amount).sum = sumOf selected := by
      rw [List.map_map]
      rfl
    constructor
    · intro d hd
      rcases List.mem_append.mp hd with hd | hd
      · exact mem_splitAmount hd
      · split at hd
        · exact mem_splitAmount hd
        · cases hd
    · simp
    · intro secret hsecret
      rw [nutzapCount, List.take_append_of_le_length (by simp)] at hsecret
      obtain ⟨i, -, rfl⟩ := List.mem_map.mp (List.mem_of_mem_take hsecret)
      exact ⟨nonce i, rfl⟩
    · rw [nutzapCount, List.take_append_of_le_length (le_refl _), List.take_length, hamount]
    · rw [List.sum_append, hamount, hchange, hinputs, List.length_map]
      omega

/-- The signed outputs are split at the same boundary, and the fee read off them is the one paid. -/
theorem Conserves.finish {call : SwapCall} {recipientCashuPubkey : String}
    {amount inputFeePpk : Nat} (h : Conserves call recipientCashuPubkey amount inputFeePpk)
    (hword : (call.inputs.map Proof.amount).sum < u64Modulus) {newProofs : List Proof}
    (hsigned : newProofs.map Proof.amount = call.outputAmounts) :
    ((newProofs.take (nutzapCount amount)).map Proof.amount).sum = amount ∧
      sumAmounts call.inputs - sumAmounts newProofs = computeFee call.inputs.length inputFeePpk := by
  have htotal := h.total
  have hexact : ∀ proofs : List Proof, (proofs.map Proof.amount).sum < u64Modulus →
      sumAmounts proofs = (proofs.map Proof.amount).sum := by
    intro proofs hfits
    rw [sumAmounts, foldl_addU64 _ _ (by decide), Nat.zero_add, Nat.mod_eq_of_lt hfits]
  rw [← hsigned] at htotal
  constructor
  · rw [List.map_take, hsigned, h.nutzap]
  · rw [hexact call.inputs hword, hexact newProofs (by omega)]
    omega

/-- A swap conserves value: so do the call, the split of what comes back, and splitting itself. -/
theorem swap_conserves (nonce randomHex : Nat → String) (recipientCashuPubkey : String)
    (selected : List StoredProof) (amount inputFeePpk : Nat) (call : SwapCall)
    (hword : sumOf selected < u64Modulus) (hcovers : amount ≤ sumOf selected)
    (h : runSendWorker nonce randomHex recipientCashuPubkey selected (sumOf selected) amount
      inputFeePpk = some call) :
    Conserves call recipientCashuPubkey amount inputFeePpk ∧
      (∀ newProofs : List Proof, newProofs.map Proof.amount = call.outputAmounts →
        ((newProofs.take (nutzapCount amount)).map Proof.amount).sum = amount ∧
          sumAmounts call.inputs - sumAmounts newProofs =
            computeFee call.inputs.length inputFeePpk) ∧
      ∀ n < u64Modulus, (splitAmount n).sum = n ∧ (splitAmount n).Pairwise (· < ·) := by
  have hconserves := runSendWorker_conserves hword hcovers h
  have hinputs : (call.inputs.map Proof.amount).sum = sumOf selected := by
    unfold runSendWorker at h
    dsimp only at h
    split at h
    · cases h
    · obtain rfl := Option.some.inj h
      rw [List.map_map]
      rfl
  exact ⟨hconserves, fun newProofs hsigned => hconserves.finish (hinputs ▸ hword) hsigned,
    fun n hn => ⟨sum_splitAmount hn, splitAmount_pairwise n⟩⟩

/-- Eight and four, of which six go to the recipient and one is the fee. -/
def eightAndFour : List StoredProof :=
  [⟨none, "https://mint.example", ⟨8, "00", "a", "A"⟩⟩,
    ⟨none, "https://mint.example", ⟨4, "00", "b", "B"⟩⟩]

def sixOfTwelve : SwapCall :=
  ⟨eightAndFour.map proof, [2, 4, 1, 4],
    [p2pkSecret "n0" "02aa", p2pkSecret "n1" "02aa", .random "r0", .random "r1"]⟩

theorem swap_conserves_six :
    sumOf eightAndFour < u64Modulus ∧ 6 ≤ sumOf eightAndFour ∧
      Conserves sixOfTwelve "02aa" 6 100 := by
  have hword : sumOf eightAndFour < u64Modulus := by decide
  have hcovers : 6 ≤ sumOf eightAndFour := by decide
  have hcall : runSendWorker (fun i => "n" ++ toString i) (fun i => "r" ++ toString i) "02aa"
      eightAndFour (sumOf eightAndFour) 6 100 = some sixOfTwelve := by decide +kernel
  exact ⟨hword, hcovers, (swap_conserves _ _ "02aa" eightAndFour 6 100 sixOfTwelve hword hcovers
    hcall).1⟩

/-- The smallest number of outputs that can carry any change up to the reserve, at least one; none
without a reserve. -/
def blankOutputCount (feeReserve : Nat) : Nat :=
  if feeReserve = 0 then 0
  else
    let bits := feeReserve.log2 + 1
    let ceilLog2 := if 2 ^ feeReserve.log2 = feeReserve then bits - 1 else bits
    max ceilLog2 1

structure BlindedMessage where
  amount : Nat
  id : String
  bPrime : String
  deriving DecidableEq, Repr

structure MeltBolt11Request where
  quote : String
  inputs : List Proof
  outputs : Option (List BlindedMessage)
  deriving DecidableEq, Repr

inductive Nip60Error
  | invalid (text : String)
  | crypto (text : String)
  deriving DecidableEq, Repr

/-- Placeholders without an amount. Blinding a fresh secret is done by `blind`. -/
def buildBlankOutputs (blind : Nat → Except String String) (count : Nat) (keysetId : String) :
    Except Nip60Error (List BlindedMessage) :=
  (List.range count).mapM fun i =>
    match blind i with
    | .error e => .error (.crypto e)
    | .ok bPrime => .ok ⟨0, keysetId, bPrime⟩

def prepareMeltBolt11Request (blind : Nat → Except String String) (quoteId : String)
    (feeReserve : Nat) (inputs : List Proof) (keysetId : String) :
    Except Nip60Error MeltBolt11Request :=
  if trimChars quoteId.toList = [] then .error (.invalid "melt quote id must not be empty")
  else if inputs = [] then .error (.invalid "melt requires at least one input proof")
  else
    let count := blankOutputCount feeReserve
    if count = 0 then .ok ⟨quoteId, inputs, none⟩
    else
      match buildBlankOutputs blind count keysetId with
      | .error e => .error e
      | .ok outputs => .ok ⟨quoteId, inputs, some outputs⟩

/-- The blank outputs of a request. -/
def MeltBolt11Request.blanks (request : MeltBolt11Request) : Nat := (request.outputs.getD []).length

theorem blankOutputCount_eq {feeReserve : Nat} (h : 0 < feeReserve) :
    blankOutputCount feeReserve = max (Nat.clog 2 feeReserve) 1 := by
  have hlow : 2 ^ feeReserve.log2 ≤ feeReserve := Nat.log2_self_le (by omega)
  have hhigh : feeReserve < 2 ^ (feeReserve.log2 + 1) := Nat.lt_log2_self
  rw [blankOutputCount, if_neg (by omega)]
  dsimp only
  split
  next hpower =>
    have hclog := Nat.clog_pow 2 feeReserve.log2 (by decide)
    rw [hpower] at hclog
    rw [hclog, Nat.add_sub_cancel]
  next hbetween =>
    have hle : Nat.clog 2 feeReserve ≤ feeReserve.log2 + 1 := Nat.clog_le_of_le_pow hhigh.le
    have hlt : feeReserve.log2 < Nat.clog 2 feeReserve :=
      (Nat.lt_clog_iff_pow_lt (by decide)).mpr (by omega)
    omega

/-- Any change up to the reserve has an output for each power of two. -/
theorem ones_le_blankOutputCount {change feeReserve : Nat} (h : change ≤ feeReserve) :
    ones change ≤ blankOutputCount feeReserve := by
  rcases Nat.eq_zero_or_pos feeReserve with rfl | hpos
  · obtain rfl : change = 0 := by omega
    simp
  · rw [blankOutputCount_eq hpos]
    apply ones_le_of_le (by omega)
    calc change ≤ feeReserve := h
      _ ≤ 2 ^ Nat.clog 2 feeReserve := Nat.le_pow_clog (by decide) feeReserve
      _ ≤ 2 ^ max (Nat.clog 2 feeReserve) 1 := Nat.pow_le_pow_right (by decide) (le_max_left _ _)

theorem length_of_mapM_ok {α β ε : Type} {f : α → Except ε β} {xs : List α} {ys : List β}
    (h : xs.mapM f = .ok ys) : ys.length = xs.length := by
  induction xs generalizing ys with
  | nil =>
    rw [List.mapM_nil] at h
    injection h with h
    rw [← h]
    rfl
  | cons x rest ih =>
    rw [List.mapM_cons] at h
    cases hx : f x with
    | error =>
      rw [hx] at h
      cases h
    | ok =>
      cases hrest : rest.mapM f with
      | error =>
        rw [hx, hrest] at h
        cases h
      | ok =>
        rw [hx, hrest] at h
        injection h with h
        rw [← h, List.length_cons, List.length_cons, ih hrest]

theorem prepareMeltBolt11Request_ok {blind : Nat → Except String String} {quoteId keysetId : String}
    {feeReserve : Nat} {inputs : List Proof} {request : MeltBolt11Request}
    (h : prepareMeltBolt11Request blind quoteId feeReserve inputs keysetId = .ok request) :
    request.inputs = inputs ∧ request.blanks = blankOutputCount feeReserve := by
  unfold prepareMeltBolt11Request at h
  dsimp only at h
  split at h
  · cases h
  · split at h
    · cases h
    · split at h
      next hnone =>
        injection h with h
        rw [← h]
        exact ⟨rfl, hnone.symm⟩
      · split at h
        · cases h
        next outputs houtputs =>
          injection h with h
          rw [← h]
          refine ⟨rfl, ?_⟩
          have hlength := length_of_mapM_ok houtputs
          rwa [List.length_range] at hlength

/-- Every change that is left between the overshoot and the overshoot with the reserve has an output
for each power of two; the worst one is found by halving. -/
def BlanksCover (overshoot feeReserve : Nat) : Prop :=
  if feeReserve = 0 then overshoot = 0
  else mostOnes overshoot (overshoot + feeReserve) ≤ max (Nat.clog 2 feeReserve) 1

theorem ones_eq_zero {n : Nat} : ones n = 0 ↔ n = 0 := by
  constructor
  · intro h
    have hsum := Nat.sum_map_two_pow_bitIndices n
    rw [List.eq_nil_of_length_eq_zero h] at hsum
    exact hsum.symm
  · rintro rfl
    exact ones_zero

theorem blanksCover_iff {overshoot feeReserve : Nat} :
    BlanksCover overshoot feeReserve ↔
      ∀ change, overshoot ≤ change → change ≤ overshoot + feeReserve →
        ones change ≤ blankOutputCount feeReserve := by
  unfold BlanksCover
  split
  next hnone =>
    subst hnone
    simp only [blankOutputCount, if_true, Nat.le_zero, ones_eq_zero]
    constructor
    · intro h change _ hle
      omega
    · exact fun h => h overshoot (le_refl _) (le_refl _)
  next hsome =>
    rw [← blankOutputCount_eq (Nat.pos_of_ne_zero hsome)]
    exact mostOnes_le_iff (Nat.le_add_right _ _)

theorem selectProofs_total {held selected : List StoredProof} {mint : String} {amount total : Nat}
    (h : selectProofs held mint amount = some (selected, total)) :
    total = sumAmounts (selected.map proof) ∧ amount ≤ total ∧ total < u64Modulus := by
  obtain ⟨n, hstops, rfl, rfl⟩ := selectProofs_eq_some.mp h
  refine ⟨?_, hstops.reaches, totalTo_lt _ _⟩
  rw [sumAmounts, foldl_addU64 _ _ (by decide), Nat.zero_add, List.map_map]
  rfl

/-- No change is lost for any routing fee exactly when the blank outputs cover what the selection
overshoots; a change within the reserve always fits. -/
theorem melt_change_fits_iff (blind : Nat → Except String String) (quoteId keysetId mint : String)
    (held selected : List StoredProof) (amount feeReserve total : Nat) (request : MeltBolt11Request)
    (hselect : selectProofs held mint (amount + feeReserve) = some (selected, total))
    (hrequest : prepareMeltBolt11Request blind quoteId feeReserve (selected.map proof)
      keysetId = .ok request) :
    ((∀ routingFee ≤ feeReserve,
        (splitAmount (sumAmounts request.inputs - amount - routingFee)).length ≤ request.blanks) ↔
      BlanksCover (sumAmounts (selected.map proof) - (amount + feeReserve)) feeReserve) ∧
    ∀ reserve < u64Modulus, ∀ change ≤ reserve,
      (splitAmount change).length ≤ blankOutputCount reserve := by
  obtain ⟨hinputs, hblanks⟩ := prepareMeltBolt11Request_ok hrequest
  obtain ⟨htotal, hreaches, hword⟩ := selectProofs_total hselect
  constructor
  · rw [hinputs, hblanks, ← htotal, blanksCover_iff]
    constructor
    · intro hfits change hlo hhi
      have hone := hfits (total - amount - change) (by omega)
      have hback : total - amount - (total - amount - change) = change := by omega
      rwa [hback, length_splitAmount (by omega)] at hone
    · intro hcover routingFee hfee
      rw [length_splitAmount (by omega)]
      exact hcover _ (by omega) (by omega)
  · intro reserve hreserve change hchange
    rw [length_splitAmount (by omega)]
    exact ones_le_blankOutputCount hchange

/-- One proof over sixteen. -/
def sixteen : List StoredProof := [⟨none, "https://mint.example", ⟨16, "00", "a", "A"⟩⟩]

def blindHex (i : Nat) : Except String String := .ok ("02" ++ toString i)

theorem melt_change_fits_iff_sixteen :
    selectProofs sixteen "https://mint.example" (5 + 1) = some (sixteen, 16) ∧
      ((∀ routingFee ≤ 1, (splitAmount (16 - 5 - routingFee)).length ≤ 1) ↔ BlanksCover 10 1) := by
  have hselect : selectProofs sixteen "https://mint.example" (5 + 1) = some (sixteen, 16) := by
    decide +kernel
  have hrequest : prepareMeltBolt11Request blindHex "quote" 1 (sixteen.map proof) "00" =
      .ok ⟨"quote", sixteen.map proof, some [⟨0, "00", "020"⟩]⟩ := by decide +kernel
  exact ⟨hselect, (melt_change_fits_iff blindHex "quote" "00" "https://mint.example" sixteen sixteen
    5 1 16 _ hselect hrequest).1⟩

/-- Sixteen are melted for five with a reserve of one: of the eleven that are left without a routing
fee, eight, two and one, there is an output for one. -/
theorem overshoot_lost : ¬ ∀ (blind : Nat → Except String String) (quoteId keysetId mint : String)
    (held selected : List StoredProof) (amount feeReserve total : Nat) (request : MeltBolt11Request),
    selectProofs held mint (amount + feeReserve) = some (selected, total) →
    prepareMeltBolt11Request blind quoteId feeReserve (selected.map proof) keysetId =
      .ok request →
    ∀ routingFee ≤ feeReserve,
      (splitAmount (sumAmounts request.inputs - amount - routingFee)).length ≤ request.blanks := by
  intro hclaim
  have hfits := hclaim blindHex "quote" "00" "https://mint.example" sixteen sixteen 5 1 16
    ⟨"quote", sixteen.map proof, some [⟨0, "00", "020"⟩]⟩ (by decide +kernel)
    (by decide +kernel) 0 (by decide)
  exact absurd hfits (by decide +kernel)

end WalletOutputs
