import Mathlib.Algebra.Ring.Nat
import Mathlib.Data.List.Count
import Mathlib.Data.List.Dedup

/-!
# Cashu proofs and the spendable inventory

The inventory is the list of stored proofs. Selection is greedy over the proofs
of one mint, and a proof is named by its public `C` value in every removal.
Amounts are 64-bit: sums wrap and products saturate as the release build does.
-/
namespace WalletProof

def u64Modulus : Nat := 2 ^ 64

/-- `a + b` on 64-bit words. -/
def addU64 (a b : Nat) : Nat := (a + b) % u64Modulus

theorem foldl_addU64 (xs : List Nat) (a : Nat) (ha : a < u64Modulus) :
    xs.foldl addU64 a = (a + xs.sum) % u64Modulus := by
  induction xs generalizing a with
  | nil => simp [Nat.mod_eq_of_lt ha]
  | cons x _ ih =>
    have hsum : addU64 a x < u64Modulus := Nat.mod_lt _ (by decide)
    rw [List.foldl_cons, ih _ hsum, addU64, List.sum_cons, Nat.mod_add_mod, Nat.add_assoc]

/-- `amount.saturating_mul(1000)`. -/
def msatOf (amount : Nat) : Nat := min (amount * 1000) (u64Modulus - 1)

/-- The characters `str::trim` removes. -/
def isWhitespace (c : Char) : Bool :=
  let n := c.toNat
  (9 ≤ n && n ≤ 13) || n == 32 || n == 0x85 || n == 0xA0 || n == 0x1680 ||
    (0x2000 ≤ n && n ≤ 0x200A) || n == 0x2028 || n == 0x2029 || n == 0x202F ||
    n == 0x205F || n == 0x3000

def trimChars (cs : List Char) : List Char :=
  ((cs.dropWhile isWhitespace).reverse.dropWhile isWhitespace).reverse

/-- `split_once("://")`. -/
def splitScheme : List Char → Option (List Char × List Char)
  | [] => none
  | ':' :: '/' :: '/' :: rest => some ([], rest)
  | c :: cs => (splitScheme cs).map fun parts => (c :: parts.1, parts.2)

def endsAuthority (c : Char) : Bool := c == '/' || c == '?' || c == '#'
def endsPath (c : Char) : Bool := c == '?' || c == '#'

/-- Removes one slash before the first `?` or `#`, or at the end. -/
def dropPathSlash (remainder : List Char) : List Char :=
  let path := remainder.takeWhile fun c => !endsPath c
  let query := remainder.dropWhile fun c => !endsPath c
  (if path.getLast? = some '/' then path.dropLast else path) ++ query

/-- Scheme and authority in lower case, one trailing slash of the path removed; a string with no
`://` is only trimmed. -/
def canonicalizeMintUrl (mint : String) : String :=
  let trimmed := trimChars mint.toList
  match splitScheme trimmed with
  | none => String.ofList trimmed
  | some (scheme, rest) =>
    let authority := rest.takeWhile fun c => !endsAuthority c
    let remainder := rest.dropWhile fun c => !endsAuthority c
    String.ofList (scheme.map Char.toLower ++ [':', '/', '/'] ++ authority.map Char.toLower ++
      dropPathSlash remainder)

/-- `is_well_formed_mint_url`. -/
def isWellFormedMintUrl (mint : String) : Bool :=
  "https://".toList.isPrefixOf (trimChars mint.toList) ||
    "http://".toList.isPrefixOf (trimChars mint.toList)

/-- An ecash proof; `c` is its public name, `secret` what spends it. -/
structure Proof where
  amount : Nat
  id : String
  secret : String
  c : String
  deriving DecidableEq, Repr

structure StoredProof where
  tokenEvent : Option String
  mint : String
  proof : Proof
  deriving DecidableEq, Repr

/-- The public names of stored proofs. -/
def storedCs (stored : List StoredProof) : List String := stored.map fun s => s.proof.c

/-- The public names of bare proofs. -/
def proofCs (proofs : List Proof) : List String := proofs.map fun p => p.c

@[simp] theorem storedCs_nil : storedCs [] = [] := rfl

@[simp] theorem storedCs_append (xs ys : List StoredProof) :
    storedCs (xs ++ ys) = storedCs xs ++ storedCs ys := by simp [storedCs]

/-- The greedy loop of `select_proofs`: stop as soon as the running total covers the amount. -/
def selectFrom (amount total : Nat) : List StoredProof → List StoredProof × Nat
  | [] => ([], total)
  | s :: rest =>
    if amount ≤ total then ([], total)
    else
      let more := selectFrom amount (addU64 total s.proof.amount) rest
      (s :: more.1, more.2)

/-- Proofs of the mint covering the amount, with their total, or nothing. -/
def selectProofs (proofs : List StoredProof) (mint : String) (amount : Nat) :
    Option (List StoredProof × Nat) :=
  let target := canonicalizeMintUrl mint
  let found := selectFrom amount 0 (proofs.filter fun s => canonicalizeMintUrl s.mint = target)
  if found.2 < amount then none else some found

theorem selectFrom_sublist (amount total : Nat) (proofs : List StoredProof) :
    (selectFrom amount total proofs).1.Sublist proofs := by
  induction proofs generalizing total with
  | nil => simp [selectFrom]
  | cons s _ ih =>
    simp only [selectFrom]
    split
    · simp
    · exact (ih _).cons_cons s

theorem selectProofs_sublist {proofs selected : List StoredProof} {mint : String}
    {amount total : Nat} (h : selectProofs proofs mint amount = some (selected, total)) :
    selected.Sublist proofs := by
  simp only [selectProofs] at h
  split at h
  · cases h
  · injection h with h
    obtain rfl := congrArg Prod.fst h
    exact (selectFrom_sublist amount 0 _).trans List.filter_sublist

/-- Drops the proofs named by the spent ones. -/
def removeProofs (spent proofs : List StoredProof) : List StoredProof :=
  proofs.filter fun s => s.proof.c ∉ storedCs spent

/-- The proofs as stored: under the canonical mint, attached to the token event. -/
def attach (tokenEvent : Option String) (mint : String) (proofs : List Proof) :
    List StoredProof :=
  proofs.map fun p => ⟨tokenEvent, canonicalizeMintUrl mint, p⟩

/-- Drops the proofs attached to the token event. -/
def removeProofsForTokenEvent (tokenEvent : String) (proofs : List StoredProof) :
    List StoredProof :=
  proofs.filter fun s => s.tokenEvent ≠ some tokenEvent

@[simp] theorem storedCs_attach (tokenEvent : Option String) (mint : String)
    (proofs : List Proof) : storedCs (attach tokenEvent mint proofs) = proofCs proofs := by
  simp [storedCs, attach, proofCs, Function.comp_def]

/-- `1 << bit` for the bits set in a 64-bit amount. -/
def splitAmount (amount : Nat) : List Nat :=
  (List.range 64).filterMap fun bit => if amount.testBit bit then some (2 ^ bit) else none

/-- `n_inputs.saturating_mul(input_fee_ppk).div_ceil(1000)`. -/
def computeFee (inputs inputFeePpk : Nat) : Nat :=
  (min (inputs * inputFeePpk) (u64Modulus - 1) + 999) / 1000

def sumAmounts (proofs : List Proof) : Nat :=
  (proofs.map Proof.amount).foldl addU64 0

/-- The testnut family of hosts, which cannot settle a real invoice. -/
def isKnownValuelessMint (mint : String) : Bool :=
  match splitScheme (canonicalizeMintUrl mint).toList with
  | none => false
  | some (_, rest) =>
    let authority := rest.takeWhile fun c => !endsAuthority c
    let host :=
      if ':' ∈ authority then (authority.reverse.dropWhile (· ≠ ':')).tail.reverse else authority
    host == "testnut.cashu.space".toList || ".testnut.cashu.space".toList.isSuffixOf host

/-- Mints other than the target that hold at least the amount, largest balance first. -/
def spendableSourceCandidatesExcluding (proofs : List StoredProof) (exclude : String)
    (minAmount : Nat) : List (String × Nat) :=
  let eligible := proofs.filter fun s =>
    canonicalizeMintUrl s.mint ≠ canonicalizeMintUrl exclude ∧
      isKnownValuelessMint (canonicalizeMintUrl s.mint) = false
  let mints := (eligible.map fun s => canonicalizeMintUrl s.mint).dedup
  let totals := mints.map fun m =>
    (m, sumAmounts ((eligible.filter fun s => canonicalizeMintUrl s.mint = m).map
      StoredProof.proof))
  (totals.filter fun t => minAmount ≤ t.2).mergeSort fun a b =>
    b.2 < a.2 || (a.2 == b.2 && a.1 ≤ b.1)

def largestSpendableMintExcluding (proofs : List StoredProof) (exclude : String)
    (minAmount : Nat) : Option (String × Nat) :=
  (spendableSourceCandidatesExcluding proofs exclude minAmount).head?

/-- Proofs by canonical mint. -/
def groupByMint (proofs : List StoredProof) : List (String × List StoredProof) :=
  let mints := (proofs.map fun s => canonicalizeMintUrl s.mint).dedup
  mints.map fun m => (m, proofs.filter fun s => canonicalizeMintUrl s.mint = m)

end WalletProof
