import NostrMultiPlatform.PostingIndex
import NostrMultiPlatform.StoreEvent

/-!
# Search text

The tokenizer that indexing and querying share, and the keys of the full-text
index. What Unicode says of a text (its compatibility form in lower case, and
which characters are alphanumeric) is data of the tokenizer.
-/
namespace StoreText

open StoreEvent

structure TextRules where
  normalize : String → String
  isAlphanumeric : Char → Bool

def minTokenBytes : Nat := 2
def maxTokensPerDoc : Nat := 256
def maxTokenBytes : Nat := 128

/-- The longest prefix of at most `maxBytes` bytes. -/
def truncateToCharBoundary : Nat → List Char → List Char
  | _, [] => []
  | maxBytes, c :: cs =>
    if c.utf8Size ≤ maxBytes then c :: truncateToCharBoundary (maxBytes - c.utf8Size) cs else []

def pushToken (out : List String) (cur : List Char) : List String :=
  if minTokenBytes ≤ (String.ofList cur).utf8ByteSize then
    out ++ [if maxTokenBytes < (String.ofList cur).utf8ByteSize then
      String.ofList (truncateToCharBoundary maxTokenBytes cur) else String.ofList cur]
  else out

/-- The tokens found so far and the run that is being read. -/
def tokenizeFrom (rules : TextRules) : List Char → List String → List Char → List String
  | [], out, cur => if cur ≠ [] ∧ out.length < maxTokensPerDoc then pushToken out cur else out
  | ch :: rest, out, cur =>
    if rules.isAlphanumeric ch then tokenizeFrom rules rest out (cur ++ [ch])
    else if cur = [] then tokenizeFrom rules rest out []
    else if maxTokensPerDoc ≤ (pushToken out cur).length then pushToken out cur
    else tokenizeFrom rules rest (pushToken out cur) []

def tokenize (rules : TextRules) (text : String) : List String :=
  tokenizeFrom rules (rules.normalize text).toList [] []

/-- All tokens but the last are exact terms, the last one is a prefix. -/
def splitQueryTerms (rules : TextRules) (query : String) : List String × Option String :=
  ((tokenize rules query).dropLast, (tokenize rules query).getLast?)

def isPrefixMatch (candidate pre : String) : Bool := pre.toList.isPrefixOf candidate.toList

/-- Documents are ordered by their bytes. -/
structure SearchDocumentKey where
  bytes : EventId
  deriving Repr

def SearchDocumentKey.order (doc : SearchDocumentKey) : List Nat := doc.bytes.map UInt8.toNat

theorem SearchDocumentKey.order_injective : Function.Injective SearchDocumentKey.order := by
  intro a b h
  have hbytes : a.bytes = b.bytes := List.map_injective_iff.mpr (fun _ _ => UInt8.toNat_inj.mp) h
  cases a
  cases b
  exact congrArg SearchDocumentKey.mk hbytes

instance : LinearOrder SearchDocumentKey :=
  LinearOrder.lift' SearchDocumentKey.order SearchDocumentKey.order_injective

def u64Max : Nat := 2 ^ 64 - 1

/-- The rank that puts the newest first. -/
def revCreatedAt (createdAt : Nat) : Nat := u64Max - createdAt

end StoreText
