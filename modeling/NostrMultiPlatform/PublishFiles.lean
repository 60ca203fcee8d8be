import NostrMultiPlatform.HashWalks
import NostrMultiPlatform.PublishEngine

/-!
# Publish intents in files

One file for each intent, named by its handle. Bytes that are not safe in a name
are escaped, and a scan takes the files that end in `.json`. A name that begins
with its only dot has no extension, so the file of the empty handle is not found.
-/
namespace PublishFiles

open HashWalks PublishEngine Tables

abbrev FileName : Type := List Char

/-- `char::from_digit` with capital letters. -/
def upperHexDigit (n : Nat) : Char := Char.ofNat (if n < 10 then 48 + n else 55 + n)

variable (b : UInt8) (handle : PublishHandle)

/-- `format!("%{byte:02X}")`. -/
def percentByte : List Char :=
  ['%', upperHexDigit (b.toNat / 16), upperHexDigit (b.toNat % 16)]

def isAsciiAlphanumeric : Bool :=
  (48 ≤ b && b ≤ 57) || (65 ≤ b && b ≤ 90) || (97 ≤ b && b ≤ 122)

/-- Letters, digits, `.`, `_` and `-`. -/
def isSafe : Bool := isAsciiAlphanumeric b || b == 46 || b == 95 || b == 45

def encodeByte : List Char := if isSafe b then [Char.ofNat b.toNat] else percentByte b

def asBytes : List UInt8 := handle.toUTF8.data.toList

def encodeHandle : List Char :=
  if handle = "." ∨ handle = ".." then (asBytes handle).flatMap percentByte
  else (asBytes handle).flatMap encodeByte

def recordName : FileName := encodeHandle handle ++ ".json".toList

def tmpName : FileName :=
  '.' :: (encodeHandle handle ++ ".json.tmp".toList)

/-- `Path::extension`: what follows the last dot, if something comes before it. -/
def extension (name : FileName) : Option (List Char) :=
  if name = "..".toList then none
  else
    match name.reverse.dropWhile (· != '.') with
    | _ :: _ :: _ => some (name.reverse.takeWhile (· != '.')).reverse
    | _ => none

/-- The scan takes the file. -/
def isCommitted (name : FileName) : Bool := extension name == some "json".toList

def hexValue (c : Char) : Nat := if c.toNat < 58 then c.toNat - 48 else c.toNat - 55

def decodeName : List Char → List UInt8
  | '%' :: hi :: lo :: rest => UInt8.ofNat (16 * hexValue hi + hexValue lo) :: decodeName rest
  | c :: rest => UInt8.ofNat c.toNat :: decodeName rest
  | [] => []

theorem decode_percentByte (b : UInt8) (rest : List Char) :
    decodeName (percentByte b ++ rest) = b :: decodeName rest := by
  have hdigits : ∀ n : Fin 256, UInt8.ofNat (16 * hexValue (upperHexDigit (n.val / 16)) +
      hexValue (upperHexDigit (n.val % 16))) = UInt8.ofNat n := by decide +kernel
  have hb := hdigits ⟨b.toNat, b.toNat_lt⟩
  rw [percentByte, List.cons_append, List.cons_append, List.cons_append, List.nil_append, decodeName,
    hb, UInt8.ofNat_toNat]

theorem decode_encodeByte (b : UInt8) (rest : List Char) :
    decodeName (encodeByte b ++ rest) = b :: decodeName rest := by
  rw [encodeByte]
  split
  next hsafe =>
    have hplain : ∀ n : Fin 256, isSafe (UInt8.ofNat n) = true →
        Char.ofNat n ≠ '%' ∧ UInt8.ofNat (Char.ofNat n).toNat = UInt8.ofNat n := by decide +kernel
    obtain ⟨hne, hback⟩ := hplain ⟨b.toNat, b.toNat_lt⟩ (by rwa [UInt8.ofNat_toNat])
    rw [List.cons_append, List.nil_append, decodeName, hback, UInt8.ofNat_toNat]
    intro hi lo rest' heq
    exact absurd heq hne
  next => exact decode_percentByte b rest

theorem decode_flatMap {code : UInt8 → List Char}
    (h : ∀ b rest, decodeName (code b ++ rest) = b :: decodeName rest) (bytes : List UInt8) :
    decodeName (bytes.flatMap code) = bytes := by
  induction bytes with
  | nil => rfl
  | cons _ _ ih => rw [List.flatMap_cons, h, ih]

/-- Whatever is escaped, the name gives the bytes of the handle back. -/
theorem decode_encodeHandle (handle : PublishHandle) :
    decodeName (encodeHandle handle) = asBytes handle := by
  rw [encodeHandle]
  split
  · exact decode_flatMap decode_percentByte _
  · exact decode_flatMap decode_encodeByte _

theorem asBytes_injective : Function.Injective asBytes := by
  intro a b h
  exact String.toByteArray_inj.mp (ByteArray.ext (Array.toList_inj.mp h))

theorem encodeHandle_injective : Function.Injective encodeHandle := by
  intro a b h
  refine asBytes_injective ?_
  rw [← decode_encodeHandle, h, decode_encodeHandle]

theorem recordName_injective : Function.Injective recordName := fun _ _ h =>
  encodeHandle_injective (List.append_cancel_right h)

theorem encodeHandle_eq_nil {handle : PublishHandle} : encodeHandle handle = [] ↔ handle = "" := by
  rw [← encodeHandle_injective.eq_iff (b := "")]
  exact Iff.rfl

/-- A single segment of a path: safe characters and `%` only, and none of the names with a meaning. -/
structure IsSegment (name : FileName) : Prop where
  chars : ∀ c ∈ name, c.isAlphanum = true ∨ c ∈ ['.', '_', '-', '%']
  named : name ≠ [] ∧ name ≠ ['.'] ∧ name ≠ ['.', '.']

theorem chars_of_all {name : FileName}
    (h : name.all (fun c => c.isAlphanum || ['.', '_', '-', '%'].contains c) = true) :
    ∀ c ∈ name, c.isAlphanum = true ∨ c ∈ ['.', '_', '-', '%'] := by
  simpa using h

theorem encodeHandle_chars (handle : PublishHandle) {c : Char} (h : c ∈ encodeHandle handle) :
    c.isAlphanum = true ∨ c ∈ ['.', '_', '-', '%'] := by
  have hpercent : ∀ n : Fin 256, (percentByte (UInt8.ofNat n)).all
      (fun c => c.isAlphanum || ['.', '_', '-', '%'].contains c) = true := by decide +kernel
  have hencode : ∀ n : Fin 256, (encodeByte (UInt8.ofNat n)).all
      (fun c => c.isAlphanum || ['.', '_', '-', '%'].contains c) = true := by decide +kernel
  rw [encodeHandle] at h
  split at h
  all_goals
    obtain ⟨b, -, hc⟩ := List.mem_flatMap.mp h
  · exact chars_of_all (hpercent ⟨b.toNat, b.toNat_lt⟩) c (by rwa [UInt8.ofNat_toNat])
  · exact chars_of_all (hencode ⟨b.toNat, b.toNat_lt⟩) c (by rwa [UInt8.ofNat_toNat])

theorem isSegment_recordName (handle : PublishHandle) : IsSegment (recordName handle) where
  chars c hc := by
    rcases List.mem_append.mp hc with hencoded | hsuffix
    · exact encodeHandle_chars handle hencoded
    · exact chars_of_all (by decide) c hsuffix
  named := by
    have hlength : 5 ≤ (recordName handle).length := by
      rw [recordName, List.length_append]
      exact Nat.le_add_left 5 _
    refine ⟨?_, ?_, ?_⟩ <;> intro heq <;> rw [heq] at hlength <;> exact absurd hlength (by decide)

theorem isSegment_tmpName (handle : PublishHandle) : IsSegment (tmpName handle) where
  chars c hc := by
    rcases List.mem_cons.mp hc with rfl | hrest
    · decide
    rcases List.mem_append.mp hrest with hencoded | hsuffix
    · exact encodeHandle_chars handle hencoded
    · exact chars_of_all (by decide) c hsuffix
  named := by
    have hlength : 9 ≤ (tmpName handle).length := by
      rw [tmpName, List.length_cons, List.length_append]
      exact Nat.le_succ_of_le (Nat.le_add_left 9 _)
    refine ⟨?_, ?_, ?_⟩ <;> intro heq <;> rw [heq] at hlength <;> exact absurd hlength (by decide)

theorem recordName_ne_tmpName (handle other : PublishHandle) : recordName handle ≠ tmpName other := by
  intro heq
  have hlast := congrArg List.getLast? heq
  rw [recordName, tmpName, ← List.cons_append, List.getLast?_append, List.getLast?_append] at hlast
  exact absurd (Option.some.inj hlast) (by decide)

/-- The scan takes the file of every handle but the empty one. -/
theorem isCommitted_recordName (handle : PublishHandle) :
    isCommitted (recordName handle) = true ↔ handle ≠ "" := by
  have hreverse : (recordName handle).reverse = "nosj.".toList ++ (encodeHandle handle).reverse := by
    rw [recordName, List.reverse_append]
    rfl
  have hdots : recordName handle ≠ "..".toList := (isSegment_recordName handle).named.2.2
  rw [isCommitted, extension, if_neg hdots, hreverse, ne_eq, ← encodeHandle_eq_nil]
  cases hname : (encodeHandle handle).reverse with
  | nil =>
    rw [List.reverse_eq_nil_iff.mp hname]
    decide
  | cons =>
    refine iff_of_true rfl fun hnil => ?_
    rw [hnil] at hname
    cases hname

theorem isCommitted_tmpName (handle : PublishHandle) : isCommitted (tmpName handle) = false := by
  have hreverse : (tmpName handle).reverse =
      "pmt.nosj.".toList ++ ((encodeHandle handle).reverse ++ ['.']) := by
    rw [tmpName, List.reverse_cons, List.reverse_append, List.append_assoc]
    rfl
  have hdots : tmpName handle ≠ "..".toList := (isSegment_tmpName handle).named.2.2
  rw [isCommitted, extension, if_neg hdots, hreverse]
  rfl

/-- How records are written to files and read from them. -/
structure Serde (Bytes : Type) where
  toVec : PublishRecord → Bytes
  fromSlice : Bytes → Option PublishRecord
  roundTrip : ∀ record, fromSlice (toVec record) = some record

variable {Bytes : Type}

/-- The directory of the intents, once it has been created. -/
structure FsPublishStore (Bytes : Type) where
  intents : Option (Table FileName Bytes)

/-- `fs::rename`; the new name may be taken. -/
def rename (dir : Table FileName Bytes) (old new : FileName) : Table FileName Bytes :=
  match dir.lookup old with
  | some bytes => (dir.erase old).insert new bytes
  | none => dir

namespace FsPublishStore

def new : FsPublishStore Bytes := ⟨none⟩

variable (serde : Serde Bytes) (store : FsPublishStore Bytes)

def upsert (record : PublishRecord) : FsPublishStore Bytes :=
  let dir := store.intents.getD ∅
  let written := dir.insert (tmpName record.handle) (serde.toVec record)
  ⟨some (rename written (tmpName record.handle) (recordName record.handle))⟩

/-- A missing file is not an error. -/
def delete (handle : PublishHandle) : FsPublishStore Bytes :=
  ⟨store.intents.map (·.erase (recordName handle))⟩

/-- The record of a file, if the scan takes the file and can read it. -/
def scanFile (dir : Table FileName Bytes) (name : FileName) : Option PublishRecord :=
  if isCommitted name then (dir.lookup name).bind serde.fromSlice else none

def loadPending (o : WalkOrder FileName) (store : FsPublishStore Bytes) : List PublishRecord :=
  match store.intents with
  | none => []
  | some dir =>
    (((o.order dir.keys).filterMap (scanFile serde dir)).filter isPending).mergeSort
      fun a b => a.handle ≤ b.handle

/-- The contents of a file. -/
def read (name : FileName) : Option Bytes :=
  store.intents.bind (·.lookup name)

end FsPublishStore

inductive Call where
  | upsert (record : PublishRecord)
  | delete (handle : PublishHandle)

/-- What the map has under each handle after one more call. -/
def update (latest : PublishHandle → Option PublishRecord) :
    Call → PublishHandle → Option PublishRecord
  | .upsert record => Function.update latest record.handle (some record)
  | .delete handle => Function.update latest handle none

def latest (calls : List Call) : PublishHandle → Option PublishRecord :=
  Runs.run update (fun _ => none) calls

def perform (serde : Serde Bytes) (store : FsPublishStore Bytes) : Call → FsPublishStore Bytes
  | .upsert record => store.upsert serde record
  | .delete handle => store.delete handle

def storeAfter (serde : Serde Bytes) (calls : List Call) : FsPublishStore Bytes :=
  Runs.run (perform serde) .new calls

/-- The pending records of the map, in the order of their handles. -/
def LoadsMap (latest : PublishHandle → Option PublishRecord) (loaded : List PublishRecord) : Prop :=
  loaded.Pairwise (fun a b => a.handle < b.handle) ∧
    ∀ record, record ∈ loaded ↔ latest record.handle = some record ∧ isPending record = true

/-- The files of the directory are those of the records of the map. -/
structure Holds (serde : Serde Bytes) (store : FsPublishStore Bytes)
    (latest : PublishHandle → Option PublishRecord) : Prop where
  keyed : ∀ handle record, latest handle = some record → record.handle = handle
  file : ∀ handle, store.read (recordName handle) = (latest handle).map serde.toVec
  named : ∀ name bytes, store.read name = some bytes → ∃ handle, name = recordName handle

theorem read_upsert (serde : Serde Bytes) (store : FsPublishStore Bytes) (record : PublishRecord)
    (name : FileName) : (store.upsert serde record).read name =
      if name = recordName record.handle then some (serde.toVec record)
      else if name = tmpName record.handle then none else store.read name := by
  have hread : store.read name = (store.intents.getD ∅).lookup name := by
    rw [FsPublishStore.read]
    cases store.intents with
    | none | some => rfl
  rw [FsPublishStore.upsert, FsPublishStore.read, rename, AList.lookup_insert, Option.bind_some,
    lookup_insert_eq, lookup_erase_eq, lookup_insert_eq, hread]
  by_cases htmp : name = tmpName record.handle
  · rw [if_pos htmp, if_pos htmp]
  · rw [if_neg htmp, if_neg htmp, if_neg htmp]

theorem read_delete (store : FsPublishStore Bytes) (handle : PublishHandle) (name : FileName) :
    (store.delete handle).read name =
      if name = recordName handle then none else store.read name := by
  rw [FsPublishStore.delete, FsPublishStore.read, FsPublishStore.read]
  cases store.intents with
  | none => simp
  | some dir => exact lookup_erase_eq dir _ _

theorem Holds.perform {serde : Serde Bytes} {store : FsPublishStore Bytes}
    {latest : PublishHandle → Option PublishRecord} (h : Holds serde store latest) (call : Call) :
    Holds serde (perform serde store call) (update latest call) := by
  cases call with
  | upsert record =>
    refine ⟨fun handle found hfound => ?_, fun handle => ?_, fun name bytes hread => ?_⟩
    · rw [update, Function.update_apply] at hfound
      split at hfound
      · exact (Option.some.inj hfound) ▸ ‹handle = _›.symm
      · exact h.keyed handle found hfound
    · rw [PublishFiles.perform, read_upsert, if_neg (recordName_ne_tmpName handle _), update,
        Function.update_apply]
      by_cases hsame : handle = record.handle
      · rw [if_pos hsame, if_pos (congrArg recordName hsame), Option.map_some]
      · rw [if_neg hsame, if_neg (recordName_injective.ne hsame), h.file]
    · rw [PublishFiles.perform, read_upsert] at hread
      split at hread
      · exact ⟨record.handle, ‹_›⟩
      split at hread
      · cases hread
      · exact h.named name bytes hread
  | delete handle =>
    refine ⟨fun other found hfound => ?_, fun other => ?_, fun name bytes hread => ?_⟩
    · rw [update, Function.update_apply] at hfound
      split at hfound
      · cases hfound
      · exact h.keyed other found hfound
    · rw [PublishFiles.perform, read_delete, update, Function.update_apply]
      by_cases hsame : other = handle
      · rw [if_pos hsame, if_pos (congrArg recordName hsame), Option.map_none]
      · rw [if_neg hsame, if_neg (recordName_injective.ne hsame), h.file]
    · rw [PublishFiles.perform, read_delete] at hread
      split at hread
      · cases hread
      · exact h.named name bytes hread

theorem holds_after (serde : Serde Bytes) (calls : List Call) :
    Holds serde (storeAfter serde calls) (latest calls) := by
  have hrun : ∀ (calls : List Call) {store latest}, Holds serde store latest →
      Holds serde (Runs.run (perform serde) store calls) (Runs.run update latest calls) := by
    intro calls
    induction calls with
    | nil => exact fun h => h
    | cons call _ ih => exact fun h => ih (h.perform call)
  exact hrun calls ⟨nofun, fun _ => rfl, nofun⟩

section Loading

variable {serde : Serde Bytes} {store : FsPublishStore Bytes}
  {latest : PublishHandle → Option PublishRecord}

/-- The files of a directory. -/
theorem Holds.scanned (h : Holds serde store latest) {dir : Table FileName Bytes}
    (hdir : store.intents = some dir) {name : FileName} {record : PublishRecord} :
    FsPublishStore.scanFile serde dir name = some record ↔
      name = recordName record.handle ∧ latest record.handle = some record ∧ record.handle ≠ "" := by
  have hread : store.read name = dir.lookup name := by rw [FsPublishStore.read, hdir, Option.bind_some]
  rw [FsPublishStore.scanFile, ← hread]
  constructor
  · intro hscan
    split at hscan
    next hcommitted =>
      obtain ⟨bytes, hbytes, hslice⟩ := Option.bind_eq_some_iff.mp hscan
      obtain ⟨handle, rfl⟩ := h.named name bytes hbytes
      rw [h.file] at hbytes
      obtain ⟨found, hfound, rfl⟩ := Option.map_eq_some_iff.mp hbytes
      rw [serde.roundTrip] at hslice
      obtain rfl := Option.some.inj hslice
      obtain rfl := h.keyed handle found hfound
      exact ⟨rfl, hfound, (isCommitted_recordName _).mp hcommitted⟩
    next => cases hscan
  · rintro ⟨rfl, hlatest, hne⟩
    rw [if_pos ((isCommitted_recordName _).mpr hne), h.file, hlatest, Option.map_some,
      Option.bind_some, serde.roundTrip]

/-- What a load brings: the pending records of the map that have a handle. -/
theorem Holds.mem_loadPending (h : Holds serde store latest) (o : WalkOrder FileName)
    {record : PublishRecord} : record ∈ store.loadPending serde o ↔
      (latest record.handle = some record ∧ isPending record = true) ∧ record.handle ≠ "" := by
  rw [FsPublishStore.loadPending]
  cases hdir : store.intents with
  | none =>
    refine iff_of_false List.not_mem_nil fun hthere => ?_
    have hfile := h.file record.handle
    rw [FsPublishStore.read, hdir, hthere.1.1] at hfile
    cases hfile
  | some =>
    dsimp only
    rw [List.mem_mergeSort, List.mem_filter, List.mem_filterMap]
    constructor
    · rintro ⟨⟨name, -, hscan⟩, hpending⟩
      obtain ⟨-, hlatest, hne⟩ := (h.scanned hdir).mp hscan
      exact ⟨⟨hlatest, hpending⟩, hne⟩
    · rintro ⟨⟨hlatest, hpending⟩, hne⟩
      refine ⟨⟨recordName record.handle, (o.perm _).mem_iff.mpr ?_,
        (h.scanned hdir).mpr ⟨rfl, hlatest, hne⟩⟩, hpending⟩
      have hfile := h.file record.handle
      rw [FsPublishStore.read, hdir, hlatest] at hfile
      exact AList.mem_keys.mpr ((mem_iff_lookup _ _).mpr ⟨_, hfile⟩)

/-- The records come in the order of their handles, one for each. -/
theorem Holds.sorted_loadPending (h : Holds serde store latest) (o : WalkOrder FileName) :
    (store.loadPending serde o).Pairwise fun a b => a.handle < b.handle := by
  rw [FsPublishStore.loadPending]
  cases hdir : store.intents with
  | none => exact List.Pairwise.nil
  | some dir =>
    dsimp only
    generalize hrecords : ((o.order dir.keys).filterMap (FsPublishStore.scanFile serde dir)).filter
      isPending = records
    have hnodup : records.Pairwise fun a b => a.handle ≠ b.handle := by
      have hkeys : (o.order dir.keys).Nodup := (o.perm _).nodup_iff.mpr dir.keys_nodup
      rw [← hrecords]
      refine (List.pairwise_filterMap.mpr (hkeys.imp fun hne a ha b hb heq => ?_)).filter _
      obtain ⟨rfl, -⟩ := (h.scanned hdir).mp ha
      obtain ⟨rfl, -⟩ := (h.scanned hdir).mp hb
      exact hne (congrArg recordName heq)
    have hsorted := @List.pairwise_mergeSort _
      (fun a b : PublishRecord => decide (a.handle ≤ b.handle))
      (fun a b c hab hbc => decide_eq_true ((of_decide_eq_true hab).trans (of_decide_eq_true hbc)))
      (fun a b => by simpa using le_total a.handle b.handle) records
    have hdistinct :=
      (List.mergeSort_perm records fun a b => decide (a.handle ≤ b.handle)).symm.pairwise
        hnodup fun hne => hne.symm
    exact hsorted.imp₂ (fun a b hle hne => lt_of_le_of_ne (of_decide_eq_true hle) hne) hdistinct

end Loading

/-- The store is the map of its calls if and only if the empty handle has no pending record.
Names are told apart, stay in the directory, and only that of the empty handle is passed over. -/
theorem loads_map_iff (serde : Serde Bytes) (o : WalkOrder FileName) (calls : List Call) :
    (LoadsMap (latest calls) ((storeAfter serde calls).loadPending serde o) ↔
      ∀ record, latest calls "" = some record → isPending record = false) ∧
    Function.Injective recordName ∧
    (∀ handle, IsSegment (recordName handle) ∧ IsSegment (tmpName handle)) ∧
    ∀ handle, (isCommitted (recordName handle) = true ↔ handle ≠ "") ∧
      isCommitted (tmpName handle) = false := by
  have hholds := holds_after serde calls
  refine ⟨⟨fun hmap record hlatest => ?_, fun hempty => ?_⟩, recordName_injective,
    fun handle => ⟨isSegment_recordName handle, isSegment_tmpName handle⟩,
    fun handle => ⟨isCommitted_recordName handle, isCommitted_tmpName handle⟩⟩
  · rw [← Bool.not_eq_true]
    intro hpending
    have hhandle := hholds.keyed "" record hlatest
    have hloaded := (hmap.2 record).mpr ⟨hhandle ▸ hlatest, hpending⟩
    exact ((hholds.mem_loadPending o).mp hloaded).2 hhandle
  · refine ⟨hholds.sorted_loadPending o, fun record => (hholds.mem_loadPending o).trans
      ⟨fun hloaded => hloaded.1, fun hthere => ⟨hthere, fun hnone => ?_⟩⟩⟩
    rw [hnone] at hthere
    exact absurd (hempty record hthere.1) (by rw [hthere.2]; decide)

/-- A pending record under the empty handle. -/
def nameless : PublishRecord :=
  ⟨"", ⟨"ab", "cd", "ef", 1, [], "note", 0⟩, .auto, [("wss://relay.test", .pending)], [], []⟩

/-- It is written and not found again. -/
theorem empty_handle_lost : ¬ LoadsMap (latest [.upsert nameless])
    ((storeAfter ⟨id, some, fun _ => rfl⟩ [.upsert nameless]).loadPending ⟨id, some, fun _ => rfl⟩
      .sorted) := by
  intro hmap
  have hloaded := (hmap.2 nameless).mpr ⟨rfl, rfl⟩
  exact (((holds_after _ _).mem_loadPending .sorted).mp hloaded).2 rfl

end PublishFiles
