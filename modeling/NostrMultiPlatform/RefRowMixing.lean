import NostrMultiPlatform.RefRows
import NostrMultiPlatform.Runs

/-!
# Rows of one identity

A host is watched together with the batches it merged. Under the applied session
and epoch it should cache only rows that such batches carried. A stray incremental
batch adopts its identity and leaves the rows; what is merged next decides.
-/
namespace RefRowMixing

open RefRows Runs

/-- A batch as it reaches the host. -/
structure Delivery where
  batch : RefRowDeltaBatch
  sessionId : Nat
  epoch : Nat
  decodeOk : Key → Payload → Bool

/-- The cache, and the deliveries merged into it so far. -/
structure Host where
  cache : RefRowCache
  merged : List Delivery

def Host.new : Host := ⟨.new, []⟩

/-- A baseline is merged when it decodes, an incremental batch when it is not stray. -/
def merges (cache : RefRowCache) (d : Delivery) : Bool :=
  if d.batch.baseline then (scratchOf d.decodeOk d.batch.rows ∅).isSome
  else !cache.identityChanged d.sessionId d.epoch

def deliver (host : Host) (d : Delivery) : Host :=
  ⟨(host.cache.apply d.batch d.sessionId d.epoch d.decodeOk).1,
    if merges host.cache d then host.merged ++ [d] else host.merged⟩

/-- Some merged batch of the identity carried the row. -/
def Carried (merged : List Delivery) (sessionId epoch : Nat) (ns : Namespace) (key : Key)
    (row : CachedRow) : Prop :=
  ∃ d ∈ merged, d.sessionId = sessionId ∧ d.epoch = epoch ∧ d.batch.ns = ns ∧
    RefRow.changed key row.rev row.payload ∈ d.batch.rows

/-- Once baselined, the host caches only rows carried under the applied identity. -/
def Unmixed (host : Host) : Prop :=
  host.cache.baselined = true → ∀ ns key row, host.cache.rowAt ns key = some row →
    Carried host.merged host.cache.appliedSession host.cache.appliedEpoch ns key row

/-- The batch takes the place of a cached row, or carries it itself. -/
def Replaces (d : Delivery) (ns : Namespace) (key : Key) (old : CachedRow) : Prop :=
  d.batch.ns = ns ∧
    (d.batch.baseline = true ∨ RefRow.changed key old.rev old.payload ∈ d.batch.rows ∨
      ∃ row ∈ d.batch.rows, row.key = key ∧ Accepted d.decodeOk row old)

/-- A batch merged under an identity that a stray batch brought in replaces every row that no batch
of that identity carried. -/
def Clears (host : Host) (d : Delivery) : Prop :=
  host.cache.baselined = false → merges host.cache d = true →
    host.cache.identityChanged d.sessionId d.epoch = false →
    ∀ ns key row, host.cache.rowAt ns key = some row →
      Carried host.merged host.cache.appliedSession host.cache.appliedEpoch ns key row ∨
        Replaces d ns key row

theorem identityChanged_eq_false {cache : RefRowCache} {sessionId epoch : Nat} :
    cache.identityChanged sessionId epoch = false ↔
      sessionId = cache.appliedSession ∧ epoch = cache.appliedEpoch := by
  simp [RefRowCache.identityChanged]

theorem Carried.append {merged : List Delivery} {sessionId epoch : Nat} {ns : Namespace} {key : Key}
    {row : CachedRow} (h : Carried merged sessionId epoch ns key row) (d : Delivery) :
    Carried (merged ++ [d]) sessionId epoch ns key row := by
  obtain ⟨d', hd', hcarried⟩ := h
  exact ⟨d', List.mem_append_left _ hd', hcarried⟩

/-- A row the batch carries, and a row carried before. -/
theorem carried_snoc {merged : List Delivery} {d : Delivery} {ns : Namespace} {key : Key}
    {row : CachedRow} :
    Carried (merged ++ [d]) d.sessionId d.epoch ns key row ↔
      Carried merged d.sessionId d.epoch ns key row ∨
        d.batch.ns = ns ∧ RefRow.changed key row.rev row.payload ∈ d.batch.rows := by
  constructor
  · rintro ⟨d', hd', hsession, hepoch, hns, hrow⟩
    rcases List.mem_append.mp hd' with hold | hnew
    · exact .inl ⟨d', hold, hsession, hepoch, hns, hrow⟩
    · obtain rfl := List.mem_singleton.mp hnew
      exact .inr ⟨hns, hrow⟩
  · rintro (hold | ⟨hns, hrow⟩)
    · exact hold.append d
    · exact ⟨d, by simp, rfl, rfl, hns, hrow⟩

variable {host : Host} {d : Delivery}

/-- A delivery that is not merged leaves the rows; the host is baselined only if it was. -/
theorem deliver_unmerged (h : merges host.cache d = false) :
    (deliver host d).cache.baselined = true →
      (deliver host d) = ⟨{ host.cache with needsResync := true }, host.merged⟩ := by
  intro hbaselined
  rw [deliver, h, if_neg Bool.false_ne_true, RefRowCache.apply] at hbaselined ⊢
  rw [merges] at h
  cases hbaseline : d.batch.baseline with
  | true =>
    simp only [hbaseline, if_true] at h ⊢
    have hnone : scratchOf d.decodeOk d.batch.rows ∅ = none := by simpa using h
    rw [applyBaseline, hnone]
  | false =>
    simp only [hbaseline, Bool.false_eq_true, if_false] at h hbaselined ⊢
    have hchanged : host.cache.identityChanged d.sessionId d.epoch = true := by simpa using h
    rw [hchanged, if_pos rfl] at hbaselined
    cases hbaselined

/-- The rows after a merged batch, of its namespace and of the others. -/
structure Merged (host : Host) (d : Delivery) (host' : Host) : Prop where
  baselined : host'.cache.baselined = true
  merged : host'.merged = host.merged ++ [d]
  session : host'.cache.appliedSession = d.sessionId
  epoch : host'.cache.appliedEpoch = d.epoch
  others : ∀ ns key, ns ≠ d.batch.ns → host'.cache.rowAt ns key =
    if host.cache.identityChanged d.sessionId d.epoch then none else host.cache.rowAt ns key
  own : ∀ key row, host'.cache.rowAt d.batch.ns key = some row →
    RefRow.changed key row.rev row.payload ∈ d.batch.rows ∨
      d.batch.baseline = false ∧ host.cache.rowAt d.batch.ns key = some row ∧
        ∀ r ∈ d.batch.rows, r.key = key → ¬ Accepted d.decodeOk r row
  kept : d.batch.baseline = false → ∀ key old, host.cache.rowAt d.batch.ns key = some old →
    (∀ r ∈ d.batch.rows, r.key = key → ¬ Accepted d.decodeOk r old) →
      host'.cache.rowAt d.batch.ns key = some old

theorem merged_deliver (h : merges host.cache d = true) : Merged host d (deliver host d) := by
  have hlog : (deliver host d).merged = host.merged ++ [d] := by rw [deliver, if_pos h]
  rw [merges] at h
  cases hbaseline : d.batch.baseline with
  | true =>
    rw [hbaseline, if_pos rfl, Option.isSome_iff_exists] at h
    obtain ⟨scratch, hscratch⟩ := h
    have hcache : (deliver host d).cache = (applyBaseline d.decodeOk d.batch
        (host.cache.identityChanged d.sessionId d.epoch) d.sessionId d.epoch host.cache).1 := by
      rw [deliver, RefRowCache.apply, hbaseline, if_pos rfl]
    rw [applyBaseline, hscratch] at hcache
    dsimp only at hcache
    have hrows := rowAt_of_rows (congrArg RefRowCache.rows hcache)
    cases hchanged : host.cache.identityChanged d.sessionId d.epoch with
    | true =>
      rw [hchanged, if_pos rfl] at hcache hrows
      refine ⟨by rw [hcache], hlog, by rw [hcache], by rw [hcache], fun ns key hne => ?_,
        fun key row hrow => ?_, fun hfalse => by rw [hbaseline] at hfalse; cases hfalse⟩
      · rw [hrows, if_neg hne, hchanged]
        rfl
      · rw [hrows, if_pos rfl] at hrow
        exact .inl ((scratchOf_origin hscratch hrow).resolve_right nofun)
    | false =>
      obtain ⟨hsession, hepoch⟩ := identityChanged_eq_false.mp hchanged
      rw [hchanged, if_neg Bool.false_ne_true] at hcache hrows
      refine ⟨by rw [hcache], hlog, by rw [hcache, hsession], by rw [hcache, hepoch],
        fun ns key hne => ?_, fun key row hrow => ?_,
        fun hfalse => by rw [hbaseline] at hfalse; cases hfalse⟩
      · rw [hrows, if_neg hne, hchanged]
        rfl
      · rw [hrows, if_pos rfl] at hrow
        exact .inl ((scratchOf_origin hscratch hrow).resolve_right nofun)
  | false =>
    rw [hbaseline, if_neg Bool.false_ne_true, Bool.not_eq_true'] at h
    obtain ⟨hsession, hepoch⟩ := identityChanged_eq_false.mp h
    have hcache : (deliver host d).cache = (applyIncremental d.decodeOk d.batch host.cache).1 := by
      rw [deliver, RefRowCache.apply, hbaseline, if_neg Bool.false_ne_true, h,
        if_neg Bool.false_ne_true]
    have hrows : ∀ ns key, (deliver host d).cache.rowAt ns key = if ns = d.batch.ns then
        (d.batch.rows.foldl (mergeRow d.decodeOk)
          ⟨host.cache.rowsOf d.batch.ns, ∅, false⟩).rows.lookup key
        else host.cache.rowAt ns key := by
      exact rowAt_of_rows (congrArg RefRowCache.rows hcache)
    refine ⟨by rw [hcache]; rfl, hlog, by rw [hcache, hsession]; rfl, by rw [hcache, hepoch]; rfl,
      fun ns key hne => ?_, fun key row hrow => ?_, fun _ key old hold hnot => ?_⟩
    · rw [hrows, if_neg hne, h]
      rfl
    · rw [hrows, if_pos rfl] at hrow
      exact (lookup_foldl_origin hrow).imp_right fun hkept => ⟨hbaseline, hkept⟩
    · rw [hrows, if_pos rfl]
      exact lookup_foldl_kept hold hnot

theorem unmixed_merged (h : Merged host d (deliver host d)) (hunmixed : Unmixed host)
    (hclears : Clears host d) (hmerges : merges host.cache d = true) :
    Unmixed (deliver host d) := by
  intro _ ns key row hrow
  rw [h.merged, h.session, h.epoch, carried_snoc]
  -- the rows that were there before, under the identity of the batch
  have hbefore : host.cache.identityChanged d.sessionId d.epoch = false →
      host.cache.rowAt ns key = some row →
      Carried host.merged d.sessionId d.epoch ns key row ∨ Replaces d ns key row := by
    intro hsame hold
    obtain ⟨hsession, hepoch⟩ := identityChanged_eq_false.mp hsame
    rw [hsession, hepoch]
    cases hbaselined : host.cache.baselined with
    | true => exact .inl (hunmixed hbaselined ns key row hold)
    | false => exact hclears hbaselined hmerges hsame ns key row hold
  by_cases hns : ns = d.batch.ns
  · subst hns
    rcases h.own key row hrow with hcarried | ⟨hincremental, hold, hnot⟩
    · exact .inr ⟨rfl, hcarried⟩
    · have hsame : host.cache.identityChanged d.sessionId d.epoch = false := by
        rw [merges, hincremental, if_neg Bool.false_ne_true, Bool.not_eq_true'] at hmerges
        exact hmerges
      rcases hbefore hsame hold with hcarried | ⟨-, hbaseline | hcarried | ⟨r, hr, hkey, haccepted⟩⟩
      · exact .inl hcarried
      · exact absurd (hincremental.symm.trans hbaseline) nofun
      · exact .inr ⟨rfl, hcarried⟩
      · exact absurd haccepted (hnot r hr hkey)
  · rw [h.others ns key hns] at hrow
    cases hchanged : host.cache.identityChanged d.sessionId d.epoch with
    | true =>
      rw [hchanged, if_pos rfl] at hrow
      cases hrow
    | false =>
      rw [hchanged, if_neg Bool.false_ne_true] at hrow
      exact .inl ((hbefore hchanged hrow).resolve_right fun hreplaces => hns hreplaces.1.symm)

theorem clears_of_unmixed (h : Unmixed (deliver host d)) : Clears host d := by
  intro _ hmerges hsame ns key row hold
  have hmerged := merged_deliver hmerges
  obtain ⟨hsession, hepoch⟩ := identityChanged_eq_false.mp hsame
  have hafter : (deliver host d).cache.rowAt ns key = some row →
      Carried host.merged d.sessionId d.epoch ns key row ∨
        d.batch.ns = ns ∧ RefRow.changed key row.rev row.payload ∈ d.batch.rows := by
    intro hrow
    have hcarried := h hmerged.baselined ns key row hrow
    rw [hmerged.merged, hmerged.session, hmerged.epoch] at hcarried
    exact carried_snoc.mp hcarried
  rw [← hsession, ← hepoch]
  by_cases hns : ns = d.batch.ns
  · subst hns
    by_cases haccepted : ∃ r ∈ d.batch.rows, r.key = key ∧ Accepted d.decodeOk r row
    · exact .inr ⟨rfl, .inr (.inr haccepted)⟩
    · cases hbaseline : d.batch.baseline with
      | true => exact .inr ⟨rfl, .inl hbaseline⟩
      | false =>
        have hkept := hmerged.kept hbaseline key row hold fun r hr hkey ha =>
          haccepted ⟨r, hr, hkey, ha⟩
        exact (hafter hkept).imp_right fun hcarried => ⟨rfl, .inr (.inl hcarried.2)⟩
  · have hkept : (deliver host d).cache.rowAt ns key = some row := by
      rw [hmerged.others ns key hns, hsame, if_neg Bool.false_ne_true, hold]
    exact (hafter hkept).imp_right fun hcarried => absurd hcarried.1.symm hns

theorem unmixed_deliver_iff (h : Unmixed host) : Unmixed (deliver host d) ↔ Clears host d := by
  refine ⟨clears_of_unmixed, fun hclears => ?_⟩
  cases hmerges : merges host.cache d with
  | true => exact unmixed_merged (merged_deliver hmerges) h hclears hmerges
  | false =>
    intro hbaselined ns key row hrow
    have hsame := deliver_unmerged hmerges hbaselined
    rw [hsame] at hbaselined hrow ⊢
    exact h hbaselined ns key row hrow

/-- Over any sequence of deliveries the host, whenever it is baselined, caches only rows that batches
merged under the applied identity carried, exactly if every batch merged under an identity that a
stray incremental batch brought in replaces the rows of other identities. -/
theorem unmixed_iff_clears (deliveries : List Delivery) :
    (∀ before, before <+: deliveries → Unmixed (run deliver .new before)) ↔
      Meets deliver Clears .new deliveries :=
  invariant_iff_meets Unmixed (fun _ _ h => unmixed_deliver_iff h) (fun h => absurd h Bool.false_ne_true) _

/-- The epoch moves on with an incremental batch, and another one follows. -/
def strayDeliveries : List Delivery :=
  let deliver (baseline : Bool) (key : Key) (epoch : Nat) : Delivery :=
    ⟨⟨"profile", baseline, [.changed key 1 [1]]⟩, 1, epoch, fun _ _ => true⟩
  [deliver true "alice" 0, deliver false "bob" 1, deliver false "carol" 1]

/-- The host is baselined with a row that only a batch of the epoch before carried. -/
theorem stray_batch_mixes :
    let host := run deliver .new strayDeliveries
    host.cache.baselined = true ∧ host.cache.appliedEpoch = 1 ∧
      host.cache.rowAt "profile" "alice" = some ⟨1, [1]⟩ ∧
      ¬ Carried host.merged 1 1 "profile" "alice" ⟨1, [1]⟩ := by
  refine ⟨by decide +kernel, by decide +kernel, by decide +kernel, ?_⟩
  rintro ⟨d, hd, -, hepoch, -, hrow⟩
  have hmerged : ∀ d ∈ (run deliver .new strayDeliveries).merged,
      d.epoch = 1 → d.batch.rows = [.changed "carol" 1 [1]] := by
    decide +kernel
  rw [hmerged d hd hepoch] at hrow
  revert hrow
  decide

end RefRowMixing
