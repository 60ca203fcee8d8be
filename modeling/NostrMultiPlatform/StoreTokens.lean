import NostrMultiPlatform.StoreQuery

/-!
# Tokens

What the tokenizer emits: one token for each maximal run of alphanumeric characters
of the normalized text that is long enough, cut at a character boundary where it is
too long, up to the cap. A repeated word is emitted again. A token that
normalization leaves alone is its own only token, so that a query for it finds
every document it was indexed for; normalization may change a token, as what it put
in lower case may compose.
-/
namespace StoreTokens

open StoreText StoreState StoreQuery Sorted

variable {rules : TextRules} {text tok : String}

def bytes (cs : List Char) : Nat := (String.ofList cs).utf8ByteSize

@[simp] theorem bytes_nil : bytes [] = 0 := rfl

@[simp] theorem bytes_cons (c : Char) (cs : List Char) : bytes (c :: cs) = c.utf8Size + bytes cs := by
  rw [bytes, String.ofList_cons, String.utf8ByteSize_append, String.utf8ByteSize_singleton, bytes]

/-- The truncated run is a first part of the run. -/
theorem truncate_prefix (maxBytes : Nat) (cs : List Char) :
    truncateToCharBoundary maxBytes cs <+: cs := by
  induction cs generalizing maxBytes with
  | nil => exact List.nil_prefix
  | cons _ _ ih =>
    rw [truncateToCharBoundary]
    split
    · exact List.cons_prefix_cons.mpr ⟨rfl, ih _⟩
    · exact List.nil_prefix

theorem bytes_truncate_le (maxBytes : Nat) (cs : List Char) :
    bytes (truncateToCharBoundary maxBytes cs) ≤ maxBytes := by
  induction cs generalizing maxBytes with
  | nil => exact Nat.zero_le _
  | cons c _ ih =>
    rw [truncateToCharBoundary]
    split
    next hfits =>
      have hrest := ih (maxBytes - c.utf8Size)
      rw [bytes_cons]
      omega
    · exact Nat.zero_le _

/-- Nothing more would have fitted. -/
theorem lt_bytes_truncate {maxBytes : Nat} {cs : List Char} (h : maxBytes < bytes cs) :
    maxBytes < bytes (truncateToCharBoundary maxBytes cs) + 4 := by
  induction cs generalizing maxBytes with
  | nil => exact absurd h (Nat.not_lt_zero _)
  | cons c _ ih =>
    have hsize := Char.utf8Size_le_four c
    rw [bytes_cons] at h
    rw [truncateToCharBoundary]
    split
    next hfits =>
      have hrest : maxBytes - c.utf8Size < _ := ih (by omega)
      rw [bytes_cons]
      omega
    · rw [bytes_nil]
      omega

/-- The maximal runs of alphanumeric characters, with empty ones between separators. -/
def runs (rules : TextRules) (cs : List Char) : List (List Char) :=
  cs.splitOnP fun c => !rules.isAlphanumeric c

/-- A run with its length capped. -/
def clip (cs : List Char) : List Char :=
  if maxTokenBytes < bytes cs then truncateToCharBoundary maxTokenBytes cs else cs

/-- The token of a run that is long enough. -/
def tokenOf (cs : List Char) : Option String :=
  if minTokenBytes ≤ bytes cs then some (String.ofList (clip cs)) else none

theorem pushToken_eq (out : List String) (cur : List Char) :
    pushToken out cur = out ++ (tokenOf cur).toList := by
  unfold pushToken tokenOf clip bytes
  split
  · split <;> rfl
  · exact (List.append_nil out).symm

theorem clip_initial (cs : List Char) : clip cs <+: cs := by
  unfold clip
  split
  · exact truncate_prefix _ _
  · exact List.prefix_refl cs

theorem bytes_clip_le (cs : List Char) : bytes (clip cs) ≤ maxTokenBytes := by
  unfold clip
  split
  · exact bytes_truncate_le _ _
  next hshort => exact Nat.le_of_not_lt hshort

theorem le_bytes_clip {cs : List Char} (h : minTokenBytes ≤ bytes cs) :
    minTokenBytes ≤ bytes (clip cs) := by
  unfold clip
  split
  next hlong =>
    have hcut := lt_bytes_truncate hlong
    have hmin : minTokenBytes + 4 ≤ maxTokenBytes := by decide
    omega
  · exact h

/-- The tokens of the runs of a text, with the run that is being read in front. -/
def pending (rules : TextRules) (cs cur : List Char) : List String :=
  ((runs rules cs).modifyHead (cur ++ ·)).filterMap tokenOf

theorem pending_nil (rules : TextRules) (cur : List Char) :
    pending rules [] cur = (tokenOf cur).toList := by
  rw [pending, runs, List.splitOnP_nil, List.modifyHead_cons, List.append_nil]
  cases h : tokenOf cur <;> simp [h]

theorem pending_alphanumeric {c : Char} (h : rules.isAlphanumeric c = true) (cs cur : List Char) :
    pending rules (c :: cs) cur = pending rules cs (cur ++ [c]) := by
  rw [pending, pending, runs, List.splitOnP_cons_eq_if_modifyHead, h, Bool.not_true, if_neg Bool.false_ne_true,
    List.modifyHead_modifyHead]
  simp [Function.comp_def, runs]

theorem pending_separator {c : Char} (h : rules.isAlphanumeric c = false) (cs cur : List Char) :
    pending rules (c :: cs) cur = (tokenOf cur).toList ++ pending rules cs [] := by
  have hid : (runs rules cs).modifyHead ([] ++ ·) = runs rules cs := by
    cases runs rules cs <;> rfl
  rw [pending, pending, hid, runs, List.splitOnP_cons_eq_if_modifyHead, h, Bool.not_false, if_pos rfl,
    List.modifyHead_cons, List.append_nil, runs]
  cases htoken : tokenOf cur <;> simp [htoken]

/-- The loop collects the pending tokens up to the cap. -/
theorem tokenizeFrom_eq (cs cur : List Char) {out : List String}
    (h : out.length < maxTokensPerDoc) :
    tokenizeFrom rules cs out cur = (out ++ pending rules cs cur).take maxTokensPerDoc := by
  have hone : ∀ cur, (tokenOf cur).toList.length ≤ 1 := fun cur => by
    cases tokenOf cur <;> simp
  have hnone : tokenOf [] = none := rfl
  induction cs generalizing out cur with
  | nil =>
    have hfits : (out ++ (tokenOf cur).toList).length ≤ maxTokensPerDoc := by
      have := hone cur
      rw [List.length_append]
      omega
    rw [tokenizeFrom, pending_nil, List.take_of_length_le hfits]
    split
    · exact pushToken_eq out cur
    next hskip =>
      have hempty : cur = [] := by
        by_contra hne
        exact hskip ⟨hne, h⟩
      rw [hempty, hnone]
      exact (List.append_nil out).symm
  | cons _ _ ih =>
    rw [tokenizeFrom]
    split
    next halpha => rw [ih _ h, pending_alphanumeric halpha]
    next hseparator =>
      rw [pending_separator (Bool.eq_false_iff.mpr hseparator), ← List.append_assoc, ← pushToken_eq]
      split
      next hempty => rw [hempty, ih _ h, pushToken_eq, hnone, Option.toList_none, List.append_nil]
      · split
        next hfull =>
          have hlength : (pushToken out cur).length ≤ maxTokensPerDoc := by
            have := hone cur
            rw [pushToken_eq, List.length_append]
            omega
          rw [List.take_append_of_le_length hfull, List.take_of_length_le hlength]
        next hroom => exact ih _ (Nat.lt_of_not_le hroom)

/-- All tokens are those of the runs, up to the cap. -/
theorem tokenize_eq (rules : TextRules) (text : String) : tokenize rules text =
    ((runs rules (rules.normalize text).toList).filterMap tokenOf).take maxTokensPerDoc := by
  have hid : (runs rules (rules.normalize text).toList).modifyHead ([] ++ ·) =
      runs rules (rules.normalize text).toList := by
    cases runs rules (rules.normalize text).toList <;> rfl
  rw [tokenize, tokenizeFrom_eq _ _ (by decide), List.nil_append, pending, hid]

theorem alphanumeric_of_mem_runs {cs run : List Char} (h : run ∈ runs rules cs) :
    ∀ c ∈ run, rules.isAlphanumeric c = true := by
  induction cs generalizing run with
  | nil =>
    rw [runs, List.splitOnP_nil, List.mem_singleton] at h
    rw [h]
    exact fun c hc => absurd hc List.not_mem_nil
  | cons c cs ih =>
    rw [runs, List.splitOnP_cons_eq_if_modifyHead] at h
    split at h
    · rcases List.mem_cons.mp h with rfl | h
      · exact fun c hc => absurd hc List.not_mem_nil
      · exact ih h
    next halpha =>
      obtain ⟨first, rest, hruns⟩ := List.exists_cons_of_ne_nil
        (List.splitOnP_ne_nil (fun c => !rules.isAlphanumeric c) cs)
      have hfirst : ∀ c ∈ first, rules.isAlphanumeric c := ih (by rw [runs, hruns]; exact List.mem_cons_self)
      rw [hruns, List.modifyHead_cons] at h
      rcases List.mem_cons.mp h with rfl | h
      · intro c' hc'
        rcases List.mem_cons.mp hc' with rfl | hc'
        · simpa using halpha
        · exact hfirst c' hc'
      · exact ih (by rw [runs, hruns]; exact List.mem_cons_of_mem _ h)

section

variable (h : tok ∈ tokenize rules text)
include h

/-- Every token comes from one run. -/
theorem exists_run :
    ∃ run ∈ runs rules (rules.normalize text).toList,
      minTokenBytes ≤ bytes run ∧ tok = String.ofList (clip run) := by
  rw [tokenize_eq] at h
  obtain ⟨run, hrun, htoken⟩ := List.mem_filterMap.mp (List.mem_of_mem_take h)
  unfold tokenOf at htoken
  split at htoken
  next hlong => exact ⟨run, hrun, hlong, (Option.some.inj htoken).symm⟩
  · cases htoken

theorem token_bounds : minTokenBytes ≤ tok.utf8ByteSize ∧ tok.utf8ByteSize ≤ maxTokenBytes := by
  obtain ⟨run, -, hlong, rfl⟩ := exists_run h
  exact ⟨le_bytes_clip hlong, bytes_clip_le run⟩

theorem token_alphanumeric : ∀ c ∈ tok.toList, rules.isAlphanumeric c = true := by
  obtain ⟨run, hrun, -, rfl⟩ := exists_run h
  intro c hc
  rw [String.toList_ofList] at hc
  exact alphanumeric_of_mem_runs hrun c ((clip_initial run).subset hc)

/-- A token that normalization leaves alone is its own only token. -/
theorem tokenize_token (hstable : rules.normalize tok = tok) : tokenize rules tok = [tok] := by
  obtain ⟨hlong, hshort⟩ := token_bounds h
  have hone : runs rules tok.toList = [tok.toList] :=
    List.splitOnP_eq_singleton fun c hc => by rw [token_alphanumeric h c hc]; rfl
  have hbytes : bytes tok.toList = tok.utf8ByteSize := by rw [bytes, String.ofList_toList]
  have htoken : tokenOf tok.toList = some tok := by
    rw [tokenOf, if_pos (hbytes ▸ hlong), clip, if_neg (by omega), String.ofList_toList]
  rw [tokenize_eq, hstable, hone, List.filterMap_cons_some htoken, List.filterMap_nil]
  rfl

theorem splitQueryTerms_token (hstable : rules.normalize tok = tok) :
    splitQueryTerms rules tok = ([], some tok) := by
  rw [splitQueryTerms, tokenize_token h hstable]
  rfl

end

theorem isPrefixMatch_self (tok : String) : isPrefixMatch tok tok = true :=
  List.isPrefixOf_iff_prefix.mpr (List.prefix_refl _)

/-- What the tokenizer does with a text. -/
structure Tokenized (rules : TextRules) (text : String) : Prop where
  /-- Each run that is long enough gives one token, in order, up to the cap. -/
  tokens : tokenize rules text =
    ((runs rules (rules.normalize text).toList).filterMap tokenOf).take maxTokensPerDoc
  count : (tokenize rules text).length ≤ maxTokensPerDoc
  bounds : ∀ tok ∈ tokenize rules text,
    minTokenBytes ≤ tok.utf8ByteSize ∧ tok.utf8ByteSize ≤ maxTokenBytes
  /-- A token is made of the first characters of a run, of all of them unless they are too long. -/
  whole : ∀ tok ∈ tokenize rules text, ∃ run ∈ runs rules (rules.normalize text).toList,
    tok.toList <+: run ∧ (bytes run ≤ maxTokenBytes → tok.toList = run)
  stable : ∀ tok ∈ tokenize rules text, rules.normalize tok = tok →
    tokenize rules tok = [tok] ∧ splitQueryTerms rules tok = ([], some tok)
  /-- A query for a token finds every document that the text is indexed for. -/
  found : ∀ tok ∈ tokenize rules text, rules.normalize tok = tok →
    ∀ (spec : CompiledIndexSpec) stored field, field ∈ spec.extract stored → field.2 = text →
      ∃ pre, (splitQueryTerms rules tok).2 = some pre ∧
        HasTerms (splitQueryTerms rules tok).1 pre (docTokens rules spec stored)

theorem tokenize_sound (rules : TextRules) (text : String) : Tokenized rules text where
  tokens := tokenize_eq rules text
  count := by
    rw [tokenize_eq]
    exact List.length_take_le _ _
  bounds _ h := token_bounds h
  whole tok h := by
    obtain ⟨run, hrun, -, rfl⟩ := exists_run h
    refine ⟨run, hrun, ?_, fun hshort => ?_⟩
    · rw [String.toList_ofList]
      exact clip_initial run
    · rw [String.toList_ofList, clip, if_neg (by omega)]
  stable _ h hstable := ⟨tokenize_token h hstable, splitQueryTerms_token h hstable⟩
  found tok h hstable spec stored field hfield htext := by
    have hterm : tok ∈ docTokens rules spec stored := by
      rw [docTokens, SortedSet.mem_elems, SortedSet.mem_ofList, List.mem_flatMap]
      exact ⟨field, hfield, htext ▸ h⟩
    rw [splitQueryTerms_token h hstable]
    exact ⟨tok, rfl, fun term hnil => absurd hnil List.not_mem_nil, tok, hterm,
      isPrefixMatch_self tok⟩

/-- Alpha with varia, and the iota below a vowel: both are letters. The compatibility form keeps a
capital and the iota apart and composes a small letter with it. -/
def greek : TextRules where
  normalize s :=
    if s = "\u1fba\u0345" then "\u1f70\u0345" else if s = "\u1f70\u0345" then "\u1fb2" else s
  isAlphanumeric c := c.isAlphanum || c.toNat = 0x1f70 || c.toNat = 0x345 || c.toNat = 0x1fb2

/-- A word that occurs twice is emitted twice, and a token may not be its own token. -/
theorem emits_twice_and_composes :
    tokenize greek "ab ab" = ["ab", "ab"] ∧
      tokenize greek "\u1fba\u0345" = ["\u1f70\u0345"] ∧
      tokenize greek "\u1f70\u0345" = ["\u1fb2"] ∧
      splitQueryTerms greek "\u1f70\u0345" = ([], some "\u1fb2") := by
  decide +kernel

end StoreTokens
